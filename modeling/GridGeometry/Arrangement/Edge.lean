import GridGeometry.Contour.Basic

/-!
# Weighted edges

The edges of two operands, laid over each other, form an arrangement of the plane. They run from a
lower to a higher point in the order of points, and the weight of an edge says by how much the
winding numbers of both operands grow when the edge is crossed upward.

## Main definitions

* `Arrangement.Weight`, `Arrangement.Edge`: the types.
* `Arrangement.Edge.ofEnds`: the edge between two points in either order.
* `Arrangement.pathSteps`: the steps of a closed path with the vertices on straight runs left out.
* `Arrangement.normalize`: edges sorted, coincident ones merged and those without weight dropped.
-/

namespace GridGeometry.Arrangement

/-- How often an edge is used by the two operands, counted positive along its direction. -/
structure Weight where
  subject : Int
  clip : Int
  /-- Whether the edge can carry the boundary of a result. -/
  bold : Bool
deriving DecidableEq, Repr, Inhabited

namespace Weight

instance : Add Weight where
  add v w := ⟨v.subject + w.subject, v.clip + w.clip, v.bold || w.bold⟩

instance : Neg Weight where
  neg w := ⟨-w.subject, -w.clip, w.bold⟩

/-- Whether the edge is used equally often in both directions by each operand. -/
def isZero (w : Weight) : Bool := w.subject == 0 && w.clip == 0

/-- One use by the subject. -/
def ofSubject : Weight := ⟨1, 0, true⟩

/-- One use by the clip. -/
def ofClip : Weight := ⟨0, 1, true⟩

end Weight

/-- An edge from a lower to a higher point. -/
structure Edge where
  low : Point
  high : Point
  weight : Weight
deriving DecidableEq, Repr, Inhabited

namespace Edge

/-- The edge for a step from `p` to `q`. A step to a lower point counts against the edge's
direction. -/
def ofEnds (p q : Point) (w : Weight) : Edge := if p.Before q then ⟨p, q, w⟩ else ⟨q, p, -w⟩

/-- Whether `p` lies on the straight line through the edge. -/
def onLine (e : Edge) (p : Point) : Bool := Point.cross e.low e.high p == 0

/-- Whether both ends have the same `x`. -/
def isVertical (e : Edge) : Bool := e.low.x == e.high.x

/-- The order by lower end, then by higher end. -/
def precedes (e f : Edge) : Bool :=
  ((compare e.low f.low).then (compare e.high f.high)).isLE

/-- Whether two edges have the same ends. -/
def coincides (e f : Edge) : Bool := e.low == f.low && e.high == f.high

end Edge

/-! ### The steps of a path -/

/-- The first turn of a path that has gone from `o` to `a`: the two vertices of the step after it,
and the vertices that follow. -/
def firstTurn? (o a : Point) : List Point → Option (Point × Point × List Point)
  | [] => none
  | p :: rest => if Point.cross o a p = 0 then firstTurn? o p rest else some (a, p, rest)

/-- The finished steps of a path whose last step so far goes from `o` to `a`, and its last step of
all. A vertex on the line of the last step replaces the end of that step. -/
def stepsFrom (o a : Point) : List Point → List (Point × Point) × (Point × Point)
  | [] => ([], (o, a))
  | p :: rest =>
    if Point.cross o a p = 0 then stepsFrom o p rest
    else
      let (steps, last) := stepsFrom a p rest
      ((o, a) :: steps, last)

/-- A step, unless its ends coincide. -/
def properStep (p q : Point) : List (Point × Point) := if p = q then [] else [(p, q)]

/-- The steps that close a path. Its first vertex is `first` and its first turn is at `turn`; its
last step goes from `o` to `a`. Vertices on straight runs are left out here too. -/
def closingSteps (first turn o a : Point) : List (Point × Point) :=
  let straightAtEnd := Point.cross o a first == 0
  let straightAtStart := Point.cross first turn a == 0
  match straightAtEnd, straightAtStart with
  | false, false => [(o, a), (a, first), (first, turn)]
  | true, true => properStep o turn
  | true, false => properStep o first ++ [(first, turn)]
  | false, true => (o, a) :: properStep a turn

/-- The steps of the closed path through the vertices. A path without a turn has none. -/
def pathSteps : List Point → List (Point × Point)
  | first :: second :: rest =>
    match firstTurn? first second rest with
    | some (turn, p, rest) =>
      let (steps, (o, a)) := stepsFrom turn p rest
      steps ++ closingSteps first turn o a
    | none => []
  | _ => []

/-- The edges of closed paths, each used as the weight says. -/
def pathEdges (w : Weight) (paths : List (List Point)) : List Edge :=
  paths.flatMap fun path ↦ (pathSteps path).map fun (p, q) ↦ .ofEnds p q w

/-! ### Normal form -/

/-- Neighbours with the same ends merged into one edge with the sum of their weights. -/
def mergeEqual : List Edge → List Edge
  | [] => []
  | e :: rest =>
    match mergeEqual rest with
    | f :: merged =>
      if e.coincides f then { e with weight := e.weight + f.weight } :: merged
      else e :: f :: merged
    | [] => [e]

/-- Edges sorted, merged, and without those that have no weight. -/
def normalize (edges : List Edge) : List Edge :=
  (mergeEqual (edges.mergeSort Edge.precedes)).filter fun e ↦ !e.weight.isZero

end GridGeometry.Arrangement
