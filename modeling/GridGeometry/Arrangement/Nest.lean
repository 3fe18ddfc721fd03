import GridGeometry.Arrangement.Trace

/-!
# Giving holes to outlines

A hole belongs to the outline right under its least vertex, below the lower of the two edges with
which its path first passes through that vertex. If the edge met there belongs to a hole, the two
have the same owner. Holes are settled in the order of their least vertices, and one that lies above
a hole not settled yet goes to the first outline. This happens to a hole that passes through its
least vertex more than once and so lies above itself.

Only edges with the inside above them can be right under a hole. Such an edge may start on another
one, at a vertex of the other that was no turn. It then runs on below the other; but in a crowded
result, one with many outlines, it is taken to be above it.

## Main definitions

* `Arrangement.Floor`, `Arrangement.floors`: the edges that can be right under a hole.
* `Arrangement.contourUnder?`: the contour right under a hole.
* `Arrangement.owners`: the outline of each hole.
* `Arrangement.nest`: the shapes of a result.
-/

namespace GridGeometry.Arrangement

/-! ### Floors -/

/-- An edge with the inside above it, and the place of its contour among all of them. -/
structure Floor where
  edge : Edge
  contour : Nat
deriving Repr, Inhabited

/-- The edges of a contour that have the inside above them. A contour keeps the inside to its right,
so they are the ones that it takes to the left. -/
def floors (contour : Nat) (points : List Point) : List Floor :=
  (Contour.cycle points).filterMap fun s ↦
    if s.stop.x < s.start.x then some ⟨⟨s.stop, s.start, noWinding⟩, contour⟩ else none

/-- Whether `e` is below `f`, where both have some coordinate `x` in common. An edge that starts on
another one is above it if the result is crowded, and below it otherwise. -/
def Edge.isBelow (crowded : Bool) (e f : Edge) : Bool :=
  match compare e.low f.low with
  | .lt =>
    let side := Point.cross e.low e.high f.low
    decide (0 < side) || side == 0 && crowded
  | .eq => decide (0 < Point.cross e.low e.high f.high)
  | .gt =>
    let side := Point.cross f.low f.high e.low
    decide (side < 0) || side == 0 && !crowded

/-! ### Anchors -/

/-- The vertex of a path that comes first in the order of points. -/
def leastVertex? : List Point → Option Point
  | [] => none
  | p :: l => some (l.foldl (fun least q ↦ if q.Before least then q else least) p)

/-- The lower of the two edges with which a closed path first passes through its least vertex. -/
def anchor? (points : List Point) : Option Edge := do
  let v ← leastVertex? points
  let others := (points.dropWhile (· != v)).drop 1 ++ points.takeWhile (· != v)
  let before ← others.getLast?
  let after ← others.head?
  return ⟨v, if 0 < Point.cross v before after then before else after, noWinding⟩

/-- Whether a floor passes right under the start of an anchor, or starts there and runs below it. -/
def Floor.isUnder (anchor : Edge) (f : Floor) : Bool :=
  let v := anchor.low
  f.edge.covers v.x &&
    (decide (0 < Point.cross f.edge.low f.edge.high v) ||
      f.edge.low == v && decide (0 < Point.cross v f.edge.high anchor.high))

/-- The contour right under an anchor. -/
def contourUnder? (crowded : Bool) (all : List Floor) (anchor : Edge) : Option Nat :=
  (topmost? (fun f g ↦ f.edge.isBelow crowded g.edge) (all.filter (Floor.isUnder anchor))).map
    Floor.contour

/-! ### Owners -/

/-- A hole that is to be given to an outline, with its place among all contours. -/
structure LooseHole where
  contour : Nat
  anchor : Edge
deriving Repr, Inhabited

/-- Whether one hole is settled no later than another: by their least vertices, and at the same one
the lower hole first. -/
def LooseHole.settlesBy (h k : LooseHole) : Bool :=
  match compare h.anchor.low k.anchor.low with
  | .lt => true
  | .eq => decide (0 ≤ Point.cross h.anchor.low h.anchor.high k.anchor.high)
  | .gt => false

/-- Each hole with the outline that owns it, given what lies under an anchor. Outlines come before
holes, and the hole settled last stands first. -/
def owners (outlines : Nat) (under? : Edge → Option Nat) (loose : List LooseHole) :
    List (Nat × Nat) :=
  (loose.mergeSort LooseHole.settlesBy).foldl
    (fun settled h ↦
      let owner := match under? h.anchor with
        | some c => if c < outlines then c else (settled.lookup c).getD 0
        | none => 0
      (h.contour, owner) :: settled)
    []

/-- The least number of outlines of a crowded result. -/
def crowd : Nat := 32

/-- The shapes of a result: each outline with its holes in the order in which they were found. A
single outline gets all holes. -/
def nest (found : Contours) : List (List (List Point)) :=
  match found.outlines with
  | [] => []
  | [outline] => [outline :: found.holes]
  | outlines =>
    let n := outlines.length
    let all := (outlines ++ found.holes).zipIdx.flatMap fun (points, i) ↦ floors i points
    let holes := found.holes.zipIdx n
    let loose := holes.filterMap fun (points, i) ↦ (anchor? points).map (⟨i, ·⟩)
    let settled := owners n (contourUnder? (decide (crowd ≤ n)) all) loose
    outlines.zipIdx.map fun (outline, i) ↦
      outline :: holes.filterMap fun (points, k) ↦
        if settled.lookup k == some i then some points else none

end GridGeometry.Arrangement
