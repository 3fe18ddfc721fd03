import GridGeometry.Contour.Basic

/-!
# Edge rings

While holes are being joined to their outline, all edges are kept in one table. Every edge names the
place of its successor, so that the edges form rings: at first one for the outline and one for each
hole, and later a single one for everything that has been joined.

## Main definitions

* `RingEdge`, `RingTable`: an edge with its successor, and the table.
* `RingEdge.meetingX`: where an edge meets a height, rounded to the grid.
* `RingTable.ofContours`: the table before anything is joined.
* `RingTable.ring`: the places of the edges of one ring.
* `RingTable.nextHole?`: the hole edge that is joined next.
-/

namespace GridGeometry

/-- Whether an edge has been joined to the outline. -/
inductive RingState where
  /-- The edge belongs to a hole that has not been looked at. -/
  | waiting
  /-- The edge belongs to the outline, to a slit, or to a hole that has been joined. -/
  | joined
  /-- The edge belongs to a hole that no slit reaches. -/
  | dropped
deriving DecidableEq, Repr, Inhabited

/-- An edge of a ring. -/
structure RingEdge where
  start : Point
  stop : Point
  state : RingState
  /-- The place of the edge that follows in the ring. -/
  next : Nat
deriving DecidableEq, Repr, Inhabited

/-- The product `a * b` divided by `c`, rounded to an integer, a half away from zero. -/
def roundedProportion (a b c : Int) : Int :=
  let half := (c.natAbs / 2 : Nat) * c.sign
  if a * b < 0 ↔ c < 0 then (a * b + half).tdiv c else (a * b - half).tdiv c

namespace RingEdge

/-- The edge reaches the height `y`. -/
def Reaches (e : RingEdge) (y : Int) : Prop :=
  min e.start.y e.stop.y ≤ y ∧ y ≤ max e.start.y e.stop.y

instance (e : RingEdge) (y : Int) : Decidable (e.Reaches y) :=
  inferInstanceAs (Decidable (min e.start.y e.stop.y ≤ y ∧ y ≤ max e.start.y e.stop.y))

/-- The `x` coordinate at which the edge meets the height `y`: that of its right end when the edge
is horizontal, and otherwise that of its start moved by the rounded displacement. -/
def meetingX (e : RingEdge) (y : Int) : Int :=
  if e.start.y = e.stop.y then max e.start.x e.stop.x
  else
    e.start.x +
      roundedProportion (e.stop.x - e.start.x) (y - e.start.y) (e.stop.y - e.start.y)

end RingEdge

/-- All edges of a polygon while its holes are being joined. -/
structure RingTable where
  edges : Array RingEdge
  /-- The places of the hole edges that start at the least `x` of their hole. -/
  entries : List Nat
  /-- The number of edges of holes that have not been looked at. -/
  waiting : Nat
deriving Repr, Inhabited

namespace RingTable

/-! ### Building -/

/-- The table without edges. -/
def empty : RingTable := ⟨#[], [], 0⟩

/-- The edges of a closed ring through the vertices, the first of which gets the place `base`. -/
def ringEdges (state : RingState) (base : Nat) (points : List Point) : List RingEdge :=
  (Contour.cycle points).zipIdx.map fun (e, i) ↦
    ⟨e.start, e.stop, state, base + (i + 1) % points.length⟩

/-- The places, counted from `base`, of the vertices with the least `x`. -/
def leftmostPlaces (base : Nat) (points : List Point) : List Nat :=
  match (points.map Point.x).min? with
  | some least => (points.zipIdx base).filterMap fun (p, i) ↦ if p.x = least then some i else none
  | none => []

/-- The table with the ring of an outline. -/
def addOutline (t : RingTable) (c : Contour) : RingTable :=
  { t with edges := t.edges ++ ringEdges .joined t.edges.size c.points }

/-- The table with the ring of a hole. -/
def addHole (t : RingTable) (c : Contour) : RingTable where
  edges := t.edges ++ ringEdges .waiting t.edges.size c.points
  entries := t.entries ++ leftmostPlaces t.edges.size c.points
  waiting := t.waiting + c.size

/-- The table of an outline and its holes before any of them is joined. -/
def ofContours (outline : Contour) (holes : List Contour) : RingTable :=
  holes.foldl addHole (empty.addOutline outline)

/-! ### Rings -/

/-- The places after `e` on the ring that comes back to `start`, at most `bound` of them. -/
def ringFrom (t : RingTable) (start : Nat) : Nat → Nat → List Nat
  | 0, _ => []
  | bound + 1, e =>
    match t.edges[e]? with
    | some edge => if edge.next = start then [] else edge.next :: ringFrom t start bound edge.next
    | none => []

/-- The places of the edges on the ring through `start`, in order from there. A ring has no more
edges than the table, which bounds the walk. -/
def ring (t : RingTable) (start : Nat) : List Nat :=
  start :: t.ringFrom start t.edges.size start

/-- The points at which the edges of a ring start. -/
def ringPoints (t : RingTable) (start : Nat) : List Point :=
  (t.ring start).filterMap fun i ↦ t.edges[i]?.map RingEdge.start

/-- The table with all edges at the given places put into one state. -/
def setStates (t : RingTable) (state : RingState) (places : List Nat) : RingTable :=
  { t with edges := places.foldl (fun edges i ↦ edges.modify i ({ · with state })) t.edges }

/-! ### Choosing the next hole -/

/-- The starting point of the edge at a place, if there is a waiting edge. -/
def waitingStart? (t : RingTable) (i : Nat) : Option Point :=
  match t.edges[i]? with
  | some e => if e.state = .waiting then some e.start else none
  | none => none

/-- The place and the starting point of the waiting hole edge that starts furthest to the left, the
first of these. -/
def nextHole? (t : RingTable) : Option (Nat × Point) :=
  (t.entries.filterMap fun i ↦ (t.waitingStart? i).map (i, ·)).minOn? fun (_, p) ↦ p.x

end RingTable

end GridGeometry
