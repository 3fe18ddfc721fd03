import GridGeometry.Contour.Basic

/-!
# Points inside a contour

A point is inside when a ray running from it in the direction of growing `x` crosses the closed
cycle of edges an odd number of times. Points on the cycle itself count as inside, and a contour of
fewer than three vertices has no inside.

Each edge is examined on its own: it either passes through the point, or crosses the ray, or misses
it. An edge crosses the ray when exactly one of its ends lies strictly below the ray's height, so
that a vertex on the ray is counted by exactly those edges that leave it downward.
-/

namespace GridGeometry

/-- What an edge does to the ray that runs from a point in the direction of growing `x`. -/
inductive RayHit where
  /-- The edge passes through the point itself. -/
  | through
  /-- The edge crosses the ray. -/
  | crossing
  /-- The edge does not meet the ray in a way that counts. -/
  | miss
deriving DecidableEq, Repr

/-- What the edge `e` does to the ray from `p`. A horizontal edge through `p` that ends to the right
of `p` counts as passing through only if it starts strictly to the left; where it starts at `p`, the
edge before it ends there and is the one that reports it. -/
def rayHit (p : Point) (e : Segment) : RayHit :=
  if e.stop.y = p.y ∧
      (e.stop.x = p.x ∨ e.start.y = p.y ∧ (p.x < e.stop.x ↔ e.start.x < p.x)) then .through
  else if e.start.y < p.y ↔ e.stop.y < p.y then .miss
  else if p.x ≤ e.start.x ∧ p.x < e.stop.x then .crossing
  else if p.x ≤ e.start.x ∨ p.x < e.stop.x then
    let side := Point.cross p e.start e.stop
    if side = 0 then .through
    else if 0 < side ↔ e.start.y < e.stop.y then .crossing
    else .miss
  else .miss

/-- Whether the edges, taken together, put `p` inside: one passes through it, or the number of
crossings of its ray is odd. -/
def ParityInside (p : Point) (edges : List Segment) : Prop :=
  (∃ e ∈ edges, rayHit p e = .through) ∨
    edges.countP (fun e ↦ rayHit p e = .crossing) % 2 = 1

instance (p : Point) (edges : List Segment) : Decidable (ParityInside p edges) :=
  inferInstanceAs (Decidable ((∃ e ∈ edges, rayHit p e = .through) ∨
    edges.countP (fun e ↦ rayHit p e = .crossing) % 2 = 1))

/-- Whether the closed cycle through the vertices of `c` has `p` inside it or on it. The box of the
contour is asked first. -/
def Contour.contains (c : Contour) (p : Point) : Bool :=
  match c.box? with
  | some b => decide (p ∈ b ∧ 3 ≤ c.size ∧ ParityInside p (cycle c.points))
  | none => false

end GridGeometry
