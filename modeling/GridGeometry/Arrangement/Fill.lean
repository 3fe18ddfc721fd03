import GridGeometry.Arrangement.Edge

/-!
# Filling

After splitting, each edge has one region of the plane just below it and one just above it. This
file computes how often the operands wind around both, and keeps the edges that separate the inside
of the result from its outside. For a vertical edge, what lies to its right counts as below it.

The edges are swept from left to right. At a point where edges start, the region below the lowest of
them is the one above the nearest edge under the point.

## Main definitions

* `Arrangement.FillRule`, `Arrangement.Choice`: what is inside an operand, and what is inside the
  result.
* `Arrangement.windings`: each edge with the winding below it.
* `Arrangement.Link`, `Arrangement.links`: the boundary edges of the result.
-/

namespace GridGeometry.Arrangement

/-- Which winding numbers count as inside an operand. -/
inductive FillRule where
  /-- All but zero. -/
  | nonzero
  /-- Those of clockwise contours. -/
  | clockwise
deriving DecidableEq, Repr

/-- Whether a winding number counts as inside. -/
def FillRule.holds : FillRule → Int → Bool
  | nonzero, n => n != 0
  | clockwise, n => decide (n < 0)

/-- Which points are inside the result. -/
inductive Choice where
  | union
  | intersection
  | difference
  /-- Those inside the subject. -/
  | subject
deriving DecidableEq, Repr

/-- Whether a point is inside the result, given whether it is inside the subject and the clip. -/
def Choice.holds : Choice → Bool → Bool → Bool
  | union, s, c => s || c
  | intersection, s, c => s && c
  | difference, s, c => s && !c
  | subject, s, _ => s

/-! ### Which edge is under a point -/

/-- The height of a non-vertical edge at the coordinate `x`, as a numerator and a positive
denominator. -/
def Edge.heightAt (e : Edge) (x : Int) : Int × Int :=
  let dx := e.high.x - e.low.x
  (e.low.y * dx + (e.high.y - e.low.y) * (x - e.low.x), dx)

/-- Whether, just to the right of the coordinate `x`, the edge `e` runs below the edge `f`. -/
def Edge.runsBelow (e f : Edge) (x : Int) : Bool :=
  let (n, d) := e.heightAt x
  let (m, c) := f.heightAt x
  let slopes := (e.high.y - e.low.y) * (f.high.x - f.low.x) <
    (f.high.y - f.low.y) * (e.high.x - e.low.x)
  decide (n * c < m * d ∨ n * c = m * d ∧ slopes)

/-- Whether the edge is not vertical and has the coordinate `x` between its ends, the right one
excluded. -/
def Edge.covers (e : Edge) (x : Int) : Bool := decide (e.low.x ≤ x ∧ x < e.high.x)

/-- The highest of several things, given which of two is below the other. -/
def topmost? {α : Type} (below : α → α → Bool) : List α → Option α
  | [] => none
  | a :: rest =>
    match topmost? below rest with
    | some b => if below a b then some b else some a
    | none => some a

/-! ### Windings -/

/-- An edge with the winding numbers of the region just below it. -/
structure Wound where
  edge : Edge
  below : Weight
deriving Repr, Inhabited

/-- The winding numbers of the region just above the edge. -/
def Wound.above (w : Wound) : Weight := w.below + w.edge.weight

/-- The nothing that winds around the region outside all edges. -/
def noWinding : Weight := ⟨0, 0, false⟩

/-- The edges that start at one point, in counter-clockwise order from the lowest, each with the
region below it; the region below the lowest is given. -/
def stack (below : Weight) : List Edge → List Wound
  | [] => []
  | e :: rest => ⟨e, below⟩ :: stack (below + e.weight) rest

/-- The windings for groups of edges that start at the same point. The edges met so far that may
still lie under a later point are `active`. -/
def sweep (active : List Wound) : List (List Edge) → List Wound
  | [] => []
  | group :: later =>
    match group with
    | [] => sweep active later
    | e :: _ =>
      let p := e.low
      let active := active.filter fun w ↦ w.edge.covers p.x
      let under := active.filter fun w ↦ decide (0 < Point.cross w.edge.low w.edge.high p)
      let below := match topmost? (fun v w ↦ v.edge.runsBelow w.edge p.x) under with
        | some w => w.above
        | none => noWinding
      let rising := group.mergeSort fun e f ↦ decide (0 ≤ Point.cross p e.high f.high)
      let wound := stack below rising
      wound.mergeSort (fun v w ↦ v.edge.precedes w.edge) ++
        sweep (wound.filter (fun w ↦ !w.edge.isVertical) ++ active) later

/-- Each edge of a sorted list with the winding below it, in the same order. -/
def windings (edges : List Edge) : List Wound :=
  sweep [] (edges.splitBy fun e f ↦ e.low == f.low)

/-! ### Links -/

/-- An edge between the inside and the outside of the result. -/
structure Link where
  low : Point
  high : Point
  /-- Whether the inside is above the edge. -/
  insideAbove : Bool
  /-- Whether the edge can carry the boundary of a result. -/
  bold : Bool
deriving DecidableEq, Repr, Inhabited

/-- Whether a region with the given winding numbers is inside the result. -/
def inside (rule : FillRule) (choice : Choice) (w : Weight) : Bool :=
  choice.holds (rule.holds w.subject) (rule.holds w.clip)

/-- The edges between the inside and the outside of the result, in order. -/
def links (rule : FillRule) (choice : Choice) (edges : List Edge) : List Link :=
  (windings edges).filterMap fun w ↦
    let below := inside rule choice w.below
    let above := inside rule choice w.above
    if below == above then none else some ⟨w.edge.low, w.edge.high, above, w.edge.weight.bold⟩

end GridGeometry.Arrangement
