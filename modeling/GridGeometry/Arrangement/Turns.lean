import GridGeometry.Contour.Basic

/-!
# The turns of a closed path

A vertex of a closed path at which the path runs straight on, or straight back, is no turn. Removing
it changes the neighbours of two other vertices, which may be no turns any more, so that the removal
goes on until every vertex that is left has been found to be a turn. Where the path starts is kept
as far as possible.

## Main definitions

* `Arrangement.PathVertex`: a vertex together with what is known about it.
* `Arrangement.keepTurns`: the removal.
* `Arrangement.turns`: the path with its turns only.
-/

namespace GridGeometry.Arrangement

/-- A vertex of a closed path during the removal of straight runs. -/
structure PathVertex where
  point : Point
  /-- Whether the vertex is known to be a turn between its present neighbours. -/
  checked : Bool
  /-- Whether the path starts here. -/
  first : Bool
deriving Repr, Inhabited

/-- The vertex, to be looked at again. -/
def PathVertex.doubt (c : PathVertex) : PathVertex := { c with checked := false }

/-- What is left of a cycle when its vertex `v`, which stood before all others, is removed. Both
neighbours are looked at again, the previous one first. -/
def removeFrom (v : PathVertex) (others : List PathVertex) : List PathVertex :=
  match others with
  | next :: rest =>
    let next := { next.doubt with first := next.first || v.first }
    match (next :: rest).getLast? with
    | some previous => previous.doubt :: (next :: rest).dropLast
    | none => []
  | [] => []

/-- Removing a vertex leaves as many vertices as there were others. -/
theorem length_removeFrom (v : PathVertex) (others : List PathVertex) :
    (removeFrom v others).length = others.length := by
  cases others with
  | nil => rfl
  | cons next rest =>
    simp only [removeFrom]
    split
    · simp
    · rename_i h
      simp at h

/-- The vertices of a cycle from the first unchecked one on, which stands before the others, or
`none` if all are checked. -/
def nextDoubt? (cycle : List PathVertex) : Option (PathVertex × List PathVertex) :=
  match cycle.dropWhile PathVertex.checked with
  | [] => none
  | v :: rest => some (v, rest ++ cycle.takeWhile PathVertex.checked)

/-- The vertex to look at is unchecked, and it and the others are the vertices of the cycle. -/
theorem perm_of_nextDoubt? {cycle others : List PathVertex} {v : PathVertex}
    (h : nextDoubt? cycle = some (v, others)) :
    v.checked = false ∧ cycle.Perm (v :: others) := by
  unfold nextDoubt? at h
  split at h
  · simp at h
  · rename_i w rest hdrop
    simp only [Option.some.injEq, Prod.mk.injEq] at h
    obtain ⟨rfl, rfl⟩ := h
    constructor
    · have := List.head?_dropWhile_not PathVertex.checked cycle
      simpa [hdrop] using this
    · have hcycle := List.takeWhile_append_dropWhile (p := PathVertex.checked) (l := cycle)
      rw [hdrop] at hcycle
      have hswap : (cycle.takeWhile PathVertex.checked ++ w :: rest).Perm
          (w :: rest ++ cycle.takeWhile PathVertex.checked) := List.perm_append_comm
      rw [hcycle] at hswap
      simpa using hswap

/-- The cycle without vertices on straight runs. It is looked at from its first vertex on, again and
again, until every vertex is known to be a turn; fewer than three vertices leave nothing. -/
def keepTurns (cycle : List PathVertex) : List PathVertex :=
  match _h : nextDoubt? cycle with
  | none => cycle
  | some (v, others) =>
    let next := others.head?.getD v
    let previous := others.getLast?.getD v
    if Point.cross previous.point v.point next.point = 0 then
      if others.length < 3 then [] else keepTurns (removeFrom v others)
    else keepTurns (others ++ [{ v with checked := true }])
termination_by (cycle.length, cycle.countP fun c ↦ !c.checked)
decreasing_by
  all_goals
    obtain ⟨hv, hperm⟩ := perm_of_nextDoubt? _h
    have hlength := hperm.length_eq
    have hcount := hperm.countP_eq fun c ↦ !c.checked
    simp only [List.length_cons, List.countP_cons, hv] at hlength hcount
  · exact .left _ _ (by rw [length_removeFrom]; omega)
  · have : (others ++ [{ v with checked := true }]).length = cycle.length := by simp [hlength]
    rw [this]
    exact .right _ (by simp [hcount])

/-- The closed path without vertices on straight runs, starting where the given one starts if that
vertex stays. -/
def turns (points : List Point) : List Point :=
  let cycle := keepTurns (points.zipIdx.map fun (p, i) ↦ ⟨p, false, i == 0⟩)
  let before := cycle.takeWhile fun c ↦ !c.first
  let behind := cycle.dropWhile fun c ↦ !c.first
  (behind ++ before).map PathVertex.point

end GridGeometry.Arrangement
