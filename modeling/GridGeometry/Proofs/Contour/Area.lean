import GridGeometry.Proofs.Contour.Cycle
import Mathlib.Algebra.BigOperators.Group.List.Basic
import Mathlib.Tactic.Ring

/-!
# Area edge by edge

The enclosed area is summed over triangles that the first vertex spans with the other edges. The
first vertex can be replaced by the origin: what the triangles of neighbouring edges add or miss
cancels around the cycle (`Contour.doubledArea_eq`). Each edge then has a share in the area that
depends on the edge alone, so the area depends only on which edges the cycle has.
-/

namespace GridGeometry

/-- Twice the signed area that the segment sweeps as seen from the origin. -/
def Segment.sweep (e : Segment) : Int := Point.cross .origin e.start e.stop

/-- A segment run backward sweeps the same area with the opposite sign. -/
theorem Segment.sweep_reversed (e : Segment) : e.reversed.sweep = -e.sweep := by
  unfold sweep reversed Point.cross
  ring

theorem Segment.sweep_self (a : Point) : sweep ⟨a, a⟩ = 0 := by
  unfold sweep Point.cross
  ring

/-- A triangle is swept by its sides. -/
theorem Point.cross_eq_sweep (o a b : Point) :
    cross o a b = Segment.sweep ⟨o, a⟩ + Segment.sweep ⟨a, b⟩ + Segment.sweep ⟨b, o⟩ := by
  unfold Segment.sweep cross origin
  ring

namespace Contour

/-- The area that a list of edges sweeps. -/
def sweep (edges : List Segment) : Int := (edges.map Segment.sweep).sum

@[simp] theorem sweep_cons (e : Segment) (edges : List Segment) :
    sweep (e :: edges) = e.sweep + sweep edges := by
  rw [sweep, List.map_cons, List.sum_cons, sweep]

theorem sweep_append (edges edges' : List Segment) :
    sweep (edges ++ edges') = sweep edges + sweep edges' := by
  rw [sweep, List.map_append, List.sum_append, sweep, sweep]

theorem sweep_flatMap {α : Type} (parts : List α) (g : α → List Segment) :
    sweep (parts.flatMap g) = (parts.map fun a ↦ sweep (g a)).sum := by
  rw [sweep, List.map_flatMap, List.flatMap_def, List.sum_flatten, List.map_map]
  rfl

/-- What edges sweep does not depend on their order. -/
theorem sweep_eq_of_perm {edges edges' : List Segment} (h : edges.Perm edges') :
    sweep edges = sweep edges' :=
  (h.map _).sum_eq

/-- The triangles of a fan: each side at the first vertex is swept once in either direction. -/
theorem fanFrom_eq (o : Point) (l : List Point) : fanFrom o l = sweep (pathTo (o :: l) o) := by
  have hback : ∀ a, Segment.sweep ⟨a, o⟩ = -Segment.sweep ⟨o, a⟩ := fun a ↦
    Segment.sweep_reversed ⟨o, a⟩
  fun_induction fanFrom o l with
  | case1 a b l ih =>
    simp only [pathTo, List.headD_cons, sweep_cons] at ih ⊢
    rw [ih, Point.cross_eq_sweep, hback b]
    ring
  | case2 l hl =>
    rcases l with - | ⟨a, - | ⟨b, l⟩⟩
    · simp [pathTo, sweep, Segment.sweep_self]
    · simp [pathTo, sweep, hback a]
    · exact absurd rfl (hl a b l)

/-- **The area of a contour is swept by its edges.** -/
theorem doubledArea_eq (c : Contour) : c.doubledArea = sweep (cycle c.points) := by
  rw [doubledArea]
  cases c.points with
  | nil => rfl
  | cons o l => rw [fanArea, fanFrom_eq, cycle_cons]

theorem sweep_map_reversed (edges : List Segment) :
    sweep (edges.map Segment.reversed) = -sweep edges := by
  induction edges with
  | nil => rfl
  | cons e edges ih =>
    rw [List.map_cons, sweep_cons, sweep_cons, ih, Segment.sweep_reversed, Int.neg_add]

/-- A contour run backward encloses its area with the opposite sign. -/
theorem doubledArea_reverse (c : Contour) : c.reverse.doubledArea = -c.doubledArea := by
  rw [doubledArea_eq, doubledArea_eq, ← sweep_map_reversed]
  exact sweep_eq_of_perm cycle_reverse_perm

/-- A contour that encloses an area has three vertices. -/
theorem three_le_of_doubledArea {c : Contour} (h : c.doubledArea ≠ 0) : 3 ≤ c.size := by
  rw [doubledArea] at h
  rw [size]
  rcases hp : c.points with - | ⟨a, - | ⟨b, - | ⟨d, l⟩⟩⟩
  · simp [hp, fanArea] at h
  · simp [hp, fanArea, fanFrom] at h
  · simp [hp, fanArea, fanFrom] at h
  · exact Nat.le_add_left 3 _

end Contour

end GridGeometry
