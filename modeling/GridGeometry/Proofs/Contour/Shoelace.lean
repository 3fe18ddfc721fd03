import GridGeometry.Proofs.Contour.Translation

/-!
# The shoelace formula

The area of a contour is summed over the triangles that its first vertex spans with the other edges.
It equals the shoelace sum over all edges of the closed cycle (`Contour.shoelace`), in which no
vertex is the first: where the cycle starts does not matter, running it backward turns the sign of
every summand, and an edge of length zero adds nothing. Triangles do not change when the contour is
moved, and so the sum does not, though its summands do.
-/

namespace GridGeometry

/-- What an edge sweeps is the determinant of its ends. -/
theorem Segment.sweep_eq (e : Segment) :
    e.sweep = e.start.x * e.stop.y - e.stop.x * e.start.y := by
  unfold sweep Point.cross Point.origin
  ring

namespace Contour

/-- The shoelace sum around the cycle through the vertices: each vertex `p` and its successor `q`
contribute `p.x * q.y - q.x * p.y`. -/
def shoelace (l : List Point) : Int :=
  (List.zipWith (fun p q ↦ p.x * q.y - q.x * p.y) l (l.rotate 1)).sum

theorem shoelace_eq_sweep (l : List Point) : shoelace l = sweep (cycle l) := by
  rw [shoelace, sweep, cycle_eq_zipWith_rotate, List.map_zipWith]
  simp only [Segment.sweep_eq]

theorem doubledArea_eq_shoelace (c : Contour) : c.doubledArea = shoelace c.points :=
  (doubledArea_eq c).trans (shoelace_eq_sweep c.points).symm

theorem shoelace_rotate (l : List Point) (k : Nat) : shoelace (l.rotate k) = shoelace l := by
  rw [shoelace_eq_sweep, shoelace_eq_sweep, sweep_eq_of_perm (cycle_rotate_perm k l)]

/-- A vertex drawn twice adds an edge of length zero. -/
theorem shoelace_repeat (l m : List Point) (p : Point) :
    shoelace (l ++ p :: p :: m) = shoelace (l ++ p :: m) := by
  rw [shoelace_eq_sweep, shoelace_eq_sweep, cycle_append_cons, cycle_append_cons,
    pathTo_cons (l := p :: m), List.headD_cons, sweep_append, sweep_append, sweep_cons,
    Segment.sweep_self, zero_add]

/-- **The area of a contour is its shoelace sum**, and there is none without three vertices. It
changes its sign when the contour is run backward, and stays the same when the contour is started at
another vertex, is moved on the grid, or has a vertex drawn twice. -/
theorem doubledArea_shoelace (c : Contour) :
    c.doubledArea = shoelace c.points ∧
      (c.size < 3 → c.doubledArea = 0) ∧
      c.reverse.doubledArea = -c.doubledArea ∧
      (∀ k, (c.startAt k).doubledArea = c.doubledArea) ∧
      (∀ d, (c.translate d).OnGrid →
        c.shift d = .ok (c.translate d) ∧ (c.translate d).doubledArea = c.doubledArea) ∧
      ∀ l p m, c.points = l ++ p :: m →
        (⟨l ++ p :: p :: m, c.closed⟩ : Contour).doubledArea = c.doubledArea := by
  refine ⟨doubledArea_eq_shoelace c, fun hsize ↦ ?_, doubledArea_reverse c, fun k ↦ ?_,
    fun d hgrid ↦ ⟨shift_eq_ok_iff.2 ⟨rfl, hgrid⟩, doubledArea_translate c d⟩, fun l p m hl ↦ ?_⟩
  · by_contra hne
    exact Nat.not_le_of_lt hsize (three_le_of_doubledArea hne)
  · rw [doubledArea_eq_shoelace, doubledArea_eq_shoelace]
    exact shoelace_rotate c.points k
  · rw [doubledArea_eq_shoelace, doubledArea_eq_shoelace, hl]
    exact shoelace_repeat l m p

example : (closedOf [⟨0, 0⟩, ⟨9, 0⟩, ⟨9, 9⟩, ⟨0, 9⟩]).doubledArea = 162 ∧
    (closedOf [⟨0, 0⟩, ⟨9, 0⟩, ⟨9, 9⟩, ⟨0, 9⟩]).reverse.doubledArea = -162 := by decide

end Contour

end GridGeometry
