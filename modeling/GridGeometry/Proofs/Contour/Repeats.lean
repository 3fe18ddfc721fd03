import GridGeometry.Proofs.Contour.Area
import GridGeometry.Proofs.Contour.NullEdges
import GridGeometry.Proofs.Contour.Parity

/-!
# Repeated vertices

An edge of length zero crosses no ray, sweeps no area, and covers no point but its own vertex. So
what edges cross and sweep is told by those that have a length (`Contour.crossings_proper`,
`Contour.sweep_proper`), and what they cover by these and the vertices
(`Contour.exists_contains_iff`).

`Contour.ofPoints` leaves out every vertex that repeats its predecessor. It keeps the edges that
have a length, and so the contour covers the same points, has the same points inside, and encloses
the same area.
-/

namespace GridGeometry

namespace Segment

variable {e : Segment} {p : Point}

/-- An edge of length zero covers its start only. -/
theorem IsPoint.eq_of_contains (h : e.IsPoint) (hp : e.contains p = true) : p = e.start := by
  have hx : e.stop.x = e.start.x := congrArg Point.x h.symm
  have hy : e.stop.y = e.start.y := congrArg Point.y h.symm
  rw [contains_iff, BoxHolds, hx, hy] at hp
  cases p
  cases hs : e.start
  simp only [hs] at hp
  rw [Point.mk.injEq]
  omega

/-- An edge of length zero crosses no ray. -/
theorem IsPoint.not_crosses (h : e.IsPoint) : ¬ e.Crosses p := by
  intro hc
  have hs := hc.straddles
  rw [straddles_iff, h] at hs
  exact hs Iff.rfl

theorem IsPoint.sweep_eq_zero (h : e.IsPoint) : e.sweep = 0 := by
  obtain ⟨a, b⟩ := e
  obtain rfl : a = b := h
  exact sweep_self a

/-- A segment covers the point where it ends. -/
theorem contains_stop (e : Segment) : e.contains e.stop = true := by
  rw [contains_iff, side_eq, BoxHolds]
  refine ⟨by ring, ?_⟩
  omega

end Segment

namespace Contour

variable {l : List Point} {p : Point}

/-! ### What edges of length zero contribute -/

/-- What crosses a ray has a length. -/
theorem crossings_proper (p : Point) (edges : List Segment) :
    crossings p (proper edges) = crossings p edges := by
  rw [crossings, crossings, proper, List.countP_filter]
  refine List.countP_congr fun e _ ↦ ?_
  rw [Bool.and_eq_true, decide_eq_true_eq, decide_eq_true_eq, and_iff_left_of_imp]
  exact fun hc hpoint ↦ hpoint.not_crosses hc

/-- What sweeps an area has a length. -/
theorem sweep_proper (edges : List Segment) : sweep (proper edges) = sweep edges := by
  induction edges with
  | nil => rfl
  | cons e edges ih =>
    rw [sweep_cons, ← ih, proper]
    by_cases h : e.IsPoint
    · rw [List.filter_cons_of_neg (by simpa using h), h.sweep_eq_zero, zero_add, proper]
    · rw [List.filter_cons_of_pos (by simpa using h), sweep_cons, proper]

/-- **What edges cover** that lead along some vertices: the vertices, and the points of the edges
that have a length. -/
theorem exists_contains_iff {edges : List Segment} (hstart : ∀ e ∈ edges, e.start ∈ l)
    (hcovers : p ∈ l → ∃ e ∈ edges, e.contains p = true) :
    (∃ e ∈ edges, e.contains p = true) ↔
      p ∈ l ∨ ∃ e ∈ proper edges, e.contains p = true := by
  constructor
  · rintro ⟨e, he, hp⟩
    by_cases hpoint : e.IsPoint
    · exact .inl (hpoint.eq_of_contains hp ▸ hstart e he)
    · exact .inr ⟨e, mem_proper.2 ⟨he, hpoint⟩, hp⟩
  · rintro (hp | ⟨e, he, hp⟩)
    · exact hcovers hp
    · exact ⟨e, (mem_proper.1 he).1, hp⟩

/-- A closed cycle covers its vertices, and the points of its edges that have a length. -/
theorem exists_contains_cycle_iff : (∃ e ∈ cycle l, e.contains p = true) ↔
    p ∈ l ∨ ∃ e ∈ proper (cycle l), e.contains p = true := by
  refine exists_contains_iff (fun e he ↦ (mem_of_mem_cycle he).1) fun hp ↦ ?_
  obtain ⟨e, he, rfl⟩ := exists_mem_cycle_stop hp
  exact ⟨e, he, e.contains_stop⟩

/-! ### Contours built from points -/

theorem points_ofPoints (l : List Point) : (ofPoints l).points = dropRepeats l := rfl

/-- **A contour built from points covers what the cycle through them covers.** -/
theorem exists_contains_ofPoints :
    (∃ e ∈ cycle (ofPoints l).points, e.contains p = true) ↔
      ∃ e ∈ cycle l, e.contains p = true := by
  rw [exists_contains_cycle_iff, exists_contains_cycle_iff, points_ofPoints, mem_dropRepeats,
    proper_cycle_dropRepeats]

/-- A contour built from points crosses a ray as often as the cycle through them. -/
theorem crossings_ofPoints :
    crossings p (cycle (ofPoints l).points) = crossings p (cycle l) := by
  rw [points_ofPoints, ← crossings_proper, proper_cycle_dropRepeats, crossings_proper]

/-- A contour built from points encloses the area that the cycle through them sweeps. -/
theorem sweep_ofPoints (l : List Point) : sweep (cycle (dropRepeats l)) = sweep (cycle l) := by
  rw [← sweep_proper, proper_cycle_dropRepeats, sweep_proper]

end Contour

end GridGeometry
