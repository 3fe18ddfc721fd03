import GridGeometry.Proofs.Segment

/-!
# The even-odd rule

An edge that straddles a height has exactly one point there, and its `x` coordinate is the rational
number `Segment.crossingX` (`Segment.Straddles.mem_points_iff`). A point of the grid at that height
lies on the edge, has it on its ray, or has it behind, as its own `x` is equal to that number, less
or greater.

So the tests by signs, boxes and special cases that decide whether a point is inside a contour come
down to counting exact crossings: a contour of at least three vertices contains what lies on its
edges, and what has an odd number of crossings strictly to the right (`Contour.contains_evenOdd`).
-/

namespace GridGeometry

/-! ### The exact meeting point -/

namespace Segment

variable {e : Segment} {p : Point} {x : ℚ} {y : Int}

/-- The `x` coordinate at which the line of the edge meets the height `y`, or that of its start when
the edge is horizontal. -/
def crossingX (e : Segment) (y : Int) : ℚ :=
  e.start.x + (e.stop.x - e.start.x) * (y - e.start.y) / (e.stop.y - e.start.y)

theorem Straddles.start_ne_stop (h : e.Straddles y) : e.start.y ≠ e.stop.y := by
  rw [Straddles] at h
  omega

/-- Where an edge is that is met at a height: at the crossing, at the time when it gets there. -/
theorem pointAt_eq_crossing (h : e.start.y ≠ e.stop.y) :
    e.pointAt ((y - e.start.y) / (e.stop.y - e.start.y)) = (e.crossingX y, (y : ℚ)) := by
  have hy : (e.stop.y : ℚ) - e.start.y ≠ 0 := by exact_mod_cast sub_ne_zero.2 h.symm
  rw [pointAt, crossingX, Prod.mk_inj]
  constructor
  · field_simp
  · field_simp
    ring

/-- **A straddling edge has one point at the height**, its crossing. -/
theorem Straddles.mem_points_iff (h : e.Straddles y) :
    (x, (y : ℚ)) ∈ e.points ↔ x = e.crossingX y := by
  have hne := h.start_ne_stop
  have hy : (e.stop.y : ℚ) - e.start.y ≠ 0 := by exact_mod_cast sub_ne_zero.2 hne.symm
  rw [mem_points]
  constructor
  · rintro ⟨u, -, -, hu⟩
    -- The height alone tells the time.
    have hheight : (e.start.y : ℚ) + u * (e.stop.y - e.start.y) = y := congrArg Prod.snd hu
    have htime : u = (y - e.start.y) / (e.stop.y - e.start.y) := by
      rw [eq_div_iff hy]
      linarith
    rw [htime, pointAt_eq_crossing hne] at hu
    exact (congrArg Prod.fst hu).symm
  · rintro rfl
    have hat := pointAt_eq_crossing (y := y) hne
    rw [Straddles] at h
    have hmin : min e.start.y e.stop.y ≤ y := by omega
    have hmax : y ≤ max e.start.y e.stop.y := by omega
    have hheight : (e.start.y : ℚ) + (y - e.start.y) / (e.stop.y - e.start.y) *
        (e.stop.y - e.start.y) = y := congrArg Prod.snd hat
    have htime := time_mem_of_between (by exact_mod_cast hne) hheight (by exact_mod_cast hmin)
      (by exact_mod_cast hmax)
    exact ⟨_, htime.1, htime.2, hat⟩

/-- A point at a straddled height is on the edge when it is its crossing. -/
theorem Straddles.contains_iff_eq_crossingX (h : e.Straddles p.y) :
    e.contains p = true ↔ (p.x : ℚ) = e.crossingX p.y := by
  rw [contains_iff_mem, ← h.mem_points_iff]
  rfl

/-- The side of a point is its distance from the crossing, measured in the height of the edge. -/
theorem crossingX_sub_mul (h : e.start.y ≠ e.stop.y) :
    (e.crossingX p.y - p.x) * (e.stop.y - e.start.y) = e.side p := by
  have hy : (e.stop.y : ℚ) - e.start.y ≠ 0 := by exact_mod_cast sub_ne_zero.2 h.symm
  rw [crossingX, side, Point.cross]
  push_cast
  field_simp
  ring

/-- **A straddling edge crosses the ray** from a point when its crossing lies strictly to the right
of the point. -/
theorem Straddles.crosses_iff_lt_crossingX (h : e.Straddles p.y) :
    e.Crosses p ↔ (p.x : ℚ) < e.crossingX p.y := by
  have hside := crossingX_sub_mul (p := p) h.start_ne_stop
  rw [← sub_pos]
  rcases h with ⟨hlow, hhigh⟩ | ⟨hlow, hhigh⟩
  · have hup : (0 : ℚ) < e.stop.y - e.start.y := by
      exact_mod_cast sub_pos.2 (lt_of_lt_of_le hlow hhigh)
    have hcrosses : e.Crosses p ↔ 0 < e.side p := by
      rw [Crosses]
      omega
    rw [hcrosses, ← Int.cast_pos (R := ℚ), ← hside, mul_pos_iff_of_pos_right hup]
  · have hdown : (e.stop.y : ℚ) - e.start.y < 0 := by
      exact_mod_cast sub_neg.2 (lt_of_lt_of_le hlow hhigh)
    have hcrosses : e.Crosses p ↔ e.side p < 0 := by
      rw [Crosses]
      omega
    rw [hcrosses, ← Int.cast_lt_zero (R := ℚ), ← hside]
    exact ⟨fun h ↦ pos_of_mul_neg_left h hdown.le, fun h ↦ mul_neg_of_pos_of_neg h hdown⟩

/-- An edge that misses the ray from a point meets its height strictly to the left of it. -/
theorem crossingX_lt (hs : e.Straddles p.y) (hc : ¬ e.Crosses p) (hoff : e.contains p = false) :
    e.crossingX p.y < p.x := by
  rw [hs.crosses_iff_lt_crossingX] at hc
  refine lt_of_le_of_ne (not_lt.1 hc) fun heq ↦ ?_
  simp [hs.contains_iff_eq_crossingX.2 heq.symm] at hoff

theorem crossingX_of_vertical (h : e.start.x = e.stop.x) : e.crossingX y = e.start.x := by
  rw [crossingX, h, sub_self, zero_mul, zero_div, add_zero]

theorem crossingX_reversed (h : e.start.y ≠ e.stop.y) :
    e.reversed.crossingX y = e.crossingX y := by
  have hy : (e.stop.y : ℚ) - e.start.y ≠ 0 := by exact_mod_cast sub_ne_zero.2 h.symm
  have hy' : (e.start.y : ℚ) - e.stop.y ≠ 0 := by exact_mod_cast sub_ne_zero.2 h
  rw [crossingX, crossingX, reversed]
  field_simp
  ring

end Segment

/-! ### Exact crossings around a contour -/

namespace Contour

/-- The crossings of a ray are counted by where they lie. -/
theorem crossings_eq_countP (p : Point) (edges : List Segment) :
    crossings p edges = edges.countP fun e ↦
      ¬ (e.start.y < p.y ↔ e.stop.y < p.y) ∧ (p.x : ℚ) < e.crossingX p.y := by
  refine List.countP_congr fun e _ ↦ ?_
  rw [decide_eq_true_eq, decide_eq_true_eq, ← Segment.straddles_iff]
  exact ⟨fun h ↦ ⟨h.straddles, h.straddles.crosses_iff_lt_crossingX.1 h⟩,
    fun h ↦ h.1.crosses_iff_lt_crossingX.2 h.2⟩

/-- **The even-odd rule.** Whatever the vertices are and wherever the point lies: a contour contains
a point exactly when it has at least three vertices and the point lies on an edge of its closed
cycle, or the edges with just one end below the height of the point whose exact crossing with that
height lies strictly to the right of the point are odd in number. -/
theorem contains_evenOdd (c : Contour) (p : Point) :
    c.contains p = true ↔ 3 ≤ c.size ∧
      ((∃ e ∈ cycle c.points, p.toRat ∈ e.points) ∨
        (cycle c.points).countP (fun e ↦
          ¬ (e.start.y < p.y ↔ e.stop.y < p.y) ∧ (p.x : ℚ) < e.crossingX p.y) % 2 = 1) := by
  rw [contains_iff_or, crossings_eq_countP]
  simp only [Segment.contains_iff_mem]

end Contour

end GridGeometry
