import GridGeometry.Proofs.Contour.Boundary
import Mathlib.Algebra.Order.Field.Basic
import Mathlib.Algebra.Order.Field.Rat
import Mathlib.Data.Set.Image
import Mathlib.Order.Interval.Set.Defs
import Mathlib.Tactic.FieldSimp
import Mathlib.Tactic.LinearCombination

/-!
# Points of a segment

A segment is run through at even speed, from its start at time zero to its stop at time one
(`Segment.pointAt`). Its points are those reached in between, with rational coordinates
(`Segment.points`). The two questions that are asked of segments on the grid, by signs of areas and
by boxes, are questions about these points: `Segment.contains` is membership
(`Segment.contains_iff_mem`), and `Segment.meets` is having a point in common
(`Segment.meets_iff`). A segment run the other way has the same points (`Segment.points_reversed`),
so neither the order nor the directions of two segments matter (`Segment.meets_exact`).
-/

namespace GridGeometry

/-- The point with the same coordinates in the rational plane. -/
def Point.toRat (p : Point) : ℚ × ℚ := (p.x, p.y)

/-! ### Between two numbers -/

section Between

variable {a b c u : ℚ}

/-- On the way from one number to another one, what lies between them is reached between the times
zero and one. -/
theorem time_mem_of_between (hab : a ≠ b) (hc : a + u * (b - a) = c) (hmin : min a b ≤ c)
    (hmax : c ≤ max a b) : 0 ≤ u ∧ u ≤ 1 := by
  rcases lt_or_gt_of_ne hab with hlt | hgt
  · rw [min_eq_left hlt.le] at hmin
    rw [max_eq_right hlt.le] at hmax
    have hpos : 0 < b - a := sub_pos.2 hlt
    exact ⟨nonneg_of_mul_nonneg_left (by linarith) hpos,
      le_of_mul_le_mul_right (by linarith) hpos⟩
  · rw [min_eq_right hgt.le] at hmin
    rw [max_eq_left hgt.le] at hmax
    have hpos : 0 < a - b := sub_pos.2 hgt
    exact ⟨nonneg_of_mul_nonneg_left (by linarith) hpos,
      le_of_mul_le_mul_right (by linarith) hpos⟩

theorem exists_time (hmin : min a b ≤ c) (hmax : c ≤ max a b) :
    ∃ u, 0 ≤ u ∧ u ≤ 1 ∧ a + u * (b - a) = c := by
  by_cases hab : a = b
  · subst hab
    rw [min_self] at hmin
    rw [max_self] at hmax
    exact ⟨0, le_rfl, zero_le_one, by linarith⟩
  · have hc : a + (c - a) / (b - a) * (b - a) = c := by
      rw [div_mul_cancel₀ _ (sub_ne_zero.2 (Ne.symm hab)), add_sub_cancel]
    have htime := time_mem_of_between hab hc hmin hmax
    exact ⟨_, htime.1, htime.2, hc⟩

/-- What is reached between the times zero and one lies between the two numbers. -/
theorem between_of_time_mem (h₀ : 0 ≤ u) (h₁ : u ≤ 1) :
    min a b ≤ a + u * (b - a) ∧ a + u * (b - a) ≤ max a b := by
  have hrest : 0 ≤ 1 - u := sub_nonneg.2 h₁
  rcases le_total a b with hab | hba
  · rw [min_eq_left hab, max_eq_right hab]
    constructor <;> nlinarith
  · rw [min_eq_right hba, max_eq_left hba]
    constructor <;> nlinarith

end Between

namespace Segment

variable {s t : Segment} {p : Point} {u v : ℚ}

/-- The point of the line through the segment that is reached at time `u`. -/
def pointAt (s : Segment) (u : ℚ) : ℚ × ℚ :=
  (s.start.x + u * (s.stop.x - s.start.x), s.start.y + u * (s.stop.y - s.start.y))

/-- The points of the segment, ends included. -/
def points (s : Segment) : Set (ℚ × ℚ) := s.pointAt '' Set.Icc 0 1

theorem mem_points {q : ℚ × ℚ} : q ∈ s.points ↔ ∃ u, 0 ≤ u ∧ u ≤ 1 ∧ s.pointAt u = q := by
  simp only [points, Set.mem_image, Set.mem_Icc, and_assoc]

theorem pointAt_eq_toRat_iff : s.pointAt u = p.toRat ↔
    (s.start.x : ℚ) + u * (s.stop.x - s.start.x) = p.x ∧
      (s.start.y : ℚ) + u * (s.stop.y - s.start.y) = p.y :=
  Prod.mk_inj

theorem pointAt_eq_pointAt_iff : s.pointAt u = t.pointAt v ↔
    (s.start.x : ℚ) + u * (s.stop.x - s.start.x) = t.start.x + v * (t.stop.x - t.start.x) ∧
      (s.start.y : ℚ) + u * (s.stop.y - s.start.y) = t.start.y + v * (t.stop.y - t.start.y) :=
  Prod.mk_inj

@[simp] theorem pointAt_zero (s : Segment) : s.pointAt 0 = s.start.toRat := by
  simp [pointAt, Point.toRat]

@[simp] theorem pointAt_one (s : Segment) : s.pointAt 1 = s.stop.toRat := by
  simp [pointAt, Point.toRat]

theorem start_mem_points (s : Segment) : s.start.toRat ∈ s.points :=
  mem_points.2 ⟨0, le_rfl, zero_le_one, s.pointAt_zero⟩

theorem stop_mem_points (s : Segment) : s.stop.toRat ∈ s.points :=
  mem_points.2 ⟨1, zero_le_one, le_rfl, s.pointAt_one⟩

theorem IsPoint.pointAt_eq (hs : s.IsPoint) (u : ℚ) : s.pointAt u = s.start.toRat := by
  rw [IsPoint] at hs
  simp [pointAt, Point.toRat, ← hs]

/-! ### One segment -/

/-- Every point of the grid on the line through a segment is reached at some time. -/
theorem exists_pointAt_eq (hs : ¬ s.IsPoint) (h : s.side p = 0) :
    ∃ u, s.pointAt u = p.toRat := by
  have hside : ((s.stop.x : ℚ) - s.start.x) * (p.y - s.start.y) =
      (s.stop.y - s.start.y) * (p.x - s.start.x) := by
    rw [side, Point.cross, sub_eq_zero] at h
    exact_mod_cast h
  rcases not_and_or.1 (mt Point.eq_iff.2 hs) with hx | hy
  · have hx' : (s.stop.x : ℚ) - s.start.x ≠ 0 := by exact_mod_cast sub_ne_zero.2 (Ne.symm hx)
    refine ⟨(p.x - s.start.x) / (s.stop.x - s.start.x), pointAt_eq_toRat_iff.2 ⟨?_, ?_⟩⟩
    · rw [div_mul_cancel₀ _ hx', add_sub_cancel]
    · field_simp
      linear_combination -hside
  · have hy' : (s.stop.y : ℚ) - s.start.y ≠ 0 := by exact_mod_cast sub_ne_zero.2 (Ne.symm hy)
    refine ⟨(p.y - s.start.y) / (s.stop.y - s.start.y), pointAt_eq_toRat_iff.2 ⟨?_, ?_⟩⟩
    · field_simp
      linear_combination hside
    · rw [div_mul_cancel₀ _ hy', add_sub_cancel]

theorem side_eq_zero_of_pointAt (hu : s.pointAt u = p.toRat) : s.side p = 0 := by
  obtain ⟨hx, hy⟩ := pointAt_eq_toRat_iff.1 hu
  have hside : ((s.stop.x : ℚ) - s.start.x) * (p.y - s.start.y) -
      (s.stop.y - s.start.y) * (p.x - s.start.x) = 0 := by
    linear_combination (s.stop.y - s.start.y : ℚ) * hx - (s.stop.x - s.start.x : ℚ) * hy
  rw [side, Point.cross]
  exact_mod_cast hside

/-- **A point of the grid lies on a segment** when it is one of its points. -/
theorem contains_iff_mem : s.contains p = true ↔ p.toRat ∈ s.points := by
  rw [contains_iff, mem_points]
  constructor
  · rintro ⟨hside, hbox⟩
    by_cases hs : s.IsPoint
    · have hp : s.start = p := by
        rw [IsPoint, Point.eq_iff] at hs
        rw [BoxHolds] at hbox
        rw [Point.eq_iff]
        omega
      exact ⟨0, le_rfl, zero_le_one, hp ▸ s.pointAt_zero⟩
    · obtain ⟨u, hu⟩ := exists_pointAt_eq hs hside
      obtain ⟨hx, hy⟩ := pointAt_eq_toRat_iff.1 hu
      obtain ⟨hx₀, hx₁, hy₀, hy₁⟩ := hbox
      have htime : 0 ≤ u ∧ u ≤ 1 := by
        rcases not_and_or.1 (mt Point.eq_iff.2 hs) with hne | hne
        · exact time_mem_of_between (by exact_mod_cast hne) hx (by exact_mod_cast hx₀)
            (by exact_mod_cast hx₁)
        · exact time_mem_of_between (by exact_mod_cast hne) hy (by exact_mod_cast hy₀)
            (by exact_mod_cast hy₁)
      exact ⟨u, htime.1, htime.2, hu⟩
  · rintro ⟨u, h₀, h₁, hu⟩
    obtain ⟨hx, hy⟩ := pointAt_eq_toRat_iff.1 hu
    obtain ⟨hx₀, hx₁⟩ := hx ▸ between_of_time_mem (a := s.start.x) (b := s.stop.x) h₀ h₁
    obtain ⟨hy₀, hy₁⟩ := hy ▸ between_of_time_mem (a := s.start.y) (b := s.stop.y) h₀ h₁
    exact ⟨side_eq_zero_of_pointAt hu, by exact_mod_cast hx₀, by exact_mod_cast hx₁,
      by exact_mod_cast hy₀, by exact_mod_cast hy₁⟩

/-! ### Two segments -/

theorem meets_iff_or : s.meets t = true ↔
    (OppositeSigns (t.side s.start) (t.side s.stop) ∧
        OppositeSigns (s.side t.start) (s.side t.stop)) ∨
      t.contains s.start = true ∨ t.contains s.stop = true ∨
        s.contains t.start = true ∨ s.contains t.stop = true := by
  rw [meets]
  simp only [Bool.or_eq_true, decide_eq_true_eq, or_assoc]

/-- At even speed, a number that changes its sign is zero in between. -/
theorem OppositeSigns.exists_zero {a b : Int} (h : OppositeSigns a b) :
    ∃ u : ℚ, 0 ≤ u ∧ u ≤ 1 ∧ (a : ℚ) + u * (b - a) = 0 := by
  rw [OppositeSigns] at h
  have hmin : min a b ≤ 0 := by omega
  have hmax : 0 ≤ max a b := by omega
  exact exists_time (by exact_mod_cast hmin) (by exact_mod_cast hmax)

/-- A number that is zero strictly in between changes its sign, or is zero all the time. -/
theorem oppositeSigns_of_zero {a b : Int} (h₀ : 0 < u) (h₁ : u < 1)
    (h : (a : ℚ) + u * (b - a) = 0) : OppositeSigns a b ∨ a = 0 ∧ b = 0 := by
  have hrest : 0 < 1 - u := sub_pos.2 h₁
  have hconvex : u * b = -((1 - u) * a) := by linear_combination h
  rcases lt_trichotomy a 0 with ha | rfl | ha
  · have ha' : (a : ℚ) < 0 := by exact_mod_cast ha
    have hb : (0 : ℚ) < b := pos_of_mul_pos_right (by nlinarith) h₀.le
    exact .inl (.inr ⟨ha, by exact_mod_cast hb⟩)
  · have hb : (b : ℚ) = 0 := by simpa [h₀.ne'] using hconvex
    exact .inr ⟨rfl, by exact_mod_cast hb⟩
  · have ha' : (0 : ℚ) < a := by exact_mod_cast ha
    have hb : (b : ℚ) < 0 := by nlinarith
    exact .inl (.inl ⟨ha, by exact_mod_cast hb⟩)

/-- Run along one segment, the side of another one changes at even speed, and is zero where the two
meet. -/
theorem side_add_eq_zero (h : s.pointAt u = t.pointAt v) :
    (t.side s.start : ℚ) + u * (t.side s.stop - t.side s.start) = 0 := by
  obtain ⟨hx, hy⟩ := pointAt_eq_pointAt_iff.1 h
  simp only [side, Point.cross]
  push_cast
  linear_combination (t.stop.x - t.start.x : ℚ) * hy - (t.stop.y - t.start.y : ℚ) * hx

/-- The differences of the sides are opposite: either is the vector product of the two segments. -/
theorem side_sub_side (s t : Segment) :
    s.side t.stop - s.side t.start = -(t.side s.stop - t.side s.start) := by
  simp only [side, Point.cross]
  ring

/-- Where neither of two segments is parallel to the other, both are zero at their common point. -/
theorem pointAt_eq_pointAt (hne : t.side s.start ≠ t.side s.stop)
    (hu : (t.side s.start : ℚ) + u * (t.side s.stop - t.side s.start) = 0)
    (hv : (s.side t.start : ℚ) + v * (s.side t.stop - s.side t.start) = 0) :
    s.pointAt u = t.pointAt v := by
  have hw : (t.side s.stop : ℚ) - t.side s.start ≠ 0 := by
    exact_mod_cast sub_ne_zero.2 hne.symm
  have hsub : (s.side t.stop : ℚ) - s.side t.start = -(t.side s.stop - t.side s.start) := by
    exact_mod_cast side_sub_side s t
  rw [hsub] at hv
  simp only [side, Point.cross] at hu hv hw
  push_cast at hu hv hw
  refine pointAt_eq_pointAt_iff.2 ⟨mul_left_cancel₀ hw ?_, mul_left_cancel₀ hw ?_⟩
  · linear_combination (s.stop.x - s.start.x : ℚ) * hu + (t.stop.x - t.start.x : ℚ) * hv
  · linear_combination (s.stop.y - s.start.y : ℚ) * hu + (t.stop.y - t.start.y : ℚ) * hv

/-! ### Segments on one line -/

theorem pointAt_injective (hs : ¬ s.IsPoint) : Function.Injective s.pointAt := by
  intro u v h
  obtain ⟨hx, hy⟩ := pointAt_eq_pointAt_iff.1 h
  rcases not_and_or.1 (mt Point.eq_iff.2 hs) with hne | hne
  · refine mul_right_cancel₀ (sub_ne_zero.2 ?_) (add_left_cancel hx)
    exact_mod_cast Ne.symm hne
  · refine mul_right_cancel₀ (sub_ne_zero.2 ?_) (add_left_cancel hy)
    exact_mod_cast Ne.symm hne

/-- Along a segment whose ends are reached by another one at the times `a` and `b`. -/
theorem pointAt_of_ends {a b : ℚ} (ha : s.pointAt a = t.start.toRat)
    (hb : s.pointAt b = t.stop.toRat) (v : ℚ) : t.pointAt v = s.pointAt (a + v * (b - a)) := by
  obtain ⟨hax, hay⟩ := pointAt_eq_toRat_iff.1 ha
  obtain ⟨hbx, hby⟩ := pointAt_eq_toRat_iff.1 hb
  refine pointAt_eq_pointAt_iff.2 ⟨?_, ?_⟩
  · rw [← hax, ← hbx]
    ring
  · rw [← hay, ← hby]
    ring

/-- **Of two segments on one line with a point in common**, one has an end on the other. -/
theorem exists_end_of_collinear (hs : ¬ s.IsPoint) (hstart : s.side t.start = 0)
    (hstop : s.side t.stop = 0) (h : (s.points ∩ t.points).Nonempty) :
    s.contains t.start = true ∨ s.contains t.stop = true ∨ t.contains s.start = true := by
  obtain ⟨q, hqs, hqt⟩ := h
  obtain ⟨u, hu₀, hu₁, rfl⟩ := mem_points.1 hqs
  obtain ⟨v, hv₀, hv₁, hv⟩ := mem_points.1 hqt
  obtain ⟨a, ha⟩ := exists_pointAt_eq hs hstart
  obtain ⟨b, hb⟩ := exists_pointAt_eq hs hstop
  have huv : u = a + v * (b - a) := pointAt_injective hs (hv.symm.trans (pointAt_of_ends ha hb v))
  by_cases hain : 0 ≤ a ∧ a ≤ 1
  · exact .inl (contains_iff_mem.2 (mem_points.2 ⟨a, hain.1, hain.2, ha⟩))
  by_cases hbin : 0 ≤ b ∧ b ≤ 1
  · exact .inr (.inl (contains_iff_mem.2 (mem_points.2 ⟨b, hbin.1, hbin.2, hb⟩)))
  -- The other segment begins before the one and ends behind it, or the other way round.
  rw [not_and_or, not_le, not_le] at hain hbin
  obtain ⟨hmin, hmax⟩ := huv ▸ between_of_time_mem (a := a) (b := b) hv₀ hv₁
  have hmin₀ : min a b ≤ 0 := by
    by_contra hpos
    obtain ⟨ha₀, hb₀⟩ := lt_min_iff.1 (not_le.1 hpos)
    have hlt := lt_min (hain.resolve_left ha₀.asymm) (hbin.resolve_left hb₀.asymm)
    linarith
  obtain ⟨w, hw₀, hw₁, hw⟩ := exists_time hmin₀ (hu₀.trans hmax)
  refine .inr (.inr (contains_iff_mem.2 (mem_points.2 ⟨w, hw₀, hw₁, ?_⟩)))
  rw [pointAt_of_ends ha hb, hw, pointAt_zero]

/-! ### Meeting -/

/-- **Two segments meet** when they have a point in common. -/
theorem meets_iff : s.meets t = true ↔ (s.points ∩ t.points).Nonempty := by
  rw [meets_iff_or]
  constructor
  · rintro (⟨hst, hts⟩ | h | h | h | h)
    · obtain ⟨u, hu₀, hu₁, hu⟩ := hst.exists_zero
      obtain ⟨v, hv₀, hv₁, hv⟩ := hts.exists_zero
      have hne : t.side s.start ≠ t.side s.stop := by
        rw [OppositeSigns] at hst
        omega
      exact ⟨s.pointAt u, mem_points.2 ⟨u, hu₀, hu₁, rfl⟩,
        mem_points.2 ⟨v, hv₀, hv₁, (pointAt_eq_pointAt hne hu hv).symm⟩⟩
    · exact ⟨_, s.start_mem_points, contains_iff_mem.1 h⟩
    · exact ⟨_, s.stop_mem_points, contains_iff_mem.1 h⟩
    · exact ⟨_, contains_iff_mem.1 h, t.start_mem_points⟩
    · exact ⟨_, contains_iff_mem.1 h, t.stop_mem_points⟩
  · rintro ⟨q, hqs, hqt⟩
    obtain ⟨u, hu₀, hu₁, rfl⟩ := mem_points.1 hqs
    obtain ⟨v, hv₀, hv₁, hv⟩ := mem_points.1 hqt
    rcases hu₀.eq_or_lt with rfl | hu₀
    · exact .inr (.inl (contains_iff_mem.2 (s.pointAt_zero ▸ hqt)))
    rcases hu₁.eq_or_lt with rfl | hu₁
    · exact .inr (.inr (.inl (contains_iff_mem.2 (s.pointAt_one ▸ hqt))))
    rcases hv₀.eq_or_lt with rfl | hv₀
    · exact .inr (.inr (.inr (.inl (contains_iff_mem.2 (t.pointAt_zero ▸ hv ▸ hqs)))))
    rcases hv₁.eq_or_lt with rfl | hv₁
    · exact .inr (.inr (.inr (.inr (contains_iff_mem.2 (t.pointAt_one ▸ hv ▸ hqs)))))
    have hsub := side_sub_side s t
    rcases oppositeSigns_of_zero hv₀ hv₁ (side_add_eq_zero hv) with hts | ⟨hstart, hstop⟩
    · rcases oppositeSigns_of_zero hu₀ hu₁ (side_add_eq_zero hv.symm) with hst | hzero
      · exact .inl ⟨hst, hts⟩
      · rw [OppositeSigns] at hts
        omega
    · by_cases hs : s.IsPoint
      · exact .inr (.inl (contains_iff_mem.2 (hs.pointAt_eq u ▸ hqt)))
      · rcases exists_end_of_collinear hs hstart hstop ⟨_, hqs, hqt⟩ with h | h | h
        · exact .inr (.inr (.inr (.inl h)))
        · exact .inr (.inr (.inr (.inr h)))
        · exact .inr (.inl h)

/-! ### Order and direction -/

/-- Run the other way, a point is reached when as much time is left as was needed before. -/
theorem pointAt_reversed (s : Segment) (u : ℚ) : s.reversed.pointAt u = s.pointAt (1 - u) := by
  refine pointAt_eq_pointAt_iff.2 ⟨?_, ?_⟩
  · dsimp only [reversed]
    ring
  · dsimp only [reversed]
    ring

/-- **A segment run the other way** has the same points. -/
theorem points_reversed (s : Segment) : s.reversed.points = s.points := by
  have hsubset : ∀ s : Segment, s.reversed.points ⊆ s.points := by
    intro s q hq
    obtain ⟨u, hu₀, hu₁, rfl⟩ := mem_points.1 hq
    exact mem_points.2 ⟨1 - u, by linarith, by linarith, (s.pointAt_reversed u).symm⟩
  exact (hsubset s).antisymm (hsubset s.reversed)

theorem meets_comm (s t : Segment) : t.meets s = s.meets t := by
  rw [Bool.eq_iff_iff, meets_iff, meets_iff, Set.inter_comm]

theorem meets_reversed_left (s t : Segment) : s.reversed.meets t = s.meets t := by
  rw [Bool.eq_iff_iff, meets_iff, meets_iff, points_reversed]

theorem meets_reversed_right (s t : Segment) : s.meets t.reversed = s.meets t := by
  rw [meets_comm, meets_reversed_left, meets_comm]

/-- **Both tests are exact**, for segments of any length, single points included. Two segments meet
when some rational point is reached by each of them between the times zero and one, and a point of
the grid lies on a segment when it is reached in that time. So it does not matter which of two
segments comes first, nor which way either of them is run. -/
theorem meets_exact (s t : Segment) (p : Point) :
    (s.meets t = true ↔ ∃ q : ℚ × ℚ, (∃ u, 0 ≤ u ∧ u ≤ 1 ∧ s.pointAt u = q) ∧
      ∃ v, 0 ≤ v ∧ v ≤ 1 ∧ t.pointAt v = q) ∧
    (s.contains p = true ↔ ∃ u : ℚ, 0 ≤ u ∧ u ≤ 1 ∧
      (s.start.x : ℚ) + u * (s.stop.x - s.start.x) = p.x ∧
        (s.start.y : ℚ) + u * (s.stop.y - s.start.y) = p.y) ∧
    t.meets s = s.meets t ∧ s.reversed.meets t = s.meets t ∧ s.meets t.reversed = s.meets t := by
  refine ⟨?_, ?_, s.meets_comm t, s.meets_reversed_left t, s.meets_reversed_right t⟩
  · rw [meets_iff]
    simp only [Set.Nonempty, Set.mem_inter_iff, mem_points]
  · rw [contains_iff_mem, mem_points]
    simp only [pointAt_eq_toRat_iff]

end Segment

end GridGeometry
