import GridGeometry.Proofs.Contour.EvenOdd
import GridGeometry.Proofs.Slit.Choice

/-!
# Where slits arrive, exactly and on the grid

A slit arrives where an edge meets its height, rounded to the grid. The distance from the start of
the edge is a proportion, and it is rounded to the nearest integer, a half away from zero
(`roundsAway_roundedProportion`), which leaves no choice (`RoundsAway.unique`).

Two facts relate this to the exact meeting point, `Segment.crossingX`. Rounding moves it by at most
one half (`abs_meetingX_sub_crossingX_le`). And an edge that is split at a point beside it moves
nowhere by more than that point is beside it (`exists_part`).
-/

namespace GridGeometry

/-! ### Rounding -/

/-- A nonnegative number divided and rounded is off by at most half of the divisor, and a half goes
upward. -/
theorem two_mul_roundedQuotient (n d : Int) (hd : 0 < d) :
    -d < 2 * ((n + d / 2) / d * d - n) ∧ 2 * ((n + d / 2) / d * d - n) ≤ d := by
  have hdiv := Int.ediv_mul_add_emod (n + d / 2) d
  have hlow := Int.emod_nonneg (n + d / 2) hd.ne'
  have hhigh := Int.emod_lt_of_pos (n + d / 2) hd
  generalize (n + d / 2) / d * d = m at hdiv ⊢
  omega

/-- A positive divisor: the quotient of a negative product is the opposite of that of its opposite.
-/
theorem roundedProportion_of_pos {a b d : Int} (hd : 0 < d) : roundedProportion a b d =
    if a * b < 0 then -((-(a * b) + d / 2) / d) else (a * b + d / 2) / d := by
  have hhalf : ((d.natAbs / 2 : Nat) : Int) * d.sign = d / 2 := by
    rw [Int.sign_eq_one_of_pos hd]
    omega
  rw [roundedProportion]
  simp only [hhalf, not_lt_of_gt hd, iff_false, not_lt]
  rcases lt_or_ge (a * b) 0 with hn | hn
  · rw [if_neg (not_le_of_gt hn), if_pos hn, ← neg_neg (a * b - d / 2), Int.neg_tdiv,
      Int.tdiv_eq_ediv_of_nonneg (show 0 ≤ -(a * b - d / 2) by omega), neg_sub, sub_eq_add_neg,
      add_comm]
  · rw [if_pos hn, if_neg (not_lt_of_ge hn),
      Int.tdiv_eq_ediv_of_nonneg (show 0 ≤ a * b + d / 2 by omega)]

/-- Turning the divisor around turns the quotient around. -/
theorem roundedProportion_neg {a b d : Int} (hd : 0 < d) : roundedProportion a b (-d) =
    -roundedProportion a b d := by
  rw [roundedProportion, roundedProportion]
  have hneg : -d < 0 := by omega
  simp only [Int.natAbs_neg, Int.sign_neg, hneg, iff_true, not_lt_of_gt hd, iff_false, mul_neg,
    sub_neg_eq_add, Int.tdiv_neg, ← sub_eq_add_neg, not_lt]
  rcases lt_or_ge (a * b) 0 with hn | hn
  · rw [if_pos hn, if_neg (not_le_of_gt hn)]
  · rw [if_neg (not_lt_of_ge hn), if_pos hn]

theorem roundedProportion_rounds_of_pos {a b d : Int} (hd : 0 < d) :
    |2 * (roundedProportion a b d * d - a * b)| ≤ d ∧
      (|2 * (roundedProportion a b d * d - a * b)| = d →
        |a * b| < |roundedProportion a b d * d|) := by
  rw [roundedProportion_of_pos hd]
  rcases lt_or_ge (a * b) 0 with hn | hn
  · have hround := two_mul_roundedQuotient (-(a * b)) d hd
    rw [if_pos hn, neg_mul]
    refine ⟨abs_le.2 (by omega), fun hhalf ↦ ?_⟩
    rw [abs_eq hd.le] at hhalf
    rw [abs_neg, abs_of_neg hn]
    exact lt_abs.2 (.inl (by omega))
  · have hround := two_mul_roundedQuotient (a * b) d hd
    rw [if_neg (not_lt_of_ge hn)]
    refine ⟨abs_le.2 (by omega), fun hhalf ↦ ?_⟩
    rw [abs_eq hd.le] at hhalf
    rw [abs_of_nonneg hn]
    exact lt_abs.2 (.inl (by omega))

/-- **Rounding is to the nearest integer, and a half goes away from zero**, whatever the signs are.
-/
theorem roundedProportion_rounds {a b c : Int} (hc : c ≠ 0) :
    |2 * (roundedProportion a b c * c - a * b)| ≤ |c| ∧
      (|2 * (roundedProportion a b c * c - a * b)| = |c| →
        |a * b| < |roundedProportion a b c * c|) := by
  rcases lt_or_gt_of_ne hc with hneg | hpos
  · obtain ⟨d, rfl⟩ : ∃ d, c = -d := ⟨-c, (neg_neg c).symm⟩
    have hd : 0 < d := neg_neg_iff_pos.1 hneg
    rw [roundedProportion_neg hd, neg_mul_neg, abs_neg, abs_of_pos hd]
    exact roundedProportion_rounds_of_pos hd
  · rw [abs_of_pos hpos]
    exact roundedProportion_rounds_of_pos hpos

/-- The integer `n` is the number `q`, rounded to the nearest integer, a half away from zero. -/
def RoundsAway (q : ℚ) (n : Int) : Prop :=
  |(n : ℚ) - q| ≤ 1 / 2 ∧ (|(n : ℚ) - q| = 1 / 2 → |q| < |(n : ℚ)|)

namespace RoundsAway

variable {q : ℚ} {m n : Int}

theorem le (hm : RoundsAway q m) (hn : RoundsAway q n) : m ≤ n := by
  obtain ⟨hmq, hmhalf⟩ := hm
  obtain ⟨hnq, hnhalf⟩ := hn
  by_contra hlt
  have hstep : (n : ℚ) + 1 ≤ m := by exact_mod_cast Int.not_le.1 hlt
  rw [abs_le] at hmq hnq
  -- Then the number is halfway between the two, and one of them is nearer to zero than it.
  have hmq' : (m : ℚ) - q = 1 / 2 := by linarith
  have hnq' : (n : ℚ) - q = -(1 / 2) := by linarith
  rcases le_or_gt 0 n with hn | hn
  · have hn' : (0 : ℚ) ≤ n := by exact_mod_cast hn
    have hfar := hnhalf (by rw [hnq', abs_neg, abs_of_pos (by norm_num)])
    rw [abs_of_nonneg hn', abs_of_nonneg (by linarith)] at hfar
    linarith
  · have hn' : (n : ℚ) + 1 ≤ 0 := by exact_mod_cast hn
    have hfar := hmhalf (by rw [hmq', abs_of_pos (by norm_num)])
    rw [abs_of_nonpos (show (m : ℚ) ≤ 0 by linarith), abs_of_nonpos (by linarith)] at hfar
    linarith

/-- **A number is rounded in one way only.** -/
theorem unique (hm : RoundsAway q m) (hn : RoundsAway q n) : m = n :=
  le_antisymm (hm.le hn) (hn.le hm)

end RoundsAway

/-- **A rounded proportion** is the exact quotient, rounded to the nearest integer, a half away from
zero. -/
theorem roundsAway_roundedProportion {a b c : Int} (hc : c ≠ 0) :
    RoundsAway ((a : ℚ) * b / c) (roundedProportion a b c) := by
  obtain ⟨hround, hhalf⟩ := roundedProportion_rounds (a := a) (b := b) hc
  generalize roundedProportion a b c = r at hround hhalf ⊢
  have hcq : (0 : ℚ) < |(c : ℚ)| := by
    rw [abs_pos]
    exact_mod_cast hc
  -- Error and number, measured in the divisor.
  have herror : 2 * |(r : ℚ) - a * b / c| * |(c : ℚ)| = |2 * ((r : ℚ) * c - a * b)| := by
    have hc' : (c : ℚ) ≠ 0 := abs_pos.1 hcq
    rw [← abs_two, ← abs_mul, ← abs_mul, abs_two]
    congr 1
    field_simp
  have hsize : |(a : ℚ) * b / c| * |(c : ℚ)| = |(a : ℚ) * b| := by
    rw [← abs_mul, div_mul_cancel₀ _ (abs_pos.1 hcq)]
  constructor
  · have hle : 2 * |(r : ℚ) - a * b / c| * |(c : ℚ)| ≤ |(c : ℚ)| := by
      rw [herror]
      exact_mod_cast hround
    linarith [(mul_le_iff_le_one_left hcq).1 hle]
  · intro hfar
    have heq : |2 * ((r : ℚ) * c - a * b)| = |(c : ℚ)| := by
      rw [← herror, hfar]
      ring
    have hlt : |(a : ℚ) * b| < |(r : ℚ) * c| := by exact_mod_cast hhalf (by exact_mod_cast heq)
    rw [← hsize, abs_mul] at hlt
    exact lt_of_mul_lt_mul_right hlt hcq.le

theorem roundedProportion_eq_iff {a b c n : Int} (hc : c ≠ 0) :
    roundedProportion a b c = n ↔ RoundsAway ((a : ℚ) * b / c) n :=
  ⟨fun h ↦ h ▸ roundsAway_roundedProportion hc, (roundsAway_roundedProportion hc).unique⟩

example : roundedProportion 1 1 2 = 1 ∧ roundedProportion (-1) 1 2 = -1 ∧
    roundedProportion 1 (-1) 3 = 0 ∧ roundedProportion 2 1 (-3) = -1 := by decide

/-! ### The exact meeting point -/

namespace Segment

variable {e : Segment} {p a : Point} {y : Int}

theorem reaches_iff : e.Reaches y ↔
    min e.start.y e.stop.y ≤ y ∧ y ≤ max e.start.y e.stop.y := Iff.rfl

theorem Straddles.reaches (h : e.Straddles y) : e.Reaches y := by
  rw [Straddles] at h
  rw [reaches_iff]
  omega

theorem meetingX_eq (h : e.start.y ≠ e.stop.y) : e.meetingX y = e.start.x +
    roundedProportion (e.stop.x - e.start.x) (y - e.start.y) (e.stop.y - e.start.y) := by
  rw [meetingX, RingEdge.meetingX, if_neg h]

/-- **Rounding moves a meeting point by at most one half.** -/
theorem abs_meetingX_sub_crossingX_le (h : e.start.y ≠ e.stop.y) :
    |(e.meetingX y : ℚ) - e.crossingX y| ≤ 1 / 2 := by
  -- The error is that of the rounded displacement, as the start is on the grid.
  have hround := (roundsAway_roundedProportion (a := e.stop.x - e.start.x) (b := y - e.start.y)
    (sub_ne_zero.2 h.symm)).1
  rw [meetingX_eq h, crossingX]
  push_cast at hround ⊢
  rwa [add_sub_add_left_eq_sub]

/-- A crossing on the grid is where the edge is met. -/
theorem meetingX_eq_of_crossingX {x : Int} (h : e.start.y ≠ e.stop.y) (hx : e.crossingX y = x) :
    e.meetingX y = x := by
  have hle := abs_meetingX_sub_crossingX_le (y := y) h
  rw [hx, abs_le] at hle
  have hlow : (x : ℚ) - 1 < e.meetingX y := by linarith [hle.1]
  have hhigh : (e.meetingX y : ℚ) < x + 1 := by linarith [hle.2]
  have hlow' : x - 1 < e.meetingX y := by exact_mod_cast hlow
  have hhigh' : e.meetingX y < x + 1 := by exact_mod_cast hhigh
  omega

/-- A vertical edge is met where it stands. -/
theorem meetingX_of_vertical (h : e.start.x = e.stop.x) : e.meetingX y = e.start.x := by
  by_cases hy : e.start.y = e.stop.y
  · rw [meetingX, RingEdge.meetingX, if_pos hy, h, max_self]
  · exact meetingX_eq_of_crossingX hy (crossingX_of_vertical h)

/-- An edge that is not horizontal is met at its start at the height of its start. -/
theorem meetingX_start (h : e.start.y ≠ e.stop.y) : e.meetingX e.start.y = e.start.x := by
  refine meetingX_eq_of_crossingX h ?_
  rw [crossingX, sub_self, mul_zero, zero_div, add_zero]

/-! ### Splitting an edge beside its line -/

/-- Between the start of an edge and a split, the first part stays as close to the edge as it is at
the split. -/
theorem abs_crossingX_sub_le (he : e.start.y ≠ e.stop.y) (ha : e.start.y ≠ a.y)
    (hy : (⟨e.start, a⟩ : Segment).Reaches y) :
    |(⟨e.start, a⟩ : Segment).crossingX y - e.crossingX y| ≤ |a.x - e.crossingX a.y| := by
  -- The two lines meet at the start, so they part in proportion to the height.
  have heq : (⟨e.start, a⟩ : Segment).crossingX y - e.crossingX y =
      (a.x - e.crossingX a.y) * ((y - e.start.y) / (a.y - e.start.y)) := by
    have he' : (e.stop.y : ℚ) - e.start.y ≠ 0 := by exact_mod_cast sub_ne_zero.2 he.symm
    have ha' : (a.y : ℚ) - e.start.y ≠ 0 := by exact_mod_cast sub_ne_zero.2 ha.symm
    simp only [crossingX]
    field_simp
    ring
  have hratio : |((y : ℚ) - e.start.y) / (a.y - e.start.y)| ≤ 1 := by
    have hle : |y - e.start.y| ≤ |a.y - e.start.y| := by
      rw [reaches_iff] at hy
      simp only at hy
      rcases le_total e.start.y a.y with hsa | hsa
      · rw [abs_of_nonneg (show 0 ≤ y - e.start.y by omega),
          abs_of_nonneg (show 0 ≤ a.y - e.start.y by omega)]
        omega
      · rw [abs_of_nonpos (show y - e.start.y ≤ 0 by omega),
          abs_of_nonpos (show a.y - e.start.y ≤ 0 by omega)]
        omega
    rw [abs_div]
    exact div_le_one_of_le₀ (by exact_mod_cast hle) (abs_nonneg _)
  rw [heq, abs_mul]
  exact mul_le_of_le_one_right (abs_nonneg _) hratio

/-- **A split edge** is replaced, at every height that it reaches, by a part that is no further off
than the split. -/
theorem exists_part (he : e.start.y ≠ e.stop.y) (ha : e.Reaches a.y) (hy : e.Reaches y) :
    ∃ f : Segment, (f = ⟨e.start, a⟩ ∨ f = ⟨a, e.stop⟩) ∧ f.start.y ≠ f.stop.y ∧ f.Reaches y ∧
      |f.crossingX y - e.crossingX y| ≤ |a.x - e.crossingX a.y| := by
  rw [reaches_iff] at ha hy
  by_cases hfirst : e.start.y ≠ a.y ∧ (⟨e.start, a⟩ : Segment).Reaches y
  · exact ⟨_, .inl rfl, hfirst.1, hfirst.2, abs_crossingX_sub_le he hfirst.1 hfirst.2⟩
  · -- The other part is the first one of the reversed edge.
    have hstop : e.stop.y ≠ a.y := by
      rw [reaches_iff] at hfirst
      simp only at hfirst
      omega
    have hreach : (⟨a, e.stop⟩ : Segment).Reaches y := by
      rw [reaches_iff] at hfirst ⊢
      simp only at hfirst ⊢
      omega
    refine ⟨_, .inr rfl, hstop.symm, hreach, ?_⟩
    have hback : (⟨e.stop, a⟩ : Segment).Reaches y := by
      rw [reaches_iff] at hreach ⊢
      simp only at hreach ⊢
      omega
    have hle := abs_crossingX_sub_le (e := e.reversed) he.symm hstop hback
    rw [crossingX_reversed he, crossingX_reversed he] at hle
    rwa [← crossingX_reversed (e := ⟨a, e.stop⟩) hstop.symm]

end Segment

end GridGeometry
