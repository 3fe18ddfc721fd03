import GridGeometry.Proofs.Slit.Translation

/-!
# Slits at a fixed width

Where a slit arrives is computed here with integers of any size. A coordinate takes 32 bits of
them; differences of coordinates take more, and products of these still more.
`RingEdge.meetingXAtWidth?` is the same computation with a width for every number on the way, and no
result where a number does not fit or a divisor is zero. On the grid it never fails and comes to the
same, which is a coordinate again (`RingEdge.meetingX_fits`).

That the edge reaches the height is what keeps the result small: the proportion is at most one then,
and does not exceed the number that it is taken of (`abs_roundedProportion_le`).
-/

namespace GridGeometry

variable {bits : Nat} {n d a b c : Int}

/-! ### Numbers of a fixed width -/

/-- The number has a signed representation in `bits` bits. -/
def Fits (bits : Nat) (n : Int) : Prop := -2 ^ (bits - 1) ≤ n ∧ n < 2 ^ (bits - 1)

instance (bits : Nat) (n : Int) : Decidable (Fits bits n) :=
  inferInstanceAs (Decidable (-2 ^ (bits - 1) ≤ n ∧ n < 2 ^ (bits - 1)))

/-- Differences of coordinates have one bit more than coordinates. -/
theorem Coordinate.abs_sub_lt {m n : Int} (hm : InRange m) (hn : InRange n) :
    |m - n| < 2 ^ 32 := by
  simp only [InRange, least, greatest] at hm hn
  rw [abs_lt]
  omega

/-- The number itself, if it fits. -/
def fit? (bits : Nat) (n : Int) : Option Int := if Fits bits n then some n else none

/-- The quotient, cut toward zero, if there is one and it fits. -/
def fitQuotient? (bits : Nat) (n d : Int) : Option Int :=
  if d = 0 then none else fit? bits (n.tdiv d)

theorem fit?_of_abs_lt {k : Nat} (h : |n| < 2 ^ k) (hk : k < bits) : fit? bits n = some n := by
  have hpow : (2 : Int) ^ k ≤ 2 ^ (bits - 1) := pow_le_pow_right₀ one_le_two (by omega)
  obtain ⟨hlow, hhigh⟩ := abs_lt.1 (h.trans_le hpow)
  exact if_pos ⟨hlow.le, hhigh⟩

theorem fitQuotient?_of_abs_lt {k : Nat} (hd : d ≠ 0) (h : |n| < 2 ^ k) (hk : k < bits) :
    fitQuotient? bits n d = some (n.tdiv d) := by
  have hle : |n.tdiv d| ≤ |n| := by
    rw [Int.abs_eq_natAbs, Int.abs_eq_natAbs]
    exact_mod_cast Int.natAbs_tdiv_le_natAbs n d
  rw [fitQuotient?, if_neg hd, fit?_of_abs_lt (hle.trans_lt h) hk]

/-! ### Proportions -/

/-- `roundedProportion` computed with 128 bits, its result put into 64. -/
def roundedProportionAtWidth? (a b c : Int) : Option Int := do
  let product ← fit? 128 (a * b)
  let size ← fit? 128 c.natAbs
  let half ← fit? 128 (size / 2 * c.sign)
  let sum ← fit? 128 (if product < 0 ↔ c < 0 then product + half else product - half)
  fit? 64 (← fitQuotient? 128 sum c)

/-- A proportion of a number by at most one is no greater than the number, also after rounding. -/
theorem abs_roundedProportion_le (hc : c ≠ 0) (hb : |b| ≤ |c|) :
    |roundedProportion a b c| ≤ |a| := by
  have hcq : (0 : ℚ) < |(c : ℚ)| := by
    rw [abs_pos]
    exact_mod_cast hc
  have hratio : |(a : ℚ) * b / c| ≤ |(a : ℚ)| := by
    rw [mul_div_assoc, abs_mul, abs_div]
    exact mul_le_of_le_one_right (abs_nonneg _)
      (div_le_one_of_le₀ (by exact_mod_cast hb) (abs_nonneg _))
  have hround := (roundsAway_roundedProportion (a := a) (b := b) hc).1
  have hadd := abs_add_le ((roundedProportion a b c : ℚ) - a * b / c) (a * b / c)
  rw [sub_add_cancel] at hadd
  have hlt : |(roundedProportion a b c : ℚ)| < |(a : ℚ)| + 1 := by linarith
  have hlt' : |roundedProportion a b c| < |a| + 1 := by exact_mod_cast hlt
  omega

/-- **Nothing overflows** in a proportion, by at most one, of differences of coordinates. -/
theorem roundedProportionAtWidth?_eq (ha : |a| < 2 ^ 32) (hc : c ≠ 0) (hc' : |c| < 2 ^ 32)
    (hb : |b| ≤ |c|) : roundedProportionAtWidth? a b c = some (roundedProportion a b c) := by
  have hproduct : |a * b| < 2 ^ 64 := by
    rw [abs_mul]
    exact mul_lt_mul'' ha (hb.trans_lt hc') (abs_nonneg a) (abs_nonneg b)
  have hsize : |(c.natAbs : Int)| < 2 ^ 32 := by rwa [← Int.abs_eq_natAbs, abs_abs]
  obtain ⟨half, hhalf⟩ : ∃ half, (c.natAbs : Int) / 2 * c.sign = half := ⟨_, rfl⟩
  have hhalf' : |half| < 2 ^ 32 := by
    rw [← hhalf, abs_mul, Int.abs_sign_of_ne_zero hc, mul_one, abs_of_nonneg (by omega)]
    rw [Nat.abs_cast] at hsize
    omega
  -- Half of the divisor adds no more than one bit to the product.
  have hsum : |if a * b < 0 ↔ c < 0 then a * b + half else a * b - half| < 2 ^ 65 := by
    have hadd := abs_add_le (a * b) half
    have hsub := abs_sub (a * b) half
    split <;> omega
  have hresult : (if a * b < 0 ↔ c < 0 then a * b + half else a * b - half).tdiv c =
      roundedProportion a b c := by
    rw [roundedProportion, ← hhalf]
    split <;> rfl
  have hsmall : |roundedProportion a b c| < 2 ^ 32 :=
    (abs_roundedProportion_le hc hb).trans_lt ha
  simp only [roundedProportionAtWidth?, Option.bind_eq_bind, Option.bind_some,
    fit?_of_abs_lt hproduct (show 64 < 128 by decide),
    fit?_of_abs_lt hsize (show 32 < 128 by decide), hhalf,
    fit?_of_abs_lt hhalf' (show 32 < 128 by decide),
    fit?_of_abs_lt hsum (show 65 < 128 by decide),
    fitQuotient?_of_abs_lt hc hsum (show 65 < 128 by decide), hresult,
    fit?_of_abs_lt hsmall (show 32 < 64 by decide)]

example : roundedProportionAtWidth? 1 1 0 = none ∧
    roundedProportionAtWidth? (2 ^ 40) (2 ^ 23) 1 = none ∧
    roundedProportionAtWidth? (2 ^ 40) (2 ^ 23) 3 = some 3074457345618258603 := by decide

/-! ### Meeting points -/

/-- `RingEdge.meetingX` with 64 bits for every difference and sum of coordinates. -/
def RingEdge.meetingXAtWidth? (e : RingEdge) (y : Int) : Option Int :=
  if e.start.y = e.stop.y then some (max e.start.x e.stop.x)
  else do
    let width ← fit? 64 (e.stop.x - e.start.x)
    let height ← fit? 64 (e.stop.y - e.start.y)
    let climb ← fit? 64 (y - e.start.y)
    fit? 64 (e.start.x + (← roundedProportionAtWidth? width climb height))

namespace RingEdge

variable {e : RingEdge} {y : Int}

theorem meetingX_between (h : e.Reaches y) :
    min e.start.x e.stop.x ≤ e.meetingX y ∧ e.meetingX y ≤ max e.start.x e.stop.x :=
  Segment.Reaches.meetingX_between (e := ⟨e.start, e.stop⟩) h

/-- A height that the edge reaches is no further from its start than its stop is. -/
theorem abs_climb_le (h : e.Reaches y) : |y - e.start.y| ≤ |e.stop.y - e.start.y| := by
  rw [Reaches] at h
  rw [abs_le]
  have hle := le_abs_self (e.stop.y - e.start.y)
  have hneg := neg_le_abs (e.stop.y - e.start.y)
  omega

/-- An edge of the grid is met on the grid. -/
theorem inRange_meetingX (hstart : e.start.OnGrid) (hstop : e.stop.OnGrid) (h : e.Reaches y) :
    Coordinate.InRange (e.meetingX y) :=
  have hbetween := meetingX_between h
  ⟨(le_min hstart.1.1 hstop.1.1).trans hbetween.1, hbetween.2.trans (max_le hstart.1.2 hstop.1.2)⟩

/-- The distance of the meeting point from the start of the edge is the exact one, rounded. -/
theorem meetingX_eq_add_iff {k : Int} (hy : e.start.y ≠ e.stop.y) :
    e.meetingX y = e.start.x + k ↔ RoundsAway
      ((e.stop.x - e.start.x) * (y - e.start.y) / (e.stop.y - e.start.y)) k := by
  have heq := roundedProportion_eq_iff (a := e.stop.x - e.start.x) (b := y - e.start.y) (n := k)
    (sub_ne_zero.2 hy.symm)
  push_cast at heq
  rw [← heq, meetingX, if_neg hy, add_right_inj]

/-- **The computation at a fixed width** comes to the meeting point. -/
theorem meetingXAtWidth?_eq (hstart : e.start.OnGrid) (hstop : e.stop.OnGrid) (h : e.Reaches y) :
    e.meetingXAtWidth? y = some (e.meetingX y) := by
  by_cases hy : e.start.y = e.stop.y
  · rw [meetingXAtWidth?, meetingX, if_pos hy, if_pos hy]
  · have hwidth := Coordinate.abs_sub_lt hstop.1 hstart.1
    have hheight := Coordinate.abs_sub_lt hstop.2 hstart.2
    have hclimb := (abs_climb_le h).trans_lt hheight
    have hmeeting : |e.meetingX y| < 2 ^ 32 := by
      have hrange := inRange_meetingX hstart hstop h
      simp only [Coordinate.InRange, Coordinate.least, Coordinate.greatest] at hrange
      rw [abs_lt]
      omega
    rw [meetingX, if_neg hy] at hmeeting ⊢
    simp only [meetingXAtWidth?, if_neg hy, Option.bind_eq_bind, Option.bind_some,
      fit?_of_abs_lt hwidth (show 32 < 64 by decide),
      fit?_of_abs_lt hheight (show 32 < 64 by decide),
      fit?_of_abs_lt hclimb (show 32 < 64 by decide),
      roundedProportionAtWidth?_eq hwidth (sub_ne_zero.2 (Ne.symm hy)) hheight (abs_climb_le h),
      fit?_of_abs_lt hmeeting (show 32 < 64 by decide)]

/-- **On the grid nothing overflows.** An edge with ends on the grid meets a height that it reaches
between its ends, so that nothing is lost when the number is cut to the 32 bits of a coordinate.
When the edge is not horizontal, the number is off the exact one by at most one half: its distance
from the start of the edge is the exact one, rounded to the nearest integer, a half away from zero.
And the computation at a fixed width neither overflows nor divides by zero. -/
theorem meetingX_fits (hstart : e.start.OnGrid) (hstop : e.stop.OnGrid) (h : e.Reaches y) :
    (min e.start.x e.stop.x ≤ e.meetingX y ∧ e.meetingX y ≤ max e.start.x e.stop.x) ∧
      (Int32.ofInt (e.meetingX y)).toInt = e.meetingX y ∧
      (e.start.y ≠ e.stop.y →
        |(e.meetingX y : ℚ) - (⟨e.start, e.stop⟩ : Segment).crossingX y| ≤ 1 / 2 ∧
        ∀ k, e.meetingX y = e.start.x + k ↔ RoundsAway
          ((e.stop.x - e.start.x) * (y - e.start.y) / (e.stop.y - e.start.y)) k) ∧
      e.meetingXAtWidth? y = some (e.meetingX y) := by
  refine ⟨meetingX_between h, ?_, fun hy ↦ ⟨?_, fun k ↦ meetingX_eq_add_iff hy⟩,
    meetingXAtWidth?_eq hstart hstop h⟩
  · obtain ⟨hleast, hgreatest⟩ := inRange_meetingX hstart hstop h
    rw [Coordinate.least] at hleast
    rw [Coordinate.greatest] at hgreatest
    exact Int32.toInt_ofInt_of_le (by omega) (by omega)
  · exact Segment.abs_meetingX_sub_crossingX_le (e := ⟨e.start, e.stop⟩) hy

/-- An edge from a corner of the grid to the row before the opposite corner. It meets the middle row
halfway between two columns, and the distance from its start is rounded to `2 ^ 31`, which is no
coordinate itself. -/
theorem meetingX_fits_diagonal :
    let e : RingEdge := ⟨⟨-2147483648, 2147483647⟩, ⟨2147483647, -2147483647⟩, .joined, 0⟩
    e.start.OnGrid ∧ e.stop.OnGrid ∧ e.Reaches 0 ∧ e.start.y ≠ e.stop.y ∧ e.meetingX 0 = 0 ∧
      (min e.start.x e.stop.x ≤ e.meetingX 0 ∧ e.meetingX 0 ≤ max e.start.x e.stop.x) ∧
      (Int32.ofInt (e.meetingX 0)).toInt = e.meetingX 0 ∧
      |(e.meetingX 0 : ℚ) - (⟨e.start, e.stop⟩ : Segment).crossingX 0| ≤ 1 / 2 ∧
      RoundsAway ((e.stop.x - e.start.x) * ((0 : Int) - e.start.y) / (e.stop.y - e.start.y))
        2147483648 ∧
      e.meetingXAtWidth? 0 = some (e.meetingX 0) := by
  intro e
  have hstart : e.start.OnGrid := by decide
  have hstop : e.stop.OnGrid := by decide
  have hreaches : e.Reaches 0 := by decide
  have hy : e.start.y ≠ e.stop.y := by decide
  have hmeeting : e.meetingX 0 = 0 := by decide
  obtain ⟨hbetween, hcut, hround, hwidth⟩ := meetingX_fits hstart hstop hreaches
  exact ⟨hstart, hstop, hreaches, hy, hmeeting, hbetween, hcut, (hround hy).1,
    ((hround hy).2 2147483648).1 hmeeting, hwidth⟩

end RingEdge

end GridGeometry
