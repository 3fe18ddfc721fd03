import GridGeometry.Proofs.Text.Word
import GridGeometry.Text.Numeral
import Mathlib.Data.Nat.Digits.Defs

/-!
# What numerals denote

A numeral is a word of decimal digits behind an optional sign (`IsNumeral`). Reading accepts exactly
the numerals (`readInteger?_eq_some_iff`), and printing gives one (`isNumeral_toString`).
-/

namespace GridGeometry.Text

variable {w : Word}

/-- At least one digit and nothing else. -/
def IsDigits (w : Word) : Prop := w ≠ [] ∧ ∀ c ∈ w, c.isDigit = true

/-- The number that digits denote in the decimal system. -/
def decimalValue (digits : Word) : Nat :=
  Nat.ofDigits 10 (digits.reverse.map fun c ↦ c.toNat - '0'.toNat)

/-- The word denotes the integer: an optional sign is followed by digits. -/
inductive IsNumeral : Word → Int → Prop
  | unsigned {digits : Word} : IsDigits digits → IsNumeral digits (decimalValue digits)
  | plus {digits : Word} : IsDigits digits → IsNumeral ('+' :: digits) (decimalValue digits)
  | minus {digits : Word} : IsDigits digits → IsNumeral ('-' :: digits) (-(decimalValue digits))

/-- The first digit is multiplied by ten for every digit behind it. -/
theorem decimalValue_cons (c : Char) (w : Word) :
    decimalValue (c :: w) = 10 ^ w.length * (c.toNat - '0'.toNat) + decimalValue w := by
  rw [decimalValue, List.reverse_cons, List.map_append, Nat.ofDigits_append, List.length_map,
    List.length_reverse, List.map_singleton, Nat.ofDigits_singleton, Nat.add_comm, decimalValue]

theorem ofDigitChars_eq_decimalValue (w : Word) : Nat.ofDigitChars 10 w 0 = decimalValue w := by
  induction w with
  | nil => rfl
  | cons c w ih =>
    rw [Nat.ofDigitChars_cons, Nat.ofDigitChars_eq_ofDigitChars_zero, ih, decimalValue_cons,
      Nat.mul_zero, Nat.zero_add]

/-- A word is read as digits when it has one digit at least and nothing else. -/
theorem readDigits?_eq_some_iff {n : Nat} :
    readDigits? w = some n ↔ IsDigits w ∧ n = decimalValue w := by
  rw [readDigits?, Option.ite_none_right_eq_some, List.all_eq_true, ofDigitChars_eq_decimalValue,
    Option.some.injEq, IsDigits, eq_comm (a := n)]

/-- The sign is put to the number that the digits denote. -/
theorem map_readDigits?_eq_some_iff {sign : Int → Int} {n : Int} :
    (Option.map sign do return ((← readDigits? w : Nat) : Int)) = some n ↔
      IsDigits w ∧ n = sign (decimalValue w) := by
  have hread : ∀ m, readDigits? w = some m ↔ IsDigits w ∧ m = decimalValue w := fun _ ↦
    readDigits?_eq_some_iff
  rcases hw : readDigits? w with - | m
  · rw [hw] at hread
    simpa using fun h _ ↦ (hread (decimalValue w)).2 ⟨h, rfl⟩
  · obtain ⟨hdigits, rfl⟩ := (hread m).1 hw
    simp [hdigits, eq_comm]

/-- A word of digits does not begin with a sign. -/
theorem IsDigits.head_ne {c d : Char} (h : IsDigits (c :: w)) (hd : d.isDigit = false) : c ≠ d := by
  rintro rfl
  rw [h.2 c List.mem_cons_self] at hd
  exact Bool.false_ne_true hd.symm

/-- **Reading accepts the numerals** and gives what they denote. -/
theorem readInteger?_eq_some_iff {n : Int} : readInteger? w = some n ↔ IsNumeral w n := by
  constructor
  · intro h
    unfold readInteger? at h
    split at h
    all_goals obtain ⟨hdigits, rfl⟩ := map_readDigits?_eq_some_iff.1 h
    case h_1 => exact .minus hdigits
    case h_2 => exact .plus hdigits
    case h_3 => exact .unsigned hdigits
  · intro h
    cases h with
    | plus h => exact map_readDigits?_eq_some_iff.2 ⟨h, rfl⟩
    | minus h => exact map_readDigits?_eq_some_iff.2 ⟨h, rfl⟩
    | unsigned h =>
      rw [readInteger?]
      · exact map_readDigits?_eq_some_iff.2 ⟨h, rfl⟩
      · rintro digits rfl
        exact h.head_ne (by decide) rfl
      · rintro digits rfl
        exact h.head_ne (by decide) rfl

/-- A numeral is read within bounds when its number lies between them. -/
theorem readWithin?_eq_some_iff {least greatest n : Int} :
    readWithin? least greatest w = some n ↔ IsNumeral w n ∧ least ≤ n ∧ n ≤ greatest := by
  rw [readWithin?, Option.filter_eq_some_iff, readInteger?_eq_some_iff, decide_eq_true_eq]

/-! ### Printing -/

theorem isDigits_toDigits (n : Nat) : IsDigits (Nat.toDigits 10 n) :=
  ⟨Nat.toDigits_ne_nil, fun _ hc ↦ Nat.isDigit_of_mem_toDigits (by decide) (by decide) hc⟩

/-- The digits of a number denote it. -/
theorem decimalValue_toDigits (n : Nat) : decimalValue (Nat.toDigits 10 n) = n := by
  rw [← ofDigitChars_eq_decimalValue, Nat.ofDigitChars_ten_toDigits]

/-- An integer is printed as the digits of its absolute value, behind a sign if it is negative. -/
theorem toList_toString_int (n : Int) : (toString n).toList =
    if 0 ≤ n then Nat.toDigits 10 n.toNat else '-' :: Nat.toDigits 10 (-n).toNat := by
  show n.repr.toList = _
  rw [Int.repr_eq_if]
  split
  · exact Nat.toList_repr
  · rw [String.toList_append, Nat.toList_repr, String.toList_ofList, List.singleton_append]

theorem isNumeral_toString_nat (n : Nat) : IsNumeral (toString n).toList n := by
  have h := IsNumeral.unsigned (isDigits_toDigits n)
  rwa [decimalValue_toDigits, ← Nat.toList_repr] at h

/-- **A printed integer is a numeral** that denotes it. -/
theorem isNumeral_toString (n : Int) : IsNumeral (toString n).toList n := by
  rw [toList_toString_int]
  split
  case isTrue h =>
    have hnum := IsNumeral.unsigned (isDigits_toDigits n.toNat)
    rwa [decimalValue_toDigits, Int.toNat_of_nonneg h] at hnum
  case isFalse h =>
    have hnum := IsNumeral.minus (isDigits_toDigits (-n).toNat)
    rwa [decimalValue_toDigits, Int.toNat_of_nonneg (by omega), Int.neg_neg] at hnum

theorem isBlank_of_isDigit {c : Char} (h : c.isDigit = true) : isBlank c = false := by
  have hcode : 48 ≤ c.toNat ∧ c.toNat ≤ 57 := by
    simpa [Char.isDigit, UInt32.le_iff_toNat_le] using h
  simp only [isBlank, blankCodes, List.contains_cons, List.contains_nil, Bool.or_false,
    Bool.or_eq_false_iff, beq_eq_false_iff_ne]
  omega

/-- A numeral is a word. -/
theorem IsNumeral.isWord {n : Int} (h : IsNumeral w n) : IsWord w := by
  have hdigits : ∀ {digits : Word}, IsDigits digits → ∀ c ∈ digits, isBlank c = false :=
    fun h c hc ↦ isBlank_of_isDigit (h.2 c hc)
  cases h with
  | unsigned h => exact ⟨h.1, hdigits h⟩
  | plus h => exact ⟨List.cons_ne_nil _ _, List.forall_mem_cons.2 ⟨by decide, hdigits h⟩⟩
  | minus h => exact ⟨List.cons_ne_nil _ _, List.forall_mem_cons.2 ⟨by decide, hdigits h⟩⟩

end GridGeometry.Text
