import GridGeometry.Text.Word

/-!
# Numerals

An integer is written as an optional sign followed by at least one of the ten ASCII digits. Zeros in
front are allowed. Numbers are printed without them, and with a sign only when they are negative.
-/

namespace GridGeometry.Text

/-- The number that a word of digits denotes. -/
def readDigits? (w : Word) : Option Nat :=
  if w ≠ [] ∧ w.all Char.isDigit then some (Nat.ofDigitChars 10 w 0) else none

/-- The integer that a word denotes. -/
def readInteger? : Word → Option Int
  | '-' :: digits => (readDigits? digits).map fun n ↦ -(n : Int)
  | '+' :: digits => (readDigits? digits).map fun n ↦ (n : Int)
  | digits => (readDigits? digits).map fun n ↦ (n : Int)

/-- The integer that a word denotes, if it lies between two bounds. -/
def readWithin? (least greatest : Int) (w : Word) : Option Int :=
  (readInteger? w).filter fun n ↦ least ≤ n ∧ n ≤ greatest

end GridGeometry.Text
