import GridGeometry.Fault

/-!
# Grid coordinates

A coordinate of the grid is an integer of 32 signed bits. Coordinates are kept as integers, so that
differences, products and areas are exact; this file holds the two ends of the range, the check that
a computed coordinate is still in it, and the two ways of forcing a number into it.

## Main definitions

* `Coordinate.InRange`: the number is a coordinate of the grid.
* `Coordinate.checked`: the number itself, or a fault if it left the grid.
* `Coordinate.clamp`: the nearest coordinate of the grid.
* `Coordinate.ofFloat`: the nearest coordinate of a floating-point number.
-/

namespace GridGeometry.Coordinate

/-- The least coordinate. -/
def least : Int := -2147483648

/-- The greatest coordinate. -/
def greatest : Int := 2147483647

/-- A number is in range when it is a coordinate of the grid. -/
def InRange (n : Int) : Prop := least ≤ n ∧ n ≤ greatest

instance (n : Int) : Decidable (InRange n) :=
  inferInstanceAs (Decidable (least ≤ n ∧ n ≤ greatest))

/-- The number itself if it is a coordinate, and otherwise the fault `overflow`. -/
def checked (overflow : Fault) (n : Int) : Except Fault Int :=
  if InRange n then .ok n else .error overflow

/-- The coordinate nearest to `n`: numbers beyond an end of the range give that end. -/
def clamp (n : Int) : Int := max least (min n greatest)

/-- The coordinate nearest to `v`. A half goes away from zero, numbers beyond an end of the range
give that end, and a number that is not a number gives zero. -/
def ofFloat (v : Float) : Int := v.round.toInt32.toInt

end GridGeometry.Coordinate
