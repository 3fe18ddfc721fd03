/-!
# Angles

Angles are floating-point numbers in radians.
-/

namespace GridGeometry

/-- Half of a full turn. -/
def halfTurn : Float := 3.141592653589793

/-- The number nearest to `v` between two bounds; what is not a number stays that. -/
def clampBetween (low high v : Float) : Float :=
  if v < low then low else if v > high then high else v

/-- The angle with the given cosine, which is first moved into the interval from -1 to 1. -/
def angleOfCosine (cosine : Float) : Float := (clampBetween (-1.0) 1.0 cosine).acos

end GridGeometry
