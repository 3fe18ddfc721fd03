/-!
# Floating-point vectors

`Vector` is the companion of the grid's points where square roots and angles cannot be avoided:
corner cuts, arcs and offset curves.
-/

namespace GridGeometry

/-- The value of a finite number, exactly. -/
def exactValue (a : Float) : Dyadic :=
  match a.toModel.unpack with
  | .finite sign mantissa exponent _ => .ofIntWithPrec (sign.apply mantissa) (-exponent)
  | _ => 0

/-- The square root of an exact value, rounded once: to the nearest number, on a tie to the even
one. -/
def roundedRoot : Dyadic → Float
  | .zero => 0.0
  | .ofOdd n k _ =>
    let sign := if n < 0 then .negative else .positive
    .ofModel (.pack (.sqrt .binary64 (.finite sign n.natAbs (-k) (by omega))))

/-- A vector of the plane with floating-point components. -/
structure Vector where
  x : Float
  y : Float
deriving Repr, Inhabited

namespace Vector

instance : Add Vector where
  add u v := ⟨u.x + v.x, u.y + v.y⟩

instance : Sub Vector where
  sub u v := ⟨u.x - v.x, u.y - v.y⟩

instance : Neg Vector where
  neg v := ⟨-v.x, -v.y⟩

/-- The vector stretched by the factor `k`. -/
def scale (v : Vector) (k : Float) : Vector := ⟨v.x * k, v.y * k⟩

/-- The scalar product. -/
def dot (u v : Vector) : Float := u.x * v.x + u.y * v.y

/-- The third component of the vector product: positive when `v` lies to the left of `u`. -/
def cross (u v : Vector) : Float := u.x * v.y - u.y * v.x

/-- The length: the root of the exact sum of the squares, rounded once. An infinite component gives
an infinite length whatever the other one is. -/
def length (v : Vector) : Float :=
  if v.x.isInf || v.y.isInf then 1.0 / 0.0
  else if v.x.isNaN || v.y.isNaN then 0.0 / 0.0
  else
    let x := exactValue v.x
    let y := exactValue v.y
    roundedRoot (x * x + y * y)

end Vector

end GridGeometry
