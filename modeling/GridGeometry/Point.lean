import GridGeometry.Coordinate
import GridGeometry.Vector

/-!
# Points of the grid

`Point` is a pair of integer coordinates. Arithmetic on points refuses results that leave the grid;
everything that measures (`cross`, `squaredDistance`) is exact and never fails.

## Main definitions

* `Point.OnGrid`: both coordinates are in range.
* `Point.add`, `Point.sub`, `Point.neg`: arithmetic that stays on the grid or faults.
* `Point.cross`: on which side of a directed line a point lies.
* `Point.Before`: the order by `x`, then by `y`.
-/

namespace GridGeometry

/-- A point of the grid. -/
structure Point where
  x : Int
  y : Int
deriving DecidableEq, Repr, Inhabited

namespace Point

/-- A point is on the grid when both of its coordinates are in range. -/
def OnGrid (p : Point) : Prop := Coordinate.InRange p.x ∧ Coordinate.InRange p.y

instance (p : Point) : Decidable p.OnGrid :=
  inferInstanceAs (Decidable (Coordinate.InRange p.x ∧ Coordinate.InRange p.y))

/-- The point where the axes meet. -/
def origin : Point := ⟨0, 0⟩

/-! ### Arithmetic on the grid -/

/-- The sum of two points, which must stay on the grid. -/
def add (p q : Point) : Except Fault Point := do
  let x ← Coordinate.checked .sumOverflow (p.x + q.x)
  let y ← Coordinate.checked .sumOverflow (p.y + q.y)
  return ⟨x, y⟩

/-- The difference of two points, which must stay on the grid. -/
def sub (p q : Point) : Except Fault Point := do
  let x ← Coordinate.checked .differenceOverflow (p.x - q.x)
  let y ← Coordinate.checked .differenceOverflow (p.y - q.y)
  return ⟨x, y⟩

/-- The point opposite to `p`, which must stay on the grid. -/
def neg (p : Point) : Except Fault Point := do
  let x ← Coordinate.checked .negationOverflow (-p.x)
  let y ← Coordinate.checked .negationOverflow (-p.y)
  return ⟨x, y⟩

/-! ### Exact measures -/

/-- The square of the distance between two points. -/
def squaredDistance (p q : Point) : Int :=
  (q.x - p.x) * (q.x - p.x) + (q.y - p.y) * (q.y - p.y)

/-- Twice the signed area of the triangle `o a b`: positive when `b` lies to the left of the line
from `o` to `a`, negative when it lies to the right, and zero when it lies on the line. -/
def cross (o a b : Point) : Int :=
  (a.x - o.x) * (b.y - o.y) - (a.y - o.y) * (b.x - o.x)

/-! ### Order -/

/-- A point comes before another when its `x` is less, or its `x` is equal and its `y` is less. -/
def Before (p q : Point) : Prop := p.x < q.x ∨ p.x = q.x ∧ p.y < q.y

instance (p q : Point) : Decidable (p.Before q) :=
  inferInstanceAs (Decidable (p.x < q.x ∨ p.x = q.x ∧ p.y < q.y))

instance : Ord Point where
  compare p q := (compare p.x q.x).then (compare p.y q.y)

/-! ### Vectors and text -/

/-- The vector from the origin to the point. -/
def toVector (p : Point) : Vector := ⟨Float.ofInt p.x, Float.ofInt p.y⟩

/-- The point of the grid nearest to the tip of `v`, coordinate by coordinate. -/
def ofVector (v : Vector) : Point := ⟨Coordinate.ofFloat v.x, Coordinate.ofFloat v.y⟩

instance : ToString Point where
  toString p := s!"{p.x} {p.y}"

end Point

end GridGeometry
