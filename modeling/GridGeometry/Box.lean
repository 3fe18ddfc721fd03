import GridGeometry.Point

/-!
# Boxes

An axis-parallel box, given by its lower left and upper right corner. A box whose corners are out of
order holds no point.
-/

namespace GridGeometry

/-- An axis-parallel box, edges included. -/
structure Box where
  /-- The corner with the least coordinates. -/
  low : Point
  /-- The corner with the greatest coordinates. -/
  high : Point
deriving DecidableEq, Repr, Inhabited

namespace Box

/-- The box that holds `p` alone. -/
def ofPoint (p : Point) : Box := ⟨p, p⟩

/-- The extent along the `x` axis. -/
def width (b : Box) : Int := b.high.x - b.low.x

/-- The extent along the `y` axis. -/
def height (b : Box) : Int := b.high.y - b.low.y

/-- The least box that covers `b` and holds `p`. -/
def insert (b : Box) (p : Point) : Box :=
  ⟨⟨min b.low.x p.x, min b.low.y p.y⟩, ⟨max b.high.x p.x, max b.high.y p.y⟩⟩

/-- The least box that holds the given points, or `none` if there are none. -/
def ofPoints? : List Point → Option Box
  | [] => none
  | p :: l => some (l.foldl insert (ofPoint p))

/-- The least box that covers both boxes. -/
def union (b c : Box) : Box :=
  ⟨⟨min b.low.x c.low.x, min b.low.y c.low.y⟩, ⟨max b.high.x c.high.x, max b.high.y c.high.y⟩⟩

/-- The box moved outward by `clearance` on every side. Sides stop at the ends of the grid. -/
def grow (b : Box) (clearance : Int) : Box :=
  ⟨⟨Coordinate.clamp (b.low.x - clearance), Coordinate.clamp (b.low.y - clearance)⟩,
    ⟨Coordinate.clamp (b.high.x + clearance), Coordinate.clamp (b.high.y + clearance)⟩⟩

/-- A point is a member of a box when it lies between the corners, edges included. -/
instance : Membership Point Box where
  mem b p := b.low.x ≤ p.x ∧ p.x ≤ b.high.x ∧ b.low.y ≤ p.y ∧ p.y ≤ b.high.y

instance (p : Point) (b : Box) : Decidable (p ∈ b) :=
  inferInstanceAs (Decidable (b.low.x ≤ p.x ∧ p.x ≤ b.high.x ∧ b.low.y ≤ p.y ∧ p.y ≤ b.high.y))

/-- Two boxes meet when their extents overlap or touch along both axes. -/
def Meets (b c : Box) : Prop :=
  b.low.x ≤ c.high.x ∧ c.low.x ≤ b.high.x ∧ b.low.y ≤ c.high.y ∧ c.low.y ≤ b.high.y

instance (b c : Box) : Decidable (b.Meets c) :=
  inferInstanceAs (Decidable
    (b.low.x ≤ c.high.x ∧ c.low.x ≤ b.high.x ∧ b.low.y ≤ c.high.y ∧ c.low.y ≤ b.high.y))

end Box

end GridGeometry
