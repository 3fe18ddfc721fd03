import GridGeometry.Point

/-!
# Segments

A directed segment between two points of the grid. Both questions asked of it, whether a point lies
on it and whether it meets another segment, are answered exactly, by signs of areas and by the boxes
around segments.
-/

namespace GridGeometry

/-- A directed segment; its two ends may coincide. -/
structure Segment where
  start : Point
  stop : Point
deriving DecidableEq, Repr, Inhabited

namespace Segment

/-- The segment run the other way. -/
def reversed (s : Segment) : Segment := ⟨s.stop, s.start⟩

/-- A segment is a single point when its ends coincide. -/
def IsPoint (s : Segment) : Prop := s.start = s.stop

instance (s : Segment) : Decidable s.IsPoint :=
  inferInstanceAs (Decidable (s.start = s.stop))

/-- The length. -/
def length (s : Segment) : Float := (s.stop.toVector - s.start.toVector).length

/-- The box with the ends of the segment in opposite corners holds the point. -/
def BoxHolds (s : Segment) (p : Point) : Prop :=
  min s.start.x s.stop.x ≤ p.x ∧ p.x ≤ max s.start.x s.stop.x ∧
    min s.start.y s.stop.y ≤ p.y ∧ p.y ≤ max s.start.y s.stop.y

instance (s : Segment) (p : Point) : Decidable (s.BoxHolds p) := by
  unfold BoxHolds
  exact inferInstance

/-- On which side of the segment's line `p` lies: positive to the left, zero on the line. -/
def side (s : Segment) (p : Point) : Int := Point.cross s.start s.stop p

/-- Whether `p` lies on the segment, ends included. -/
def contains (s : Segment) (p : Point) : Bool :=
  decide (s.side p = 0) && decide (s.BoxHolds p)

/-- The two numbers are on opposite sides of zero. -/
def OppositeSigns (a b : Int) : Prop := 0 < a ∧ b < 0 ∨ a < 0 ∧ 0 < b

instance (a b : Int) : Decidable (OppositeSigns a b) :=
  inferInstanceAs (Decidable (0 < a ∧ b < 0 ∨ a < 0 ∧ 0 < b))

/-- Whether the two segments share a point: either each separates the ends of the other, or an end
of one lies on the other. -/
def meets (s t : Segment) : Bool :=
  decide (OppositeSigns (t.side s.start) (t.side s.stop) ∧
      OppositeSigns (s.side t.start) (s.side t.stop)) ||
    t.contains s.start || t.contains s.stop ||
    s.contains t.start || s.contains t.stop

end Segment

end GridGeometry
