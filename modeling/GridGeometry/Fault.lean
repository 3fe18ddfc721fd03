/-!
# Faults

A fault is a broken precondition: an index outside its range, an open contour where a closed one is
needed, or arithmetic that leaves the coordinate grid. Operations that can be misused return `Except
Fault`, and `Fault.message` is the one place that words a fault.
-/

namespace GridGeometry

/-- Why an operation refused its arguments. -/
inductive Fault where
  /-- A sum of coordinates left the grid. -/
  | sumOverflow
  /-- A difference of coordinates left the grid. -/
  | differenceOverflow
  /-- The negation of a coordinate left the grid. -/
  | negationOverflow
  /-- The contour of `count` vertices has no vertex `index`. -/
  | noVertex (index count : Nat)
  /-- The contour of `count` edges has no edge `index`. -/
  | noSegment (index count : Nat)
  /-- The polygon of `count` holes has no hole `index`. -/
  | noHole (index count : Nat)
  /-- The polygon of `count` contours has no contour `index`. -/
  | noContour (index count : Nat)
  /-- The region of `count` polygons has no polygon `index`. -/
  | noPolygon (index count : Nat)
  /-- The signed index `index` names none of the `count` polygons of a region. -/
  | noOutline (index : Int) (count : Nat)
  /-- The range of polygons from `first` to `last` runs backwards. -/
  | reversedRange (first last : Nat)
  /-- A polygon was to be built from no contours. -/
  | missingOutline
  /-- An open contour was offered as an outline. -/
  | openOutline
  /-- An open contour was offered as a hole. -/
  | openHole
deriving DecidableEq, Repr

namespace Fault

/-- The wording of a fault. -/
def message : Fault → String
  | sumOverflow => "attempt to add with overflow"
  | differenceOverflow => "attempt to subtract with overflow"
  | negationOverflow => "attempt to negate with overflow"
  | noVertex index count =>
    s!"vertex index {index} out of range for contour of {count} vertices"
  | noSegment index count =>
    s!"segment index {index} out of range for contour of {count} segments"
  | noHole index count => s!"hole index {index} out of range for polygon with {count} holes"
  | noContour index count =>
    s!"contour index {index} out of range for polygon with {count} contours"
  | noPolygon index count => s!"polygon index {index} out of range for set of {count} polygons"
  | noOutline index count => s!"outline index {index} out of range for set of {count} polygons"
  | reversedRange first last => s!"iteration range {first}..={last} is reversed"
  | missingOutline => "a polygon needs an outline contour"
  | openOutline => "an outline contour must be closed"
  | openHole => "a hole contour must be closed"

end Fault

end GridGeometry
