import GridGeometry.Region.Basic

/-!
# Regions as the work of a clipper

A clipper combines regions, and grows or shrinks them. It sees a region as a list of closed paths,
where outlines run counter-clockwise and holes clockwise, and answers with a list of shapes, each a
list of paths with the outline first. This file turns a region into paths and shapes into a region.

## Main definitions

* `ClipRequest`, `Clipper`: what a clipper is asked, and a clipper as a function.
* `Region.toPaths`: the paths of a region.
* `Region.ofShapes`: the region of a clipper's answer.
-/

namespace GridGeometry

/-- The vertices of a closed contour as a clipper sees it. -/
abbrev ClosedPath := List Point

/-- A polygon in a clipper's answer: the path of its outline followed by those of its holes. -/
abbrev Shape := List ClosedPath

/-- A set operation on two regions, of which the first is the subject and the second the clip. -/
inductive SetOperation where
  | union
  | intersection
  | difference
deriving DecidableEq, Repr

/-- What a clipper can be asked. -/
inductive ClipRequest where
  /-- Combine two regions. A point belongs to a region when the paths wind around it a number of
  times other than zero. -/
  | combine (op : SetOperation) (subject clip : List ClosedPath)
  /-- Move the boundary of a region outward by a distance, or inward if that is negative, and join
  its corners by arcs in steps of at most `stepAngle`. -/
  | grow (paths : List ClosedPath) (distance stepAngle : Float)
deriving Repr

/-- A clipper answers every request with a list of shapes. -/
abbrev Clipper := ClipRequest → List Shape

namespace Contour

/-- The contour with its vertices in the opposite order if it does not run as wanted. -/
def directed (counterclockwise : Bool) (c : Contour) : Contour :=
  if c.isCounterclockwise = counterclockwise then c else c.reverse

/-- The path of a contour, which runs counter-clockwise for an outline and clockwise for a hole.
Contours of fewer than three vertices have none. -/
def toPath? (isOutline : Bool) (c : Contour) : Option ClosedPath :=
  if 3 ≤ c.size then some (c.directed isOutline).points else none

/-- The closed contour of a path without edges of length zero, if three vertices are left. -/
def ofPath? (path : ClosedPath) : Option Contour :=
  let c := (ofPoints path).withoutNullEdges
  if 3 ≤ c.size then some c else none

end Contour

namespace Polygon

/-- The paths of a polygon, its outline first. -/
def toPaths (p : Polygon) : List ClosedPath :=
  (p.outline.toPath? true).toList ++ p.holes.filterMap (Contour.toPath? false)

/-- The polygon of a shape, if its outline survives. Holes that do not survive are left out. -/
def ofShape? : Shape → Option Polygon
  | [] => none
  | outline :: holes =>
    (Contour.ofPath? outline).map fun c ↦
      ⟨c.directed true, (holes.filterMap Contour.ofPath?).map (Contour.directed false)⟩

end Polygon

namespace Region

/-- The paths of a region, polygon by polygon. -/
def toPaths (r : Region) : List ClosedPath := r.polygons.flatMap Polygon.toPaths

/-- The region of a clipper's answer, one polygon for each shape whose outline survives. -/
def ofShapes (shapes : List Shape) : Region := ⟨shapes.filterMap Polygon.ofShape?⟩

end Region

end GridGeometry
