import GridGeometry.Contour.Corners
import GridGeometry.Region.Combine

/-!
# Regions with cut and rounded corners

A region is simplified and then has the corners of all contours replaced. Where nothing is to be cut
off, the simplified region stays as it is.
-/

namespace GridGeometry

/-- Whether the style leaves every corner as it is, because nothing is to be cut off. -/
def CornerStyle.isIdle : CornerStyle → Bool
  | chamfer distance => distance == 0
  | fillet radius _ => radius == 0

/-- The polygon with all corners replaced. -/
def Polygon.replaceCorners (style : CornerStyle) (p : Polygon) : Except Fault Polygon :=
  if style.isIdle then .ok p else p.mapContoursM (·.replaceCorners style)

namespace Region

/-- The region simplified and then with all corners replaced. -/
def replaceCorners (clip : Clipper) (style : CornerStyle) (r : Region) : Except Fault Region := do
  let polygons ← (r.simplify clip .plain).polygons.mapM (Polygon.replaceCorners style)
  return ⟨polygons⟩

/-- A copy of one polygon of the simplified region with all corners replaced, and the simplified
region. -/
def replaceCornersOf (clip : Clipper) (style : CornerStyle) (r : Region) (outline : Int) :
    Except Fault (Polygon × Region) := do
  let simplified := r.simplify clip .plain
  let p ← (← simplified.polygon outline).replaceCorners style
  return (p, simplified)

end Region

end GridGeometry
