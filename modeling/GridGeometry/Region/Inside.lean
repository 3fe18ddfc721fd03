import GridGeometry.Contour.Inside
import GridGeometry.Region.Cursor

/-!
# Points inside a region

A polygon contains the points inside its outline that are not strictly inside a hole, so that the
edges of outline and holes belong to it. A region contains what its polygons contain.
-/

namespace GridGeometry

/-- Whether the polygon contains `p`, edges included. -/
def Polygon.contains (polygon : Polygon) (p : Point) : Bool :=
  polygon.outline.contains p &&
    polygon.holes.all fun hole ↦ !hole.contains p || hole.touches p

namespace Region

/-- Whether a polygon of the region contains `p`. -/
def contains (r : Region) (p : Point) : Bool := r.polygons.any (·.contains p)

/-- Whether the polygon that a signed index names contains `p`. -/
def containsAt (r : Region) (p : Point) (outline : Int) : Except Fault Bool := do
  return (← r.polygon outline).contains p

/-- Whether `p` lies on an edge of an outline or a hole. -/
def touches (r : Region) (p : Point) : Bool :=
  r.allEdges.any fun (_, s) ↦ s.contains p

end Region

end GridGeometry
