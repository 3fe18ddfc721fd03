import GridGeometry.Region.Combine
import GridGeometry.Slit.Join

/-!
# Regions without holes

A region is simplified and then freed of holes by joining those of every polygon to its outline.
-/

namespace GridGeometry

/-- The polygon with its holes joined to its outline. -/
def Polygon.joinHoles (p : Polygon) : Polygon :=
  if p.hasHoles then ofOutline (GridGeometry.joinHoles p.contours) else p

/-- The region simplified and then freed of holes by slits. -/
def Region.joinHoles (clip : Clipper) (r : Region) (mode : ResultMode) : Region :=
  ⟨(r.simplify clip mode).polygons.map Polygon.joinHoles⟩

end GridGeometry
