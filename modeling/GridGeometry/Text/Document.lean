import GridGeometry.Region.Basic

/-!
# The written form of a region

A region is written as the word `polyset` and the number of its polygons. For each polygon follow
the word `poly` and the number of its contours, and for each contour the number of its vertices and
their coordinates. Counts and vertices stand on lines of their own, and an empty line ends each
polygon.

The written form does not say whether a contour is closed.
-/

namespace GridGeometry

/-- The lines for a contour: the number of vertices, then one line for each. -/
def Contour.lines (c : Contour) : List String :=
  toString c.size :: c.points.map toString

/-- The lines for a polygon, the last of which is empty. -/
def Polygon.lines (p : Polygon) : List String :=
  s!"poly {p.contourCount}" :: p.contours.flatMap Contour.lines ++ [""]

/-- The lines for a region. -/
def Region.lines (r : Region) : List String :=
  s!"polyset {r.size}" :: r.polygons.flatMap Polygon.lines

/-- The written form of a region; every line ends with a line break. -/
def Region.write (r : Region) : String := String.join (r.lines.map (· ++ "\n"))

instance : ToString Region where
  toString r := r.write

end GridGeometry
