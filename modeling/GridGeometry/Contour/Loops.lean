import GridGeometry.Contour.Basic

/-!
# Simple loops of a contour

A contour that visits a vertex twice is cut there: what lies between the two visits is a loop of its
own, and the walk goes on from the first visit. Every loop that results visits each of its vertices
once, and together they have the edges of the contour.
-/

namespace GridGeometry.Contour

/-- Follows the remaining vertices from the end of the simple path `walked`. A vertex already on the
path closes a loop, which starts at that vertex and is taken off the path; the path that is left at
the end is the last loop. -/
def loopsFrom (walked : List Point) : List Point → List (List Point)
  | [] => [walked]
  | p :: rest =>
    match walked.idxOf? p with
    | some k => (p :: walked.drop (k + 1)) :: loopsFrom (walked.take (k + 1)) rest
    | none => loopsFrom (walked ++ [p]) rest

/-- The simple loops of a contour, in the order in which the walk along it closes them. -/
def loops (c : Contour) : List Contour := (loopsFrom [] c.points).map closedOf

end GridGeometry.Contour
