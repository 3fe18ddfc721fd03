import GridGeometry.Arrangement.Nest
import GridGeometry.Arrangement.Split
import GridGeometry.Region.Clipper

/-!
# Set operations by arrangement

The paths of both operands are laid over each other, split, filled and traced.
-/

namespace GridGeometry.Arrangement

/-- The contours of a result with at least the given area, from the edges of the operands. -/
def solve (rule : FillRule) (choice : Choice) (leastArea : Nat) (edges : List Edge) : Contours :=
  trace leastArea (links rule choice (split edges))

/-- Which points are inside the result of a set operation. -/
def Choice.ofOperation : SetOperation → Choice
  | .union => union
  | .intersection => intersection
  | .difference => difference

/-- The shapes of a set operation on two regions. -/
def combine (op : SetOperation) (subject clip : List ClosedPath) : List Shape :=
  nest (solve .nonzero (.ofOperation op) 0
    (pathEdges .ofSubject subject ++ pathEdges .ofClip clip))

end GridGeometry.Arrangement
