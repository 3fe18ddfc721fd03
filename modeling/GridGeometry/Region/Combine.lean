import GridGeometry.Region.Clipper
import GridGeometry.Region.Loops

/-!
# Combining regions

Set operations on regions, carried out by a clipper. The result is either taken as the clipper gives
it or cut into simple loops afterwards.
-/

namespace GridGeometry

/-- What is done with a clipper's answer. -/
inductive ResultMode where
  /-- It is taken as it is. -/
  | plain
  /-- Contours that touch themselves are cut into simple loops. -/
  | simpleLoops
deriving DecidableEq, Repr, Inhabited

namespace Region

/-- The region of a clipper's answer, finished as the mode asks. -/
def ofAnswer (mode : ResultMode) (shapes : List Shape) : Region :=
  match mode with
  | .plain => ofShapes shapes
  | .simpleLoops => (ofShapes shapes).cutIntoLoops

/-- The request to combine two regions. -/
def combineRequest (op : SetOperation) (r s : Region) : ClipRequest :=
  .combine op r.toPaths s.toPaths

/-- The two regions combined. -/
def combine (clip : Clipper) (op : SetOperation) (r s : Region) (mode : ResultMode) : Region :=
  ofAnswer mode (clip (combineRequest op r s))

/-- The union of a region with nothing: overlaps, crossings and needless vertices are resolved. -/
def simplify (clip : Clipper) (r : Region) (mode : ResultMode) : Region :=
  combine clip .union r empty mode

end Region

end GridGeometry
