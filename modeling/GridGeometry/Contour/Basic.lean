import GridGeometry.Box
import GridGeometry.Segment

/-!
# Contours

A contour is a list of vertices together with the decision whether its last vertex is joined to its
first. Contours with no, one or two vertices are allowed everywhere, and so are repeated vertices.

## Main definitions

* `Contour.cycle`, `Contour.edges`: the edges of the closed cycle, and those of the contour itself.
* `Contour.doubledArea`: twice the enclosed area, positive when the contour runs counter-clockwise.
* `Contour.dropRepeats`, `Contour.dropClosing`: the two ways in which a vertex can be superfluous.
* `Contour.dropNullEdges`: the contour without edges of length zero, and how many vertices it lost.
-/

namespace GridGeometry

/-- A polyline on the grid, closed or open. -/
structure Contour where
  /-- The vertices in order. -/
  points : List Point
  /-- Whether an edge leads from the last vertex back to the first. -/
  closed : Bool
deriving DecidableEq, Repr, Inhabited

namespace Contour

/-! ### Building -/

/-- The open contour without vertices. -/
def empty : Contour := ⟨[], false⟩

/-- The closed contour through the given vertices. -/
def closedOf (points : List Point) : Contour := ⟨points, true⟩

/-- The list without the vertices that repeat their predecessor. -/
def dropRepeats : List Point → List Point
  | [] => []
  | [p] => [p]
  | p :: q :: l => if p = q then dropRepeats (q :: l) else p :: dropRepeats (q :: l)

/-- The closed contour through the given vertices, without those that repeat their predecessor. -/
def ofPoints (points : List Point) : Contour := closedOf (dropRepeats points)

/-! ### Vertices -/

/-- The number of vertices. -/
def size (c : Contour) : Nat := c.points.length

/-- Whether the contour has no vertices. -/
def isEmpty (c : Contour) : Bool := c.points.isEmpty

/-- Vertex `index`. -/
def point (c : Contour) (index : Nat) : Except Fault Point :=
  match c.points[index]? with
  | some p => .ok p
  | none => .error (.noVertex index c.size)

/-- The contour with vertex `index` moved to `p`. -/
def setPoint (c : Contour) (index : Nat) (p : Point) : Except Fault Contour :=
  if index < c.size then .ok { c with points := c.points.set index p }
  else .error (.noVertex index c.size)

/-- The last vertex. -/
def last? (c : Contour) : Option Point := c.points.getLast?

/-- Whether `p` is the last vertex. -/
def endsAt (c : Contour) (p : Point) : Bool := c.last? == some p

/-- The contour with `p` added at its end, also when that repeats the last vertex. -/
def appendRepeat (c : Contour) (p : Point) : Contour := { c with points := c.points ++ [p] }

/-- The contour with `p` added at its end, unless that would repeat the last vertex. -/
def append (c : Contour) (p : Point) : Contour := if c.endsAt p then c else c.appendRepeat p

/-! ### Edges -/

/-- The edges of the closed cycle through the vertices: each vertex is joined to its successor, and
the last one to the first. -/
def cycle : List Point → List Segment
  | [] => []
  | p :: l => List.zipWith Segment.mk (p :: l) (l ++ [p])

/-- The edges of the open path through the vertices. -/
def path (points : List Point) : List Segment := List.zipWith Segment.mk points points.tail

/-- The edges in order; edge `i` starts at vertex `i`. A closed contour of one vertex has one edge,
of length zero. -/
def edges (c : Contour) : List Segment := if c.closed then cycle c.points else path c.points

/-- The number of edges. -/
def edgeCount (c : Contour) : Nat := c.edges.length

/-- The edge from vertex `index` to its successor. -/
def edge (c : Contour) (index : Nat) : Except Fault Segment :=
  match c.edges[index]? with
  | some s => .ok s
  | none => .error (.noSegment index c.edgeCount)

/-- Whether `p` lies on an edge, or is the only vertex. -/
def touches (c : Contour) (p : Point) : Bool :=
  match c.points with
  | [v] => v == p
  | _ => c.edges.any (·.contains p)

/-! ### Extent and area -/

/-- The least box that holds the vertices, or `none` if there are none. -/
def box? (c : Contour) : Option Box := Box.ofPoints? c.points

/-- Twice the signed area of the triangles that `o` spans with the edges of the open path through
the vertices. -/
def fanFrom (o : Point) : List Point → Int
  | a :: b :: l => Point.cross o a b + fanFrom o (b :: l)
  | _ => 0

/-- Twice the signed area enclosed by the cycle through the vertices, summed over the triangles that
the first vertex spans with the edges not at it. -/
def fanArea : List Point → Int
  | [] => 0
  | o :: l => fanFrom o l

/-- Twice the signed enclosed area: positive when the vertices run counter-clockwise. -/
def doubledArea (c : Contour) : Int := fanArea c.points

/-- Whether the vertices run counter-clockwise around a positive area. -/
def isCounterclockwise (c : Contour) : Bool := decide (0 < c.doubledArea)

/-! ### Changes of the whole contour -/

/-- The contour with its vertices in the opposite order. -/
def reverse (c : Contour) : Contour := { c with points := c.points.reverse }

/-- The contour moved by `d`, which must keep it on the grid. -/
def shift (c : Contour) (d : Point) : Except Fault Contour := do
  let points ← c.points.mapM (·.add d)
  return { c with points }

/-- The list without the vertices at its end that equal the first one. The first vertex stays. -/
def dropClosing : List Point → List Point
  | [] => []
  | p :: l => p :: (l.reverse.dropWhile (· == p)).reverse

/-- The contour without edges of length zero: a vertex that repeats its predecessor goes, and on a
closed contour so does a last vertex equal to the first. -/
def withoutNullEdges (c : Contour) : Contour :=
  { c with points := if c.closed then dropClosing (dropRepeats c.points) else dropRepeats c.points }

/-- The contour without edges of length zero, and the number of vertices that went. -/
def dropNullEdges (c : Contour) : Nat × Contour :=
  let slim := c.withoutNullEdges
  (c.size - slim.size, slim)

end Contour

end GridGeometry
