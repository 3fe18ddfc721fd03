import GridGeometry.Contour.Basic

/-!
# Polygons and regions

A polygon is an outline and a list of holes, and a region is a list of polygons. That holes lie
inside their outline is expected and not checked.

Vertices are addressed in two ways. A `VertexAddress` counts polygons, contours and vertices from
the front, the outline being contour zero. The editing operations take a signed polygon index, which
counts from the end when it is negative, and the index of a hole, or `none` for the outline.

## Main definitions

* `Polygon`, `Region`, `VertexAddress`: the types.
* `Region.polygonIndex`: what a signed polygon index stands for.
* `Region.modifyContour`: the common form of all changes to one contour.
-/

namespace GridGeometry

/-- A polygon: an outline and the holes in it. -/
structure Polygon where
  outline : Contour
  holes : List Contour
deriving DecidableEq, Repr, Inhabited

/-- A list of polygons. -/
structure Region where
  polygons : List Polygon
deriving DecidableEq, Repr, Inhabited

/-- The place of a vertex in a region: which polygon, which contour of it with the outline as
contour zero, and which vertex of that. -/
structure VertexAddress where
  polygon : Nat
  contour : Nat
  vertex : Nat
deriving DecidableEq, Repr, Inhabited

namespace VertexAddress

/-- Whether the vertex belongs to a hole. -/
def isHole (a : VertexAddress) : Bool := decide (0 < a.contour)

end VertexAddress

namespace Polygon

/-- The polygon without holes. -/
def ofOutline (outline : Contour) : Polygon := ⟨outline, []⟩

/-- The polygon with the given contours, the first of which is the outline. -/
def ofContours : List Contour → Except Fault Polygon
  | outline :: holes => .ok ⟨outline, holes⟩
  | [] => .error .missingOutline

/-- All contours, the outline first. -/
def contours (p : Polygon) : List Contour := p.outline :: p.holes

/-- The number of holes. -/
def holeCount (p : Polygon) : Nat := p.holes.length

/-- The number of contours. -/
def contourCount (p : Polygon) : Nat := p.contours.length

/-- Whether there is a hole. -/
def hasHoles (p : Polygon) : Bool := !p.holes.isEmpty

/-- The number of vertices of all contours. -/
def vertexCount (p : Polygon) : Nat := (p.contours.flatMap Contour.points).length

/-- Hole `index`. -/
def hole (p : Polygon) (index : Nat) : Except Fault Contour :=
  match p.holes[index]? with
  | some c => .ok c
  | none => .error (.noHole index p.holeCount)

/-- The polygon with hole `index` replaced. -/
def setHole (p : Polygon) (index : Nat) (c : Contour) : Except Fault Polygon :=
  if index < p.holeCount then .ok { p with holes := p.holes.set index c }
  else .error (.noHole index p.holeCount)

/-- The index of a new hole, and the polygon with it. -/
def addHole (p : Polygon) (c : Contour) : Nat × Polygon :=
  (p.holeCount, { p with holes := p.holes ++ [c] })

/-- Contour `index`, the outline being contour zero. -/
def contour (p : Polygon) (index : Nat) : Except Fault Contour :=
  match p.contours[index]? with
  | some c => .ok c
  | none => .error (.noContour index p.contourCount)

/-- The polygon with contour `index` replaced, the outline being contour zero. -/
def setContour (p : Polygon) (index : Nat) (c : Contour) : Except Fault Polygon :=
  match index with
  | 0 => .ok { p with outline := c }
  | k + 1 =>
    if k < p.holeCount then .ok { p with holes := p.holes.set k c }
    else .error (.noContour index p.contourCount)

/-- The polygon with `f` applied to every contour. -/
def mapContours (f : Contour → Contour) (p : Polygon) : Polygon := ⟨f p.outline, p.holes.map f⟩

/-- The polygon with `f`, which may fail, applied to every contour. -/
def mapContoursM (f : Contour → Except Fault Contour) (p : Polygon) : Except Fault Polygon := do
  let outline ← f p.outline
  let holes ← p.holes.mapM f
  return ⟨outline, holes⟩

/-- The polygon moved by `d`. -/
def shift (p : Polygon) (d : Point) : Except Fault Polygon := p.mapContoursM (·.shift d)

/-- The polygon without edges of length zero, and the number of vertices that went. -/
def dropNullEdges (p : Polygon) : Nat × Polygon :=
  let slim := p.mapContours Contour.withoutNullEdges
  (p.vertexCount - slim.vertexCount, slim)

end Polygon

namespace Region

/-- The region without polygons. -/
def empty : Region := ⟨[]⟩

/-- The region of one polygon. -/
def ofPolygon (p : Polygon) : Region := ⟨[p]⟩

/-! ### Counting -/

/-- The number of polygons, which is the number of outlines. -/
def size (r : Region) : Nat := r.polygons.length

/-- Whether there are no polygons. -/
def isEmpty (r : Region) : Bool := r.polygons.isEmpty

/-- Whether a polygon has a hole. -/
def hasHoles (r : Region) : Bool := r.polygons.any Polygon.hasHoles

/-- The number of vertices of all outlines and holes. -/
def vertexCount (r : Region) : Nat :=
  (r.polygons.flatMap fun p ↦ p.contours.flatMap Contour.points).length

/-! ### Looking up -/

/-- The place of the polygon that a signed index names: an index from the front, or a negative one
from the end, where -1 is the last polygon. -/
def polygonIndex (r : Region) (outline : Int) : Except Fault Nat :=
  let index := if outline < 0 then outline + r.size else outline
  if 0 ≤ index ∧ index < r.size then .ok index.toNat
  else .error (.noOutline outline r.size)

/-- Polygon `index`, counted from the front. -/
def polygonAt (r : Region) (index : Nat) : Except Fault Polygon :=
  match r.polygons[index]? with
  | some p => .ok p
  | none => .error (.noPolygon index r.size)

/-- The polygon that a signed index names. -/
def polygon (r : Region) (outline : Int) : Except Fault Polygon := do
  r.polygonAt (← r.polygonIndex outline)

/-- The outline of a polygon, or one of its holes. -/
def contour (r : Region) (outline : Int) (hole : Option Nat) : Except Fault Contour := do
  let p ← r.polygon outline
  match hole with
  | none => return p.outline
  | some h => p.hole h

/-- The number of holes of a polygon. -/
def holeCount (r : Region) (outline : Int) : Except Fault Nat := do
  return (← r.polygon outline).holeCount

/-- The number of vertices of an outline or a hole. -/
def contourSize (r : Region) (outline : Int) (hole : Option Nat) : Except Fault Nat := do
  return (← r.contour outline hole).size

/-- The vertex at an address. -/
def vertex (r : Region) (a : VertexAddress) : Except Fault Point := do
  let p ← r.polygonAt a.polygon
  let c ← p.contour a.contour
  c.point a.vertex

/-- A vertex of an outline or a hole. -/
def vertexAt (r : Region) (vertex : Nat) (outline : Int) (hole : Option Nat) :
    Except Fault Point := do
  (← r.contour outline hole).point vertex

/-! ### Changing -/

/-- The index of a new last polygon, and the region with it. -/
def addPolygon (r : Region) (p : Polygon) : Nat × Region :=
  (r.size, ⟨r.polygons ++ [p]⟩)

/-- The index of a new polygon with an empty closed outline, and the region with it. -/
def startPolygon (r : Region) : Nat × Region := r.addPolygon (.ofOutline (.closedOf []))

/-- The index of a new polygon with the given closed outline, and the region with it. -/
def addOutline (r : Region) (c : Contour) : Except Fault (Nat × Region) :=
  if c.closed then .ok (r.addPolygon (.ofOutline c)) else .error .openOutline

/-- The index of a new hole of a polygon, and the region with it. -/
def insertHole (r : Region) (outline : Int) (c : Contour) : Except Fault (Nat × Region) := do
  let i ← r.polygonIndex outline
  let p ← r.polygonAt i
  let (index, p) := p.addHole c
  return (index, ⟨r.polygons.set i p⟩)

/-- The index of a new empty closed hole of a polygon, and the region with it. -/
def startHole (r : Region) (outline : Int) : Except Fault (Nat × Region) :=
  r.insertHole outline (.closedOf [])

/-- The index of a new hole of a polygon, which must be closed, and the region with it. -/
def addHole (r : Region) (c : Contour) (outline : Int) : Except Fault (Nat × Region) :=
  if c.closed then r.insertHole outline c else .error .openHole

/-- The region with `f` applied to the outline of a polygon or to one of its holes. -/
def modifyContour (r : Region) (outline : Int) (hole : Option Nat) (f : Contour → Contour) :
    Except Fault Region := do
  let i ← r.polygonIndex outline
  let p ← r.polygonAt i
  let p ← match hole with
    | none => pure { p with outline := f p.outline }
    | some h => do p.setHole h (f (← p.hole h))
  return ⟨r.polygons.set i p⟩

/-- The region with `p` added to the end of a contour unless that repeats its last vertex, and the
contour's number of vertices after that. -/
def append (r : Region) (p : Point) (outline : Int) (hole : Option Nat) :
    Except Fault (Nat × Region) := do
  let r ← r.modifyContour outline hole (·.append p)
  return (← r.contourSize outline hole, r)

/-- The region with `p` added to the end of a contour, and the contour's number of vertices after
that. -/
def appendRepeat (r : Region) (p : Point) (outline : Int) (hole : Option Nat) :
    Except Fault (Nat × Region) := do
  let r ← r.modifyContour outline hole (·.appendRepeat p)
  return (← r.contourSize outline hole, r)

/-- Regions are put together by listing the polygons of the first before those of the second. -/
instance : Append Region where
  append r s := ⟨r.polygons ++ s.polygons⟩

/-- The region with the vertex at an address moved to `q`. -/
def setVertex (r : Region) (a : VertexAddress) (q : Point) : Except Fault Region := do
  let p ← r.polygonAt a.polygon
  let c ← p.contour a.contour
  let p ← p.setContour a.contour (← c.setPoint a.vertex q)
  return ⟨r.polygons.set a.polygon p⟩

/-- The region without polygon `index`; later polygons move up. -/
def erasePolygon (r : Region) (index : Nat) : Except Fault Region :=
  if index < r.size then .ok ⟨r.polygons.eraseIdx index⟩
  else .error (.noPolygon index r.size)

/-- The region with its polygons in the opposite order. -/
def reversePolygons (r : Region) : Region := ⟨r.polygons.reverse⟩

/-- The region moved by `d`. -/
def shift (r : Region) (d : Point) : Except Fault Region := do
  let polygons ← r.polygons.mapM (·.shift d)
  return ⟨polygons⟩

/-- The region without edges of length zero, and the number of vertices that went. -/
def dropNullEdges (r : Region) : Nat × Region :=
  let slim : Region := ⟨r.polygons.map (·.mapContours Contour.withoutNullEdges)⟩
  (r.vertexCount - slim.vertexCount, slim)

/-! ### Extent -/

/-- The least box that holds all outlines, grown by `clearance`, or `none` if no outline has a
vertex. -/
def box? (r : Region) (clearance : Int) : Option Box :=
  match r.polygons.filterMap (·.outline.box?) with
  | [] => none
  | b :: boxes => some ((boxes.foldl Box.union b).grow clearance)

end Region

end GridGeometry
