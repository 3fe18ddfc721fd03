import GridGeometry.Region.Basic

/-!
# Walking over a region

A `Walk` is a stretch of a region's polygons, with or without their holes. Its vertices are visited
one after another by a cursor, a vertex address that is moved on by `Walk.next?`. Before and after
each move `Walk.skipEmpty` carries the cursor over contours without vertices, so that it rests on a
vertex or behind the last polygon of the stretch.

## Main definitions

* `Walk.skipEmpty`: the first vertex at or behind an address.
* `Walk.next?`: the visit at a cursor, and the cursor after it.
* `Walk.visits`, `Walk.edges`: the whole stream of vertices, and the stream of edges.
* `Region.visitsBetween`: the visits of the polygons between two signed indices.
-/

namespace GridGeometry

/-- A stretch of the polygons of a region: those before `stop`, with or without holes. -/
structure Walk where
  polygons : List Polygon
  /-- The polygon behind the last one of the stretch. -/
  stop : Nat
  /-- Whether holes are visited. -/
  withHoles : Bool
deriving Repr

/-- A visit at a vertex. -/
structure Visit where
  address : VertexAddress
  /-- The edge from the vertex to its successor in the closed cycle of its contour. -/
  edge : Segment
  /-- Whether this is the last vertex of its contour. -/
  endsContour : Bool
  /-- Whether the vertex lies in the last polygon of the stretch. -/
  inLastPolygon : Bool
deriving DecidableEq, Repr

/-- The vertex visited. -/
def Visit.point (v : Visit) : Point := v.edge.start

namespace Walk

/-- The contours of polygon `index` that are visited. -/
def contoursOf (w : Walk) (index : Nat) : List Contour :=
  match w.polygons[index]? with
  | some p => if w.withHoles then p.contours else [p.outline]
  | none => []

/-- Carries an address forward to the first vertex at or behind it. -/
def skipEmpty (w : Walk) (a : VertexAddress) : VertexAddress :=
  if a.polygon < w.stop then
    match h : (w.contoursOf a.polygon)[a.contour]? with
    | some c => if a.vertex < c.size then a else w.skipEmpty ⟨a.polygon, a.contour + 1, 0⟩
    | none => w.skipEmpty ⟨a.polygon + 1, 0, 0⟩
  else a
termination_by (w.stop - a.polygon, (w.contoursOf a.polygon).length - a.contour)
decreasing_by
  · have := (List.getElem?_eq_some_iff.1 h).1
    exact Prod.Lex.right _ (by omega)
  · exact Prod.Lex.left _ _ (by omega)

/-- The visit at a cursor together with the cursor after it, or `none` behind the last vertex. -/
def next? (w : Walk) (a : VertexAddress) : Option (Visit × VertexAddress) :=
  if a.polygon < w.stop then do
    let c ← (w.contoursOf a.polygon)[a.contour]?
    let e ← (Contour.cycle c.points)[a.vertex]?
    let visit : Visit := ⟨a, e, a.vertex + 1 == c.size, a.polygon + 1 == w.stop⟩
    return (visit, w.skipEmpty { a with vertex := a.vertex + 1 })
  else none

/-! ### The whole stream -/

/-- The number of vertices of the contour at an address. -/
def lengthAt (w : Walk) (a : VertexAddress) : Nat :=
  match (w.contoursOf a.polygon)[a.contour]? with
  | some c => c.size
  | none => 0

/-- How far an address is from the end of the stretch: in polygons, then in contours, then in
vertices. -/
def distance (w : Walk) (a : VertexAddress) : Nat × Nat × Nat :=
  (w.stop - a.polygon, (w.contoursOf a.polygon).length - a.contour, w.lengthAt a - a.vertex)

/-- An address that is moved at all comes to a later contour, or to a later polygon. -/
theorem skipEmpty_eq_or_later (w : Walk) (a : VertexAddress) :
    w.skipEmpty a = a ∨ a.polygon < w.stop ∧
      (a.polygon < (w.skipEmpty a).polygon ∨
        (w.skipEmpty a).polygon = a.polygon ∧ a.contour < (w.skipEmpty a).contour ∧
          a.contour < (w.contoursOf a.polygon).length) := by
  fun_induction skipEmpty w a with
  | case1 => exact .inl rfl
  | case2 a h c hc hv ih =>
    have hlength := (List.getElem?_eq_some_iff.1 hc).1
    rcases ih with ih | ih
    · rw [ih]
      exact .inr ⟨h, .inr ⟨rfl, by simp, hlength⟩⟩
    · simp only at ih
      exact .inr ⟨h, by omega⟩
  | case3 a h hc ih =>
    rcases ih with ih | ih
    · rw [ih]
      exact .inr ⟨h, .inl (by simp)⟩
    · simp only at ih
      exact .inr ⟨h, by omega⟩
  | case4 => exact .inl rfl

/-- Each visit brings the cursor closer to the end of the stretch. -/
theorem distance_lt_of_next? {w : Walk} {a b : VertexAddress} {v : Visit}
    (h : w.next? a = some (v, b)) :
    Prod.Lex (· < ·) (Prod.Lex (· < ·) (· < ·)) (w.distance b) (w.distance a) := by
  unfold next? at h
  split at h
  · rename_i hstop
    simp only [bind, Option.bind_eq_some_iff, pure, Option.some.injEq, Prod.mk.injEq] at h
    obtain ⟨c, hc, e, he, _, rfl⟩ := h
    have hvertex : a.vertex < w.lengthAt a := by
      have := (List.getElem?_eq_some_iff.1 he).1
      cases hp : c.points with
      | nil => simp [hp, Contour.cycle] at this
      | cons p l => simp [hp, Contour.cycle] at this; simp [lengthAt, hc, Contour.size, hp, this]
    rcases skipEmpty_eq_or_later w { a with vertex := a.vertex + 1 } with
      hs | ⟨_, hs | ⟨h₁, h₂, h₃⟩⟩
    · rw [hs]
      have : w.lengthAt { a with vertex := a.vertex + 1 } = w.lengthAt a := rfl
      exact .right _ (.right _ (by simp only [this]; omega))
    · exact .left _ _ (by simp only at hs; omega)
    · unfold distance
      simp only at h₁ h₂ h₃
      rw [h₁]
      exact .right _ (.left _ _ (by omega))
  · simp at h

/-- The visits from a cursor on. -/
def visitsFrom (w : Walk) (a : VertexAddress) : List Visit :=
  match _h : w.next? a with
  | some (v, b) => v :: w.visitsFrom b
  | none => []
termination_by w.distance a
decreasing_by exact distance_lt_of_next? _h

/-- The visits from polygon `first` on. -/
def visits (w : Walk) (first : Nat) : List Visit := w.visitsFrom (w.skipEmpty ⟨first, 0, 0⟩)

/-- The edges from polygon `first` on, each with the address of the vertex where it starts. -/
def edges (w : Walk) (first : Nat) : List (VertexAddress × Segment) :=
  (w.visits first).map fun v ↦ (v.address, v.edge)

end Walk

namespace Region

/-- The walk over the first `stop` polygons. -/
def walk (r : Region) (stop : Nat) (withHoles : Bool) : Walk := ⟨r.polygons, stop, withHoles⟩

/-- The visits at all outline vertices. -/
def outlineVisits (r : Region) : List Visit := (r.walk r.size false).visits 0

/-- The visits at all vertices of outlines and holes. -/
def allVisits (r : Region) : List Visit := (r.walk r.size true).visits 0

/-- All outline edges. -/
def outlineEdges (r : Region) : List (VertexAddress × Segment) :=
  (r.walk r.size false).edges 0

/-- All edges of outlines and holes. -/
def allEdges (r : Region) : List (VertexAddress × Segment) :=
  (r.walk r.size true).edges 0

/-- What two signed polygon indices stand for, the first of which must not come after the second. -/
def outlineRange (r : Region) (first last : Int) : Except Fault (Nat × Nat) := do
  let first ← r.polygonIndex first
  let last ← r.polygonIndex last
  if first ≤ last then return (first, last) else throw (.reversedRange first last)

/-- The visits at the vertices of the polygons from `first` to `last`. -/
def visitsBetween (r : Region) (first last : Int) (withHoles : Bool) :
    Except Fault (List Visit) := do
  let (first, last) ← r.outlineRange first last
  return (r.walk (last + 1) withHoles).visits first

/-- The visits at the vertices of one polygon. -/
def visitsOf (r : Region) (outline : Int) (withHoles : Bool) : Except Fault (List Visit) :=
  r.visitsBetween outline outline withHoles

/-- The edges of the polygons from `first` to `last`. -/
def edgesBetween (r : Region) (first last : Int) (withHoles : Bool) :
    Except Fault (List (VertexAddress × Segment)) := do
  let (first, last) ← r.outlineRange first last
  return (r.walk (last + 1) withHoles).edges first

end Region

end GridGeometry
