import GridGeometry.Proofs.Slit.HeldRing
import Mathlib.Algebra.GroupWithZero.Nat
import Mathlib.Data.List.Rotate

/-!
# Layouts

A `Layout` is what a table means while holes are being joined: the ring of everything joined so far,
the slits that made it, and the holes still to come or given up. `Layout.Fits` ties it to the table.
The table built from an outline and its holes fits the layout where every hole is waiting
(`fits_initial`).

## Main definitions

* `PlacedContour`: a contour with the place of its first edge.
* `Bridge.vertices`: the vertices that a slit puts into the joined ring.
* `Layout`, `Layout.Fits`: the rings of a table.
-/

namespace GridGeometry

theorem range_append_range' (n m : Nat) :
    List.range n ++ List.range' n m = List.range (n + m) := by
  have happend := List.range'_append_1 (s := 0) (m := n) (n := m)
  rw [List.range_eq_range', List.range_eq_range', ← happend, Nat.zero_add]

/-! ### Placed contours -/

/-- A contour with the place of the edge that starts at its first vertex. -/
structure PlacedContour where
  base : Nat
  contour : Contour
deriving DecidableEq, Repr

namespace PlacedContour

/-- The vertices of the ring of a contour. -/
def vertices (c : PlacedContour) : List RingVertex :=
  (c.contour.points.zipIdx c.base).map fun (p, i) ↦ ⟨i, p⟩

/-- The places of the edges of a contour. -/
def places (c : PlacedContour) : List Nat := List.range' c.base c.contour.size

/-- The vertex from which a hole is entered: the first of those with the least `x`. -/
def entrance? (c : PlacedContour) : Option RingVertex := c.vertices.minOn? (·.point.x)

/-- The vertices of the ring of a contour, from the edge at `place` on. -/
def verticesFrom (c : PlacedContour) (place : Nat) : List RingVertex :=
  c.vertices.rotate (place - c.base)

@[simp] theorem length_vertices (c : PlacedContour) : c.vertices.length = c.contour.size := by
  simp [vertices, Contour.size]

@[simp] theorem map_place_vertices (c : PlacedContour) :
    c.vertices.map RingVertex.place = c.places := by
  rw [vertices, List.map_map, places, Contour.size, ← List.zipIdx_map_snd]
  rfl

@[simp] theorem map_point_vertices (c : PlacedContour) :
    c.vertices.map RingVertex.point = c.contour.points := by
  rw [vertices, List.map_map]
  exact List.zipIdx_map_fst _ _

/-- The vertices of a contour have places in a row. -/
theorem getElem?_vertices (c : PlacedContour) (k : Nat) :
    c.vertices[k]? = c.contour.points[k]?.map fun p ↦ ⟨c.base + k, p⟩ := by
  simp [vertices, List.getElem?_zipIdx, Option.map_map, Function.comp_def]

end PlacedContour

/-- The contours in a row, the first edge of the first one at place `base`. -/
def placeContours : Nat → List Contour → List PlacedContour
  | _, [] => []
  | base, c :: l => ⟨base, c⟩ :: placeContours (base + c.size) l

/-- Only contours of the list are placed. -/
theorem mem_of_mem_placeContours {base : Nat} {holes : List Contour} {h : PlacedContour}
    (hh : h ∈ placeContours base holes) : h.contour ∈ holes := by
  induction holes generalizing base with
  | nil => simp [placeContours] at hh
  | cons c holes ih =>
    rw [placeContours, List.mem_cons] at hh
    rcases hh with rfl | hh
    · exact List.mem_cons_self
    · exact List.mem_cons_of_mem _ (ih hh)

/-- Every contour of the list is placed. -/
theorem exists_mem_placeContours (base : Nat) {holes : List Contour} {c : Contour}
    (hc : c ∈ holes) : ∃ h ∈ placeContours base holes, h.contour = c := by
  induction holes generalizing base with
  | nil => simp at hc
  | cons d holes ih =>
    rw [placeContours, List.exists_mem_cons_iff]
    rcases List.mem_cons.1 hc with rfl | hc
    · exact .inl rfl
    · exact .inr (ih (base + d.size) hc)

theorem countP_placeContours (base : Nat) (holes : List Contour) (p : Contour → Bool) :
    ((placeContours base holes).countP fun h ↦ p h.contour) = holes.countP p := by
  induction holes generalizing base with
  | nil => rfl
  | cons c holes ih => rw [placeContours, List.countP_cons, List.countP_cons, ih]

/-- Contours without vertices add nothing to a sum. -/
theorem sum_placeContours {f : Contour → Nat} (hf : ∀ c, c.points = [] → f c = 0) (base : Nat)
    (holes : List Contour) :
    (((placeContours base holes).filter fun h ↦ !h.contour.isEmpty).map
      fun h ↦ f h.contour).sum = (holes.map f).sum := by
  induction holes generalizing base with
  | nil => rfl
  | cons c holes ih =>
    rw [placeContours, List.map_cons, List.sum_cons, ← ih (base + c.size)]
    by_cases hc : c.points = []
    · simp [Contour.isEmpty, hc, hf c hc]
    · simp [Contour.isEmpty, hc]

/-- Contours in a row take up all places behind `base`. -/
theorem flatMap_places_placeContours (base : Nat) (holes : List Contour) :
    (placeContours base holes).flatMap PlacedContour.places =
      List.range' base (holes.map Contour.size).sum := by
  induction holes generalizing base with
  | nil => rfl
  | cons c holes ih =>
    rw [placeContours, List.flatMap_cons, ih, List.map_cons, List.sum_cons, PlacedContour.places,
      List.range'_append_1]

/-- Contours without vertices have no places. -/
theorem flatMap_vertices_filter (l : List PlacedContour) :
    (l.filter fun h ↦ !h.contour.isEmpty).flatMap PlacedContour.vertices =
      l.flatMap PlacedContour.vertices := by
  induction l with
  | nil => rfl
  | cons h l ih =>
    rw [List.flatMap_cons, ← ih]
    rcases hp : h.contour.points with - | ⟨p, points⟩
    · simp [Contour.isEmpty, PlacedContour.vertices, hp]
    · simp [Contour.isEmpty, hp]

theorem map_place_flatMap_vertices (l : List PlacedContour) :
    (l.flatMap PlacedContour.vertices).map RingVertex.place = l.flatMap PlacedContour.places := by
  simp [List.map_flatMap]

/-! ### Bridges -/

/-- A slit that has been made, with the hole that it joined and the place of the first of its three
edges. -/
structure Bridge where
  hole : PlacedContour
  slit : Slit
  base : Nat

namespace Bridge

/-- The hole once around from where the slit begins, and the way out from there. -/
def loop (b : Bridge) : List RingVertex :=
  b.hole.verticesFrom b.slit.hole ++ [⟨b.base + 2, b.slit.start⟩]

/-- The vertices that the slit adds to the ring behind the start of the split edge: the way in, the
loop around the hole, and the rest of the split edge. -/
def vertices (b : Bridge) : List RingVertex :=
  ⟨b.base + 1, b.slit.arrival⟩ :: b.loop ++ [⟨b.base, b.slit.arrival⟩]

/-- The places of the edges that join the ring: those of the hole and the three of the slit. -/
def places (b : Bridge) : List Nat := b.hole.places ++ List.range' b.base 3

/-- A slit adds the vertices of its hole and three of its own. -/
theorem length_vertices (b : Bridge) : b.vertices.length = b.hole.contour.size + 3 := by
  simp [vertices, loop, PlacedContour.verticesFrom]

/-- The vertices that a slit adds take up the places of the edges that join the ring. -/
theorem map_place_vertices_perm (b : Bridge) : (b.vertices.map RingVertex.place).Perm b.places := by
  have hrot : ((b.hole.verticesFrom b.slit.hole).map RingVertex.place).Perm b.hole.places := by
    rw [← b.hole.map_place_vertices]
    exact (List.rotate_perm _ _).map _
  have hrange : [b.base + 1, b.base + 2, b.base].Perm (List.range' b.base 3) :=
    List.perm_append_singleton b.base [b.base + 1, b.base + 2]
  calc b.vertices.map RingVertex.place
      = (b.base + 1) :: ((b.hole.verticesFrom b.slit.hole).map RingVertex.place ++
          [b.base + 2, b.base]) := by simp [vertices, loop]
    List.Perm _ ((b.hole.verticesFrom b.slit.hole).map RingVertex.place ++
          [b.base + 1, b.base + 2, b.base]) := List.perm_middle.symm
    List.Perm _ b.places := hrot.append hrange

end Bridge

/-! ### Layouts -/

/-- What a table means while holes are being joined. -/
structure Layout where
  /-- The ring of everything joined so far, from the first vertex of the outline on. -/
  joined : List RingVertex
  /-- The slits made so far. -/
  bridges : List Bridge
  /-- The holes that have not been looked at. -/
  waiting : List PlacedContour
  /-- The holes given up. -/
  dropped : List PlacedContour

namespace Layout

/-- All vertices, ring by ring. -/
def vertices (L : Layout) : List RingVertex :=
  L.joined ++ L.waiting.flatMap PlacedContour.vertices ++ L.dropped.flatMap PlacedContour.vertices

/-- The closed cycle of the edges joined so far. -/
def joinedEdges (L : Layout) : List Segment := Contour.cycle (L.joined.map RingVertex.point)

/-- The table has the rings of the layout. The contours `holes` are those that the table was built
from; the ones without vertices have no ring. -/
structure Fits (L : Layout) (holes : List PlacedContour) (t : RingTable) : Prop where
  joined : t.HoldsRing .joined L.joined
  waiting : ∀ h ∈ L.waiting, t.HoldsRing .waiting h.vertices
  dropped : ∀ h ∈ L.dropped, t.HoldsRing .dropped h.vertices
  /-- Every place belongs to exactly one vertex of one ring. -/
  places : (L.vertices.map RingVertex.place).Perm (List.range t.edges.size)
  count : t.waiting = (L.waiting.flatMap PlacedContour.vertices).length
  /-- The contours that the table was built from take up places of their own. -/
  distinct : (holes.flatMap PlacedContour.places).Nodup
  entries : t.entries = holes.flatMap fun h ↦ RingTable.leftmostPlaces h.base h.contour.points
  /-- Every hole with a vertex is in exactly one of the lists. -/
  holes : (L.bridges.map Bridge.hole ++ L.waiting ++ L.dropped).Perm
    (holes.filter fun h ↦ !h.contour.isEmpty)

/-- The layout before anything is joined. -/
def initial (outline : Contour) (holes : List Contour) : Layout where
  joined := (⟨0, outline⟩ : PlacedContour).vertices
  bridges := []
  waiting := (placeContours outline.size holes).filter fun h ↦ !h.contour.isEmpty
  dropped := []

end Layout

namespace RingTable

variable {t : RingTable} {state : RingState} {l : List RingVertex} {last : RingVertex}

/-- A path is held when the edge of every vertex leads to the next one in the list. -/
theorem holdsPath_of_getElem?
    (h : ∀ (k : Nat) (v w : RingVertex), l[k]? = some v → (l ++ [last])[k + 1]? = some w →
      t.Leads state v w) : t.HoldsPath state l last := by
  induction l with
  | nil => trivial
  | cons v l ih =>
    refine ⟨h 0 v _ rfl ?_, ih fun k v w hv hw ↦ h (k + 1) v w hv hw⟩
    cases l <;> rfl

/-- Around a contour, the vertex behind vertex `k` has the next place, and the last one is followed
by the first. -/
theorem getElem?_vertices_append {base k : Nat} {p : Point} {points : List Point} {closed : Bool}
    {w : RingVertex} (hk : k < points.length + 1)
    (hw : ((⟨base, ⟨p :: points, closed⟩⟩ : PlacedContour).vertices ++ [⟨base, p⟩])[k + 1]? =
      some w) :
    (points ++ [p])[k]? = some w.point ∧ w.place = base + (k + 1) % (points.length + 1) := by
  rcases Nat.lt_or_ge k points.length with hlt | hge
  · rw [List.getElem?_append_left (by simpa [Contour.size] using hlt),
      PlacedContour.getElem?_vertices, List.getElem?_cons_succ, Option.map_eq_some_iff] at hw
    obtain ⟨q, hq, rfl⟩ := hw
    rw [List.getElem?_append_left hlt,
      Nat.mod_eq_of_lt (show k + 1 < points.length + 1 by omega)]
    exact ⟨hq, rfl⟩
  · obtain rfl : k = points.length := by omega
    rw [List.getElem?_append_right (by simp [Contour.size])] at hw
    simp only [PlacedContour.length_vertices, Contour.size, List.length_cons, Nat.sub_self,
      List.getElem?_cons_zero, Option.some.injEq] at hw
    subst hw
    simp

/-- The edges that a contour puts into a table form its ring. -/
theorem holdsRing_vertices {c : PlacedContour}
    (h : ∀ k < c.contour.size, t.edges[c.base + k]? =
      (ringEdges state c.base c.contour.points)[k]?) : t.HoldsRing state c.vertices := by
  obtain ⟨base, ⟨points, closed⟩⟩ := c
  rcases points with - | ⟨p, points⟩
  · trivial
  · show t.HoldsPath state (⟨base, ⟨p :: points, closed⟩⟩ : PlacedContour).vertices ⟨base, p⟩
    refine holdsPath_of_getElem? fun k v w hv hw ↦ ?_
    rw [PlacedContour.getElem?_vertices] at hv
    obtain ⟨q, hq, rfl⟩ := Option.map_eq_some_iff.1 hv
    have hk : k < points.length + 1 := by simpa using (List.getElem?_eq_some_iff.1 hq).1
    obtain ⟨hstop, hnext⟩ := getElem?_vertices_append hk hw
    rw [Leads, h k hk, ringEdges, Contour.cycle]
    simp only [List.getElem?_map, List.getElem?_zipIdx, List.getElem?_zipWith, hq, hstop]
    simp [hnext]

/-! ### The table that holes are joined in -/

@[simp] theorem length_ringEdges (base : Nat) (points : List Point) :
    (ringEdges state base points).length = points.length := by
  simp [ringEdges]

theorem size_addHole (t : RingTable) (c : Contour) :
    (t.addHole c).edges.size = t.edges.size + c.size := by
  simp [addHole, Contour.size, array_append_list]

theorem getElem?_addHole_of_lt (c : Contour) {i : Nat} (hi : i < t.edges.size) :
    (t.addHole c).edges[i]? = t.edges[i]? := by
  rw [addHole, array_append_list, Array.getElem?_append_left hi]

/-- The edges of a new hole stand behind the others. -/
theorem getElem?_addHole_add (t : RingTable) (c : Contour) (k : Nat) :
    (t.addHole c).edges[t.edges.size + k]? = (ringEdges .waiting t.edges.size c.points)[k]? := by
  rw [addHole, array_append_list, Array.getElem?_append_right (Nat.le_add_right _ _),
    Nat.add_sub_cancel_left, List.getElem?_toArray]

theorem getElem?_addOutline (outline : Contour) (i : Nat) :
    (empty.addOutline outline).edges[i]? = (ringEdges .joined 0 outline.points)[i]? := by
  rw [addOutline, array_append_list]
  simp [empty]

theorem size_foldl_addHole (t : RingTable) (holes : List Contour) :
    (holes.foldl addHole t).edges.size = t.edges.size + (holes.map Contour.size).sum := by
  induction holes generalizing t with
  | nil => rfl
  | cons c holes ih =>
    rw [List.foldl_cons, ih, size_addHole, List.map_cons, List.sum_cons, Nat.add_assoc]

/-- Adding holes leaves the edges that are there already. -/
theorem getElem?_foldl_addHole (t : RingTable) (holes : List Contour) {i : Nat}
    (hi : i < t.edges.size) : (holes.foldl addHole t).edges[i]? = t.edges[i]? := by
  induction holes generalizing t with
  | nil => rfl
  | cons c holes ih =>
    rw [List.foldl_cons, ih _ (by rw [size_addHole]; omega), getElem?_addHole_of_lt c hi]

/-- The leftmost vertices of every hole become entries. -/
theorem entries_foldl_addHole (t : RingTable) (holes : List Contour) :
    (holes.foldl addHole t).entries = t.entries ++
      (placeContours t.edges.size holes).flatMap fun h ↦
        leftmostPlaces h.base h.contour.points := by
  induction holes generalizing t with
  | nil => simp [placeContours]
  | cons c holes ih =>
    rw [List.foldl_cons, ih, size_addHole, placeContours, List.flatMap_cons, addHole,
      List.append_assoc]

/-- The counter grows by the edges of all holes. -/
theorem waiting_foldl_addHole (t : RingTable) (holes : List Contour) :
    (holes.foldl addHole t).waiting = t.waiting + (holes.map Contour.size).sum := by
  induction holes generalizing t with
  | nil => rfl
  | cons c holes ih =>
    rw [List.foldl_cons, ih, addHole, List.map_cons, List.sum_cons, Nat.add_assoc]

/-- Every hole that is added has its ring, and keeps it while more holes are added. -/
theorem holdsRing_foldl_addHole (t : RingTable) (holes : List Contour) {h : PlacedContour}
    (hh : h ∈ placeContours t.edges.size holes) :
    (holes.foldl addHole t).HoldsRing .waiting h.vertices := by
  induction holes generalizing t with
  | nil => simp [placeContours] at hh
  | cons c holes ih =>
    rw [placeContours, List.mem_cons] at hh
    rcases hh with rfl | hh
    · refine holdsRing_vertices fun k hk ↦ ?_
      rw [List.foldl_cons, getElem?_foldl_addHole _ _ (by rw [size_addHole]; simpa using hk),
        getElem?_addHole_add]
    · exact ih (t.addHole c) (by rwa [size_addHole])

end RingTable

namespace Layout

theorem size_addOutline (outline : Contour) :
    (RingTable.empty.addOutline outline).edges.size = outline.size := by
  simp [RingTable.addOutline, RingTable.empty, Contour.size, array_append_list]

/-- The edges of the outline come first in the table. -/
theorem getElem?_ofContours (outline : Contour) (holes : List Contour) {i : Nat}
    (hi : i < outline.size) : (RingTable.ofContours outline holes).edges[i]? =
      (RingTable.ringEdges .joined 0 outline.points)[i]? := by
  rw [RingTable.ofContours, RingTable.getElem?_foldl_addHole _ _ (by rwa [size_addOutline]),
    RingTable.getElem?_addOutline]

/-- **The table built from an outline and its holes has every hole waiting.** -/
theorem fits_initial (outline : Contour) (holes : List Contour) :
    (initial outline holes).Fits (placeContours outline.size holes)
      (RingTable.ofContours outline holes) := by
  have hsize := size_addOutline outline
  have hplaces : ((initial outline holes).waiting.flatMap PlacedContour.vertices).map
      RingVertex.place = List.range' outline.size (holes.map Contour.size).sum := by
    rw [initial, flatMap_vertices_filter, map_place_flatMap_vertices,
      flatMap_places_placeContours]
  exact {
    joined := by
      refine RingTable.holdsRing_vertices fun k hk ↦ ?_
      rw [Nat.zero_add]
      exact getElem?_ofContours outline holes hk
    waiting := fun h hh ↦
      RingTable.holdsRing_foldl_addHole _ holes (hsize ▸ List.mem_of_mem_filter hh)
    dropped := by simp [initial]
    places := by
      rw [vertices, List.map_append, List.map_append, hplaces, RingTable.ofContours,
        RingTable.size_foldl_addHole, hsize, ← range_append_range']
      simp [initial, PlacedContour.places, List.range_eq_range']
    count := by
      rw [← List.length_map (f := RingVertex.place), hplaces, List.length_range',
        RingTable.ofContours, RingTable.waiting_foldl_addHole]
      simp [RingTable.addOutline, RingTable.empty]
    distinct := by
      rw [flatMap_places_placeContours]
      exact List.nodup_range'
    entries := by
      rw [RingTable.ofContours, RingTable.entries_foldl_addHole, hsize]
      simp [RingTable.addOutline, RingTable.empty]
    holes := by simp [initial] }

end Layout

end GridGeometry
