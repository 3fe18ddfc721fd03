import GridGeometry.Proofs.Least
import GridGeometry.Proofs.Slit.Layout
import Mathlib.Data.List.Pairwise

/-!
# What a slit joins to what

Two choices are made for every slit: the hole where it begins and the edge where it arrives. On a
table that fits a layout both are choices between the vertices and edges of the layout. The hole is
the waiting one that reaches furthest to the left, entered at the first of its leftmost vertices
(`Fits.nextHole?_eq`); the edge is the nearest of the joined ones to the left, and the hole is given
up exactly when there is none.
-/

namespace GridGeometry

/-! ### Where a hole is entered -/

namespace PlacedContour

variable {c : PlacedContour} {v : RingVertex}

theorem entrance?_eq_none : c.entrance? = none ↔ c.contour.points = [] := by
  rw [entrance?, minOn?_eq_none_iff, ← c.map_point_vertices, List.map_eq_nil_iff]

/-- **The entry of a hole** is the first of its leftmost vertices. -/
theorem exists_split_of_entrance? (h : c.entrance? = some v) :
    ∃ before after, c.vertices = before ++ v :: after ∧
      (∀ w ∈ before, v.point.x < w.point.x) ∧ ∀ w ∈ after, v.point.x ≤ w.point.x :=
  exists_split_of_minOn? h

theorem mem_of_entrance? (h : c.entrance? = some v) : v ∈ c.vertices :=
  List.minOn?_mem h

theorem le_of_entrance? {w : RingVertex} (h : c.entrance? = some v) (hw : w ∈ c.vertices) :
    v.point.x ≤ w.point.x := by
  rw [entrance?] at h
  have hle := List.apply_get_minOn?_le_of_mem (f := fun w : RingVertex ↦ w.point.x) hw
  rwa [Option.get_of_eq_some _ h] at hle

/-- The places of the vertices with a given `x`. -/
theorem filterMap_place_eq (l : List (Point × Nat)) (x : Int) :
    (l.filterMap fun (p, i) ↦ if p.x = x then some i else none) =
      ((l.map fun (p, i) ↦ RingVertex.mk i p).filter (·.point.x = x)).map RingVertex.place := by
  induction l with
  | nil => rfl
  | cons a l ih =>
    by_cases ha : a.1.x = x
    · simp [ha, ih]
    · simp [ha, ih]

/-- The places that may begin a slit: the entry of the hole comes first. -/
theorem leftmostPlaces_eq_cons (h : c.entrance? = some v) :
    ∃ rest : List RingVertex,
      RingTable.leftmostPlaces c.base c.contour.points = (v :: rest).map RingVertex.place ∧
        ∀ w ∈ v :: rest, w ∈ c.vertices ∧ w.point.x = v.point.x := by
  obtain ⟨before, after, hsplit, hbefore, -⟩ := exists_split_of_entrance? h
  have hleast : (c.contour.points.map Point.x).min? = some v.point.x := by
    rw [← c.map_point_vertices, List.map_map, List.min?_eq_some_iff]
    refine ⟨List.mem_map.2 ⟨v, mem_of_entrance? h, rfl⟩, fun x hx ↦ ?_⟩
    obtain ⟨w, hw, rfl⟩ := List.mem_map.1 hx
    exact le_of_entrance? h hw
  have hnone : before.filter (·.point.x = v.point.x) = [] :=
    List.filter_eq_nil_iff.2 fun w hw ↦ by simpa using Int.ne_of_gt (hbefore w hw)
  refine ⟨after.filter (·.point.x = v.point.x), ?_, fun w hw ↦ ?_⟩
  · rw [RingTable.leftmostPlaces, hleast]
    simp only [filterMap_place_eq]
    rw [← vertices, hsplit, List.filter_append, hnone, List.nil_append,
      List.filter_cons_of_pos (by simp)]
  · rcases List.mem_cons.1 hw with rfl | hw
    · exact ⟨mem_of_entrance? h, rfl⟩
    · rw [List.mem_filter, decide_eq_true_eq] at hw
      exact ⟨hsplit ▸ List.mem_append_right _ (List.mem_cons_of_mem _ hw.1), hw.2⟩

end PlacedContour

/-! ### The edges of a held ring -/

namespace RingTable

variable {t : RingTable} {state : RingState} {l : List RingVertex} {last : RingVertex} {e : Segment}

theorem HoldsPath.mem_pathTo (h : t.HoldsPath state l last) :
    e ∈ Contour.pathTo (l.map RingVertex.point) last.point ↔
      ∃ v ∈ l, ∃ w, t.Leads state v w ∧ e = ⟨v.point, w.point⟩ := by
  induction l with
  | nil => simp [Contour.pathTo]
  | cons v l ih =>
    rw [List.map_cons, Contour.pathTo, List.mem_cons, ih h.2, List.headD_map,
      List.exists_mem_cons_iff]
    refine or_congr_left ⟨fun he ↦ ⟨_, h.1, he⟩, ?_⟩
    rintro ⟨w, hw, rfl⟩
    rw [hw.unique h.1]

/-- The cycle through the points of a held ring has the edges that lead around it. -/
theorem HoldsRing.mem_cycle (h : t.HoldsRing state l) :
    e ∈ Contour.cycle (l.map RingVertex.point) ↔
      ∃ v ∈ l, ∃ w, t.Leads state v w ∧ e = ⟨v.point, w.point⟩ := by
  cases l with
  | nil => simp [Contour.cycle]
  | cons v l => rw [List.map_cons, Contour.cycle_cons]; exact HoldsPath.mem_pathTo h

end RingTable

/-! ### The hole that comes next -/

/-- The waiting edges of a contour at which a slit may begin, with their starting points. -/
def RingTable.offers (t : RingTable) (c : PlacedContour) : List (Nat × Point) :=
  (leftmostPlaces c.base c.contour.points).filterMap fun i ↦ (t.waitingStart? i).map (i, ·)

namespace Layout

/-- The hole `h` is the next one, entered at `v`: no waiting hole reaches further to the left. -/
structure Next (L : Layout) (h : PlacedContour) (v : RingVertex) : Prop where
  mem : h ∈ L.waiting
  entry : h.entrance? = some v
  least : ∀ h' ∈ L.waiting, ∀ w ∈ h'.vertices, v.point.x ≤ w.point.x

variable {L : Layout} {holes : List PlacedContour} {t : RingTable} {h : PlacedContour}
  {v : RingVertex} {i : Nat} {e : RingEdge}

namespace Fits

/-! ### Which ring an edge belongs to -/

theorem nodup (hf : L.Fits holes t) : (L.vertices.map RingVertex.place).Nodup :=
  hf.places.nodup_iff.2 List.nodup_range

/-- Every edge of the table starts at a vertex of the layout. -/
theorem exists_mem_vertices (hf : L.Fits holes t) (he : t.edges[i]? = some e) :
    ∃ v ∈ L.vertices, v.place = i := by
  have hi : i ∈ List.range t.edges.size := List.mem_range.2 (Array.getElem?_eq_some_iff.1 he).1
  exact List.mem_map.1 (hf.places.mem_iff.2 hi)

/-- The state of an edge tells the kind of its ring. -/
theorem exists_ring (hf : L.Fits holes t) (he : t.edges[i]? = some e) :
    ∃ v w : RingVertex, v.place = i ∧ e = ⟨v.point, w.point, e.state, w.place⟩ ∧
      (e.state = .joined ∧ v ∈ L.joined ∨
        e.state = .waiting ∧ (∃ h ∈ L.waiting, v ∈ h.vertices) ∨
        e.state = .dropped ∧ ∃ h ∈ L.dropped, v ∈ h.vertices) := by
  obtain ⟨v, hv, rfl⟩ := hf.exists_mem_vertices he
  have hedge : ∀ {state : RingState} {w : RingVertex}, t.Leads state v w →
      e = ⟨v.point, w.point, state, w.place⟩ := fun hw ↦ Option.some.inj (he.symm.trans hw)
  simp only [vertices, List.mem_append, List.mem_flatMap] at hv
  rcases hv with (hv | ⟨h, hh, hv⟩) | ⟨h, hh, hv⟩
  · obtain ⟨w, hw⟩ := hf.joined.exists_leads hv
    obtain rfl := hedge hw
    exact ⟨v, w, rfl, rfl, .inl ⟨rfl, hv⟩⟩
  · obtain ⟨w, hw⟩ := (hf.waiting h hh).exists_leads hv
    obtain rfl := hedge hw
    exact ⟨v, w, rfl, rfl, .inr (.inl ⟨rfl, h, hh, hv⟩)⟩
  · obtain ⟨w, hw⟩ := (hf.dropped h hh).exists_leads hv
    obtain rfl := hedge hw
    exact ⟨v, w, rfl, rfl, .inr (.inr ⟨rfl, h, hh, hv⟩)⟩

/-- Joined edges start at vertices of the joined ring. -/
theorem mem_joined (hf : L.Fits holes t) {w : RingVertex} (hvw : t.Leads .joined v w) :
    v ∈ L.joined := by
  obtain ⟨x, y, hplace, -, hring⟩ := hf.exists_ring hvw
  have hx : x ∈ L.joined := by simpa using hring
  obtain ⟨z, hxz⟩ := hf.joined.exists_leads hx
  obtain ⟨rfl, -⟩ := hxz.eq_of_place_eq hvw hplace
  exact hx

/-- A hole in one of the lists of a layout is one of those the table was built from. -/
theorem mem_holes (hf : L.Fits holes t) (hh : h ∈ L.waiting) :
    h ∈ holes ∧ h.contour.points ≠ [] := by
  have hmem := hf.holes.mem_iff.1 (List.mem_append_left _ (List.mem_append_right _ hh))
  rw [List.mem_filter] at hmem
  exact ⟨hmem.1, by simpa [Contour.isEmpty] using hmem.2⟩

theorem mem_holes_of_bridge (hf : L.Fits holes t) {b : Bridge} (hb : b ∈ L.bridges) :
    b.hole ∈ holes :=
  List.mem_of_mem_filter (hf.holes.mem_iff.1 (List.mem_append_left _
    (List.mem_append_left _ (List.mem_map_of_mem hb))))

theorem mem_holes_of_dropped (hf : L.Fits holes t) (hh : h ∈ L.dropped) : h ∈ holes :=
  List.mem_of_mem_filter (hf.holes.mem_iff.1 (List.mem_append_right _ hh))

/-- Holes that share a place are the same. -/
theorem eq_of_mem_places (hf : L.Fits holes t) {h h' : PlacedContour} (hh : h ∈ holes)
    (hh' : h' ∈ holes) (hi : i ∈ h.places) (hi' : i ∈ h'.places) : h = h' := by
  by_contra hne
  have hsymm : Std.Symm (Function.onFun List.Disjoint PlacedContour.places) :=
    ⟨fun _ _ hab ↦ List.disjoint_symm hab⟩
  exact (List.nodup_flatMap.1 hf.distinct).2.forall hh hh' hne hi hi'

/-- Of the places that may begin a slit, those of a waiting hole are left, and no others. -/
theorem waitingStart?_place (hf : L.Fits holes t) (hh : h ∈ holes) (hv : v ∈ h.vertices) :
    t.waitingStart? v.place = if h ∈ L.waiting then some v.point else none := by
  have hplace : v.place ∈ h.places := h.map_place_vertices ▸ List.mem_map_of_mem hv
  by_cases hw : h ∈ L.waiting
  · obtain ⟨w, hvw⟩ := (hf.waiting h hw).exists_leads hv
    rw [if_pos hw, RingTable.waitingStart?, hvw]
    rfl
  · rw [if_neg hw, RingTable.waitingStart?]
    rcases he : t.edges[v.place]? with - | e
    · rfl
    · obtain ⟨x, w, hx, hedge, hstate⟩ := hf.exists_ring he
      have hne : e.state ≠ .waiting := by
        rintro hwaiting
        rw [hwaiting] at hstate
        obtain ⟨h', hh', hxmem⟩ : ∃ h' ∈ L.waiting, x ∈ h'.vertices := by simpa using hstate
        have hplace' : v.place ∈ h'.places :=
          hx ▸ h'.map_place_vertices ▸ List.mem_map_of_mem hxmem
        exact hw (hf.eq_of_mem_places hh (hf.mem_holes hh').1 hplace hplace' ▸ hh')
      exact if_neg hne

/-- A waiting hole offers its entry first, and then vertices as far to the left. -/
theorem offers_of_mem (hf : L.Fits holes t) (hw : h ∈ L.waiting) (hentry : h.entrance? = some v) :
    ∃ rest, t.offers h = (v.place, v.point) :: rest ∧ ∀ b ∈ rest, b.2.x = v.point.x := by
  obtain ⟨rest, hplaces, hrest⟩ := PlacedContour.leftmostPlaces_eq_cons hentry
  refine ⟨rest.map fun w ↦ (w.place, w.point), ?_, fun b hb ↦ ?_⟩
  · rw [RingTable.offers, hplaces, List.filterMap_map,
      ← List.map_cons (f := fun w : RingVertex ↦ (w.place, w.point)), ← List.filterMap_eq_map]
    refine List.filterMap_congr fun w hw' ↦ ?_
    rw [Function.comp_apply, hf.waitingStart?_place (hf.mem_holes hw).1 (hrest w hw').1, if_pos hw]
    rfl
  · obtain ⟨w, hw', rfl⟩ := List.mem_map.1 hb
    exact (hrest w (List.mem_cons_of_mem _ hw')).2

/-- A hole that is not waiting offers nothing. -/
theorem offers_of_notMem (hf : L.Fits holes t) (hh : h ∈ holes) (hw : h ∉ L.waiting) :
    t.offers h = [] := by
  rcases hentry : h.entrance? with - | v
  · rw [PlacedContour.entrance?_eq_none] at hentry
    simp [RingTable.offers, RingTable.leftmostPlaces, hentry]
  · obtain ⟨rest, hplaces, hrest⟩ := PlacedContour.leftmostPlaces_eq_cons hentry
    rw [RingTable.offers, hplaces, List.filterMap_map, List.filterMap_eq_nil_iff]
    intro w hw'
    rw [Function.comp_apply, hf.waitingStart?_place hh (hrest w hw').1, if_neg hw]
    rfl

theorem exists_entrance? (hf : L.Fits holes t) (hw : h ∈ L.waiting) : ∃ v, h.entrance? = some v :=
  Option.ne_none_iff_exists'.1 fun hnone ↦
    (hf.mem_holes hw).2 (PlacedContour.entrance?_eq_none.1 hnone)

/-- **The next hole** is the waiting one whose entry lies furthest to the left, the first of these,
and it is entered there. -/
theorem nextHole?_eq (hf : L.Fits holes t) :
    t.nextHole? = (holes.filterMap fun h ↦
      if h ∈ L.waiting then h.entrance?.map fun v ↦ (v.place, v.point) else none).minOn?
        fun (_, p) ↦ p.x := by
  have hoffers : ∀ h ∈ holes, (t.offers h).minOn? (fun (_, p) ↦ p.x) = (t.offers h).head? ∧
      (t.offers h).head? =
        if h ∈ L.waiting then h.entrance?.map fun v ↦ (v.place, v.point) else none := by
    intro h hh
    by_cases hw : h ∈ L.waiting
    · obtain ⟨v, hv⟩ := hf.exists_entrance? hw
      obtain ⟨rest, heq, hrest⟩ := hf.offers_of_mem hw hv
      rw [heq, if_pos hw, hv]
      exact ⟨minOn?_cons_of_le fun b hb ↦ Int.le_of_eq (hrest b hb).symm, rfl⟩
    · rw [hf.offers_of_notMem hh hw, if_neg hw]
      exact ⟨rfl, rfl⟩
  rw [RingTable.nextHole?, hf.entries, List.filterMap_flatMap]
  show (holes.flatMap t.offers).minOn? _ = _
  rw [minOn?_flatMap fun h hh ↦ (hoffers h hh).1]
  exact congrArg _ (List.filterMap_congr fun h hh ↦ (hoffers h hh).2)

/-- The hole that the table chooses is the next one of the layout. -/
theorem next_of_nextHole? (hf : L.Fits holes t) {place : Nat} {p : Point}
    (hn : t.nextHole? = some (place, p)) : ∃ h, L.Next h ⟨place, p⟩ := by
  rw [hf.nextHole?_eq] at hn
  obtain ⟨h, hh, heq⟩ := List.mem_filterMap.1 (List.minOn?_mem hn)
  split at heq
  · rename_i hw
    obtain ⟨v, hv, hvp⟩ := Option.map_eq_some_iff.1 heq
    obtain ⟨rfl, rfl⟩ := Prod.mk.inj hvp
    refine ⟨h, hw, hv, fun h' hw' w hwmem ↦ ?_⟩
    obtain ⟨v', hv'⟩ := hf.exists_entrance? hw'
    have hoffer : (v'.place, v'.point) ∈ holes.filterMap fun h ↦
        if h ∈ L.waiting then h.entrance?.map fun v ↦ (v.place, v.point) else none :=
      List.mem_filterMap.2 ⟨h', (hf.mem_holes hw').1, by rw [if_pos hw', hv']; rfl⟩
    have hle := List.apply_get_minOn?_le_of_mem (f := fun b : Nat × Point ↦ b.2.x) hoffer
    rw [Option.get_of_eq_some _ hn] at hle
    exact Int.le_trans hle (PlacedContour.le_of_entrance? hv' hwmem)
  · simp at heq

/-- While an edge is waiting there is a next hole. -/
theorem exists_nextHole? (hf : L.Fits holes t) (ht : 0 < t.waiting) :
    ∃ place p, t.nextHole? = some (place, p) := by
  rw [hf.count] at ht
  obtain ⟨w, hw⟩ := List.exists_mem_of_length_pos ht
  obtain ⟨h, hh, -⟩ := List.mem_flatMap.1 hw
  obtain ⟨v, hv⟩ := hf.exists_entrance? hh
  rcases hn : t.nextHole? with - | ⟨place, p⟩
  · rw [hf.nextHole?_eq, minOn?_eq_none_iff, List.filterMap_eq_nil_iff] at hn
    simpa [hh, hv] using hn h (hf.mem_holes hh).1
  · exact ⟨place, p, rfl⟩

end Fits

end Layout

/-! ### Where a slit arrives -/

/-- The height `y` is one that the segment reaches. -/
def Segment.Reaches (e : Segment) (y : Int) : Prop :=
  RingEdge.Reaches ⟨e.start, e.stop, .joined, 0⟩ y

/-- Where the segment meets the height `y`, rounded to the grid. -/
def Segment.meetingX (e : Segment) (y : Int) : Int :=
  RingEdge.meetingX ⟨e.start, e.stop, .joined, 0⟩ y

namespace RingTable

variable {t : RingTable} {p : Point} {i : Nat} {e : RingEdge} {x : Int}

theorem mem_edgesLeftOf :
    (i, e, x) ∈ t.edgesLeftOf p ↔ t.edges[i]? = some e ∧ e.state = .joined ∧ e.Reaches p.y ∧
      e.meetingX p.y ≤ p.x ∧ x = e.meetingX p.y := by
  simp only [edgesLeftOf, List.mem_filterMap, Prod.exists, List.mk_mem_zipIdx_iff_getElem?,
    Array.getElem?_toList, Option.ite_none_right_eq_some, Option.some.injEq, Prod.mk.injEq]
  constructor
  · rintro ⟨e', i', hi, ⟨hs, hr, hle⟩, rfl, rfl, rfl⟩
    exact ⟨hi, hs, hr, hle, rfl⟩
  · rintro ⟨hi, hs, hr, hle, rfl⟩
    exact ⟨e, i, hi, ⟨hs, hr, hle⟩, rfl, rfl, rfl⟩

/-- The edges to the left come in order of their places. -/
theorem pairwise_edgesLeftOf (t : RingTable) (p : Point) :
    (t.edgesLeftOf p).Pairwise fun a b ↦ a.1 < b.1 := by
  refine (pairwise_zipIdx t.edges.toList 0).filterMap _ fun x y hxy a ha b hb ↦ ?_
  obtain rfl := Option.some.inj (Option.ite_none_right_eq_some.1 ha).2
  obtain rfl := Option.some.inj (Option.ite_none_right_eq_some.1 hb).2
  exact hxy

end RingTable

/-- The slit arrives where the edge that it splits meets its height. -/
structure Slit.Meets (s : Slit) : Prop where
  reaches : s.split.Reaches s.start.y
  arrival : s.arrival = ⟨s.split.meetingX s.start.y, s.start.y⟩

namespace RingTable

variable {t : RingTable} {place : Nat} {p : Point} {s : Slit}

/-- The slit arrives at the nearest of the joined edges of the table that meet its height to its
left, the first of these. -/
structure Nearest (t : RingTable) (s : Slit) : Prop extends s.Meets where
  target : t.edges[s.target]? = some s.split
  joined : s.split.state = .joined
  arrival_le : s.arrival.x ≤ s.start.x
  least : ∀ i e, t.edges[i]? = some e → e.state = .joined → e.Reaches s.start.y →
    e.meetingX s.start.y ≤ s.start.x →
      e.meetingX s.start.y < s.arrival.x ∨ e.meetingX s.start.y = s.arrival.x ∧ s.target ≤ i

/-- **What a slit is**: it begins where it is asked for, and arrives at the nearest joined edge. -/
theorem nearest_of_slit? (hs : t.slit? place p = some s) :
    s.hole = place ∧ s.start = p ∧ t.Nearest s := by
  obtain ⟨⟨i, e, x⟩, hn, rfl⟩ := Option.map_eq_some_iff.1 hs
  obtain ⟨hmem, hleast⟩ := (minOn?_eq_some_iff (t.pairwise_edgesLeftOf p)).1 hn
  obtain ⟨he, hstate, hr, hle, rfl⟩ := mem_edgesLeftOf.1 hmem
  refine ⟨rfl, rfl, ⟨hr, rfl⟩, he, hstate, hle, fun j e' he' hstate' hr' hle' ↦ ?_⟩
  have hdist := hleast (j, e', _) (mem_edgesLeftOf.2 ⟨he', hstate', hr', hle', rfl⟩)
  dsimp only at hdist hle hle' ⊢
  omega

end RingTable

namespace Layout

/-- The slit arrives at the joined edge from `v` to `w`, at its height and where the edge meets it,
and no other joined edge to the left is nearer. -/
structure Arrives (L : Layout) (s : Slit) (v w : RingVertex) : Prop where
  target : s.target = v.place
  split : s.split = ⟨v.point, w.point, .joined, w.place⟩
  reaches : Segment.Reaches ⟨v.point, w.point⟩ s.start.y
  arrival : s.arrival = ⟨Segment.meetingX ⟨v.point, w.point⟩ s.start.y, s.start.y⟩
  arrival_le : s.arrival.x ≤ s.start.x
  nearest : ∀ e ∈ L.joinedEdges, e.Reaches s.start.y → e.meetingX s.start.y ≤ s.start.x →
    e.meetingX s.start.y ≤ s.arrival.x

namespace Fits

variable {L : Layout} {holes : List PlacedContour} {t : RingTable} {place : Nat} {p : Point}

/-- The joined edges to the left of a point are edges of the joined ring. -/
theorem exists_mem_edgesLeftOf (hf : L.Fits holes t) {e : Segment} (he : e ∈ L.joinedEdges)
    (hr : e.Reaches p.y) (hle : e.meetingX p.y ≤ p.x) :
    ∃ i e', (i, e', e.meetingX p.y) ∈ t.edgesLeftOf p := by
  obtain ⟨v, hv, w, hvw, rfl⟩ := hf.joined.mem_cycle.1 he
  exact ⟨v.place, _, RingTable.mem_edgesLeftOf.2 ⟨hvw, rfl, hr, hle, rfl⟩⟩

/-- **A slit arrives at the nearest joined edge.** -/
theorem arrives_of_slit? (hf : L.Fits holes t) {s : Slit} (hs : t.slit? place p = some s) :
    s.hole = place ∧ s.start = p ∧
      ∃ v ∈ L.joined, ∃ w, t.Leads .joined v w ∧ L.Arrives s v w := by
  obtain ⟨hplace, hstart, hn⟩ := RingTable.nearest_of_slit? hs
  obtain ⟨v, w, hv, hedge, hring⟩ := hf.exists_ring hn.target
  rw [hn.joined] at hedge hring
  have hmem : v ∈ L.joined := by simpa using hring
  have hvw : t.Leads .joined v w := by
    rw [RingTable.Leads, hv, hn.target, hedge]
  have hreaches := hn.reaches
  have harrival := hn.arrival
  rw [hedge] at hreaches harrival
  refine ⟨hplace, hstart, v, hmem, w, hvw, hv.symm, hedge, hreaches, harrival, hn.arrival_le,
    fun e he hr hle ↦ ?_⟩
  obtain ⟨x, -, y, hxy, rfl⟩ := hf.joined.mem_cycle.1 he
  have hleast := hn.least _ _ hxy rfl hr hle
  show RingEdge.meetingX _ s.start.y ≤ s.arrival.x
  exact hleast.elim Int.le_of_lt fun h ↦ Int.le_of_eq h.1

/-- **There is no slit** exactly when no joined edge lies to the left. -/
theorem slit?_eq_none_iff (hf : L.Fits holes t) :
    t.slit? place p = none ↔ ∀ e ∈ L.joinedEdges, e.Reaches p.y → p.x < e.meetingX p.y := by
  rw [RingTable.slit?, Option.map_eq_none_iff, RingTable.nearestLeftOf?, minOn?_eq_none_iff]
  constructor
  · intro hnil e he hr
    by_contra hle
    obtain ⟨i, e', hmem⟩ := hf.exists_mem_edgesLeftOf he hr (Int.not_lt.1 hle)
    rw [hnil] at hmem
    simp at hmem
  · intro hnone
    refine List.eq_nil_iff_forall_not_mem.2 fun ⟨i, e, x⟩ hmem ↦ ?_
    obtain ⟨he, hstate, hr, hle, -⟩ := RingTable.mem_edgesLeftOf.1 hmem
    obtain ⟨v, w, rfl, hedge, hring⟩ := hf.exists_ring he
    rw [hstate] at hedge hring
    have hv : v ∈ L.joined := by simpa using hring
    subst hedge
    have hlt := hnone ⟨v.point, w.point⟩ (hf.joined.mem_cycle.2 ⟨v, hv, w, he, rfl⟩) hr
    exact absurd hlt (Int.not_lt.2 hle)

end Fits

end Layout

end GridGeometry
