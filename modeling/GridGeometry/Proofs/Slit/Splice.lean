import GridGeometry.Proofs.Slit.Choice

/-!
# Joining and dropping on a layout

A step of the table either cuts the joined ring open and puts a hole with its slit in between, or
gives a hole up. `Layout.Step` says what this does to a layout, where it is an insertion into a
list; `Fits.step` shows that the table does just that. All that the steps do to the joined edges is
then read off the insertion, and never off the table again.

The table is edited in place, so the proof is an account of places: those of the joined ring, of the
hole, of the other rings and of the three new edges are all different (`Fits.nodup_split`), and
every edit hits exactly one of these.
-/

namespace GridGeometry

/-! ### Edits of the table -/

namespace RingTable

theorem getElem?_foldl_modify {α : Type} (f : α → α) (hf : ∀ a, f (f a) = f a) (xs : Array α)
    (places : List Nat) (i : Nat) :
    (places.foldl (fun xs i ↦ xs.modify i f) xs)[i]? =
      xs[i]?.map fun a ↦ if i ∈ places then f a else a := by
  induction places generalizing xs with
  | nil => simp
  | cons j places ih =>
    rw [List.foldl_cons, ih, Array.getElem?_modify]
    rcases xs[i]? with - | a
    · simp
    · by_cases hj : j = i
      · subst hj
        by_cases hmem : j ∈ places <;> simp [hmem, hf]
      · have hj' : i ≠ j := fun h ↦ hj h.symm
        simp [hj, hj']

theorem size_foldl_modify {α : Type} (f : α → α) (xs : Array α) (places : List Nat) :
    (places.foldl (fun xs i ↦ xs.modify i f) xs).size = xs.size := by
  induction places generalizing xs with
  | nil => rfl
  | cons j places ih => rw [List.foldl_cons, ih, Array.size_modify]

variable (t : RingTable) (s : Slit) (hole i : Nat)

theorem size_drop : (t.drop hole).edges.size = t.edges.size :=
  size_foldl_modify _ _ _

theorem size_cut : (t.cut s).edges.size = t.edges.size + 3 := by
  rw [cut, Array.size_modify]
  refine (size_foldl_modify _ _ _).trans ?_
  simp [Slit.edges, array_append_list]

/-- The state changes at the places given and nowhere else. -/
theorem getElem?_setStates (state : RingState) (places : List Nat) :
    (t.setStates state places).edges[i]? =
      t.edges[i]?.map fun e ↦ if i ∈ places then { e with state } else e :=
  getElem?_foldl_modify (fun e : RingEdge ↦ { e with state }) (fun _ ↦ rfl) t.edges places i

/-- Dropping a hole changes the state of its edges. -/
theorem getElem?_drop :
    (t.drop hole).edges[i]? =
      t.edges[i]?.map fun e ↦ if i ∈ t.ring hole then { e with state := .dropped } else e :=
  getElem?_setStates _ i .dropped (t.ring hole)

/-- **The three edits of a cut**: the split edge is shortened, the hole becomes joined, and its last
edge is followed by the way out. -/
theorem getElem?_cut :
    (t.cut s).edges[i]? = (t.edges ++ (s.edges t.edges.size).toArray)[i]?.map fun e ↦
      let e := if i = s.target then
        { e with stop := s.arrival, next := t.edges.size + 1 } else e
      let e := if i ∈ t.ring s.hole then { e with state := .joined } else e
      if i = (t.ring s.hole).getLastD s.hole then { e with next := t.edges.size + 2 } else e := by
  rw [cut, Array.getElem?_modify, getElem?_setStates, Array.getElem?_modify, array_append_list]
  simp only [eq_comm (a := s.target), eq_comm (a := (t.ring s.hole).getLastD s.hole)]
  rcases (t.edges ++ (s.edges t.edges.size).toArray)[i]? with - | e
  · simp
  · by_cases h₁ : i = s.target <;> by_cases h₂ : i = (t.ring s.hole).getLastD s.hole
    · simp only [if_pos h₁, if_pos h₂, Option.map_some]
    · simp only [if_pos h₁, if_neg h₂, Option.map_some]
    · simp only [if_neg h₁, if_pos h₂, Option.map_some]
    · simp only [if_neg h₁, if_neg h₂, Option.map_some]

/-! ### Where the edges lead afterwards -/

theorem getLastD_ring_mem : (t.ring hole).getLastD hole ∈ t.ring hole := by
  rw [ring, List.getLastD_cons]
  exact List.getLastD_mem_cons

variable {t s hole} {state : RingState} {v w : RingVertex}

theorem getElem?_append_of_leads (h : t.Leads state v w) (l : List RingEdge) :
    (t.edges ++ l.toArray)[v.place]? = some ⟨v.point, w.point, state, w.place⟩ := by
  rw [Array.getElem?_append_left h.place_lt]
  exact h

/-- Edges that are neither split nor on the hole lead where they did. -/
theorem Leads.cut (h : t.Leads state v w) (ht : v.place ≠ s.target)
    (hr : v.place ∉ t.ring s.hole) : (t.cut s).Leads state v w := by
  have hlast : v.place ≠ (t.ring s.hole).getLastD s.hole := fun heq ↦
    hr (heq ▸ t.getLastD_ring_mem s.hole)
  rw [Leads, getElem?_cut, getElem?_append_of_leads h]
  simp only [if_neg ht, if_neg hr, if_neg hlast, Option.map_some]

/-- The split edge leads to the way in. -/
theorem Leads.cut_target (h : t.Leads state v w) (ht : v.place = s.target)
    (hr : v.place ∉ t.ring s.hole) :
    (t.cut s).Leads state v ⟨t.edges.size + 1, s.arrival⟩ := by
  have hlast : v.place ≠ (t.ring s.hole).getLastD s.hole := fun heq ↦
    hr (heq ▸ t.getLastD_ring_mem s.hole)
  rw [Leads, getElem?_cut, getElem?_append_of_leads h]
  simp only [if_pos ht, if_neg hr, if_neg hlast, Option.map_some]

/-- The edges of the hole lead where they did, except the last one. -/
theorem Leads.cut_ring (h : t.Leads state v w) (ht : v.place ≠ s.target)
    (hr : v.place ∈ t.ring s.hole) (hlast : v.place ≠ (t.ring s.hole).getLastD s.hole) :
    (t.cut s).Leads .joined v w := by
  rw [Leads, getElem?_cut, getElem?_append_of_leads h]
  simp only [if_neg ht, if_pos hr, if_neg hlast, Option.map_some]

/-- The last edge of the hole leads to the way out. -/
theorem Leads.cut_last (h : t.Leads state v w) (ht : v.place ≠ s.target)
    (hlast : v.place = (t.ring s.hole).getLastD s.hole) :
    (t.cut s).Leads .joined v ⟨t.edges.size + 2, w.point⟩ := by
  have hr : v.place ∈ t.ring s.hole := hlast ▸ t.getLastD_ring_mem s.hole
  rw [Leads, getElem?_cut, getElem?_append_of_leads h]
  simp only [if_neg ht, if_pos hr, if_pos hlast, Option.map_some]

/-- The edges of the slit stand behind the others. -/
theorem getElem?_cut_new (ht : s.target < t.edges.size)
    (hr : ∀ j ∈ t.ring s.hole, j < t.edges.size) (k : Nat) :
    (t.cut s).edges[t.edges.size + k]? = (s.edges t.edges.size)[k]? := by
  have htarget : t.edges.size + k ≠ s.target := by omega
  have hring : t.edges.size + k ∉ t.ring s.hole := by
    intro hmem
    have := hr _ hmem
    omega
  have hlast : t.edges.size + k ≠ (t.ring s.hole).getLastD s.hole := fun heq ↦
    hring (heq ▸ t.getLastD_ring_mem s.hole)
  rw [getElem?_cut, Array.getElem?_append_right (Nat.le_add_right _ _), Nat.add_sub_cancel_left]
  simp only [if_neg htarget, if_neg hring, if_neg hlast, Option.map_id_fun', id_eq,
    List.getElem?_toArray]

/-- Dropping a hole changes where no edge leads, and only the state of those of the hole. -/
theorem Leads.drop (h : t.Leads state v w) (hr : v.place ∉ t.ring hole) :
    (t.drop hole).Leads state v w := by
  rw [Leads, getElem?_drop, h, Option.map_some, if_neg hr]

theorem Leads.drop_ring (h : t.Leads state v w) (hr : v.place ∈ t.ring hole) :
    (t.drop hole).Leads .dropped v w := by
  rw [Leads, getElem?_drop, h, Option.map_some, if_pos hr]

/-- **What one step does**: it makes the slit of the next hole, or gives up that hole if it has
none. -/
theorem step?_cases {t t' : RingTable} {fate : HoleFate}
    (hs : t.step? = some (t', fate)) :
    ∃ hole p, t.nextHole? = some (hole, p) ∧
      ((∃ s, t.slit? hole p = some s ∧ t' = t.cut s ∧ fate = .joined s) ∨
        t.slit? hole p = none ∧ t' = t.drop hole ∧ fate = .dropped hole) := by
  rw [step?] at hs
  split at hs
  case h_1 => simp at hs
  case h_2 hole p hn =>
    refine ⟨hole, p, hn, ?_⟩
    split at hs
    case h_1 s hslit =>
      obtain ⟨rfl, rfl⟩ := Prod.mk.inj (Option.some.inj hs)
      exact .inl ⟨s, hslit, rfl, rfl⟩
    case h_2 hslit =>
      obtain ⟨rfl, rfl⟩ := Prod.mk.inj (Option.some.inj hs)
      exact .inr ⟨hslit, rfl, rfl⟩

/-- A step that makes a slit makes the slit of the next hole. -/
theorem slit_of_step? {t t' : RingTable} {s : Slit} (hs : t.step? = some (t', .joined s)) :
    t.nextHole? = some (s.hole, s.start) ∧ t.Nearest s := by
  obtain ⟨hole, p, hn, ⟨s', hslit, -, hfate⟩ | ⟨-, -, hfate⟩⟩ := step?_cases hs
  · obtain rfl := HoleFate.joined.inj hfate
    obtain ⟨rfl, rfl, hnearest⟩ := nearest_of_slit? hslit
    exact ⟨hn, hnearest⟩
  · simp at hfate

end RingTable

/-! ### Steps of a layout -/

namespace Layout

/-- The layout after the ring is cut open behind `v` and a bridge is put in. -/
def joinAt (L : Layout) (before : List RingVertex) (v : RingVertex) (after : List RingVertex)
    (b : Bridge) : Layout where
  joined := before ++ v :: (b.vertices ++ after)
  bridges := L.bridges ++ [b]
  waiting := L.waiting.erase b.hole
  dropped := L.dropped

/-- The layout after a hole is given up. -/
def giveUp (L : Layout) (h : PlacedContour) : Layout :=
  { L with waiting := L.waiting.erase h, dropped := L.dropped ++ [h] }

section

variable (L : Layout) (before : List RingVertex) (v : RingVertex) (after : List RingVertex)
  (b : Bridge)

@[simp] theorem joinAt_bridges : (L.joinAt before v after b).bridges = L.bridges ++ [b] := rfl

@[simp] theorem joinAt_dropped : (L.joinAt before v after b).dropped = L.dropped := rfl

end

/-- What one step does to a layout: the next hole is joined behind the start of the nearest edge to
its left, or given up for want of one. -/
inductive Step (L : Layout) : HoleFate → Layout → Prop
  | join {before after : List RingVertex} {v : RingVertex} {h : PlacedContour} {s : Slit} :
      L.joined = before ++ v :: after → L.Next h ⟨s.hole, s.start⟩ →
      L.Arrives s v (after.headD (before.headD v)) →
      L.Step (.joined s) (L.joinAt before v after ⟨h, s, L.vertices.length⟩)
  | drop {h : PlacedContour} {v : RingVertex} : L.Next h v →
      (∀ e ∈ L.joinedEdges, e.Reaches v.point.y → v.point.x < e.meetingX v.point.y) →
      L.Step (.dropped v.place) (L.giveUp h)

variable {L : Layout} {holes : List PlacedContour} {t : RingTable} {h : PlacedContour}
  {v w : RingVertex}

theorem Next.mem_vertices (hn : L.Next h v) : v ∈ h.vertices :=
  PlacedContour.mem_of_entrance? hn.entry

end Layout

namespace PlacedContour

variable {c : PlacedContour} {v : RingVertex} {before after : List RingVertex}

/-- Going around a contour from one of its vertices. -/
theorem verticesFrom_eq (h : c.vertices = before ++ v :: after) :
    c.verticesFrom v.place = v :: after ++ before := by
  have hv : c.vertices[before.length]? = some v := by simp [h]
  rw [getElem?_vertices] at hv
  obtain ⟨p, -, rfl⟩ := Option.map_eq_some_iff.1 hv
  rw [verticesFrom, h, Nat.add_sub_cancel_left, List.rotate_append_length_eq]

theorem verticesFrom_perm (place : Nat) : (c.verticesFrom place).Perm c.vertices :=
  List.rotate_perm _ _

theorem exists_verticesFrom_eq_cons (hv : v ∈ c.vertices) :
    ∃ l, c.verticesFrom v.place = v :: l := by
  obtain ⟨before, after, h⟩ := List.append_of_mem hv
  exact ⟨_, verticesFrom_eq h⟩

end PlacedContour

namespace Layout

variable {L : Layout} {holes : List PlacedContour} {t : RingTable} {h : PlacedContour}
  {v w : RingVertex}

/-- The vertices of the rings that a step for the hole `h` leaves alone. -/
def others (L : Layout) (h : PlacedContour) : List RingVertex :=
  (L.waiting.erase h).flatMap PlacedContour.vertices ++ L.dropped.flatMap PlacedContour.vertices

theorem vertices_perm (hh : h ∈ L.waiting) :
    L.vertices.Perm (L.joined ++ (h.vertices ++ others L h)) := by
  have hflat : (L.waiting.flatMap PlacedContour.vertices).Perm
      (h.vertices ++ (L.waiting.erase h).flatMap PlacedContour.vertices) :=
    (List.perm_cons_erase hh).flatMap_right _
  rw [vertices, others, List.append_assoc, ← List.append_assoc h.vertices]
  exact (hflat.append_right _).append_left _

/-- Giving a hole up keeps all vertices. -/
theorem giveUp_vertices_perm (hh : h ∈ L.waiting) : (L.giveUp h).vertices.Perm L.vertices := by
  refine List.Perm.trans ?_ (vertices_perm hh).symm
  rw [vertices, giveUp, List.flatMap_append, List.flatMap_singleton, others, List.append_assoc,
    ← List.append_assoc (List.flatMap _ _)]
  exact List.perm_append_comm.append_left _

variable {s : Slit} {before after : List RingVertex}

/-- What a bridge adds to the joined ring. -/
theorem joined_perm (hj : L.joined = before ++ v :: after) (b : Bridge) :
    (L.joinAt before v after b).joined.Perm (b.vertices ++ L.joined) := by
  rw [joinAt, hj]
  exact (List.perm_middle.symm.append_left before).trans (List.perm_append_comm_assoc _ _ _)

theorem vertices_joinAt (L : Layout) (before : List RingVertex) (v : RingVertex)
    (after : List RingVertex) (b : Bridge) :
    (L.joinAt before v after b).vertices =
      (L.joinAt before v after b).joined ++ others L b.hole := List.append_assoc _ _ _

/-- **The edges of the joined ring after a slit**: the split edge gives way to its two parts, and
the slit, walked in both directions, and the edges of the hole are added. -/
theorem joinedEdges_joinAt (hj : L.joined = before ++ v :: after)
    (hn : L.Next h ⟨s.hole, s.start⟩) (base : Nat) :
    ∃ rest, L.joinedEdges.Perm
        (⟨v.point, (after.headD (before.headD v)).point⟩ :: rest) ∧
      (L.joinAt before v after ⟨h, s, base⟩).joinedEdges.Perm
        (⟨v.point, s.arrival⟩ :: ⟨s.arrival, (after.headD (before.headD v)).point⟩ ::
          ⟨s.arrival, s.start⟩ :: ⟨s.start, s.arrival⟩ ::
          (Contour.cycle h.contour.points ++ rest)) := by
  obtain ⟨l, m, hsplit⟩ := List.append_of_mem hn.mem_vertices
  have hfrom : h.verticesFrom s.hole = ⟨s.hole, s.start⟩ :: m ++ l :=
    PlacedContour.verticesFrom_eq hsplit
  have hpoints : h.contour.points =
      l.map RingVertex.point ++ s.start :: m.map RingVertex.point := by
    rw [← h.map_point_vertices, hsplit, List.map_append, List.map_cons]
  have hstop : (after.headD (before.headD v)).point =
      (after.map RingVertex.point).headD ((before.map RingVertex.point).headD v.point) := by
    rw [List.headD_map, List.headD_map]
  rw [hstop, hpoints]
  refine ⟨Contour.pathTo (before.map RingVertex.point) v.point ++
    Contour.pathTo (after.map RingVertex.point)
      ((before.map RingVertex.point).headD v.point), ?_, ?_⟩
  · rw [joinedEdges, hj, List.map_append, List.map_cons]
    exact Contour.cycle_perm_cons
  · have hdetour := Contour.cycle_detour_perm (l := before.map RingVertex.point)
      (m := after.map RingVertex.point) (p := v.point) (a := s.arrival) (s := s.start)
      (j := l.map RingVertex.point) (k := m.map RingVertex.point)
    simpa [joinedEdges, joinAt, Bridge.vertices, Bridge.loop, hfrom] using hdetour

namespace Fits

/-- **The joined ring, the next hole and the other rings have no place in common.** -/
theorem nodup_split (hf : L.Fits holes t) (hh : h ∈ L.waiting) :
    (L.joined.map RingVertex.place ++ (h.places ++ (others L h).map RingVertex.place)).Nodup := by
  have hperm := (vertices_perm hh).map RingVertex.place
  rw [List.map_append, List.map_append, h.map_place_vertices] at hperm
  exact hperm.nodup_iff.1 hf.nodup

/-- The places of the ring that a hole is entered by. -/
theorem ring_eq (hf : L.Fits holes t) (hh : h ∈ L.waiting) (hv : v ∈ h.vertices) :
    t.ring v.place = (h.verticesFrom v.place).map RingVertex.place ∧
      t.HoldsRing .waiting (h.verticesFrom v.place) := by
  obtain ⟨before, after, hsplit⟩ := List.append_of_mem hv
  have hring : t.HoldsRing .waiting (v :: after ++ before) :=
    RingTable.HoldsRing.rotate (hsplit ▸ hf.waiting h hh)
  have hnodup : ((v :: after ++ before).map RingVertex.place).Nodup := by
    rw [← PlacedContour.verticesFrom_eq hsplit,
      ((h.verticesFrom_perm v.place).map _).nodup_iff, h.map_place_vertices]
    exact List.nodup_range'
  rw [PlacedContour.verticesFrom_eq hsplit]
  exact ⟨hring.ring_eq hnodup, hring⟩

/-- The ring that a hole is entered by has the places of the hole. -/
theorem ring_perm (hf : L.Fits holes t) (hh : h ∈ L.waiting) (hv : v ∈ h.vertices) :
    (t.ring v.place).Perm h.places := by
  rw [(hf.ring_eq hh hv).1, ← h.map_place_vertices]
  exact (h.verticesFrom_perm v.place).map _

/-- The walk around a hole comes back. -/
theorem returns_ring (hf : L.Fits holes t) (hh : h ∈ L.waiting) (hv : v ∈ h.vertices) :
    t.Returns v.place v.place (t.ring v.place).tail := by
  obtain ⟨hring, hholds⟩ := hf.ring_eq hh hv
  obtain ⟨l, hl⟩ := PlacedContour.exists_verticesFrom_eq_cons hv
  have hnodup : (t.ring v.place).Nodup := (hf.ring_perm hh hv).nodup_iff.2 List.nodup_range'
  rw [hl] at hring hholds
  rw [hring] at hnodup ⊢
  exact hholds.returns hnodup

theorem mem_ring_iff (hf : L.Fits holes t) (hh : h ∈ L.waiting) (hv : v ∈ h.vertices) {i : Nat} :
    i ∈ t.ring v.place ↔ i ∈ h.places :=
  (hf.ring_perm hh hv).mem_iff

theorem lt_size_of_mem_ring (hf : L.Fits holes t) (hh : h ∈ L.waiting) (hv : v ∈ h.vertices)
    {i : Nat} (hi : i ∈ t.ring v.place) : i < t.edges.size := by
  obtain ⟨hring, hholds⟩ := hf.ring_eq hh hv
  rw [hring] at hi
  obtain ⟨w, hw, rfl⟩ := List.mem_map.1 hi
  obtain ⟨x, hx⟩ := hholds.exists_leads hw
  exact hx.place_lt

theorem length_ring (hf : L.Fits holes t) (hh : h ∈ L.waiting) (hv : v ∈ h.vertices) :
    (t.ring v.place).length = h.contour.size := by
  rw [(hf.ring_perm hh hv).length_eq, PlacedContour.places, List.length_range']

theorem notMem_of_joined (hf : L.Fits holes t) (hh : h ∈ L.waiting) (hw : w ∈ L.joined) :
    w.place ∉ h.places := fun hmem ↦
  List.disjoint_of_nodup_append (hf.nodup_split hh) (List.mem_map_of_mem hw)
    (List.mem_append_left _ hmem)

theorem notMem_of_others (hf : L.Fits holes t) (hh : h ∈ L.waiting) (hw : w ∈ others L h) :
    w.place ∉ h.places := fun hmem ↦
  List.disjoint_of_nodup_append (List.nodup_append.1 (hf.nodup_split hh)).2.1 hmem
    (List.mem_map_of_mem hw)

/-- The waiting edges are those of the next hole and those of the others. -/
theorem waiting_eq (hf : L.Fits holes t) (hh : h ∈ L.waiting) :
    t.waiting = h.contour.size +
      ((L.waiting.erase h).flatMap PlacedContour.vertices).length := by
  have hperm : (L.waiting.flatMap PlacedContour.vertices).Perm
      (h.vertices ++ (L.waiting.erase h).flatMap PlacedContour.vertices) :=
    (List.perm_cons_erase hh).flatMap_right _
  rw [hf.count, hperm.length_eq, List.length_append, h.length_vertices]

theorem waiting_sub (hf : L.Fits holes t) (hh : h ∈ L.waiting) (hv : v ∈ h.vertices) :
    t.waiting - (t.ring v.place).length =
      ((L.waiting.erase h).flatMap PlacedContour.vertices).length := by
  rw [hf.waiting_eq hh, hf.length_ring hh hv, Nat.add_sub_cancel_left]

/-- **Giving a hole up** leaves every other ring as it is. -/
theorem drop (hf : L.Fits holes t) (hn : L.Next h v) :
    (L.giveUp h).Fits holes (t.drop v.place) := by
  have hh := hn.mem
  have hv := hn.mem_vertices
  have hothers : ∀ {state : RingState} {l : List RingVertex}, t.HoldsRing state l →
      (∀ x ∈ l, x ∈ others L h) → (t.drop v.place).HoldsRing state l := fun hl hmem ↦
    hl.imp fun x hx y hxy ↦ hxy.drop fun hr ↦
      hf.notMem_of_others hh (hmem x hx) ((hf.mem_ring_iff hh hv).1 hr)
  exact {
    joined := hf.joined.imp fun x hx y hxy ↦ hxy.drop fun hr ↦
      hf.notMem_of_joined hh hx ((hf.mem_ring_iff hh hv).1 hr)
    waiting := by
      intro h' hh'
      exact hothers (hf.waiting h' (List.mem_of_mem_erase hh')) fun x hx ↦
        List.mem_append_left _ (List.mem_flatMap.2 ⟨h', hh', hx⟩)
    dropped := by
      intro h' hh'
      rcases List.mem_append.1 hh' with hh' | hh'
      · exact hothers (hf.dropped h' hh') fun x hx ↦
          List.mem_append_right _ (List.mem_flatMap.2 ⟨h', hh', hx⟩)
      · obtain rfl := List.mem_singleton.1 hh'
        exact (hf.waiting h' hh).imp fun x hx y hxy ↦ hxy.drop_ring
          ((hf.mem_ring_iff hh hv).2 (h'.map_place_vertices ▸ List.mem_map_of_mem hx))
    places := by
      rw [RingTable.size_drop]
      exact ((giveUp_vertices_perm hh).map _).trans hf.places
    count := hf.waiting_sub hh hv
    distinct := hf.distinct
    entries := hf.entries
    holes := by
      refine List.Perm.trans ?_ hf.holes
      rw [giveUp, List.append_assoc, List.append_assoc]
      refine List.Perm.append_left _ ?_
      have hlast : (L.waiting.erase h ++ (L.dropped ++ [h])).Perm
          (h :: (L.waiting.erase h ++ L.dropped)) := by
        rw [← List.append_assoc]
        exact List.perm_append_singleton _ _
      exact hlast.trans ((List.perm_cons_erase hh).symm.append_right _) }

theorem size_eq (hf : L.Fits holes t) : L.vertices.length = t.edges.size := by
  rw [← List.length_map (f := RingVertex.place), hf.places.length_eq, List.length_range]

/-- After a cut, the edges of the hole lead around it and into the way out. -/
theorem holdsPath_loop (hf : L.Fits holes t) (hn : L.Next h ⟨s.hole, s.start⟩)
    (htarget : s.target ∉ h.places) :
    (t.cut s).HoldsPath .joined (h.verticesFrom s.hole) ⟨t.edges.size + 2, s.start⟩ := by
  obtain ⟨hring, hholds⟩ := hf.ring_eq hn.mem hn.mem_vertices
  obtain ⟨l, hl⟩ := PlacedContour.exists_verticesFrom_eq_cons hn.mem_vertices
  have hplace : ∀ x ∈ h.verticesFrom s.hole, x.place ∈ t.ring s.hole := fun x hx ↦
    hring ▸ List.mem_map_of_mem hx
  have hne : ∀ x ∈ h.verticesFrom s.hole, x.place ≠ s.target := fun x hx heq ↦
    htarget (heq ▸ (hf.mem_ring_iff hn.mem hn.mem_vertices).1 (hplace x hx))
  have hnodup : ((h.verticesFrom s.hole).map RingVertex.place).Nodup := by
    rw [((h.verticesFrom_perm s.hole).map _).nodup_iff, h.map_place_vertices]
    exact List.nodup_range'
  have hpath : t.HoldsPath .waiting (h.verticesFrom s.hole) ⟨s.hole, s.start⟩ := by
    rw [hl] at hholds ⊢
    exact hholds
  -- The last edge of the hole is the only one that leads somewhere else afterwards.
  obtain ⟨m, z, hm⟩ : ∃ m z, h.verticesFrom s.hole = m ++ [z] :=
    (List.eq_nil_or_concat' _).resolve_left fun hnil ↦ List.cons_ne_nil _ _ (hl.symm.trans hnil)
  have hlast : (t.ring s.hole).getLastD s.hole = z.place := by
    rw [hring]
    simp [hm]
  rw [hm] at hpath hplace hne hnodup ⊢
  rw [RingTable.holdsPath_append] at hpath ⊢
  refine ⟨hpath.1.imp fun x hx y hxy ↦ ?_, ?_, trivial⟩
  · have hx' : x ∈ m ++ [z] := List.mem_append_left _ hx
    refine hxy.cut_ring (hne x hx') (hplace x hx') fun heq ↦ ?_
    rw [hlast] at heq
    rw [List.map_append, List.nodup_append] at hnodup
    exact hnodup.2.2 x.place (List.mem_map_of_mem hx) z.place (by simp) heq
  · have hz : z ∈ m ++ [z] := List.mem_append_right _ (List.mem_singleton.2 rfl)
    exact hpath.2.1.cut_last (hne z hz) hlast.symm

theorem nodup_joined (hf : L.Fits holes t) : (L.joined.map RingVertex.place).Nodup := by
  have hnodup := hf.nodup
  rw [vertices, List.append_assoc, List.map_append] at hnodup
  exact (List.nodup_append.1 hnodup).1

/-- The joined ring after a cut. -/
theorem holdsRing_join (hf : L.Fits holes t) (hj : L.joined = before ++ v :: after)
    (hn : L.Next h ⟨s.hole, s.start⟩) (ha : L.Arrives s v (after.headD (before.headD v))) :
    (t.cut s).HoldsRing .joined
      (before ++ v :: ((⟨h, s, t.edges.size⟩ : Bridge).vertices ++ after)) := by
  set w := after.headD (before.headD v) with hw
  -- The joined edges other than the split one are not touched.
  have hmem : ∀ x ∈ L.joined, x.place ∉ t.ring s.hole := fun x hx hr ↦
    hf.notMem_of_joined hn.mem hx ((hf.mem_ring_iff hn.mem hn.mem_vertices).1 hr)
  have hv : v ∈ L.joined := hj ▸ List.mem_append_right _ List.mem_cons_self
  have hne : ∀ x, x ∈ before ∨ x ∈ after → x.place ≠ s.target := by
    rw [ha.target]
    have hnodup := hf.nodup_joined
    rw [hj, List.map_append, List.map_cons, List.nodup_middle, List.nodup_cons,
      ← List.map_append] at hnodup
    rintro x hx heq
    exact hnodup.1 (heq ▸ List.mem_map_of_mem (List.mem_append.2 hx))
  have hkeep : ∀ x, x ∈ before ∨ x ∈ after → ∀ y, t.Leads .joined x y →
      (t.cut s).Leads .joined x y := by
    intro x hx y hxy
    refine hxy.cut (hne x hx) (hmem x ?_)
    rw [hj]
    rcases hx with hx | hx
    · exact List.mem_append_left _ hx
    · exact List.mem_append_right _ (List.mem_cons_of_mem _ hx)
  have hring : t.HoldsRing .joined (before ++ v :: after) := hj ▸ hf.joined
  obtain ⟨hbefore, hvw, hafter⟩ := RingTable.holdsRing_append_cons.1 hring
  have hnew := RingTable.getElem?_cut_new (ha.target ▸ hvw.place_lt)
    fun _ ↦ hf.lt_size_of_mem_ring hn.mem hn.mem_vertices
  -- Around the new ring: up to `v`, in by the slit, around the hole, out, and on from the arrival.
  have hloop := hf.holdsPath_loop hn (ha.target ▸ hf.notMem_of_joined hn.mem hv)
  obtain ⟨l, hl⟩ := PlacedContour.exists_verticesFrom_eq_cons hn.mem_vertices
  refine RingTable.holdsRing_append_cons.2 ⟨hbefore.imp fun x hx ↦ hkeep x (.inl hx), ?_⟩
  refine ⟨hvw.cut_target ha.target.symm (hmem v hv), ?_⟩
  refine RingTable.holdsPath_append.2 ⟨?_, hafter.imp fun x hx ↦ hkeep x (.inr hx)⟩
  refine RingTable.holdsPath_append.2 ⟨⟨?_, ?_⟩, ?_, trivial⟩
  · have hhead : h.verticesFrom s.hole = ⟨s.hole, s.start⟩ :: l := hl
    simp only [Bridge.loop, hhead, List.cons_append, List.headD_cons]
    exact hnew 1
  · exact RingTable.holdsPath_append.2 ⟨hloop, hnew 2, trivial⟩
  · refine (hnew 0).trans ?_
    simp only [Slit.edges, ha.split]
    rfl

/-- The places after a cut are those from before and the three behind them. -/
theorem places_join (hf : L.Fits holes t) (hh : h ∈ L.waiting)
    (hj : L.joined = before ++ v :: after) :
    ((L.joinAt before v after ⟨h, s, t.edges.size⟩).vertices.map RingVertex.place).Perm
      (List.range (t.edges.size + 3)) := by
  set b : Bridge := ⟨h, s, t.edges.size⟩ with hb
  have hold : (L.joined.map RingVertex.place ++
      (h.places ++ (others L h).map RingVertex.place)).Perm (List.range t.edges.size) := by
    refine List.Perm.trans ?_ hf.places
    rw [← h.map_place_vertices, ← List.map_append, ← List.map_append]
    exact ((vertices_perm hh).map _).symm
  have hnew : ((b.vertices ++ L.joined).map RingVertex.place).Perm
      (b.places ++ L.joined.map RingVertex.place) := by
    rw [List.map_append]
    exact b.map_place_vertices_perm.append_right _
  calc (L.joinAt before v after b).vertices.map RingVertex.place
      = (L.joinAt before v after b).joined.map RingVertex.place ++
          (others L h).map RingVertex.place := by rw [vertices_joinAt, List.map_append]
    List.Perm _ (b.places ++ L.joined.map RingVertex.place ++
        (others L h).map RingVertex.place) :=
      (((joined_perm hj b).map _).trans hnew).append_right _
    List.Perm _ (L.joined.map RingVertex.place ++
        (h.places ++ (others L h).map RingVertex.place) ++ List.range' t.edges.size 3) :=
      List.perm_iff_count.2 fun i ↦ by
        simp only [Bridge.places, hb, List.count_append]
        omega
    List.Perm _ (List.range (t.edges.size + 3)) :=
      range_append_range' t.edges.size 3 ▸ hold.append_right _

/-- **Making a slit** puts the hole into the joined ring and leaves the other rings as they are. -/
theorem join (hf : L.Fits holes t) (hj : L.joined = before ++ v :: after)
    (hn : L.Next h ⟨s.hole, s.start⟩) (ha : L.Arrives s v (after.headD (before.headD v))) :
    (L.joinAt before v after ⟨h, s, L.vertices.length⟩).Fits holes (t.cut s) := by
  have hh := hn.mem
  have hv : v ∈ L.joined := hj ▸ List.mem_append_right _ List.mem_cons_self
  have htarget : ∀ x ∈ others L h, x.place ≠ s.target := by
    intro x hx heq
    have hdisj := List.disjoint_of_nodup_append (hf.nodup_split hh)
    refine hdisj (List.mem_map_of_mem hv) (List.mem_append_right _ ?_)
    exact ha.target ▸ heq ▸ List.mem_map_of_mem hx
  have hothers : ∀ {state : RingState} {l : List RingVertex}, t.HoldsRing state l →
      (∀ x ∈ l, x ∈ others L h) → (t.cut s).HoldsRing state l := fun hl hmem ↦
    hl.imp fun x hx y hxy ↦ hxy.cut (htarget x (hmem x hx)) fun hr ↦
      hf.notMem_of_others hh (hmem x hx) ((hf.mem_ring_iff hh hn.mem_vertices).1 hr)
  rw [hf.size_eq]
  exact {
    joined := hf.holdsRing_join hj hn ha
    waiting := by
      intro h' hh'
      exact hothers (hf.waiting h' (List.mem_of_mem_erase hh')) fun x hx ↦
        List.mem_append_left _ (List.mem_flatMap.2 ⟨h', hh', hx⟩)
    dropped := by
      intro h' hh'
      exact hothers (hf.dropped h' hh') fun x hx ↦
        List.mem_append_right _ (List.mem_flatMap.2 ⟨h', hh', hx⟩)
    places := by
      rw [RingTable.size_cut]
      exact hf.places_join hh hj
    count := hf.waiting_sub hh hn.mem_vertices
    distinct := hf.distinct
    entries := hf.entries
    holes := by
      refine List.Perm.trans ?_ hf.holes
      rw [joinAt, List.map_append, List.append_assoc _ _ (L.waiting.erase h)]
      exact ((List.perm_cons_erase hh).symm.append_left _).append_right _ }

/-- **A step of the table is a step of its layout.** -/
theorem step (hf : L.Fits holes t) {u : RingTable} {fate : HoleFate}
    (hs : t.step? = some (u, fate)) : ∃ M, L.Step fate M ∧ M.Fits holes u := by
  obtain ⟨place, p, hnext, hcases⟩ := RingTable.step?_cases hs
  obtain ⟨h, hn⟩ := hf.next_of_nextHole? hnext
  rcases hcases with ⟨s, hslit, rfl, rfl⟩ | ⟨hslit, rfl, rfl⟩
  · obtain ⟨rfl, rfl, v, hv, w, hvw, ha⟩ := hf.arrives_of_slit? hslit
    obtain ⟨before, after, hj⟩ := List.append_of_mem hv
    have hring : t.HoldsRing .joined (before ++ v :: after) := hj ▸ hf.joined
    obtain rfl := hvw.unique (RingTable.holdsRing_append_cons.1 hring).2.1
    exact ⟨_, .join hj hn ha, hf.join hj hn ha⟩
  · exact ⟨_, .drop hn (hf.slit?_eq_none_iff.1 hslit), hf.drop hn⟩

end Fits

end Layout

end GridGeometry
