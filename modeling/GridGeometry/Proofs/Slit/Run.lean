import GridGeometry.Proofs.Slit.Splice

/-!
# Joining all holes

Joining takes one step for every hole that has a vertex. `RingTable.Reaches` lists the tables met on
the way, each with the fates of the holes before it, and `Fits.reaches` follows them by layouts.
What the run does to the joined ring is kept in an `Account`: which places it has, that the outline
and every joined hole are still run through in order, and how many edges there are.

## Main statements

* `joinAll_steps`: the counter of waiting edges is right at every step, the loops around a hole end,
  and there is exactly one step for every hole with a vertex.
* `joinAll_ring`: the ring that remains is made of the outline, the joined holes and three edges for
  each of them, without loss or repetition.
-/

namespace GridGeometry

/-- The slit of a hole that has been joined. -/
def HoleFate.slit? : HoleFate → Option Slit
  | .joined s => some s
  | .dropped _ => none

/-! ### Runs of the table -/

namespace RingTable

/-- The tables met while holes are joined to those of `t`, with the fates of the holes so far. -/
inductive Reaches (t : RingTable) : RingTable → List HoleFate → Prop
  | refl : t.Reaches t []
  | step {u v : RingTable} {fates : List HoleFate} {fate : HoleFate} : t.Reaches u fates →
      0 < u.waiting → u.step? = some (v, fate) → t.Reaches v (fates ++ [fate])

theorem Reaches.trans {t u v : RingTable} {l m : List HoleFate} (htu : t.Reaches u l)
    (huv : u.Reaches v m) : t.Reaches v (l ++ m) := by
  induction huv with
  | refl => rwa [List.append_nil]
  | step _ hw hs ih =>
    rw [← List.append_assoc]
    exact ih.step hw hs

/-- Every slit of a run arrives where the edge that it splits meets its height. -/
theorem Reaches.meets {t u : RingTable} {fates : List HoleFate} (h : t.Reaches u fates) :
    ∀ s ∈ fates.filterMap HoleFate.slit?, s.Meets := by
  induction h with
  | refl => simp
  | @step u v fates fate _ _ hs ih =>
    rw [List.filterMap_append]
    refine List.forall_mem_append.2 ⟨ih, fun s hmem ↦ ?_⟩
    cases fate with
    | joined s' =>
      obtain rfl : s = s' := by simpa [HoleFate.slit?] using hmem
      exact (slit_of_step? hs).2.toMeets
    | dropped hole => simp [HoleFate.slit?] at hmem

/-- The last table is one of those met, and the run stops there for want of a waiting edge or of a
hole to begin at. -/
theorem reaches_joinAll (t : RingTable) :
    t.Reaches t.joinAll.1 t.joinAll.2 ∧
      (0 < t.joinAll.1.waiting → t.joinAll.1.step? = none) := by
  fun_induction joinAll t with
  | case1 t ht u fate hs last fates heq ih =>
    rw [heq] at ih
    exact ⟨(Reaches.refl.step ht hs).trans ih.1, ih.2⟩
  | case2 t ht hs => exact ⟨.refl, fun _ ↦ hs⟩
  | case3 t ht => exact ⟨.refl, fun h ↦ absurd h ht⟩

/-- A step takes the edges of the next hole off the counter. -/
theorem waiting_of_step? {t u : RingTable} {place : Nat} {p : Point} {fate : HoleFate}
    (hn : t.nextHole? = some (place, p)) (hs : t.step? = some (u, fate)) :
    u.waiting = t.waiting - (t.ring place).length := by
  obtain ⟨place, p, hn', hcases⟩ := step?_cases hs
  obtain ⟨rfl, rfl⟩ := Prod.mk.inj (Option.some.inj (hn.symm.trans hn'))
  rcases hcases with ⟨s, hslit, rfl, -⟩ | ⟨-, rfl, -⟩
  · obtain ⟨_, -, rfl⟩ := Option.map_eq_some_iff.1 hslit
    rfl
  · rfl

end RingTable

namespace Layout

/-- The layouts met while holes are joined. -/
inductive Reaches (L : Layout) : List HoleFate → Layout → Prop
  | refl : L.Reaches [] L
  | step {M N : Layout} {fates : List HoleFate} {fate : HoleFate} : L.Reaches fates M →
      M.Step fate N → L.Reaches (fates ++ [fate]) N

variable {L M : Layout} {holes : List PlacedContour} {t u : RingTable} {fates : List HoleFate}

/-- **A run of the table is a run of its layout.** -/
theorem Fits.reaches (hf : L.Fits holes t) (h : t.Reaches u fates) :
    ∃ M, L.Reaches fates M ∧ M.Fits holes u := by
  induction h with
  | refl => exact ⟨L, .refl, hf⟩
  | step _ _ hs ih =>
    obtain ⟨M, hM, hfit⟩ := ih
    obtain ⟨N, hN, hfit'⟩ := hfit.step hs
    exact ⟨N, hM.step hN, hfit'⟩

/-! ### The account of a run -/

/-- What a run from an outline and its holes has done to a layout. The table began with `size`
edges. -/
structure Account (outline : Contour) (size : Nat) (fates : List HoleFate) (L : Layout) : Prop where
  slits : L.bridges.map Bridge.slit = fates.filterMap HoleFate.slit?
  length_fates : fates.length = L.bridges.length + L.dropped.length
  length_vertices : L.vertices.length = size + 3 * L.bridges.length
  base : ∀ (k : Nat) (b : Bridge), L.bridges[k]? = some b → b.base = size + 3 * k
  entry : ∀ b ∈ L.bridges, b.hole.entrance? = some ⟨b.slit.hole, b.slit.start⟩
  places : (L.joined.map RingVertex.place).Perm
    (List.range outline.size ++ L.bridges.flatMap Bridge.places)
  head : L.joined.head? = (⟨0, outline⟩ : PlacedContour).vertices.head?
  outline : (⟨0, outline⟩ : PlacedContour).vertices.Sublist L.joined
  loops : ∀ b ∈ L.bridges, b.loop.Sublist L.joined

variable {outline : Contour} {size : Nat} {fate : HoleFate} {before after : List RingVertex}
  {v : RingVertex} {h : PlacedContour}

theorem joined_sublist (hj : L.joined = before ++ v :: after) (b : Bridge) :
    L.joined.Sublist (L.joinAt before v after b).joined := by
  rw [hj]
  exact ((List.sublist_append_right _ _).cons_cons v).append_left before

theorem loop_sublist (L : Layout) (before : List RingVertex) (v : RingVertex)
    (after : List RingVertex) (b : Bridge) : b.loop.Sublist (L.joinAt before v after b).joined := by
  have hloop : b.loop.Sublist (b.vertices ++ after) :=
    ((List.sublist_cons_self _ _).trans (List.sublist_append_left _ _)).trans
      (List.sublist_append_left _ _)
  exact (hloop.cons v).trans (List.sublist_append_right before _)

theorem head?_joinAt (hj : L.joined = before ++ v :: after) (b : Bridge) :
    (L.joinAt before v after b).joined.head? = L.joined.head? := by
  rw [hj, joinAt]
  cases before <;> rfl

/-- Making a slit adds three vertices. -/
theorem length_vertices_joinAt (hh : h ∈ L.waiting) (hj : L.joined = before ++ v :: after)
    (s : Slit) (base : Nat) :
    (L.joinAt before v after ⟨h, s, base⟩).vertices.length = L.vertices.length + 3 := by
  rw [vertices_joinAt, (vertices_perm hh).length_eq]
  simp only [List.length_append, (joined_perm hj _).length_eq, Bridge.length_vertices,
    PlacedContour.length_vertices]
  omega

/-- **Every step keeps the account.** -/
theorem Account.step (ha : Account outline size fates L) (hs : L.Step fate M) :
    Account outline size (fates ++ [fate]) M := by
  cases hs with
  | @drop h v hn hnone =>
    exact {
      ha with
      slits := by
        rw [List.filterMap_append, ← ha.slits]
        exact (List.append_nil _).symm
      length_fates := by
        show _ = L.bridges.length + (L.dropped ++ [h]).length
        rw [List.length_append, List.length_append, ha.length_fates, Nat.add_assoc]
        rfl
      length_vertices := (giveUp_vertices_perm hn.mem).length_eq.trans ha.length_vertices }
  | @join before after v h s hj hn harr =>
    set b : Bridge := ⟨h, s, L.vertices.length⟩ with hb
    -- A bridge is one of the earlier ones, or the one that this step makes.
    have hlast : ∀ c ∈ (L.joinAt before v after b).bridges, c ∈ L.bridges ∨ c = b := by
      intro c hc
      exact (List.mem_append.1 hc).imp_right List.mem_singleton.1
    exact {
      slits := by
        rw [joinAt_bridges, List.map_append, List.filterMap_append, ha.slits]
        rfl
      length_fates := by
        rw [joinAt_bridges, joinAt_dropped, List.length_append, List.length_append,
          ha.length_fates, List.length_singleton, List.length_singleton]
        omega
      length_vertices := by
        rw [length_vertices_joinAt hn.mem hj, ha.length_vertices, joinAt_bridges,
          List.length_append, List.length_singleton]
        omega
      base := by
        intro k c hc
        rcases Nat.lt_or_ge k L.bridges.length with hk | hk
        · rw [joinAt_bridges, List.getElem?_append_left hk] at hc
          exact ha.base k c hc
        · rw [joinAt_bridges, List.getElem?_append_right hk, List.getElem?_singleton] at hc
          split at hc
          · obtain rfl := Option.some.inj hc
            show L.vertices.length = size + 3 * k
            rw [ha.length_vertices, show k = L.bridges.length by omega]
          · simp at hc
      entry := by
        intro c hc
        rcases hlast c hc with hc | rfl
        · exact ha.entry c hc
        · exact hn.entry
      places := by
        have hperm := (joined_perm hj b).map RingVertex.place
        rw [List.map_append] at hperm
        refine hperm.trans ((b.map_place_vertices_perm.append ha.places).trans ?_)
        rw [joinAt_bridges, List.flatMap_append, List.flatMap_singleton]
        exact List.perm_append_comm.trans (.of_eq (List.append_assoc _ _ _))
      head := (head?_joinAt hj b).trans ha.head
      outline := ha.outline.trans (joined_sublist hj b)
      loops := by
        intro c hc
        rcases hlast c hc with hc | rfl
        · exact (ha.loops c hc).trans (joined_sublist hj b)
        · exact loop_sublist L before v after _ }

theorem Account.initial (outline : Contour) (holes : List Contour) :
    Account outline (RingTable.ofContours outline holes).edges.size []
      (initial outline holes) where
  slits := rfl
  length_fates := rfl
  length_vertices := (fits_initial outline holes).size_eq
  base := by simp [Layout.initial]
  entry := by simp [Layout.initial]
  places := by
    simp [Layout.initial, PlacedContour.places, List.range_eq_range']
  head := rfl
  outline := List.Sublist.refl _
  loops := by simp [Layout.initial]

theorem Account.reaches (ha : Account outline size [] L) (h : L.Reaches fates M) :
    Account outline size fates M := by
  induction h with
  | refl => exact ha
  | step _ hs ih => exact ih.step hs

/-! ### The whole run -/

/-- Every table met on the way fits a layout that has been accounted for. -/
theorem exists_account (holes : List Contour)
    (h : (RingTable.ofContours outline holes).Reaches t fates) :
    ∃ L, (initial outline holes).Reaches fates L ∧
      L.Fits (placeContours outline.size holes) t ∧
      Account outline (RingTable.ofContours outline holes).edges.size fates L := by
  obtain ⟨L, hL, hf⟩ := (fits_initial outline holes).reaches h
  exact ⟨L, hL, hf, (Account.initial outline holes).reaches hL⟩

/-- While an edge is waiting there is a step. -/
theorem Fits.exists_step (hf : L.Fits holes t) (ht : 0 < t.waiting) :
    ∃ u fate, t.step? = some (u, fate) := by
  obtain ⟨place, p, hn⟩ := hf.exists_nextHole? ht
  rcases hs : t.slit? place p with - | s
  · exact ⟨t.drop place, .dropped place, by simp only [RingTable.step?, hn, hs]⟩
  · exact ⟨t.cut s, .joined s, by simp only [RingTable.step?, hn, hs]⟩

/-- No edge is waiting in the last table. -/
theorem waiting_joinAll (outline : Contour) (holes : List Contour) :
    (RingTable.ofContours outline holes).joinAll.1.waiting = 0 := by
  obtain ⟨hreach, hstop⟩ := RingTable.reaches_joinAll (RingTable.ofContours outline holes)
  obtain ⟨L, -, hf, -⟩ := exists_account holes hreach
  by_contra hne
  obtain ⟨u, fate, hs⟩ := hf.exists_step (Nat.pos_of_ne_zero hne)
  rw [hstop (Nat.pos_of_ne_zero hne)] at hs
  simp at hs

/-- No edge of a dropped hole is joined. -/
theorem Fits.notMem_of_dropped (hf : L.Fits holes t) (hh : h ∈ L.dropped) {i : Nat}
    (hi : i ∈ L.joined.map RingVertex.place) : i ∉ h.places := by
  have hnodup := hf.nodup
  rw [vertices, List.append_assoc, List.map_append] at hnodup
  intro hmem
  refine List.disjoint_of_nodup_append hnodup hi ?_
  rw [← h.map_place_vertices] at hmem
  obtain ⟨v, hv, rfl⟩ := List.mem_map.1 hmem
  exact List.mem_map_of_mem (List.mem_append_right _ (List.mem_flatMap.2 ⟨h, hh, hv⟩))

/-- The holes of a layout without a waiting edge have all been looked at. -/
theorem Fits.waiting_eq_nil (hf : L.Fits holes t) (ht : t.waiting = 0) : L.waiting = [] := by
  rw [hf.count, List.length_eq_zero_iff, List.flatMap_eq_nil_iff] at ht
  refine List.eq_nil_iff_forall_not_mem.2 fun h hh ↦ ?_
  obtain ⟨v, hv⟩ := hf.exists_entrance? hh
  have hmem := PlacedContour.mem_of_entrance? hv
  rw [ht h hh] at hmem
  simp at hmem

theorem countP_eq_countP_range {α : Type} (p : α → Bool) (l : List α) :
    l.countP p = (List.range l.length).countP fun i ↦ l[i]?.any p := by
  induction l with
  | nil => rfl
  | cons a l ih =>
    rw [List.length_cons, List.range_succ_eq_map, List.countP_cons, List.countP_cons,
      List.countP_map, ih]
    rfl

/-- **The counter is right**: it is the number of waiting edges. -/
theorem Fits.countP_waiting (hf : L.Fits holes t) :
    t.edges.countP (·.state = .waiting) = t.waiting := by
  set p : Nat → Bool := fun i ↦ t.edges[i]?.any (·.state = .waiting) with hp
  have hat : ∀ {state : RingState} {l : List RingVertex}, t.HoldsRing state l →
      ∀ v ∈ l, p v.place = decide (state = .waiting) := by
    intro state l hl v hv
    obtain ⟨w, hvw⟩ := hl.exists_leads hv
    simp only [hp, show t.edges[v.place]? = _ from hvw]
    rfl
  have hjoined : (L.joined.map RingVertex.place).countP p = 0 := by
    refine List.countP_eq_zero.2 fun i hi ↦ ?_
    obtain ⟨v, hv, rfl⟩ := List.mem_map.1 hi
    simp [hat hf.joined v hv]
  have hdropped :
      ((L.dropped.flatMap PlacedContour.vertices).map RingVertex.place).countP p = 0 := by
    refine List.countP_eq_zero.2 fun i hi ↦ ?_
    obtain ⟨v, hv, rfl⟩ := List.mem_map.1 hi
    obtain ⟨h, hh, hv⟩ := List.mem_flatMap.1 hv
    simp [hat (hf.dropped h hh) v hv]
  have hwaiting : ((L.waiting.flatMap PlacedContour.vertices).map RingVertex.place).countP p =
      ((L.waiting.flatMap PlacedContour.vertices).map RingVertex.place).length := by
    refine List.countP_eq_length.2 fun i hi ↦ ?_
    obtain ⟨v, hv, rfl⟩ := List.mem_map.1 hi
    obtain ⟨h, hh, hv⟩ := List.mem_flatMap.1 hv
    simp [hat (hf.waiting h hh) v hv]
  calc t.edges.countP (·.state = .waiting)
      = (List.range t.edges.size).countP p := by
        rw [← Array.countP_toList, countP_eq_countP_range, Array.length_toList]
        simp [hp]
    _ = (L.vertices.map RingVertex.place).countP p := (hf.places.countP_eq p).symm
    _ = t.waiting := by
        rw [vertices, List.map_append, List.map_append, List.countP_append, List.countP_append,
          hjoined, hdropped, hwaiting, List.length_map, hf.count]
        omega

/-- What the last table looks like: its layout has no hole waiting. -/
theorem exists_account_joinAll (outline : Contour) (holes : List Contour) :
    ∃ L, (initial outline holes).Reaches (RingTable.ofContours outline holes).joinAll.2 L ∧
      L.waiting = [] ∧
      L.Fits (placeContours outline.size holes) (RingTable.ofContours outline holes).joinAll.1 ∧
      Account outline (RingTable.ofContours outline holes).edges.size
        (RingTable.ofContours outline holes).joinAll.2 L := by
  obtain ⟨L, hL, hf, ha⟩ := exists_account holes
    (RingTable.reaches_joinAll (RingTable.ofContours outline holes)).1
  exact ⟨L, hL, hf.waiting_eq_nil (waiting_joinAll outline holes), hf, ha⟩

/-- There is one fate for every hole with a vertex. -/
theorem length_joinAll (outline : Contour) (holes : List Contour) :
    (RingTable.ofContours outline holes).joinAll.2.length = holes.countP (!·.isEmpty) := by
  obtain ⟨L, -, hnil, hf, ha⟩ := exists_account_joinAll outline holes
  have hcount := hf.holes.length_eq
  rw [hnil, List.append_nil, List.length_append, List.length_map, ← ha.length_fates,
    ← List.countP_eq_length_filter] at hcount
  exact hcount.trans (countP_placeContours _ _ fun c ↦ !c.isEmpty)

/-- The joined ring begins at place 0 with the first vertex of the outline. -/
theorem Account.exists_joined_eq_cons (ha : Account outline size fates L)
    (ho : outline.points ≠ []) : ∃ p l, L.joined = ⟨0, p⟩ :: l := by
  obtain ⟨p, points, hp⟩ := List.exists_cons_of_ne_nil ho
  have hhead := ha.head
  rw [PlacedContour.vertices, hp] at hhead
  obtain ⟨l, hl⟩ := List.head?_eq_some_iff.1 hhead
  exact ⟨p, l, hl⟩

/-- The walk from the first edge goes around the joined ring. -/
theorem Account.walk (ha : Account outline size fates L) (hf : L.Fits holes t)
    (ho : outline.points ≠ []) :
    t.Returns 0 0 (t.ring 0).tail ∧ t.ring 0 = L.joined.map RingVertex.place ∧
      t.ringPoints 0 = L.joined.map RingVertex.point := by
  obtain ⟨p, l, hl⟩ := ha.exists_joined_eq_cons ho
  have hring := hf.joined
  have hnodup := hf.nodup_joined
  rw [hl] at hring hnodup ⊢
  have hplaces := hring.ring_eq hnodup
  have hreturn := hring.returns hnodup
  refine ⟨?_, hplaces, hring.ringPoints_eq hnodup⟩
  rw [hplaces]
  exact hreturn

/-- The number of edges that have been joined. -/
theorem Account.length_joined (ha : Account outline size fates L) :
    L.joined.length = outline.size + (L.bridges.map fun b ↦ b.hole.contour.size + 3).sum := by
  have hlen := ha.places.length_eq
  rw [List.length_map, List.length_append, List.length_range, List.length_flatMap] at hlen
  have hbridge : ∀ b : Bridge, b.places.length = b.hole.contour.size + 3 := by
    intro b
    rw [Bridge.places, PlacedContour.places, List.length_append, List.length_range',
      List.length_range']
  simpa only [hbridge] using hlen

/-- Going along the joined ring leads once around every joined hole and back to its entry. -/
theorem Account.exists_loop (ha : Account outline size fates L) {b : Bridge} (hb : b ∈ L.bridges) :
    ∃ before after, b.hole.contour.points = before ++ b.slit.start :: after ∧
      (∀ p ∈ before, b.slit.start.x < p.x) ∧ (∀ p ∈ after, b.slit.start.x ≤ p.x) ∧
      (b.slit.start :: after ++ before ++ [b.slit.start]).Sublist
        (L.joined.map RingVertex.point) := by
  obtain ⟨before, after, hsplit, hbefore, hafter⟩ :=
    PlacedContour.exists_split_of_entrance? (ha.entry b hb)
  refine ⟨before.map RingVertex.point, after.map RingVertex.point, ?_, fun p hp ↦ ?_,
    fun p hp ↦ ?_, ?_⟩
  · rw [← b.hole.map_point_vertices, hsplit, List.map_append, List.map_cons]
  · obtain ⟨w, hw, rfl⟩ := List.mem_map.1 hp
    exact hbefore w hw
  · obtain ⟨w, hw, rfl⟩ := List.mem_map.1 hp
    exact hafter w hw
  · have hsub := (ha.loops b hb).map RingVertex.point
    have hfrom : b.hole.verticesFrom b.slit.hole = ⟨b.slit.hole, b.slit.start⟩ :: after ++ before :=
      PlacedContour.verticesFrom_eq hsplit
    simpa only [Bridge.loop, hfrom, List.map_append, List.map_cons, List.map_nil] using hsub

end Layout

namespace RingTable

open Layout in
/-- **One step for every hole.** Whatever the contours are, and at every table met while the holes
are joined: the counter is the number of waiting edges; while it is positive there is a next hole,
the walk around it comes back after all of its edges and no others, and these can be subtracted from
the counter. In the end no edge is waiting, and there has been one step for every hole that has a
vertex. -/
theorem joinAll_steps (outline : Contour) (holes : List Contour) :
    (∀ (t : RingTable) (fates : List HoleFate), (ofContours outline holes).Reaches t fates →
      t.waiting = t.edges.countP (·.state = .waiting) ∧
      (0 < t.waiting → ∃ h ∈ placeContours outline.size holes, ∃ place p u fate,
        t.nextHole? = some (place, p) ∧ t.step? = some (u, fate) ∧
        t.Returns place place (t.ring place).tail ∧ (t.ring place).Perm h.places ∧
        (t.ring place).length = h.contour.size ∧ h.contour.size ≤ t.waiting ∧
        u.waiting = t.waiting - h.contour.size)) ∧
    (ofContours outline holes).Reaches (ofContours outline holes).joinAll.1
      (ofContours outline holes).joinAll.2 ∧
    (ofContours outline holes).joinAll.1.waiting = 0 ∧
    (ofContours outline holes).joinAll.2.length = holes.countP (!·.isEmpty) ∧
    (outline.points ≠ [] → (ofContours outline holes).joinAll.1.Returns 0 0
      ((ofContours outline holes).joinAll.1.ring 0).tail) := by
  refine ⟨?_, (reaches_joinAll _).1, waiting_joinAll outline holes,
    length_joinAll outline holes, ?_⟩
  · intro t fates ht
    obtain ⟨L, -, hf, -⟩ := exists_account holes ht
    refine ⟨hf.countP_waiting.symm, ?_⟩
    intro hpos
    obtain ⟨place, p, hnext⟩ := hf.exists_nextHole? hpos
    obtain ⟨h, hn⟩ := hf.next_of_nextHole? hnext
    obtain ⟨u, fate, hs⟩ := hf.exists_step hpos
    have hlen := hf.length_ring hn.mem hn.mem_vertices
    refine ⟨h, (hf.mem_holes hn.mem).1, place, p, u, fate, hnext, hs,
      hf.returns_ring hn.mem hn.mem_vertices, hf.ring_perm hn.mem hn.mem_vertices, hlen, ?_, ?_⟩
    · show h.contour.size ≤ t.waiting
      rw [hf.waiting_eq hn.mem]
      exact Nat.le_add_right _ _
    · show u.waiting = t.waiting - h.contour.size
      rw [waiting_of_step? hnext hs, hlen]
  · intro ho
    obtain ⟨L, -, -, hf, ha⟩ := exists_account_joinAll outline holes
    exact (ha.walk hf ho).1

open Layout in
/-- **The ring that remains.** Whatever the contours are, as long as the outline has a vertex: the
walk from the first edge comes back. On the way it visits the edges of the outline, those of every
joined hole and the three edges of every slit, each once, and no others. Every edge ends where its
successor starts. The points in the order of the walk contain those of the outline in order, and for
every joined hole its points in cyclic order from the first of its leftmost ones, followed by that
one again. -/
theorem joinAll_ring (outline : Contour) (holes : List Contour) (ho : outline.points ≠ []) :
    ∃ (t : RingTable) (fates : List HoleFate) (bridges : List Bridge)
      (dropped : List PlacedContour),
      (ofContours outline holes).joinAll = (t, fates) ∧
      bridges.map Bridge.slit = fates.filterMap HoleFate.slit? ∧
      (bridges.map Bridge.hole ++ dropped).Perm
        ((placeContours outline.size holes).filter fun h ↦ !h.contour.isEmpty) ∧
      (∀ (k : Nat) (b : Bridge), bridges[k]? = some b →
        b.base = (ofContours outline holes).edges.size + 3 * k) ∧
      t.Returns 0 0 (t.ring 0).tail ∧
      (t.ring 0).Perm (List.range outline.size ++
        bridges.flatMap fun b ↦ b.hole.places ++ [b.base, b.base + 1, b.base + 2]) ∧
      (t.ring 0).Nodup ∧
      (∀ h ∈ dropped, ∀ i ∈ h.places, i ∉ t.ring 0) ∧
      (∀ i ∈ t.ring 0, ∃ e f, t.edges[i]? = some e ∧ e.next ∈ t.ring 0 ∧
        t.edges[e.next]? = some f ∧ e.stop = f.start) ∧
      (t.ringPoints 0).length =
        outline.size + (bridges.map fun b ↦ b.hole.contour.size + 3).sum ∧
      (t.ringPoints 0).head? = outline.points.head? ∧
      outline.points.Sublist (t.ringPoints 0) ∧
      ∀ b ∈ bridges, ∃ before after,
        b.hole.contour.points = before ++ b.slit.start :: after ∧
        (∀ p ∈ before, b.slit.start.x < p.x) ∧ (∀ p ∈ after, b.slit.start.x ≤ p.x) ∧
        (b.slit.start :: after ++ before ++ [b.slit.start]).Sublist (t.ringPoints 0) := by
  obtain ⟨L, -, hnil, hf, ha⟩ := exists_account_joinAll outline holes
  obtain ⟨hreturns, hring, hpoints⟩ := ha.walk hf ho
  have hnodup := hf.nodup_joined
  refine ⟨_, _, L.bridges, L.dropped, rfl, ha.slits, ?_, ha.base, hreturns, hring ▸ ha.places,
    hring ▸ hnodup, ?_, ?_, ?_, ?_, ?_, ?_⟩
  · have hperm := hf.holes
    rwa [hnil, List.append_nil] at hperm
  · intro h hh i hi hmem
    rw [hring] at hmem
    exact hf.notMem_of_dropped hh hmem hi
  · -- The edge at a place leads to the next vertex, where the next edge starts.
    intro i hi
    rw [hring] at hi ⊢
    obtain ⟨v, hv, rfl⟩ := List.mem_map.1 hi
    obtain ⟨w, hw, hvw⟩ := hf.joined.exists_next hv
    obtain ⟨x, -, hwx⟩ := hf.joined.exists_next hw
    exact ⟨_, _, hvw, List.mem_map_of_mem hw, hwx, rfl⟩
  · rw [hpoints, List.length_map, ha.length_joined]
  · rw [hpoints, List.head?_map, ha.head, ← List.head?_map, PlacedContour.map_point_vertices]
  · have hsub := ha.outline.map RingVertex.point
    rwa [PlacedContour.map_point_vertices, ← hpoints] at hsub
  · intro b hb
    rw [hpoints]
    exact ha.exists_loop hb

open Layout in
/-- A square with a triangular hole: the hole is joined, and the ring has four edges of the square,
three of the hole and three of the slit. -/
theorem joinAll_ring_square_triangle :
    ∃ (t : RingTable) (fates : List HoleFate),
      (ofContours (.closedOf [⟨0, 0⟩, ⟨9, 0⟩, ⟨9, 9⟩, ⟨0, 9⟩])
        [.closedOf [⟨3, 4⟩, ⟨5, 3⟩, ⟨3, 6⟩]]).joinAll = (t, fates) ∧
      fates.length = 1 ∧ t.Returns 0 0 (t.ring 0).tail ∧ (t.ring 0).Nodup ∧
      (t.ringPoints 0).length = 10 := by
  obtain ⟨t, fates, bridges, dropped, heq, -, -, -, hreturns, -, hnodup, -⟩ :=
    joinAll_ring (.closedOf [⟨0, 0⟩, ⟨9, 0⟩, ⟨9, 9⟩, ⟨0, 9⟩])
      [.closedOf [⟨3, 4⟩, ⟨5, 3⟩, ⟨3, 6⟩]] (by decide)
  refine ⟨t, fates, heq, ?_, hreturns, hnodup, ?_⟩
  · rw [show fates = _ from (congrArg Prod.snd heq).symm]
    decide +kernel
  · rw [show t = _ from (congrArg Prod.fst heq).symm]
    decide +kernel

end RingTable

end GridGeometry
