import GridGeometry.Proofs.Contour.NullEdges
import GridGeometry.Proofs.Slit.Area
import GridGeometry.Proofs.Slit.Axial

/-!
# Where a joined contour ends

A vertex that repeats its predecessor on the joined ring is merged into it, so the edges of the
contour that results have a length, all but perhaps one: nothing is merged across the end of the
ring, and the closing edge has length zero when the ring ends where it begins. Contours without such
edges do not end where they begin. So it takes a slit that closes the ring: one that splits the edge
that leads back to the first vertex, and arrives there (`Layout.endsApart_joinAt_iff`).

The edge that begins at the first vertex has place zero and wins all ties, so a slit that arrives at
this vertex splits it, unless the edge is met further to the right. Then it is horizontal, and the
slit begins on it (`RingTable.Nearest.leadsRightFrom`). Splitting turns no other edge into such a
one, so it is the first edge of the outline that runs to the right through the bridging vertex of a
hole (`nullEdges_joinHoles`).

## Main definitions

* `Slit.Closes`: a slit splits the edge that closes the ring, and arrives at its end.
* `Segment.LeadsRightFrom`: a horizontal segment leads on to the right from a point.
* `Layout.Closing`: what is known along a run about the two ends of the ring.
-/

namespace GridGeometry

open Contour (cycle path dropRepeats EndsApart IsSlim)

/-! ### Edges that lead to the right -/

namespace Segment

variable {e : Segment} {p : Point} {y : Int}

/-- The segment is horizontal and leads on to the right from `p`. -/
def LeadsRightFrom (e : Segment) (p : Point) : Prop :=
  e.start.y = e.stop.y ∧ p.y = e.start.y ∧ e.start.x ≤ p.x ∧ p.x < e.stop.x

instance (e : Segment) (p : Point) : Decidable (e.LeadsRightFrom p) :=
  inferInstanceAs (Decidable
    (e.start.y = e.stop.y ∧ p.y = e.start.y ∧ e.start.x ≤ p.x ∧ p.x < e.stop.x))

theorem LeadsRightFrom.contains (h : e.LeadsRightFrom p) : e.contains p = true := by
  obtain ⟨hy, hp, hle, hlt⟩ := h
  rw [IsAxial.contains_iff (.inr hy), BoxHolds]
  omega

/-- The height of its start is met at the start by every edge that does not run to the right. -/
theorem meetingX_start_or (e : Segment) : e.meetingX e.start.y = e.start.x ∨
    e.start.y = e.stop.y ∧ e.meetingX e.start.y = e.stop.x ∧ e.start.x < e.stop.x := by
  by_cases hy : e.start.y = e.stop.y
  · have hmax : e.meetingX e.start.y = max e.start.x e.stop.x := if_pos hy
    omega
  · exact .inl (meetingX_start hy)

/-- **A first part runs to the right** only if the whole edge does. -/
theorem LeadsRightFrom.of_part (h : LeadsRightFrom ⟨e.start, ⟨e.meetingX y, y⟩⟩ p) :
    e.LeadsRightFrom p := by
  obtain ⟨hy, hp, hle, hlt⟩ := h
  dsimp only at hy hp hle hlt
  subst hy
  rcases e.meetingX_start_or with hmeet | ⟨hy, hmeet, -⟩
  · omega
  · exact ⟨hy, hp, hle, hmeet ▸ hlt⟩

end Segment

namespace RingTable

variable {t : RingTable} {s : Slit} {i : Nat} {e : RingEdge}

/-- **Where an earlier edge starts** no slit arrives, unless it begins on that edge, to the right of
where it arrives. -/
theorem Nearest.leadsRightFrom (hn : t.Nearest s) (hi : t.edges[i]? = some e)
    (hstate : e.state = .joined) (hlt : i < s.target) (harrival : s.arrival = e.start) :
    (⟨e.start, e.stop⟩ : Segment).LeadsRightFrom s.start := by
  have hx : s.arrival.x = e.start.x := congrArg Point.x harrival
  have hy : s.start.y = e.start.y := by
    rw [← harrival, hn.arrival]
  have hle := hn.arrival_le
  have hr : e.Reaches s.start.y := by
    rw [RingEdge.Reaches]
    omega
  have hleast := hn.least i e hi hstate hr
  rw [hy] at hleast
  rcases Segment.meetingX_start_or ⟨e.start, e.stop⟩ with hmeet | ⟨hhor, hmeet, hright⟩
  · change e.meetingX e.start.y = e.start.x at hmeet
    omega
  · change e.meetingX e.start.y = e.stop.x at hmeet
    exact ⟨hhor, hy, by dsimp only at hright ⊢; omega, by dsimp only at hright ⊢; omega⟩

end RingTable

/-- An edge of length zero is split where it stands. -/
theorem Slit.Meets.arrival_eq {s : Slit} (h : s.Meets) (hp : s.split.start = s.split.stop) :
    s.arrival = s.split.start := by
  have hreach := h.reaches
  rw [RingEdge.Reaches, ← hp] at hreach
  rw [h.arrival, RingEdge.meetingX, if_pos (congrArg Point.y hp), ← hp, max_self, Point.eq_iff]
  dsimp only
  omega

/-! ### The end of the ring -/

/-- The slit splits the edge that leads back to place zero, and arrives at its end. -/
def Slit.Closes (s : Slit) : Prop := s.split.next = 0 ∧ s.arrival = s.split.stop

namespace Layout

variable {outline : Contour} {L M : Layout} {before after : List RingVertex} {v x : RingVertex}
  {h : PlacedContour} {s : Slit} {b : Bridge} {size : Nat} {fates : List HoleFate}

theorem Arrives.meets {w : RingVertex} (ha : L.Arrives s v w) : s.Meets := by
  have hreaches := ha.reaches
  have harrival := ha.arrival
  exact ⟨ha.split ▸ hreaches, ha.split ▸ harrival⟩

/-- The first vertex of the ring has place zero. -/
theorem Account.place_head (ha : Account outline size fates L) (hx : L.joined.head? = some x) :
    x.place = 0 := by
  rw [ha.head, List.head?_eq_getElem?, PlacedContour.getElem?_vertices] at hx
  obtain ⟨p, -, rfl⟩ := Option.map_eq_some_iff.1 hx
  rfl

/-- The ring ends where it did, or with the rest of the split edge when that was the last one. -/
theorem getLast?_joinAt (hj : L.joined = before ++ v :: after) (b : Bridge) :
    (L.joinAt before v after b).joined.getLast? =
      if after = [] then some ⟨b.base, b.slit.arrival⟩ else L.joined.getLast? := by
  rcases List.eq_nil_or_concat' after with rfl | ⟨after, z, rfl⟩
  · have hring : (L.joinAt before v [] b).joined =
        (before ++ v :: ⟨b.base + 1, b.slit.arrival⟩ :: b.loop) ++ [⟨b.base, b.slit.arrival⟩] := by
      simp [joinAt, Bridge.vertices]
    rw [hring, List.getLast?_concat, if_pos rfl]
  · have hring : (L.joinAt before v (after ++ [z]) b).joined =
        (before ++ v :: (b.vertices ++ after)) ++ [z] := by
      simp [joinAt]
    have hold : L.joined = (before ++ v :: after) ++ [z] := by
      rw [hj, List.append_assoc, List.cons_append]
    rw [hring, hold, List.getLast?_concat, List.getLast?_concat, if_neg (by simp)]

/-- The edge that leads back to place zero is the last one of the ring. -/
theorem Arrives.next_eq_zero_iff (hnodup : (L.joined.map RingVertex.place).Nodup)
    (hx : L.joined.head? = some x) (hzero : x.place = 0) (hj : L.joined = before ++ v :: after)
    (ha : L.Arrives s v (after.headD (before.headD v))) : s.split.next = 0 ↔ after = [] := by
  have hnext : s.split.next = (after.headD (before.headD v)).place := by rw [ha.split]
  rw [hnext]
  cases after with
  | nil =>
    have hhead : before.headD v = x := by
      rw [hj] at hx
      cases before <;> simpa using hx
    exact iff_of_true (by rw [List.headD_nil, hhead, hzero]) rfl
  | cons w after =>
    have hne : w.place ≠ x.place := by
      rw [hj, List.map_append, List.map_cons, List.map_cons] at hnodup
      rw [hj] at hx
      cases before with
      | nil =>
        obtain rfl : v = x := by simpa using hx
        have hv := (List.nodup_cons.1 hnodup).1
        exact fun heq ↦ hv (heq ▸ List.mem_cons_self)
      | cons y before =>
        obtain rfl : y = x := by simpa using hx
        have hy := (List.nodup_cons.1 hnodup).1
        exact fun heq ↦ hy (heq ▸ by simp)
    simpa [hzero] using hne

/-- **Only a slit that closes the ring** brings its end to where it begins, and then it stays there.
-/
theorem endsApart_joinAt_iff (hx : L.joined.head? = some x)
    (hnext : s.split.next = 0 ↔ after = []) (hj : L.joined = before ++ v :: after)
    (ha : L.Arrives s v (after.headD (before.headD v))) (base : Nat) :
    EndsApart ((L.joinAt before v after ⟨h, s, base⟩).joined.map RingVertex.point) ↔
      EndsApart (L.joined.map RingVertex.point) ∧ ¬ s.Closes := by
  have hhead := head?_joinAt hj ⟨h, s, base⟩
  have hlast := getLast?_joinAt hj ⟨h, s, base⟩
  rw [Slit.Closes, hnext]
  by_cases hafter : after = []
  · subst hafter
    have hroot : before.headD v = x := by
      rw [hj] at hx
      cases before <;> simpa using hx
    have hstop : s.split.stop = x.point := by
      rw [ha.split, ← hroot]
      rfl
    have hold : L.joined.getLast? = some v := by rw [hj, List.getLast?_concat]
    -- A ring that ends where it begins has a last edge of length zero, which is split there.
    have hkeep : x.point = v.point → s.arrival = x.point := by
      intro heq
      have hsplit : s.split.start = v.point := by rw [ha.split]
      rw [ha.meets.arrival_eq (by rw [hsplit, hstop, heq]), hsplit, heq]
    simp only [EndsApart, List.head?_map, List.getLast?_map, hhead, hlast, hx, hold, if_pos,
      Option.map_some, Option.mem_some_iff, forall_eq', hstop, true_and]
    exact ⟨fun hne ↦ ⟨fun heq ↦ hne (hkeep heq).symm, Ne.symm hne⟩, fun hboth ↦ Ne.symm hboth.2⟩
  · rw [if_neg hafter] at hlast
    rw [and_iff_left (fun hclose ↦ hafter hclose.1)]
    exact EndsApart.congr (by rw [List.head?_map, hhead, ← List.head?_map])
      (by rw [List.getLast?_map, hlast, ← List.getLast?_map])

/-! ### The first edge of the ring -/

/-- The first edge of the ring leads to the right only from points from which the first edge of the
outline does. -/
def KeepsFirst (outline : Contour) (L : Layout) : Prop :=
  ∀ e ∈ L.joinedEdges.head?, ∀ p, e.LeadsRightFrom p →
    ∃ d ∈ (cycle outline.points).head?, d.LeadsRightFrom p

theorem head?_joinedEdges {l : List RingVertex} (hj : L.joined = x :: l) :
    L.joinedEdges.head? = some ⟨x.point, (l.headD x).point⟩ := by
  rw [joinedEdges, hj, List.map_cons, Contour.cycle_cons, Contour.pathTo_cons, List.head?_cons,
    List.headD_map]

theorem KeepsFirst.joinAt (hk : L.KeepsFirst outline) (hj : L.joined = before ++ v :: after)
    (ha : L.Arrives s v (after.headD (before.headD v))) (base : Nat) :
    (L.joinAt before v after ⟨h, s, base⟩).KeepsFirst outline := by
  intro e he p hp
  cases before with
  | nil =>
    have hold := head?_joinedEdges hj
    have hnew : (L.joinAt [] v after ⟨h, s, base⟩).joinedEdges.head? =
        some ⟨v.point, s.arrival⟩ :=
      head?_joinedEdges (L := L.joinAt [] v after ⟨h, s, base⟩) rfl
    obtain rfl := Option.some.inj (hnew.symm.trans he)
    rw [ha.arrival] at hp
    exact hk _ hold p hp.of_part
  | cons y before =>
    set b : Bridge := ⟨h, s, base⟩
    have hold := head?_joinedEdges (l := before ++ v :: after) hj
    have hnew := head?_joinedEdges (L := L.joinAt (y :: before) v after b)
      (l := before ++ v :: (b.vertices ++ after)) rfl
    have hsame : (before ++ v :: (b.vertices ++ after)).headD y =
        (before ++ v :: after).headD y := by
      cases before <;> rfl
    rw [hsame, ← hold] at hnew
    exact hk e (hnew ▸ he) p hp

/-- **A slit that closes the ring begins on its first edge**, and that edge runs to the right. -/
theorem leadsRightFrom_of_closes {holes : List PlacedContour} {t : RingTable}
    (hf : L.Fits holes t) (hx : L.joined.head? = some x) (hzero : x.place = 0)
    (hnext : s.split.next = 0 ↔ after = []) (hlong : 2 ≤ L.joined.length)
    (hj : L.joined = before ++ v :: after) (ha : L.Arrives s v (after.headD (before.headD v)))
    (hn : t.Nearest s) (hs : s.Closes) :
    ∃ w, t.Leads .joined x w ∧ L.joinedEdges.head? = some ⟨x.point, w.point⟩ ∧
      Segment.LeadsRightFrom ⟨x.point, w.point⟩ s.start := by
  obtain rfl := hnext.1 hs.1
  have harrival := hs.2
  cases before with
  | nil => simp [hj] at hlong
  | cons y before =>
    obtain rfl : y = x := by simpa [hj] using hx
    rw [ha.split] at harrival
    -- The slit splits the last edge, and the first one has a lesser place.
    have hplace : y.place < s.target := by
      have hnodup := hf.nodup_joined
      rw [hj, List.cons_append, List.map_cons] at hnodup
      rw [ha.target, hzero]
      refine Nat.pos_of_ne_zero fun heq ↦ (List.nodup_cons.1 hnodup).1 ?_
      exact hzero ▸ heq ▸ List.mem_map_of_mem (List.mem_append_right _ List.mem_cons_self)
    have hring := hf.joined
    rw [hj] at hring
    exact ⟨_, hring.1, head?_joinedEdges hj, hn.leadsRightFrom hring.1 rfl hplace harrival⟩

/-! ### Along a run -/

/-- What is known along a run about the two ends of the ring. -/
structure Closing (outline : Contour) (fates : List HoleFate) (L : Layout) : Prop where
  apart : EndsApart (L.joined.map RingVertex.point) ↔
    ∀ s ∈ fates.filterMap HoleFate.slit?, ¬ s.Closes
  first : L.KeepsFirst outline
  begins : ∀ s ∈ fates.filterMap HoleFate.slit?, s.Closes →
    ∃ d ∈ (cycle outline.points).head?, d.LeadsRightFrom s.start

theorem Closing.initial (holes : List Contour) (ho : EndsApart outline.points) :
    Closing outline [] (initial outline holes) where
  apart := by
    rw [Layout.initial, PlacedContour.map_point_vertices]
    simpa using ho
  first := by
    intro e he p hp
    rw [joinedEdges, Layout.initial, PlacedContour.map_point_vertices] at he
    exact ⟨e, he, hp⟩
  begins := by simp

/-- **Every step keeps what is known.** -/
theorem Closing.step {holes : List PlacedContour} {t u : RingTable} {fate : HoleFate}
    (hc : Closing outline fates L) (hf : L.Fits holes t) (hacc : Account outline size fates L)
    (hlong : outline.points = [] ∨ 2 ≤ outline.size) (hs : t.step? = some (u, fate))
    (hL : L.Step fate M) : Closing outline (fates ++ [fate]) M := by
  cases hL with
  | drop =>
    have hfates : ∀ hole, (fates ++ [HoleFate.dropped hole]).filterMap HoleFate.slit? =
        fates.filterMap HoleFate.slit? := fun hole ↦ by
      rw [List.filterMap_append]
      exact List.append_nil _
    exact ⟨(hfates _).symm ▸ hc.apart, hc.first, (hfates _).symm ▸ hc.begins⟩
  | @join before after v h s hj hn ha =>
    have hnearest := (RingTable.slit_of_step? hs).2
    obtain ⟨x, hx⟩ : ∃ x, L.joined.head? = some x := by
      rw [← Option.isSome_iff_exists, List.isSome_head?, hj]
      simp
    have hzero := hacc.place_head hx
    have hnext := ha.next_eq_zero_iff hf.nodup_joined hx hzero hj
    have hfates : (fates ++ [HoleFate.joined s]).filterMap HoleFate.slit? =
        fates.filterMap HoleFate.slit? ++ [s] := List.filterMap_append
    have htwo : 2 ≤ L.joined.length := by
      have hsub := hacc.outline.length_le
      rw [PlacedContour.length_vertices] at hsub
      refine Nat.le_trans (hlong.resolve_left fun hnil ↦ ?_) hsub
      simp [hacc.joined_eq_nil hnil] at hx
    exact {
      apart := by
        rw [endsApart_joinAt_iff hx hnext hj ha, hc.apart, hfates, List.forall_mem_append]
        simp
      first := hc.first.joinAt hj ha _
      begins := by
        rw [hfates, List.forall_mem_append]
        refine ⟨hc.begins, fun s' hs' ↦ ?_⟩
        obtain rfl := List.mem_singleton.1 hs'
        intro hs'
        obtain ⟨w, -, hw, hright⟩ :=
          leadsRightFrom_of_closes hf hx hzero hnext htwo hj ha hnearest hs'
        exact hc.first _ hw _ hright }

end Layout

/-! ### The contour that results -/

section

variable {outline : Contour} {holes : List Contour} {c : Contour} {s : Slit}

/-- The ends of the ring are known along a run. -/
theorem RingTable.Reaches.exists_closing {t : RingTable} {fates : List HoleFate}
    (ho : IsSlim outline.points) (h : (ofContours outline holes).Reaches t fates) :
    ∃ L : Layout, L.Fits (placeContours outline.size holes) t ∧
      Layout.Account outline (ofContours outline holes).edges.size fates L ∧
        L.Closing outline fates := by
  induction h with
  | refl =>
    exact ⟨_, Layout.fits_initial outline holes, .initial outline holes,
      .initial holes ho.endsApart⟩
  | step _ _ hs ih =>
    obtain ⟨L, hf, hacc, hc⟩ := ih
    obtain ⟨M, hM, hfit⟩ := hf.step hs
    exact ⟨M, hfit, hacc.step hM, hc.step hf hacc ho.endsApart.two_le hs hM⟩

/-- A joined hole is one of the holes, and its slit begins at the first of its leftmost vertices. -/
theorem entry_of_mem_joinedHoles (h : (c, s) ∈ joinedHoles outline holes) :
    c ∈ holes ∧ c.points.minOn? Point.x = some s.start := by
  obtain ⟨L, -, -, hf, ha⟩ := Layout.exists_account_joinAll outline holes
  rw [ha.joinedHoles_eq hf] at h
  obtain ⟨b, hb, heq⟩ := List.mem_map.1 h
  obtain ⟨rfl, rfl⟩ := Prod.mk.inj heq
  exact ⟨mem_of_mem_placeContours (hf.mem_holes_of_bridge hb),
    PlacedContour.minOn?_points (ha.entry b hb)⟩

/-- **Which edges of length zero are left.** Only the closing edge can be one, and it is when a slit
closes the ring. Such a slit begins on the first edge of the outline, which runs to the right. -/
theorem isSlim_joinHoles_iff (ho : IsSlim outline.points) :
    (∀ e ∈ path (joinHoles (outline :: holes)).points, ¬ e.IsPoint) ∧
    (IsSlim (joinHoles (outline :: holes)).points ↔
      ∀ c s, (c, s) ∈ joinedHoles outline holes → ¬ s.Closes) ∧
    ∀ c s, (c, s) ∈ joinedHoles outline holes → s.Closes →
      ∃ d ∈ (cycle outline.points).head?, d.LeadsRightFrom s.start := by
  by_cases hh : holes = []
  · subst hh
    rw [joinedHoles_nil]
    exact ⟨(Contour.isSlim_iff.1 ho).1, iff_of_true ho (by simp), by simp⟩
  · obtain ⟨L, hf, ha, hc⟩ :=
      (RingTable.reaches_joinAll (RingTable.ofContours outline holes)).1.exists_closing ho
    have hslits := map_snd_joinedHoles outline holes
    have hmem : ∀ {p : Slit → Prop}, (∀ s ∈ (RingTable.ofContours outline holes).joinAll.2.filterMap
        HoleFate.slit?, p s) ↔ ∀ c s, (c, s) ∈ joinedHoles outline holes → p s := by
      intro p
      rw [← hslits, List.forall_mem_map, Prod.forall]
    have hpath : ∀ e ∈ path (joinHoles (outline :: holes)).points, ¬ e.IsPoint := by
      rw [ha.points_joinHoles hf hh, Contour.forall_mem_path_iff]
      exact Contour.isChain_dropRepeats _
    refine ⟨hpath, ?_, hmem.1 hc.begins⟩
    rw [Contour.isSlim_iff, and_iff_right hpath, ha.points_joinHoles hf hh,
      Contour.endsApart_dropRepeats_iff, hc.apart, hmem]

/-- **Edges of length zero.** Let all contours be closed and have no edge of length zero. Then no
edge of the contour that results has length zero but for the closing edge. That edge has length zero
exactly when one of the slits splits the edge that leads back to the first vertex, and arrives at
its end. So no edge has length zero when no hole is entered on the first edge of the outline while
that edge is horizontal and leads on to the right. -/
theorem nullEdges_joinHoles {contours : List Contour} (hclosed : ∀ c ∈ contours, c.closed = true)
    (hslim : ∀ c ∈ contours, ∀ e ∈ c.edges, ¬ e.IsPoint) :
    (joinHoles contours).closed = true ∧
    (∀ e ∈ path (joinHoles contours).points, ¬ e.IsPoint) ∧
    ((∃ e ∈ (joinHoles contours).edges, e.IsPoint) ↔
      ∃ outline holes c s, contours = outline :: holes ∧ (c, s) ∈ joinedHoles outline holes ∧
        s.split.next = 0 ∧ s.arrival = s.split.stop) ∧
    ((∀ outline holes, contours = outline :: holes → ∀ e ∈ outline.edges.head?, ∀ c ∈ holes,
        ∀ p, c.points.minOn? Point.x = some p →
          ¬ (e.start.y = e.stop.y ∧ p.y = e.start.y ∧ e.start.x ≤ p.x ∧ p.x < e.stop.x)) →
      ∀ e ∈ (joinHoles contours).edges, ¬ e.IsPoint) := by
  cases contours with
  | nil => simp [joinHoles, Contour.closedOf, Contour.edges, cycle, path]
  | cons outline holes =>
    have ho := hclosed outline List.mem_cons_self
    have hresult := closed_joinHoles holes ho
    have hslim' : IsSlim outline.points := fun e he ↦
      hslim outline List.mem_cons_self e (Contour.edges_of_closed ho ▸ he)
    obtain ⟨hpath, hiff, hbegins⟩ := isSlim_joinHoles_iff hslim'
    rw [Contour.edges_of_closed hresult]
    refine ⟨hresult, hpath, ?_, fun hclear ↦ hiff.2 fun c s hmem hs ↦ ?_⟩
    · have hnull : (∃ e ∈ cycle (joinHoles (outline :: holes)).points, e.IsPoint) ↔
          ¬ IsSlim (joinHoles (outline :: holes)).points := by
        simp only [IsSlim, not_forall, not_not, exists_prop]
      rw [hnull, hiff]
      constructor
      · intro h
        simp only [not_forall, not_not] at h
        obtain ⟨c, s, hmem, hs⟩ := h
        exact ⟨outline, holes, c, s, rfl, hmem, hs⟩
      · rintro ⟨o, l, c, s, heq, hmem, hs⟩ h
        obtain ⟨rfl, rfl⟩ := List.cons.inj heq
        exact h c s hmem hs
    · obtain ⟨hc, hentry⟩ := entry_of_mem_joinedHoles hmem
      obtain ⟨d, hd, hright⟩ := hbegins c s hmem hs
      exact hclear outline holes rfl d (Contour.edges_of_closed ho ▸ hd) c hc _ hentry hright

/-- A square that is run through from its lower left corner upward, and a hole that touches its
lower side. The slit arrives at the first vertex, and splits the edge that begins there. -/
theorem nullEdges_joinHoles_upward :
    (joinHoles [.closedOf [⟨0, 0⟩, ⟨0, 10⟩, ⟨10, 10⟩, ⟨10, 0⟩],
      .closedOf [⟨3, 0⟩, ⟨6, 2⟩, ⟨6, 5⟩]]).closed = true ∧
    ∀ e ∈ (joinHoles [.closedOf [⟨0, 0⟩, ⟨0, 10⟩, ⟨10, 10⟩, ⟨10, 0⟩],
      .closedOf [⟨3, 0⟩, ⟨6, 2⟩, ⟨6, 5⟩]]).edges, ¬ e.IsPoint := by
  have hcontours : ∀ c ∈ ([.closedOf [⟨0, 0⟩, ⟨0, 10⟩, ⟨10, 10⟩, ⟨10, 0⟩],
      .closedOf [⟨3, 0⟩, ⟨6, 2⟩, ⟨6, 5⟩]] : List Contour), c.closed = true := by decide
  obtain ⟨hclosed, -, -, hclear⟩ := nullEdges_joinHoles hcontours (by decide)
  refine ⟨hclosed, hclear ?_⟩
  intro outline holes heq e he
  obtain ⟨rfl, rfl⟩ := List.cons.inj heq
  obtain rfl := Option.some.inj he
  rintro c - p - ⟨hy, -⟩
  exact absurd hy (by decide)

/-- The same square run through the other way. Its first edge is its lower side, which is met to the
right of the hole, so the last edge is split, and the contour ends where it begins. -/
theorem exists_nullEdge_joinHoles :
    ∃ contours : List Contour, (∀ c ∈ contours, c.closed = true) ∧
      (∀ c ∈ contours, ∀ e ∈ c.edges, ¬ e.IsPoint) ∧
      ∃ e ∈ (joinHoles contours).edges, e.IsPoint :=
  ⟨[.closedOf [⟨0, 0⟩, ⟨10, 0⟩, ⟨10, 10⟩, ⟨0, 10⟩], .closedOf [⟨3, 0⟩, ⟨6, 2⟩, ⟨6, 5⟩]],
    by decide, by decide, ⟨⟨0, 0⟩, ⟨0, 0⟩⟩, by decide +kernel, rfl⟩

end

end GridGeometry
