import GridGeometry.Proofs.Slit.Closing

/-!
# Counting the vertices of a joined contour

Joining a hole puts its vertices and three more into the ring. A slit that arrives at an end of the
edge that it splits leaves an edge of length zero there, and the vertex that goes with it is merged
in the end. So such a hole adds two vertices besides its own, and any other hole adds three
(`size_joinHoles`), as long as no other edges of length zero come about.

The merging looks at neighbours along the ring and never at its last and first vertex, so the count
needs that the ring does not end where it begins. Only a slit that begins on the first edge could
bring this about (`Layout.leadsRightFrom_of_closes`), and it has no room there.

## Main definitions

* `Slit.AtEnd`: a slit arrives at an end of the edge that it splits.
* `RingTable.HasRoom`: a slit has a length and does not begin on a joined horizontal edge.
* `Layout.NullEdges`: the account of edges of length zero that is kept along a run.
-/

namespace GridGeometry

open Contour (cycle dropRepeats EndsApart IsSlim)

/-- The slit arrives at an end of the edge that it splits. -/
def Slit.AtEnd (s : Slit) : Prop := s.arrival = s.split.start ∨ s.arrival = s.split.stop

instance (s : Slit) : Decidable s.AtEnd :=
  inferInstanceAs (Decidable (s.arrival = s.split.start ∨ s.arrival = s.split.stop))

namespace RingTable

variable {t : RingTable} {s : Slit} {i : Nat} {e : RingEdge}

/-- The slit has a length, and it does not begin on a joined horizontal edge. -/
def HasRoom (t : RingTable) (s : Slit) : Prop :=
  s.start ≠ s.arrival ∧ ∀ e ∈ t.edges.toList, e.state = .joined → e.start.y = e.stop.y →
    (⟨e.start, e.stop⟩ : Segment).contains s.start = false

instance (t : RingTable) (s : Slit) : Decidable (t.HasRoom s) :=
  inferInstanceAs (Decidable (s.start ≠ s.arrival ∧ ∀ e ∈ t.edges.toList, e.state = .joined →
    e.start.y = e.stop.y → (⟨e.start, e.stop⟩ : Segment).contains s.start = false))

/-- A slit with room does not begin on a joined edge that runs to the right. -/
theorem HasRoom.not_leadsRightFrom (h : t.HasRoom s) (hi : t.edges[i]? = some e)
    (hstate : e.state = .joined) : ¬ (⟨e.start, e.stop⟩ : Segment).LeadsRightFrom s.start := by
  intro hright
  have hmem : e ∈ t.edges.toList := Array.mem_toList_iff.2 (Array.mem_of_getElem? hi)
  have hoff := h.2 e hmem hstate hright.1
  rw [hright.contains] at hoff
  exact absurd hoff (by decide)

end RingTable

/-! ### Edges of length zero along a run -/

namespace Layout

variable {outline : Contour} {L M : Layout} {before after : List RingVertex} {v x : RingVertex}
  {h : PlacedContour} {s : Slit}

/-- No waiting hole has an edge of length zero. The joined ring has one for every slit that has
arrived at an end of the edge that it split, and it does not end where it begins. -/
structure NullEdges (L : Layout) : Prop where
  waiting : ∀ h ∈ L.waiting, IsSlim h.contour.points
  count : L.joinedEdges.countP (·.IsPoint) = L.bridges.countP (·.slit.AtEnd)
  apart : EndsApart (L.joined.map RingVertex.point)

theorem NullEdges.initial {holes : List Contour} (hslim : ∀ c ∈ outline :: holes, IsSlim c.points) :
    (initial outline holes).NullEdges := by
  have houtline := hslim outline List.mem_cons_self
  have hpoints : (Layout.initial outline holes).joined.map RingVertex.point = outline.points :=
    PlacedContour.map_point_vertices _
  exact {
    waiting := by
      intro h hh
      have hmem := mem_of_mem_placeContours (List.mem_of_mem_filter hh)
      exact hslim h.contour (List.mem_cons_of_mem _ hmem)
    count := by
      rw [joinedEdges, hpoints]
      exact List.countP_eq_zero.2 fun e he ↦ by simpa using houtline e he
    apart := hpoints ▸ houtline.endsApart }

/-- **Splitting an edge** makes one more edge of length zero when the slit arrives at an end. -/
theorem countP_joinAt (hN : L.NullEdges) (hj : L.joined = before ++ v :: after)
    (hn : L.Next h ⟨s.hole, s.start⟩) (ha : L.Arrives s v (after.headD (before.headD v)))
    (hne : s.start ≠ s.arrival) (base : Nat) :
    (L.joinAt before v after ⟨h, s, base⟩).joinedEdges.countP (·.IsPoint) =
      L.joinedEdges.countP (·.IsPoint) + if s.AtEnd then 1 else 0 := by
  obtain ⟨rest, hold, hnew⟩ := joinedEdges_joinAt hj hn base
  set w := after.headD (before.headD v)
  have hhole : (cycle h.contour.points).countP (·.IsPoint) = 0 :=
    List.countP_eq_zero.2 fun e he ↦ by simpa using hN.waiting h hn.mem e he
  have hpoint : v.point = w.point → s.arrival = v.point := by
    intro hvw
    have harrival := ha.meets.arrival_eq
    rw [ha.split] at harrival
    exact harrival hvw
  have hend : s.AtEnd ↔ s.arrival = v.point ∨ s.arrival = w.point := by
    rw [Slit.AtEnd, ha.split]
  rw [hold.countP_eq, hnew.countP_eq]
  simp only [List.countP_cons, List.countP_append, hhole, decide_eq_true_eq]
  simp only [hend, Segment.IsPoint, hne, hne.symm, if_false]
  by_cases hvw : v.point = w.point
  · simp only [hpoint hvw, ← hvw, true_or, if_true]
    omega
  · by_cases hv : v.point = s.arrival
    · simp only [← hv, hvw, true_or, if_true, if_false]
      omega
    · by_cases hw : s.arrival = w.point
      · simp only [hw, hvw, or_true, if_true, if_false]
        omega
      · simp only [hv, Ne.symm hv, hw, hvw, or_self, if_false]
        omega

/-- **Every slit with a length that does not close the ring** keeps the account. -/
theorem NullEdges.joinAt (hN : L.NullEdges) (hj : L.joined = before ++ v :: after)
    (hn : L.Next h ⟨s.hole, s.start⟩) (ha : L.Arrives s v (after.headD (before.headD v)))
    (hne : s.start ≠ s.arrival) (hx : L.joined.head? = some x)
    (hnext : s.split.next = 0 ↔ after = []) (hopen : ¬ s.Closes) (base : Nat) :
    (L.joinAt before v after ⟨h, s, base⟩).NullEdges where
  waiting h' hh' := hN.waiting h' (List.mem_of_mem_erase hh')
  count := by
    rw [countP_joinAt hN hj hn ha hne, hN.count, joinAt_bridges, List.countP_append,
      List.countP_singleton]
    simp only [decide_eq_true_eq]
  apart := (endsApart_joinAt_iff hx hnext hj ha base).2 ⟨hN.apart, hopen⟩

theorem NullEdges.giveUp (hN : L.NullEdges) (h : PlacedContour) : (L.giveUp h).NullEdges where
  waiting h' hh' := hN.waiting h' (List.mem_of_mem_erase hh')
  count := hN.count
  apart := hN.apart

/-- **A step that makes a slit with room** keeps the account. -/
theorem NullEdges.step {holes : List PlacedContour} {t u : RingTable} {fate : HoleFate} {size : Nat}
    {fates : List HoleFate} (hN : L.NullEdges) (hf : L.Fits holes t)
    (hacc : Account outline size fates L) (hs : t.step? = some (u, fate)) (hL : L.Step fate M)
    (hroom : ∀ s, fate = .joined s → t.HasRoom s) : M.NullEdges := by
  cases hL with
  | drop => exact hN.giveUp _
  | @join before after v h s hj hn ha =>
    have hroom := hroom s rfl
    have hv : v ∈ L.joined := hj ▸ List.mem_append_right _ List.mem_cons_self
    obtain ⟨x, hx⟩ : ∃ x, L.joined.head? = some x :=
      Option.isSome_iff_exists.1 (List.isSome_head?.2 (List.ne_nil_of_mem hv))
    have hzero := hacc.place_head hx
    have hnext := ha.next_eq_zero_iff hf.nodup_joined hx hzero hj
    have htwo : 2 ≤ L.joined.length := by
      have hpoints := hN.apart.two_le.resolve_left (by simpa using List.ne_nil_of_mem hv)
      rwa [List.length_map] at hpoints
    refine hN.joinAt hj hn ha hroom.1 hx hnext (fun hs' ↦ ?_) _
    obtain ⟨w, hw, -, hright⟩ :=
      leadsRightFrom_of_closes hf hx hzero hnext htwo hj ha (RingTable.slit_of_step? hs).2 hs'
    exact hroom.not_leadsRightFrom hw rfl hright

end Layout

/-! ### The contour that results -/

section

variable {outline : Contour} {holes : List Contour}

/-- At every turn at which a slit is made, it has room. -/
def SlitsHaveRoom (outline : Contour) (holes : List Contour) : Prop :=
  ∀ t fates u s, (RingTable.ofContours outline holes).Reaches t fates →
    t.step? = some (u, .joined s) → t.HasRoom s

/-- The account of edges of length zero is kept along a run. -/
theorem RingTable.Reaches.exists_nullEdges {t : RingTable} {fates : List HoleFate}
    (hslim : ∀ c ∈ outline :: holes, IsSlim c.points) (hroom : SlitsHaveRoom outline holes)
    (h : (ofContours outline holes).Reaches t fates) :
    ∃ L : Layout, L.Fits (placeContours outline.size holes) t ∧
      Layout.Account outline (ofContours outline holes).edges.size fates L ∧ L.NullEdges := by
  induction h with
  | refl => exact ⟨_, Layout.fits_initial outline holes, .initial outline holes, .initial hslim⟩
  | @step t u fates fate hreach _ hs ih =>
    obtain ⟨L, hf, hacc, hN⟩ := ih
    obtain ⟨M, hM, hfit⟩ := hf.step hs
    refine ⟨M, hfit, hacc.step hM, hN.step hf hacc hs hM fun s hfate ↦ ?_⟩
    exact hroom t fates u s hreach (hfate ▸ hs)

/-- Three vertices for every slit, less those that are merged. -/
theorem sum_size_add (bridges : List Bridge) :
    (bridges.map fun b ↦ b.hole.contour.size + 3).sum =
      (bridges.map fun b ↦ b.hole.contour.size + if b.slit.AtEnd then 2 else 3).sum +
        bridges.countP (·.slit.AtEnd) := by
  induction bridges with
  | nil => rfl
  | cons b bridges ih =>
    rw [List.map_cons, List.map_cons, List.sum_cons, List.sum_cons, List.countP_cons, ih]
    by_cases hb : b.slit.AtEnd
    · simp only [hb, if_true, decide_true]
      omega
    · simp only [hb, if_false, decide_false, Bool.false_eq_true]
      omega

/-- **The number of vertices.** Let no contour have an edge of length zero, and let every slit that
is made have a length and not begin on a joined horizontal edge. Then the contour that results has
the vertices of the outline, and for every joined hole its vertices and three more, or two more when
its slit arrives at an end of the edge that it splits. -/
theorem size_joinHoles (outline : Contour) (holes : List Contour)
    (hslim : ∀ c ∈ outline :: holes, ∀ e ∈ cycle c.points, ¬ e.IsPoint)
    (hroom : ∀ t fates u s, (RingTable.ofContours outline holes).Reaches t fates →
      t.step? = some (u, .joined s) → s.start ≠ s.arrival ∧
        ∀ e ∈ t.edges.toList, e.state = .joined → e.start.y = e.stop.y →
          (⟨e.start, e.stop⟩ : Segment).contains s.start = false) :
    (joinHoles (outline :: holes)).size = outline.size +
      ((joinedHoles outline holes).map fun (c, s) ↦
        c.size + if s.arrival = s.split.start ∨ s.arrival = s.split.stop then 2 else 3).sum := by
  by_cases hh : holes = []
  · rw [hh, joinedHoles_nil]
    rfl
  · obtain ⟨L, hf, ha, hN⟩ := (RingTable.reaches_joinAll _).1.exists_nullEdges hslim hroom
    have hmerged := Contour.length_dropRepeats (L.joined.map RingVertex.point)
    have hcount : (Contour.path (L.joined.map RingVertex.point)).countP (·.IsPoint) =
        L.bridges.countP (·.slit.AtEnd) := hN.apart.countP_cycle.symm.trans hN.count
    have hsum : ((joinedHoles outline holes).map fun (c, s) ↦
        c.size + if s.arrival = s.split.start ∨ s.arrival = s.split.stop then 2 else 3).sum =
          (L.bridges.map fun b ↦ b.hole.contour.size + if b.slit.AtEnd then 2 else 3).sum := by
      rw [ha.joinedHoles_eq hf, List.map_map]
      rfl
    rw [hcount, List.length_map, ha.length_joined, sum_size_add] at hmerged
    rw [Contour.size, ha.points_joinHoles hf hh, hsum]
    omega

/-- A pentagon with two triangular holes. The first slit arrives at the vertex `⟨2, 5⟩`, the second
one between the ends of an edge. -/
theorem size_joinHoles_pentagon :
    (joinHoles [.closedOf [⟨0, 0⟩, ⟨10, 0⟩, ⟨10, 10⟩, ⟨0, 10⟩, ⟨2, 5⟩],
      .closedOf [⟨4, 5⟩, ⟨6, 4⟩, ⟨6, 6⟩], .closedOf [⟨7, 8⟩, ⟨8, 7⟩, ⟨8, 9⟩]]).size =
        5 + ((3 + 2) + (3 + 3)) := by
  have hsize := size_joinHoles (.closedOf [⟨0, 0⟩, ⟨10, 0⟩, ⟨10, 10⟩, ⟨0, 10⟩, ⟨2, 5⟩])
    [.closedOf [⟨4, 5⟩, ⟨6, 4⟩, ⟨6, 6⟩], .closedOf [⟨7, 8⟩, ⟨8, 7⟩, ⟨8, 9⟩]] (by decide +kernel)
  set t₀ := RingTable.ofContours (.closedOf [⟨0, 0⟩, ⟨10, 0⟩, ⟨10, 10⟩, ⟨0, 10⟩, ⟨2, 5⟩])
    [.closedOf [⟨4, 5⟩, ⟨6, 4⟩, ⟨6, 6⟩], .closedOf [⟨7, 8⟩, ⟨8, 7⟩, ⟨8, 9⟩]] with ht₀
  have hboth : ∀ first ∈ t₀.step?, (∀ s ∈ first.2.slit?, t₀.HasRoom s) ∧
      ∀ second ∈ first.1.step?, ∀ s ∈ second.2.slit?, first.1.HasRoom s := by
    decide +kernel
  refine (hsize fun t fates u s hreach hs ↦ ?_).trans (by decide +kernel)
  have hfew : fates.length < 2 := by
    rw [ht₀] at hreach
    exact (hreach.exists_hole (RingTable.slit_of_step? hs).1).2
  -- There are two holes, so the slit is the first or the second one.
  cases hreach with
  | refl => exact (hboth _ hs).1 s rfl
  | step hreach _ hfirst =>
    cases hreach with
    | refl => exact (hboth _ hfirst).2 _ hs s rfl
    | step => simp at hfew

end

end GridGeometry
