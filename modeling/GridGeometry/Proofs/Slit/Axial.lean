import GridGeometry.Proofs.Slit.Kept

/-!
# Axis-parallel polygons

On axis-parallel edges nothing has to be rounded: a slit arrives on the edge that it splits, and the
parts of the edge are axis-parallel again. So the joined ring covers all that its contours cover,
and as the slits are horizontal it crosses every ray as often as they do, up to an even number
(`Layout.Step.covers`). At the end of the run a point off the result is inside it exactly when it is
inside an odd number of contours (`joinHoles_axial`).
-/

namespace GridGeometry

open Contour (cycle crossings)

/-! ### Splitting an axis-parallel edge -/

namespace Segment

variable {e : Segment} {a p : Point} {y : Int}

/-- An axis-parallel edge covers the box between its ends. -/
theorem IsAxial.contains_iff (h : e.IsAxial) : e.contains p = true ↔ e.BoxHolds p := by
  rw [Segment.contains_iff, and_iff_right_iff_imp]
  rw [BoxHolds]
  intro hbox
  rw [side_eq]
  rcases h with hx | hy
  · rw [show e.start.x = p.x by omega, show e.stop.x = p.x by omega]
    ring
  · rw [show e.start.y = p.y by omega, show e.stop.y = p.y by omega]
    ring

/-- A slit arrives on an axis-parallel edge. -/
theorem IsAxial.contains_meeting (h : e.IsAxial) (hy : e.Reaches y) :
    e.contains ⟨e.meetingX y, y⟩ = true := by
  rw [h.contains_iff, BoxHolds]
  rw [reaches_iff] at hy
  rcases h with hx | hh
  · rw [meetingX_of_vertical hx]
    simp only
    omega
  · rw [meetingX, RingEdge.meetingX, if_pos hh]
    simp only
    omega

/-- The parts of an axis-parallel edge are axis-parallel. -/
theorem IsAxial.parts (h : e.IsAxial) (ha : e.contains a = true) :
    (⟨e.start, a⟩ : Segment).IsAxial ∧ (⟨a, e.stop⟩ : Segment).IsAxial := by
  rw [h.contains_iff, BoxHolds] at ha
  unfold IsAxial at h ⊢
  simp only
  omega

/-- The parts of an axis-parallel edge cover it. -/
theorem IsAxial.contains_part (h : e.IsAxial) (ha : e.contains a = true)
    (hp : e.contains p = true) :
    (⟨e.start, a⟩ : Segment).contains p = true ∨ (⟨a, e.stop⟩ : Segment).contains p = true := by
  obtain ⟨hfirst, hrest⟩ := h.parts ha
  rw [hfirst.contains_iff, hrest.contains_iff]
  rw [h.contains_iff] at ha hp
  unfold BoxHolds at ha hp ⊢
  rw [IsAxial] at h
  simp only
  omega

/-- A vertical edge crosses the rays from its left. -/
theorem crosses_iff_of_vertical (hx : e.start.x = e.stop.x) :
    e.Crosses p ↔ e.Straddles p.y ∧ p.x < e.start.x := by
  have hside : e.side p = (e.start.x - p.x) * (e.stop.y - e.start.y) := by
    rw [side_eq, ← hx]
    ring
  refine ⟨fun h ↦ ⟨h.straddles, ?_⟩, fun ⟨hs, hlt⟩ ↦ ?_⟩
  · have hmax := h.lt_max
    omega
  · exact hs.crosses_of_lt hlt (hx ▸ hlt)

theorem not_crosses_of_horizontal (hy : e.start.y = e.stop.y) : ¬ e.Crosses p := fun h ↦
  h.straddles.start_ne_stop hy

/-- **An axis-parallel edge crosses a ray** when exactly one of its parts does. -/
theorem IsAxial.crosses_iff (h : e.IsAxial) (ha : e.contains a = true) :
    e.Crosses p ↔ ¬ ((⟨e.start, a⟩ : Segment).Crosses p ↔ (⟨a, e.stop⟩ : Segment).Crosses p) := by
  rw [h.contains_iff, BoxHolds] at ha
  rcases h with hx | hy
  · have hax : a.x = e.start.x := by omega
    rw [crosses_iff_of_vertical hx, crosses_iff_of_vertical (e := ⟨e.start, a⟩) hax.symm,
      crosses_iff_of_vertical (e := ⟨a, e.stop⟩) (hax.trans hx), hax]
    simp only [straddles_iff]
    tauto
  · have hay : a.y = e.start.y := by omega
    have hfirst := not_crosses_of_horizontal (e := ⟨e.start, a⟩) (p := p) hay.symm
    have hrest := not_crosses_of_horizontal (e := ⟨a, e.stop⟩) (p := p) (hay.trans hy)
    have hall := not_crosses_of_horizontal (p := p) hy
    tauto

end Segment

namespace Layout

variable {outline : Contour} {L M : Layout} {before after : List RingVertex} {v w : RingVertex}
  {h : PlacedContour} {s : Slit} {fate : HoleFate} {fates : List HoleFate}

/-! ### What the joined ring covers -/

/-- The contours that make up the joined ring. -/
def contours (outline : Contour) (L : Layout) : List Contour :=
  outline :: L.bridges.map fun b ↦ b.hole.contour

/-- The joined ring is axis-parallel, covers what its contours cover, and crosses every ray as often
as they do together, up to an even number. -/
structure Covers (outline : Contour) (L : Layout) : Prop where
  axial : ∀ e ∈ L.joinedEdges, e.IsAxial
  waiting : ∀ h ∈ L.waiting, ∀ e ∈ cycle h.contour.points, e.IsAxial
  covers : ∀ c ∈ L.contours outline, ∀ e ∈ cycle c.points, ∀ p, e.contains p = true →
    ∃ f ∈ L.joinedEdges, f.contains p = true
  parity : ∀ p, crossings p L.joinedEdges % 2 =
    ((L.contours outline).map fun c ↦ crossings p (cycle c.points)).sum % 2

theorem Covers.initial {holes : List Contour}
    (haxial : ∀ c ∈ outline :: holes, ∀ e ∈ cycle c.points, e.IsAxial) :
    Covers outline (initial outline holes) := by
  have hedges : (Layout.initial outline holes).joinedEdges = cycle outline.points := by
    rw [joinedEdges, Layout.initial, PlacedContour.map_point_vertices]
  exact {
    axial := hedges ▸ haxial outline List.mem_cons_self
    waiting := by
      intro h hh
      have hmem := mem_of_mem_placeContours (List.mem_of_mem_filter hh)
      exact haxial h.contour (List.mem_cons_of_mem _ hmem)
    covers := by
      intro c hc e he p hp
      obtain rfl : c = outline := List.mem_singleton.1 hc
      exact ⟨e, hedges ▸ he, hp⟩
    parity := by
      intro p
      rw [hedges]
      rfl }

/-- **Joining a hole** to an axis-parallel ring. -/
theorem Covers.joinAt (hc : Covers outline L) (hj : L.joined = before ++ v :: after)
    (hn : L.Next h ⟨s.hole, s.start⟩) (ha : L.Arrives s v (after.headD (before.headD v)))
    (base : Nat) : Covers outline (L.joinAt before v after ⟨h, s, base⟩) := by
  obtain ⟨rest, hold, hnew⟩ := joinedEdges_joinAt hj hn base
  set w := after.headD (before.headD v)
  have hsplit : (⟨v.point, w.point⟩ : Segment).IsAxial :=
    hc.axial _ (hold.mem_iff.2 List.mem_cons_self)
  have harrival : (⟨v.point, w.point⟩ : Segment).contains s.arrival = true := by
    rw [ha.arrival]
    exact hsplit.contains_meeting ha.reaches
  have hslit : s.arrival.y = s.start.y := by rw [ha.arrival]
  exact {
    axial := by
      intro e he
      rw [hnew.mem_iff] at he
      simp only [List.mem_cons, List.mem_append] at he
      rcases he with rfl | rfl | rfl | rfl | he | he
      · exact (hsplit.parts harrival).1
      · exact (hsplit.parts harrival).2
      · exact .inr hslit
      · exact .inr hslit.symm
      · exact hc.waiting h hn.mem e he
      · exact hc.axial e (hold.mem_iff.2 (List.mem_cons_of_mem _ he))
    waiting := fun h' hh' ↦ hc.waiting h' (List.mem_of_mem_erase hh')
    covers := by
      intro c hmem e he p hp
      have hmem' : c ∈ L.contours outline ∨ c = h.contour := by
        simpa [contours, or_assoc] using hmem
      simp only [hnew.mem_iff, List.mem_cons, List.mem_append]
      rcases hmem' with hmem | rfl
      · -- What the split edge covered is covered by its parts.
        obtain ⟨f, hf, hfp⟩ := hc.covers c hmem e he p hp
        rcases List.mem_cons.1 (hold.mem_iff.1 hf) with rfl | hf
        · rcases hsplit.contains_part harrival hfp with hpart | hpart
          · exact ⟨_, .inl rfl, hpart⟩
          · exact ⟨_, .inr (.inl rfl), hpart⟩
        · exact ⟨f, by simp [hf], hfp⟩
      · exact ⟨e, by simp [he], hp⟩
    parity := by
      intro p
      have hbefore := hc.parity p
      have hin := Segment.not_crosses_of_horizontal (e := ⟨s.arrival, s.start⟩) (p := p) hslit
      have hout := Segment.not_crosses_of_horizontal (e := ⟨s.start, s.arrival⟩) (p := p) hslit.symm
      have hparts := hsplit.crosses_iff (p := p) harrival
      have hsum : ((contours outline (L.joinAt before v after ⟨h, s, base⟩)).map
          fun c ↦ crossings p (cycle c.points)).sum =
          ((L.contours outline).map fun c ↦ crossings p (cycle c.points)).sum +
            crossings p (cycle h.contour.points) := by
        simp [contours, Nat.add_assoc]
      rw [hsum]
      unfold Contour.crossings at hbefore ⊢
      rw [hold.countP_eq] at hbefore
      rw [hnew.countP_eq]
      simp only [List.countP_cons, List.countP_append, decide_eq_true_eq, if_neg hin,
        if_neg hout] at hbefore ⊢
      -- The split edge crosses the ray when exactly one of its parts does.
      by_cases hfirst : (⟨v.point, s.arrival⟩ : Segment).Crosses p <;>
        by_cases hrest : (⟨s.arrival, w.point⟩ : Segment).Crosses p <;>
        simp only [hfirst, hrest, hparts, not_true, not_false_iff, iff_true, iff_false, if_true,
          if_false] at hbefore ⊢ <;> omega }

/-- **Every step keeps the cover.** -/
theorem Covers.step (hc : Covers outline L) (hs : L.Step fate M) : Covers outline M := by
  cases hs with
  | join hj hn ha => exact hc.joinAt hj hn ha _
  | drop hn hnone =>
    exact ⟨hc.axial, fun h hh ↦ hc.waiting h (List.mem_of_mem_erase hh), hc.covers, hc.parity⟩

theorem Covers.reaches (hc : Covers outline L) (h : L.Reaches fates M) : Covers outline M := by
  induction h with
  | refl => exact hc
  | step _ hs ih => exact ih.step hs

/-! ### The contour that results -/

/-- When every hole has been joined, the contours of the joined ring are all of them. -/
theorem covers_joinAll {holes : List Contour}
    (haxial : ∀ c ∈ outline :: holes, ∀ e ∈ cycle c.points, e.IsAxial)
    (hall : ∀ fate ∈ (RingTable.ofContours outline holes).joinAll.2, fate.slit?.isSome)
    (ho : outline.points ≠ []) :
    (∀ c ∈ outline :: holes, ∀ e ∈ cycle c.points, ∀ p, e.contains p = true →
      ∃ f ∈ cycle ((RingTable.ofContours outline holes).joinAll.1.ringPoints 0),
        f.contains p = true) ∧
    ∀ p, crossings p (cycle ((RingTable.ofContours outline holes).joinAll.1.ringPoints 0)) % 2 =
      ((outline :: holes).map fun c ↦ crossings p (cycle c.points)).sum % 2 := by
  obtain ⟨L, hreach, hnil, hf, ha⟩ := exists_account_joinAll outline holes
  have hc := (Covers.initial haxial).reaches hreach
  have hperm := ha.bridges_perm hf hnil hall
  rw [(ha.walk hf ho).2.2]
  refine ⟨fun c hmem e he p hp ↦ hc.covers c ?_ e he p hp, fun p ↦ (hc.parity p).trans ?_⟩
  · rcases List.mem_cons.1 hmem with rfl | hmem
    · exact List.mem_cons_self
    · obtain ⟨h, hh, rfl⟩ := exists_mem_placeContours outline.size hmem
      have hbridge : h ∈ L.bridges.map Bridge.hole := by
        rw [hperm.mem_iff, List.mem_filter]
        refine ⟨hh, ?_⟩
        have hne : h.contour.points ≠ [] := fun hnil ↦ by simp [hnil, cycle] at he
        simpa [Contour.isEmpty] using hne
      obtain ⟨b, hb, rfl⟩ := List.mem_map.1 hbridge
      exact List.mem_cons_of_mem _ (List.mem_map.2 ⟨b, hb, rfl⟩)
  · have hsum := (hperm.map fun h ↦ crossings p (cycle h.contour.points)).sum_eq
    rw [List.map_map, sum_placeContours (f := fun c ↦ crossings p (cycle c.points))
      (fun c hnil ↦ by simp [hnil, cycle, Contour.crossings])] at hsum
    rw [contours, List.map_cons, List.map_cons, List.sum_cons, List.sum_cons, List.map_map, ← hsum]
    rfl

end Layout

section

variable {outline : Contour} {holes : List Contour}

/-- A bridging vertex that is enclosed needs an outline. -/
theorem points_ne_nil_of_encloses
    (hin : ∀ c ∈ holes, ∀ p, c.points.minOn? Point.x = some p → outline.Encloses p) :
    ∀ c ∈ holes, c.points ≠ [] → outline.points ≠ [] := by
  intro c hc hne hnil
  obtain ⟨p, hp⟩ := Option.ne_none_iff_exists'.1 (mt minOn?_eq_none_iff.1 hne)
  obtain ⟨e, he, -⟩ := (hin c hc p hp).exists_isLeftOf
  simp [hnil, cycle] at he

/-- **All holes of an axis-parallel polygon are joined** when their bridging vertices are enclosed.
-/
theorem keepsHoles_of_axial (haxial : ∀ e ∈ cycle outline.points, e.IsAxial)
    (hin : ∀ c ∈ holes, ∀ p, c.points.minOn? Point.x = some p → outline.Encloses p) :
    KeepsHoles outline holes := by
  refine (RingTable.driftsLittle_of_clear fun c hc p hp ↦ ?_).keepsHoles
    (points_ne_nil_of_encloses hin)
  obtain ⟨e, he, hl⟩ := (hin c hc p hp).exists_isLeftOf
  exact ⟨e, he, hl, .inl ((haxial e he).vertical hl)⟩

/-- The contour that results covers what its contours cover and has their crossings, up to an even
number. -/
theorem joinHoles_covers (haxial : ∀ c ∈ outline :: holes, ∀ e ∈ cycle c.points, e.IsAxial)
    (hkeeps : KeepsHoles outline holes)
    (ho : ∀ c ∈ holes, c.points ≠ [] → outline.points ≠ []) :
    (∀ c ∈ outline :: holes, ∀ e ∈ cycle c.points, ∀ p, e.contains p = true →
      ∃ f ∈ cycle (joinHoles (outline :: holes)).points, f.contains p = true) ∧
    ∀ p, crossings p (cycle (joinHoles (outline :: holes)).points) % 2 =
      ((outline :: holes).map fun c ↦ crossings p (cycle c.points)).sum % 2 := by
  by_cases hh : holes = []
  · subst hh
    refine ⟨fun c hc e he p hp ↦ ⟨e, ?_, hp⟩, fun p ↦ rfl⟩
    obtain rfl := List.mem_singleton.1 hc
    exact he
  · by_cases hne : outline.points = []
    · -- Without an outline no contour has a vertex.
      have hnil : ∀ c ∈ outline :: holes, c.points = [] := by
        intro c hc
        rcases List.mem_cons.1 hc with rfl | hc
        · exact hne
        · by_contra hpoints
          exact ho c hc hpoints hne
      have hresult : (joinHoles (outline :: holes)).points = [] := by
        obtain ⟨c, holes, rfl⟩ := List.exists_cons_of_ne_nil hh
        rw [joinHoles, if_pos (by simpa [Contour.isEmpty] using hne)]
        · rfl
        · simp
      refine ⟨fun c hc e he ↦ by simp [hnil c hc, cycle] at he, fun p ↦ ?_⟩
      have hzero : ((outline :: holes).map fun c ↦ crossings p (cycle c.points)) =
          (outline :: holes).map fun _ ↦ 0 :=
        List.map_congr_left fun c hc ↦ by simp [hnil c hc, cycle, crossings]
      rw [hresult, hzero]
      simp [cycle, crossings]
    · obtain ⟨hcovers, hparity⟩ := Layout.covers_joinAll haxial hkeeps.joined hne
      rw [joinHoles_cons hne hh]
      refine ⟨fun c hc e he p hp ↦ ?_, fun p ↦ ?_⟩
      · exact Contour.exists_contains_ofPoints.2 (hcovers c hc e he p hp)
      · rw [Contour.crossings_ofPoints]
        exact hparity p

theorem closed_joinHoles (holes : List Contour) (ho : outline.closed = true) :
    (joinHoles (outline :: holes)).closed = true := by
  unfold joinHoles
  split
  · rfl
  · rename_i heq
    rw [← (List.cons.inj heq).1]
    exact ho
  · split <;> rfl

/-- **Holes of an axis-parallel polygon.** Let all contours be closed and axis-parallel, and let the
outline enclose the bridging vertex of every hole that has a vertex. Then every hole is joined. A
point on no edge of the contour that results is inside it when it is inside an odd number of the
contours, the outline included. All points on edges of the contours are on edges of the result. -/
theorem joinHoles_axial (outline : Contour) (holes : List Contour)
    (hclosed : ∀ c ∈ outline :: holes, c.closed = true)
    (haxial : ∀ c ∈ outline :: holes, ∀ e ∈ c.edges, e.IsAxial)
    (hin : ∀ c ∈ holes, ∀ p, c.points.minOn? Point.x = some p →
      outline.contains p = true ∧ ∀ e ∈ outline.edges, e.contains p = false) :
    ((RingTable.ofContours outline holes).joinAll.2.length = holes.countP (!·.isEmpty) ∧
      KeepsHoles outline holes) ∧
    (∀ p, (∀ e ∈ (joinHoles (outline :: holes)).edges, e.contains p = false) →
      (joinHoles (outline :: holes)).contains p =
        (outline :: holes).foldr (fun c inside ↦ c.contains p ^^ inside) false) ∧
    ∀ c ∈ outline :: holes, ∀ e ∈ c.edges, ∀ p, e.contains p = true →
      ∃ f ∈ (joinHoles (outline :: holes)).edges, f.contains p = true := by
  have hedges : ∀ c ∈ outline :: holes, c.edges = cycle c.points := fun c hc ↦
    Contour.edges_of_closed (hclosed c hc)
  have houtline := hedges outline List.mem_cons_self
  have hresult := Contour.edges_of_closed
    (closed_joinHoles holes (hclosed outline List.mem_cons_self))
  have haxial' : ∀ c ∈ outline :: holes, ∀ e ∈ cycle c.points, e.IsAxial := by
    intro c hc e he
    exact haxial c hc e (hedges c hc ▸ he)
  have hencloses : ∀ c ∈ holes, ∀ p, c.points.minOn? Point.x = some p → outline.Encloses p := by
    intro c hc p hp
    exact ⟨(hin c hc p hp).1, houtline ▸ (hin c hc p hp).2⟩
  have hkeeps := keepsHoles_of_axial (haxial' outline List.mem_cons_self) hencloses
  obtain ⟨hcovers, hparity⟩ :=
    joinHoles_covers haxial' hkeeps (points_ne_nil_of_encloses hencloses)
  refine ⟨⟨Layout.length_joinAll outline holes, hkeeps⟩, ?_, ?_⟩
  · intro p hoff
    rw [hresult] at hoff
    -- What is off the result is off every contour, so parity decides everywhere.
    have hoff' : ∀ c ∈ outline :: holes, ∀ e ∈ cycle c.points, e.contains p = false := by
      intro c hc e he
      by_contra hp
      obtain ⟨f, hf, hfp⟩ := hcovers c hc e he p (Bool.not_eq_false _ ▸ hp)
      rw [hoff f hf] at hfp
      simp at hfp
    rw [Contour.foldr_contains hoff', Bool.eq_iff_iff, Contour.contains_iff hoff, hparity,
      decide_eq_true_eq]
  · intro c hc e he p hp
    rw [hresult]
    exact hcovers c hc e (hedges c hc ▸ he) p hp

/-- A square with a square hole. -/
theorem joinHoles_square_square :
    KeepsHoles (.closedOf [⟨0, 0⟩, ⟨9, 0⟩, ⟨9, 9⟩, ⟨0, 9⟩])
      [.closedOf [⟨6, 3⟩, ⟨6, 6⟩, ⟨3, 6⟩, ⟨3, 3⟩]] ∧
    ∀ p, (∀ e ∈ (joinHoles [.closedOf [⟨0, 0⟩, ⟨9, 0⟩, ⟨9, 9⟩, ⟨0, 9⟩],
        .closedOf [⟨6, 3⟩, ⟨6, 6⟩, ⟨3, 6⟩, ⟨3, 3⟩]]).edges, e.contains p = false) →
      (joinHoles [.closedOf [⟨0, 0⟩, ⟨9, 0⟩, ⟨9, 9⟩, ⟨0, 9⟩],
          .closedOf [⟨6, 3⟩, ⟨6, 6⟩, ⟨3, 6⟩, ⟨3, 3⟩]]).contains p =
        ((Contour.closedOf [⟨0, 0⟩, ⟨9, 0⟩, ⟨9, 9⟩, ⟨0, 9⟩]).contains p ^^
          ((Contour.closedOf [⟨6, 3⟩, ⟨6, 6⟩, ⟨3, 6⟩, ⟨3, 3⟩]).contains p ^^ false)) := by
  have hin : ∀ c ∈ [Contour.closedOf [⟨6, 3⟩, ⟨6, 6⟩, ⟨3, 6⟩, ⟨3, 3⟩]], ∀ p,
      c.points.minOn? Point.x = some p →
      (Contour.closedOf [⟨0, 0⟩, ⟨9, 0⟩, ⟨9, 9⟩, ⟨0, 9⟩]).contains p = true ∧
        ∀ e ∈ (Contour.closedOf [⟨0, 0⟩, ⟨9, 0⟩, ⟨9, 9⟩, ⟨0, 9⟩]).edges, e.contains p = false := by
    intro c hc p hp
    obtain rfl := List.mem_singleton.1 hc
    have hentry : (Contour.closedOf [⟨6, 3⟩, ⟨6, 6⟩, ⟨3, 6⟩, ⟨3, 3⟩]).points.minOn? Point.x =
        some ⟨3, 6⟩ := by decide
    obtain rfl := Option.some.inj (hentry.symm.trans hp)
    decide
  obtain ⟨⟨-, hkeeps⟩, hinside, -⟩ := joinHoles_axial _ _ (by decide) (by decide) hin
  exact ⟨hkeeps, hinside⟩

end

end GridGeometry
