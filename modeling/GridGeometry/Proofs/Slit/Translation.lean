import GridGeometry.Proofs.Segment
import GridGeometry.Proofs.Slit.Rounding
import GridGeometry.Proofs.Slit.Thinning

/-!
# Moving an outline and its holes

When an outline and its holes are moved, the holes are joined by the moved slits, so that the
contour that results moves as well (`joinHoles_translate`). It also stays on the grid when all the
contours do: the point at which a slit arrives lies between the ends of the edge that it splits
(`Segment.Reaches.meetingX_between`), so that the joined ring never leaves the box of the contours
(`Layout.Reaches.onGrid`).
-/

namespace GridGeometry

/-! ### The ring is moved -/

theorem exists_mem_placeContours_translate {base : Nat} {holes : List Contour} {d : Point}
    {h : PlacedContour} (hh : h ∈ placeContours base (holes.map fun c ↦ c.translate d)) :
    ∃ g ∈ placeContours base holes, g.places = h.places := by
  induction holes generalizing base with
  | nil => exact absurd hh List.not_mem_nil
  | cons c holes ih =>
    rw [List.map_cons, placeContours, Contour.size_translate, List.mem_cons] at hh
    rw [placeContours, List.exists_mem_cons_iff]
    rcases hh with rfl | hh
    · exact .inl (by rw [PlacedContour.places, PlacedContour.places, Contour.size_translate])
    · exact .inr (ih hh)

theorem thinned_true (base : Nat) (holes : List Contour) :
    thinned (fun _ ↦ true) base holes = holes := by
  induction holes generalizing base with
  | nil => rfl
  | cons c holes ih =>
    rw [thinned, placeContours, List.filter_cons_of_pos rfl, List.map_cons]
    exact congrArg (c :: ·) (ih (base + c.size))

/-- **Joining moved contours** gives the contour that is joined, moved. -/
theorem joinHoles_translate (contours : List Contour) (d : Point) :
    joinHoles (contours.map fun c ↦ c.translate d) = (joinHoles contours).translate d := by
  match contours with
  | [] => rfl
  | [outline] => rfl
  | outline :: c :: holes =>
    by_cases ho : outline.points = []
    · simp [joinHoles, Contour.isEmpty, ho, Contour.translate, Contour.map, Contour.closedOf]
    · have hring := RingTable.ringPoints_thinned (c :: holes) ho (fun _ ↦ true) d fun s hs ↦ by
        obtain ⟨h, hh, hmem, -⟩ := Layout.exists_joined hs
        rw [Contour.size_translate] at hh
        obtain ⟨g, hg, hplaces⟩ := exists_mem_placeContours_translate hh
        exact ⟨g, hg, rfl, hplaces ▸ hmem⟩
      rw [thinned_true] at hring
      rw [joinHoles_cons ho (List.cons_ne_nil _ _), ← Contour.ofPoints_map_translate, ← hring]
      exact joinHoles_cons (by simpa using ho) (List.cons_ne_nil _ _)

/-! ### The ring stays on the grid -/

/-- **An edge meets a height that it reaches** between its ends, also after rounding. -/
theorem Segment.Reaches.meetingX_between {e : Segment} {y : Int} (h : e.Reaches y) :
    min e.start.x e.stop.x ≤ e.meetingX y ∧ e.meetingX y ≤ max e.start.x e.stop.x := by
  by_cases hy : e.start.y = e.stop.y
  · rw [meetingX, RingEdge.meetingX, if_pos hy]
    exact ⟨min_le_max, le_rfl⟩
  · obtain ⟨hmin, hmax⟩ := reaches_iff.1 h
    obtain ⟨u, h₀, h₁, hu⟩ := exists_time (a := (e.start.y : ℚ)) (b := e.stop.y) (c := y)
      (by exact_mod_cast hmin) (by exact_mod_cast hmax)
    have hcrossing : e.crossingX y = e.start.x + u * (e.stop.x - e.start.x) := by
      have hne : (e.stop.y : ℚ) - e.start.y ≠ 0 := sub_ne_zero.2 (by exact_mod_cast Ne.symm hy)
      rw [crossingX, ← hu]
      field_simp
      ring
    obtain ⟨hlow, hhigh⟩ := between_of_time_mem (a := (e.start.x : ℚ)) (b := e.stop.x) h₀ h₁
    obtain ⟨hround, hround'⟩ := abs_le.1 (abs_meetingX_sub_crossingX_le (y := y) hy)
    rw [← hcrossing] at hlow hhigh
    -- The ends are on the grid, so that rounding does not pass them.
    have hlow' : ((min e.start.x e.stop.x : Int) : ℚ) - 1 < e.meetingX y := by
      push_cast
      linarith
    have hhigh' : (e.meetingX y : ℚ) < ((max e.start.x e.stop.x : Int) : ℚ) + 1 := by
      push_cast
      linarith
    have hlow'' : min e.start.x e.stop.x - 1 < e.meetingX y := by exact_mod_cast hlow'
    have hhigh'' : e.meetingX y < max e.start.x e.stop.x + 1 := by exact_mod_cast hhigh'
    omega

namespace Layout

variable {L M : Layout} {holes : List PlacedContour} {fate : HoleFate} {fates : List HoleFate}

/-- All vertices are on the grid. -/
def OnGrid (L : Layout) : Prop := ∀ v ∈ L.vertices, v.point.OnGrid

/-- A slit arrives on the grid. -/
theorem Arrives.onGrid {s : Slit} {v w : RingVertex} (ha : L.Arrives s v w)
    (hv : v.point.OnGrid) (hw : w.point.OnGrid) (hs : s.start.OnGrid) : s.arrival.OnGrid := by
  obtain ⟨hmin, hmax⟩ := ha.reaches.meetingX_between
  obtain ⟨⟨hvmin, hvmax⟩, -⟩ := hv
  obtain ⟨⟨hwmin, hwmax⟩, -⟩ := hw
  rw [ha.arrival]
  refine ⟨⟨?_, ?_⟩, hs.2⟩
  · exact (le_min hvmin hwmin).trans hmin
  · exact hmax.trans (max_le hvmax hwmax)

/-- **Every step keeps the vertices on the grid.** -/
theorem Step.onGrid (hs : L.Step fate M) (hL : L.OnGrid) : M.OnGrid := by
  cases hs with
  | @drop h v hn =>
    intro w hw
    exact hL w ((giveUp_vertices_perm hn.mem).mem_iff.1 hw)
  | @join before after v h s hj hn ha =>
    have hjoined : ∀ w ∈ L.joined, w.point.OnGrid := fun w hw ↦
      hL w ((vertices_perm hn.mem).mem_iff.2 (List.mem_append_left _ hw))
    have hrest : ∀ w ∈ h.vertices ++ others L h, w.point.OnGrid := fun w hw ↦
      hL w ((vertices_perm hn.mem).mem_iff.2 (List.mem_append_right _ hw))
    have hstart : s.start.OnGrid := hrest _ (List.mem_append_left _ hn.mem_vertices)
    have hv : v ∈ L.joined := hj ▸ List.mem_append_right _ List.mem_cons_self
    have hw : after.headD (before.headD v) ∈ L.joined := by
      rw [hj]
      cases after with
      | nil =>
        cases before with
        | nil => exact List.mem_cons_self
        | cons => exact List.mem_cons_self
      | cons => exact List.mem_append_right _ (List.mem_cons_of_mem _ List.mem_cons_self)
    have harrival := ha.onGrid (hjoined v hv) (hjoined _ hw) hstart
    intro x hx
    rw [vertices_joinAt, List.mem_append, (joined_perm hj _).mem_iff, List.mem_append] at hx
    rcases hx with (hx | hx) | hx
    · simp only [Bridge.vertices, Bridge.loop, List.cons_append, List.mem_cons, List.mem_append,
        List.not_mem_nil, or_false] at hx
      rcases hx with rfl | (hx | rfl) | rfl
      · exact harrival
      · exact hrest x (List.mem_append_left _ ((h.verticesFrom_perm _).mem_iff.1 hx))
      · exact hstart
      · exact harrival
    · exact hjoined x hx
    · exact hrest x (List.mem_append_right _ hx)

theorem Reaches.onGrid (h : L.Reaches fates M) (hL : L.OnGrid) : M.OnGrid := by
  induction h with
  | refl => exact hL
  | step _ hs ih => exact hs.onGrid ih

theorem onGrid_initial {outline : Contour} {holes : List Contour}
    (hgrid : ∀ c ∈ outline :: holes, c.OnGrid) :
    (initial outline holes).OnGrid := by
  have hvertices : ∀ c : PlacedContour, c.contour ∈ outline :: holes →
      ∀ v ∈ c.vertices, v.point.OnGrid := fun c hc v hv ↦
    hgrid c.contour hc _ (c.map_point_vertices ▸ List.mem_map_of_mem hv)
  intro v hv
  simp only [vertices, initial, List.flatMap_nil, List.append_nil, List.mem_append,
    List.mem_flatMap] at hv
  rcases hv with hv | ⟨h, hh, hv⟩
  · exact hvertices _ List.mem_cons_self v hv
  · have hcontour := mem_of_mem_placeContours (List.mem_of_mem_filter hh)
    exact hvertices h (List.mem_cons_of_mem _ hcontour) v hv

end Layout

/-- **Joining contours stays on the grid.** -/
theorem onGrid_joinHoles {contours : List Contour} (hgrid : ∀ c ∈ contours, c.OnGrid) :
    (joinHoles contours).OnGrid := by
  match contours with
  | [] => exact List.forall_mem_nil _
  | [outline] => exact hgrid outline List.mem_cons_self
  | outline :: c :: holes =>
    by_cases ho : outline.points = []
    · simp [joinHoles, Contour.isEmpty, ho, Contour.OnGrid, Contour.closedOf]
    · obtain ⟨L, hreach, -, hf, ha⟩ := Layout.exists_account_joinAll outline (c :: holes)
      intro p hp
      rw [joinHoles_cons ho (List.cons_ne_nil c holes), Contour.points_ofPoints,
        Contour.mem_dropRepeats, (ha.walk hf ho).2.2] at hp
      obtain ⟨v, hv, rfl⟩ := List.mem_map.1 hp
      refine hreach.onGrid (Layout.onGrid_initial hgrid) v ?_
      exact List.mem_append_left _ (List.mem_append_left _ hv)

/-- Contours that can be moved are joined to a contour that can be moved. -/
theorem shift_joinHoles {contours : List Contour} {d : Point}
    (hgrid : ∀ c ∈ contours, (c.translate d).OnGrid) :
    (joinHoles contours).shift d = .ok (joinHoles (contours.map fun c ↦ c.translate d)) := by
  refine Contour.shift_eq_ok_iff.2 ⟨joinHoles_translate contours d, onGrid_joinHoles ?_⟩
  rw [List.forall_mem_map]
  exact hgrid

end GridGeometry
