import GridGeometry.Proofs.Contour.Repeats
import GridGeometry.Proofs.Slit.Kept

/-!
# The area that is joined

A slit is walked in both directions and sweeps no area, so joining a hole adds the area of the hole,
with its sign, to that of the joined ring. The one thing more is the bend of the edge that is split:
it now runs by way of a point of the grid, and if that point stands beside it, the ring gains or
loses the triangle between them (`Slit.bend`). The account is kept step by step on the joined ring
(`Layout.Step.sweep_eq`), whatever is split again later on, and the vertices that the ring repeats
make no difference in the end (`doubledArea_joinHoles`).

## Main definitions

* `joinedHoles`: the holes that are joined, with their slits.
* `Slit.bend`: the triangle between a split edge and its two parts.
-/

namespace GridGeometry

open Contour (cycle sweep dropRepeats)

/-! ### Slits that have been made -/

/-- Twice the signed area of the triangle between a split edge and its two parts. -/
def Slit.bend (s : Slit) : Int := Point.cross s.split.start s.arrival s.split.stop

namespace Slit.Meets

variable {s : Slit}

theorem bend_of_horizontal (h : s.Meets) (hy : s.split.start.y = s.split.stop.y) : s.bend = 0 := by
  have hreach : s.arrival.y = s.split.start.y := by
    have := h.reaches
    rw [RingEdge.Reaches] at this
    rw [h.arrival]
    dsimp only
    omega
  rw [bend, Point.cross, hreach, ← hy]
  ring

theorem bend_of_vertical (h : s.Meets) (hx : s.split.start.x = s.split.stop.x) : s.bend = 0 := by
  have hmeet : s.split.meetingX s.start.y = s.split.start.x :=
    Segment.meetingX_of_vertical (e := ⟨s.split.start, s.split.stop⟩) hx
  rw [bend, Point.cross, h.arrival, hmeet, ← hx]
  ring

/-- **Rounding bends an edge by half of its height at most.** -/
theorem two_mul_abs_bend_le (h : s.Meets) :
    2 * |s.bend| ≤ |s.split.stop.y - s.split.start.y| := by
  by_cases hy : s.split.start.y = s.split.stop.y
  · rw [h.bend_of_horizontal hy, abs_zero, mul_zero]
    exact abs_nonneg _
  · have hround := (roundedProportion_rounds (a := s.split.stop.x - s.split.start.x)
      (b := s.start.y - s.split.start.y) (sub_ne_zero.2 (Ne.symm hy))).1
    have hbend : s.bend = roundedProportion (s.split.stop.x - s.split.start.x)
        (s.start.y - s.split.start.y) (s.split.stop.y - s.split.start.y) *
          (s.split.stop.y - s.split.start.y) -
        (s.split.stop.x - s.split.start.x) * (s.start.y - s.split.start.y) := by
      rw [bend, Point.cross, h.arrival, RingEdge.meetingX, if_neg hy]
      ring
    rw [abs_mul, abs_two, ← hbend] at hround
    exact hround

end Slit.Meets

/-! ### What one step adds -/

namespace Layout

variable {outline : Contour} {L M : Layout} {before after : List RingVertex} {v : RingVertex}
  {h : PlacedContour} {s : Slit} {fate : HoleFate} {fates : List HoleFate}

/-- Twice the area that the slits made so far have added to the joined ring. -/
def gain (L : Layout) : Int :=
  (L.bridges.map fun b ↦ b.hole.contour.doubledArea + b.slit.bend).sum

theorem gain_joinAt (L : Layout) (before : List RingVertex) (v : RingVertex)
    (after : List RingVertex) (b : Bridge) : (L.joinAt before v after b).gain =
      L.gain + (b.hole.contour.doubledArea + b.slit.bend) := by
  rw [gain, joinAt_bridges, List.map_append, List.sum_append, List.map_singleton,
    List.sum_singleton, gain]

/-- **Joining a hole** adds its area and the bend of the split edge. -/
theorem sweep_joinAt (hj : L.joined = before ++ v :: after) (hn : L.Next h ⟨s.hole, s.start⟩)
    (ha : L.Arrives s v (after.headD (before.headD v))) (base : Nat) :
    sweep (L.joinAt before v after ⟨h, s, base⟩).joinedEdges =
      sweep L.joinedEdges + (h.contour.doubledArea + s.bend) := by
  obtain ⟨rest, hold, hnew⟩ := joinedEdges_joinAt hj hn base
  set w := after.headD (before.headD v)
  have hsides := Point.cross_eq_sweep v.point s.arrival w.point
  have hsplit : Segment.sweep ⟨w.point, v.point⟩ = -Segment.sweep ⟨v.point, w.point⟩ :=
    Segment.sweep_reversed ⟨v.point, w.point⟩
  have hslit : Segment.sweep ⟨s.start, s.arrival⟩ = -Segment.sweep ⟨s.arrival, s.start⟩ :=
    Segment.sweep_reversed ⟨s.arrival, s.start⟩
  rw [Contour.sweep_eq_of_perm hold, Contour.sweep_eq_of_perm hnew, Contour.doubledArea_eq,
    Slit.bend, ha.split]
  simp only [Contour.sweep_cons, Contour.sweep_append]
  omega

/-- **Every step keeps the account of the area.** -/
theorem Step.sweep_eq (hs : L.Step fate M) :
    sweep M.joinedEdges - M.gain = sweep L.joinedEdges - L.gain := by
  cases hs with
  | join hj hn ha =>
    rw [sweep_joinAt hj hn ha, gain_joinAt, add_sub_add_right_eq_sub]
  | drop => rfl

theorem Reaches.sweep_eq (h : L.Reaches fates M) :
    sweep M.joinedEdges - M.gain = sweep L.joinedEdges - L.gain := by
  induction h with
  | refl => rfl
  | step _ hs ih => exact hs.sweep_eq.trans ih

end Layout

/-! ### The contour that results -/

/-- The holes that are joined, each with its slit, in the order in which they are joined. A slit
begins at one of the places of its hole. -/
def joinedHoles (outline : Contour) (holes : List Contour) : List (Contour × Slit) :=
  ((RingTable.ofContours outline holes).joinAll.2.filterMap HoleFate.slit?).filterMap fun s ↦
    ((placeContours outline.size holes).find? fun h ↦ s.hole ∈ h.places).map fun h ↦ (h.contour, s)

namespace Layout

variable {outline : Contour} {holes : List Contour} {L : Layout} {t : RingTable} {size : Nat}
  {fates : List HoleFate}

/-- The hole of a bridge is told by the place where its slit begins. -/
theorem Account.find?_hole {placed : List PlacedContour} (ha : Account outline size fates L)
    (hf : L.Fits placed t) {b : Bridge} (hb : b ∈ L.bridges) :
    placed.find? (fun h ↦ b.slit.hole ∈ h.places) = some b.hole := by
  have hplace : b.slit.hole ∈ b.hole.places :=
    b.hole.map_place_vertices ▸ List.mem_map_of_mem (PlacedContour.mem_of_entrance? (ha.entry b hb))
  have hmem := hf.mem_holes_of_bridge hb
  rcases hfind : placed.find? (fun h ↦ b.slit.hole ∈ h.places) with - | h
  · simpa [hplace] using List.find?_eq_none.1 hfind b.hole hmem
  · have hh : b.slit.hole ∈ h.places := by simpa using List.find?_some hfind
    rw [hfind, hf.eq_of_mem_places (List.mem_of_find?_eq_some hfind) hmem hh hplace]

theorem Account.joinedHoles_eq
    (ha : Account outline size (RingTable.ofContours outline holes).joinAll.2 L)
    (hf : L.Fits (placeContours outline.size holes) t) :
    joinedHoles outline holes = L.bridges.map fun b ↦ (b.hole.contour, b.slit) := by
  rw [joinedHoles, ← ha.slits, List.filterMap_map, ← List.filterMap_eq_map]
  refine List.filterMap_congr fun b hb ↦ ?_
  rw [Function.comp_apply, ha.find?_hole hf hb]
  rfl

/-- Without an outline nothing is joined. -/
theorem Account.joined_eq_nil (ha : Account outline size fates L) (ho : outline.points = []) :
    L.joined = [] := by
  have hhead := ha.head
  rw [PlacedContour.vertices, ho] at hhead
  exact List.head?_eq_none_iff.1 hhead

/-- **The contour that results** runs around the joined ring, without the vertices that repeat their
predecessor. -/
theorem Account.points_joinHoles (ha : Account outline size fates L)
    (hf : L.Fits (placeContours outline.size holes) (RingTable.ofContours outline holes).joinAll.1)
    (hh : holes ≠ []) :
    (joinHoles (outline :: holes)).points = dropRepeats (L.joined.map RingVertex.point) := by
  by_cases ho : outline.points = []
  · obtain ⟨c, holes, rfl⟩ := List.exists_cons_of_ne_nil hh
    rw [joinHoles, if_pos (by simpa [Contour.isEmpty] using ho), ha.joined_eq_nil ho]
    · rfl
    · simp
  · rw [joinHoles_cons ho hh, (ha.walk hf ho).2.2]
    rfl

end Layout

/-- No slit is made when there are no holes. -/
theorem joinedHoles_nil (outline : Contour) : joinedHoles outline [] = [] := by
  have hnone : ¬ 0 < (RingTable.ofContours outline []).waiting := Nat.lt_irrefl 0
  rw [joinedHoles, RingTable.joinAll, dif_neg hnone]
  rfl

/-- There is one hole for every slit. -/
theorem map_snd_joinedHoles (outline : Contour) (holes : List Contour) :
    (joinedHoles outline holes).map Prod.snd =
      (RingTable.ofContours outline holes).joinAll.2.filterMap HoleFate.slit? := by
  obtain ⟨L, -, -, hf, ha⟩ := Layout.exists_account_joinAll outline holes
  rw [ha.joinedHoles_eq hf, List.map_map, ← ha.slits]
  rfl

/-- **The area of the contour that results**, whatever the contours are. Every slit that is made
keeps the joined edge that it splits and arrives where that edge meets its height. The result
encloses the area of the outline, and for every joined hole the area of the hole and the bend of the
edge that was split, which is at most half of the height of that edge, and zero for an axis-parallel
one. -/
theorem doubledArea_joinHoles (outline : Contour) (holes : List Contour) :
    (∀ t fates u s, (RingTable.ofContours outline holes).Reaches t fates →
      t.step? = some (u, .joined s) → t.edges[s.target]? = some s.split ∧
        s.split.state = .joined ∧ s.arrival = ⟨s.split.meetingX s.start.y, s.start.y⟩) ∧
    (joinHoles (outline :: holes)).doubledArea = outline.doubledArea +
      ((joinedHoles outline holes).map fun (c, s) ↦ c.doubledArea +
        Point.cross s.split.start s.arrival s.split.stop).sum ∧
    ∀ c s, (c, s) ∈ joinedHoles outline holes →
      2 * |Point.cross s.split.start s.arrival s.split.stop| ≤
          |s.split.stop.y - s.split.start.y| ∧
        (s.split.start.x = s.split.stop.x ∨ s.split.start.y = s.split.stop.y →
          Point.cross s.split.start s.arrival s.split.stop = 0) := by
  refine ⟨fun t fates u s _ hs ↦ ?_, ?_, fun c s hmem ↦ ?_⟩
  · have hnearest := (RingTable.slit_of_step? hs).2
    exact ⟨hnearest.target, hnearest.joined, hnearest.arrival⟩
  · by_cases hh : holes = []
    · rw [hh, joinedHoles_nil]
      exact (Int.add_zero _).symm
    · obtain ⟨L, hreach, -, hf, ha⟩ := Layout.exists_account_joinAll outline holes
      have harea := hreach.sweep_eq
      have hinitial : sweep (Layout.initial outline holes).joinedEdges = outline.doubledArea := by
        rw [Layout.joinedEdges, Layout.initial, PlacedContour.map_point_vertices,
          Contour.doubledArea_eq]
      have hgain : L.gain = ((joinedHoles outline holes).map fun (c, s) ↦ c.doubledArea +
          Point.cross s.split.start s.arrival s.split.stop).sum := by
        rw [ha.joinedHoles_eq hf, List.map_map]
        rfl
      have hnone : (Layout.initial outline holes).gain = 0 := rfl
      rw [Contour.doubledArea_eq, ha.points_joinHoles hf hh, Contour.sweep_ofPoints, ← hgain,
        ← hinitial]
      show sweep L.joinedEdges = _
      omega
  · have hslit : s ∈ (joinedHoles outline holes).map Prod.snd := List.mem_map_of_mem hmem
    rw [map_snd_joinedHoles] at hslit
    have hmeets := (RingTable.reaches_joinAll _).1.meets s hslit
    exact ⟨hmeets.two_mul_abs_bend_le, fun haxial ↦
      haxial.elim hmeets.bend_of_vertical hmeets.bend_of_horizontal⟩

/-- The slit arrives at `⟨1, 25⟩`, to the left of the sloped edge, and the bend of that edge makes
up five of the doubled area. -/
example :
    (joinHoles [.closedOf [⟨4, 0⟩, ⟨34, 0⟩, ⟨34, 35⟩, ⟨0, 35⟩],
      .closedOf [⟨2, 25⟩, ⟨10, 26⟩, ⟨10, 25⟩]]).doubledArea = 2240 - 8 + 5 := by
  decide +kernel

end GridGeometry
