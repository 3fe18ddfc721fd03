import GridGeometry.Proofs.Contour.NullEdges
import GridGeometry.Proofs.Slit.Embedding
import GridGeometry.Proofs.Slit.Kept

/-!
# Joining fewer holes

The table of an outline and some of its holes is found in the table of the outline and all of its
holes, at places that skip the edges of the other holes, and in the same way in the table of the
moved contours (`Embeds.exists_foldl`). So the joined ring does not depend on the holes that are not
joined (`ringPoints_thinned`): without those that are given up, and those without a vertex, the same
contour results (`joinHoles_survivingHoles`).

## Main definitions

* `RingTable.IsFresh`: what holds of a table while contours are put into it.
* `thinned`: a list of holes without those that are not kept, which are told by their places, since
  of two equal holes one may be joined and the other one given up.
* `survivingHoles`: the holes that have a vertex and are not given up.
-/

namespace GridGeometry

namespace RingTable

variable {t u : RingTable} {c : Contour} {points : List Point} {ρ : Nat → Nat} {d : Point}
  {base i j k : Nat}

/-! ### What a contour puts into a table -/

/-- The place belongs to a vertex with the least `x`. -/
theorem mem_leftmostPlaces : j ∈ leftmostPlaces base points ↔
    ∃ k p, points[k]? = some p ∧ (∀ q ∈ points, p.x ≤ q.x) ∧ j = base + k := by
  unfold leftmostPlaces
  split
  case h_1 least hleast =>
    obtain ⟨hmem, hle⟩ := List.min?_eq_some_iff.1 hleast
    have hx : ∀ p ∈ points, (p.x = least ↔ ∀ q ∈ points, p.x ≤ q.x) := by
      intro p hp
      refine ⟨fun h q hq ↦ h ▸ hle _ (List.mem_map_of_mem hq), fun h ↦ ?_⟩
      obtain ⟨q, hq, rfl⟩ := List.mem_map.1 hmem
      exact Int.le_antisymm (h q hq) (hle _ (List.mem_map_of_mem hp))
    simp only [List.mem_filterMap, Prod.exists, List.mk_mem_zipIdx_iff_le_and_getElem?_sub,
      Option.ite_none_right_eq_some, Option.some.injEq]
    constructor
    · rintro ⟨p, i, ⟨hi, hp⟩, hpx, rfl⟩
      exact ⟨i - base, p, hp, (hx p (List.mem_of_getElem? hp)).1 hpx, by omega⟩
    · rintro ⟨k, p, hp, hpx, rfl⟩
      exact ⟨p, base + k, ⟨Nat.le_add_right _ _, by rwa [Nat.add_sub_cancel_left]⟩,
        (hx p (List.mem_of_getElem? hp)).2 hpx, rfl⟩
  case h_2 hnone =>
    rw [List.min?_eq_none_iff, List.map_eq_nil_iff] at hnone
    simp [hnone]

theorem pairwise_leftmostPlaces (base : Nat) (points : List Point) :
    (leftmostPlaces base points).Pairwise (· < ·) := by
  unfold leftmostPlaces
  split
  case h_1 least _ =>
    refine (pairwise_zipIdx points base).filterMap _ fun x y hxy i hi j hj ↦ ?_
    obtain rfl := Option.some.inj (Option.ite_none_right_eq_some.1 hi).2
    obtain rfl := Option.some.inj (Option.ite_none_right_eq_some.1 hj).2
    exact hxy
  case h_2 => exact .nil

/-- The leftmost vertices stay so when all are moved. -/
theorem leftmostPlaces_translate (base : Nat) (c : Contour) (d : Point) :
    leftmostPlaces base (c.translate d).points = leftmostPlaces base c.points := by
  refine eq_of_pairwise_of_mem_iff (fun _ _ ↦ Nat.lt_asymm) (pairwise_leftmostPlaces base _)
    (pairwise_leftmostPlaces base _) fun j ↦ ?_
  simp only [mem_leftmostPlaces, Contour.points_translate, List.getElem?_map,
    Option.map_eq_some_iff, List.forall_mem_map, Point.translate_x]
  constructor
  · rintro ⟨k, _, ⟨p, hp, rfl⟩, hle, rfl⟩
    exact ⟨k, p, hp, fun q hq ↦ by simpa using hle q hq, rfl⟩
  · rintro ⟨k, p, hp, hle, rfl⟩
    exact ⟨k, _, ⟨p, hp, rfl⟩, fun q hq ↦ by simpa using hle q hq, rfl⟩

theorem getElem?_ringEdges (state : RingState) (base : Nat) (points : List Point) (k : Nat) :
    (ringEdges state base points)[k]? = (Contour.cycle points)[k]?.map fun e ↦
      ⟨e.start, e.stop, state, base + (k + 1) % points.length⟩ := by
  rw [ringEdges, List.getElem?_map, List.getElem?_zipIdx, Option.map_map, Nat.zero_add]
  rfl

/-- The edges of a moved contour are those of the contour, moved. -/
theorem getElem?_ringEdges_translate {base' : Nat} (hρ : ∀ k, ρ (base + k) = base' + k)
    (state : RingState) (c : Contour) (d : Point) (k : Nat) :
    (ringEdges state base' (c.translate d).points)[k]? =
      (ringEdges state base c.points)[k]?.map (RingEdge.moved ρ d) := by
  rw [getElem?_ringEdges, getElem?_ringEdges, Contour.points_translate, Contour.cycle_map,
    List.getElem?_map, Option.map_map, Option.map_map, List.length_map]
  refine congrArg (Option.map · _) (funext fun e ↦ ?_)
  simp only [Function.comp_apply, RingEdge.moved, hρ]
  rfl

/-- What holds of a table while contours are put into it. -/
structure IsFresh (t : RingTable) : Prop where
  next_lt : ∀ (i : Nat) (e : RingEdge), t.edges[i]? = some e → e.next < t.edges.size
  entry_lt : ∀ i ∈ t.entries, i < t.edges.size
  ordered : t.entries.Pairwise (· < ·)

theorem next_lt_of_mem_ringEdges {state : RingState} {e : RingEdge}
    (he : (ringEdges state base points)[k]? = some e) : e.next < base + points.length := by
  rw [getElem?_ringEdges, Option.map_eq_some_iff] at he
  obtain ⟨f, hf, rfl⟩ := he
  have hk := (List.getElem?_eq_some_iff.1 hf).1
  rw [Contour.length_cycle] at hk
  exact Nat.add_lt_add_left (Nat.mod_lt _ (Nat.zero_lt_of_lt hk)) _

theorem isFresh_addOutline (outline : Contour) : (empty.addOutline outline).IsFresh where
  next_lt i e he := by
    rw [getElem?_addOutline] at he
    rw [Layout.size_addOutline]
    exact Nat.zero_add outline.size ▸ next_lt_of_mem_ringEdges he
  entry_lt i hi := absurd hi List.not_mem_nil
  ordered := .nil

theorem IsFresh.addHole (h : t.IsFresh) (c : Contour) : (t.addHole c).IsFresh where
  next_lt i e he := by
    rw [size_addHole]
    rcases Nat.lt_or_ge i t.edges.size with hi | hi
    · rw [getElem?_addHole_of_lt c hi] at he
      exact Nat.lt_add_right _ (h.next_lt i e he)
    · obtain ⟨k, rfl⟩ := Nat.exists_eq_add_of_le hi
      rw [getElem?_addHole_add] at he
      exact next_lt_of_mem_ringEdges he
  entry_lt i hi := by
    rw [size_addHole]
    rcases List.mem_append.1 hi with hi | hi
    · exact Nat.lt_add_right _ (h.entry_lt i hi)
    · obtain ⟨k, p, hp, -, rfl⟩ := mem_leftmostPlaces.1 hi
      exact Nat.add_lt_add_left (List.getElem?_eq_some_iff.1 hp).1 _
  ordered := by
    refine List.pairwise_append.2 ⟨h.ordered, pairwise_leftmostPlaces _ _, fun i hi j hj ↦ ?_⟩
    obtain ⟨k, -, -, -, rfl⟩ := mem_leftmostPlaces.1 hj
    exact Nat.lt_add_right _ (h.entry_lt i hi)

namespace Embeds

/-- An outline alone, and the outline moved. -/
theorem outline (outline : Contour) (d : Point) :
    (empty.addOutline outline).Embeds id d (empty.addOutline (outline.translate d)) where
  strictMono := strictMono_id
  behind k := by
    rw [Layout.size_addOutline, Layout.size_addOutline, Contour.size_translate, id]
  edge i := by
    rw [getElem?_addOutline, getElem?_addOutline]
    exact getElem?_ringEdges_translate (fun _ ↦ rfl) .joined outline d i
  joined j _ _ _ := ⟨j, rfl⟩
  entry _ := Iff.rfl
  ordered := .nil
  ordered' := .nil

/-- The same hole put into both tables. -/
theorem addHole (h : u.Embeds ρ d t) (hu : u.IsFresh) (ht : t.IsFresh) (c : Contour) :
    (u.addHole c).Embeds ρ d (t.addHole (c.translate d)) where
  strictMono := h.strictMono
  behind k := by
    rw [size_addHole, size_addHole, Contour.size_translate, Nat.add_assoc, Nat.add_assoc, h.behind]
  edge i := by
    rcases Nat.lt_or_ge i u.edges.size with hi | hi
    · rw [getElem?_addHole_of_lt _ (h.lt_size_iff.2 hi), getElem?_addHole_of_lt _ hi, h.edge]
    · obtain ⟨k, rfl⟩ := Nat.exists_eq_add_of_le hi
      rw [h.behind, getElem?_addHole_add, getElem?_addHole_add]
      exact getElem?_ringEdges_translate h.behind .waiting c d k
  joined j e he hstate := by
    rcases Nat.lt_or_ge j t.edges.size with hj | hj
    · rw [getElem?_addHole_of_lt _ hj] at he
      exact h.joined j e he hstate
    · obtain ⟨k, rfl⟩ := Nat.exists_eq_add_of_le hj
      exact ⟨_, h.behind k⟩
  entry i := by
    show ρ i ∈ t.entries ++ _ ↔ i ∈ u.entries ++ _
    rw [leftmostPlaces_translate, List.mem_append, List.mem_append, h.entry]
    simp only [mem_leftmostPlaces, ← h.behind, h.strictMono.injective.eq_iff]
  ordered := (hu.addHole c).ordered
  ordered' := (ht.addHole _).ordered

/-- The places of a table behind which another one has `n` more edges. -/
def skip (size n : Nat) (ρ : Nat → Nat) (i : Nat) : Nat := if i < size then ρ i else ρ i + n

/-- A hole put into the larger table only. -/
theorem skipHole (h : u.Embeds ρ d t) (hu : u.IsFresh) (ht : t.IsFresh) (c : Contour) :
    u.Embeds (skip u.edges.size c.size ρ) d (t.addHole c) := by
  have hlt : ∀ i < u.edges.size, skip u.edges.size c.size ρ i = ρ i := fun i hi ↦ if_pos hi
  have hbehind : ∀ k, skip u.edges.size c.size ρ (u.edges.size + k) =
      t.edges.size + c.size + k := by
    intro k
    rw [skip, if_neg (by omega), h.behind]
    omega
  exact {
    strictMono := by
      intro i j hij
      have := h.strictMono hij
      unfold skip
      split_ifs <;> omega
    behind := fun k ↦ by rw [size_addHole, hbehind]
    edge := by
      intro i
      rcases Nat.lt_or_ge i u.edges.size with hi | hi
      · rw [hlt i hi, getElem?_addHole_of_lt _ (h.lt_size_iff.2 hi), h.edge]
        rcases he : u.edges[i]? with - | e
        · rfl
        · have hnext := hlt e.next (hu.next_lt i e he)
          simp only [Option.map_some, RingEdge.moved, hnext]
      · obtain ⟨k, rfl⟩ := Nat.exists_eq_add_of_le hi
        rw [hbehind, Array.getElem?_eq_none (by rw [size_addHole]; omega),
          Array.getElem?_eq_none (Nat.le_add_right _ _), Option.map_none]
    joined := by
      intro j e he hstate
      rcases Nat.lt_or_ge j t.edges.size with hj | hj
      · rw [getElem?_addHole_of_lt _ hj] at he
        obtain ⟨i, rfl⟩ := h.joined j e he hstate
        exact ⟨i, hlt i (h.lt_size_iff.1 hj)⟩
      · obtain ⟨k, rfl⟩ := Nat.exists_eq_add_of_le hj
        rw [getElem?_addHole_add, getElem?_ringEdges, Option.map_eq_some_iff] at he
        obtain ⟨f, -, rfl⟩ := he
        simp at hstate
    entry := by
      intro i
      rcases Nat.lt_or_ge i u.edges.size with hi | hi
      · show _ ∈ t.entries ++ _ ↔ _
        rw [List.mem_append, hlt i hi, h.entry, or_iff_left]
        intro hmem
        obtain ⟨k, -, -, -, hk⟩ := mem_leftmostPlaces.1 hmem
        have := h.lt_size_iff.2 hi
        omega
      · -- Behind all edges there are no entries.
        obtain ⟨k, rfl⟩ := Nat.exists_eq_add_of_le hi
        rw [hbehind]
        refine iff_of_false (fun hmem ↦ ?_) fun hmem ↦ ?_
        · have := (ht.addHole c).entry_lt _ hmem
          rw [size_addHole] at this
          omega
        · have := hu.entry_lt _ hmem
          omega
    ordered := h.ordered
    ordered' := (ht.addHole c).ordered }

end Embeds

/-! ### Thinned lists of holes -/

end RingTable

/-- Those of the holes that are kept, where the first edge of the first hole is at place `base`. -/
def thinned (keep : PlacedContour → Bool) (base : Nat) (holes : List Contour) : List Contour :=
  ((placeContours base holes).filter keep).map PlacedContour.contour

namespace RingTable

variable {t u : RingTable} {ρ : Nat → Nat} {d : Point}

/-- **A table with fewer holes** is found in the one with all of them. -/
theorem Embeds.exists_foldl (h : u.Embeds ρ d t) (hu : u.IsFresh) (ht : t.IsFresh)
    (keep : PlacedContour → Bool) (holes : List Contour) :
    ∃ σ, (∀ i < u.edges.size, σ i = ρ i) ∧
      ((thinned keep t.edges.size holes).foldl RingTable.addHole u).Embeds σ d
        ((holes.map fun c ↦ c.translate d).foldl RingTable.addHole t) ∧
      ∀ h ∈ placeContours t.edges.size holes, keep h = true → ∀ j ∈ h.places, ∃ i, σ i = j := by
  induction holes generalizing u t ρ with
  | nil => exact ⟨ρ, fun _ _ ↦ rfl, h, by simp [placeContours]⟩
  | cons c holes ih =>
    have hsize : (t.addHole (c.translate d)).edges.size = t.edges.size + c.size := by
      rw [size_addHole, Contour.size_translate]
    have ht' := ht.addHole (c.translate d)
    by_cases hkeep : keep ⟨t.edges.size, c⟩ = true
    · obtain ⟨σ, hσ, hembeds, hplaces⟩ := ih (h.addHole hu ht c) (hu.addHole c) ht'
      rw [hsize] at hembeds hplaces
      rw [size_addHole] at hσ
      refine ⟨σ, fun i hi ↦ hσ i (Nat.lt_add_right _ hi), ?_, ?_⟩
      · rw [thinned, placeContours, List.filter_cons_of_pos hkeep]
        exact hembeds
      · rw [placeContours, List.forall_mem_cons]
        refine ⟨fun _ j hj ↦ ?_, hplaces⟩
        obtain ⟨hle, hlt⟩ := List.mem_range'_1.1 hj
        obtain ⟨k, rfl⟩ := Nat.exists_eq_add_of_le hle
        have hk : u.edges.size + k < u.edges.size + c.size :=
          Nat.add_lt_add_left (Nat.lt_of_add_lt_add_left hlt) _
        exact ⟨u.edges.size + k, (hσ _ hk).trans (h.behind k)⟩
    · obtain ⟨σ, hσ, hembeds, hplaces⟩ := ih (h.skipHole hu ht (c.translate d)) hu ht'
      rw [hsize] at hembeds hplaces
      refine ⟨σ, fun i hi ↦ (hσ i hi).trans (if_pos hi), ?_, ?_⟩
      · rw [thinned, placeContours, List.filter_cons_of_neg hkeep]
        exact hembeds
      · rw [placeContours, List.forall_mem_cons]
        exact ⟨fun hk ↦ absurd hk hkeep, hplaces⟩

/-- **With fewer holes the joined ring is the same**, as long as all that are joined are kept. -/
theorem ringPoints_thinned {outline : Contour} (holes : List Contour) (ho : outline.points ≠ [])
    (keep : PlacedContour → Bool) (d : Point)
    (hkeep : ∀ s, .joined s ∈ (ofContours (outline.translate d)
      (holes.map fun c ↦ c.translate d)).joinAll.2 →
        ∃ h ∈ placeContours outline.size holes, keep h = true ∧ s.hole ∈ h.places) :
    (ofContours (outline.translate d) (holes.map fun c ↦ c.translate d)).joinAll.1.ringPoints 0 =
      ((ofContours outline (thinned keep outline.size holes)).joinAll.1.ringPoints 0).map
        fun p ↦ p.translate d := by
  have hsize : (empty.addOutline (outline.translate d)).edges.size = outline.size := by
    rw [Layout.size_addOutline, Contour.size_translate]
  obtain ⟨σ, hσ, hembeds, hplaces⟩ := (Embeds.outline outline d).exists_foldl
    (isFresh_addOutline _) (isFresh_addOutline _) keep holes
  rw [hsize] at hembeds hplaces
  have hzero : σ 0 = 0 := hσ 0 (by
    rw [Layout.size_addOutline]
    exact List.length_pos_of_ne_nil ho)
  have hfinal := hembeds.joinAll (Layout.fits_initial _ _) (Layout.fits_initial _ _) fun s hs ↦ by
    obtain ⟨h, hh, hk, hmem⟩ := hkeep s hs
    exact hplaces h hh hk _ hmem
  obtain ⟨M, -, -, hfu, hau⟩ := Layout.exists_account_joinAll outline
    (thinned keep outline.size holes)
  obtain ⟨L, -, -, hft, hat⟩ := Layout.exists_account_joinAll (outline.translate d)
    (holes.map fun c ↦ c.translate d)
  have hpoints := hfinal.ringPoints_eq (hau.walk hfu ho).1 (by
    rw [hzero]
    exact (hat.walk hft (by simpa using ho)).1)
  rwa [hzero] at hpoints

end RingTable

/-! ### Holes that leave no trace -/

/-- The hole is given up. -/
def HoleFate.GivesUp (h : PlacedContour) : HoleFate → Prop
  | .joined _ => False
  | .dropped i => i ∈ h.places

instance (h : PlacedContour) : DecidablePred (HoleFate.GivesUp h)
  | .joined _ => inferInstanceAs (Decidable False)
  | .dropped i => inferInstanceAs (Decidable (i ∈ h.places))

/-- The hole has a vertex and is not given up. -/
def Survives (outline : Contour) (holes : List Contour) (h : PlacedContour) : Prop :=
  h.contour.points ≠ [] ∧
    ∀ fate ∈ (RingTable.ofContours outline holes).joinAll.2, ¬ fate.GivesUp h

instance (outline : Contour) (holes : List Contour) (h : PlacedContour) :
    Decidable (Survives outline holes h) :=
  inferInstanceAs (Decidable (h.contour.points ≠ [] ∧
    ∀ fate ∈ (RingTable.ofContours outline holes).joinAll.2, ¬ fate.GivesUp h))

/-- The holes that have a vertex and are not given up. -/
def survivingHoles (outline : Contour) (holes : List Contour) : List Contour :=
  thinned (fun h ↦ Survives outline holes h) outline.size holes

namespace Layout

variable {L M : Layout} {holes : List PlacedContour} {t : RingTable} {fates : List HoleFate}
  {h : PlacedContour} {i : Nat}

/-- What has been dropped is one of the dropped holes. -/
theorem Reaches.exists_dropped (hr : L.Reaches fates M) (hi : .dropped i ∈ fates) :
    ∃ h ∈ M.dropped, i ∈ h.places := by
  induction hr with
  | refl => simp at hi
  | @step M N fates fate _ hs ih =>
    rcases List.mem_append.1 hi with hi | hi
    · obtain ⟨h, hh, hmem⟩ := ih hi
      cases hs with
      | join => exact ⟨h, hh, hmem⟩
      | drop => exact ⟨h, List.mem_append_left _ hh, hmem⟩
    · rw [List.mem_singleton] at hi
      subst hi
      cases hs with
      | @drop h v hn =>
        refine ⟨h, List.mem_append_right _ (List.mem_singleton.2 rfl), ?_⟩
        exact h.map_place_vertices ▸ List.mem_map_of_mem hn.mem_vertices

/-- A hole that is joined has a vertex, and it is not given up. -/
theorem exists_joined {outline : Contour} {holes : List Contour} {s : Slit}
    (hs : .joined s ∈ (RingTable.ofContours outline holes).joinAll.2) :
    ∃ h ∈ placeContours outline.size holes, s.hole ∈ h.places ∧
      ∀ fate ∈ (RingTable.ofContours outline holes).joinAll.2, ¬ fate.GivesUp h := by
  obtain ⟨L, hreach, -, hf, ha⟩ := exists_account_joinAll outline holes
  have hslit : s ∈ L.bridges.map Bridge.slit := by
    rw [ha.slits]
    exact List.mem_filterMap.2 ⟨_, hs, rfl⟩
  obtain ⟨b, hb, rfl⟩ := List.mem_map.1 hslit
  have hmem : b.slit.hole ∈ b.hole.places :=
    b.hole.map_place_vertices ▸ List.mem_map_of_mem (PlacedContour.mem_of_entrance? (ha.entry b hb))
  refine ⟨b.hole, hf.mem_holes_of_bridge hb, hmem, fun fate hfate hgives ↦ ?_⟩
  cases fate with
  | joined => exact hgives
  | dropped i =>
    obtain ⟨h, hh, hi⟩ := hreach.exists_dropped hfate
    obtain rfl := hf.eq_of_mem_places (hf.mem_holes_of_bridge hb) (hf.mem_holes_of_dropped hh)
      hgives hi
    -- The slit begins on the joined ring, where a dropped hole has no place.
    have hjoined : b.slit.hole ∈ L.joined.map RingVertex.place := by
      refine ha.places.mem_iff.2 (List.mem_append_right _ (List.mem_flatMap.2 ⟨b, hb, ?_⟩))
      exact List.mem_append_left _ hmem
    exact hf.notMem_of_dropped hh hjoined hmem

end Layout

/-- An empty outline swallows its holes. -/
theorem joinHoles_of_points_eq_nil {outline : Contour} (holes : List Contour)
    (ho : outline.points = []) (hclosed : outline.closed = true) :
    joinHoles (outline :: holes) = .closedOf [] := by
  cases holes with
  | nil => rw [joinHoles, Contour.closedOf, ← ho, ← hclosed]
  | cons c holes =>
    rw [joinHoles, Contour.isEmpty, ho]
    · rfl
    · simp

/-- Also an outline that is joined to no holes is the contour through the points of its ring, if it
repeats no vertex. -/
theorem joinHoles_eq_ofPoints {outline : Contour} (holes : List Contour) (ho : outline.points ≠ [])
    (hclosed : outline.closed = true) (hchain : outline.points.IsChain (· ≠ ·)) :
    joinHoles (outline :: holes) =
      .ofPoints ((RingTable.ofContours outline holes).joinAll.1.ringPoints 0) := by
  rcases holes with - | ⟨c, holes⟩
  · have hrun : (RingTable.ofContours outline []).joinAll.1 = RingTable.ofContours outline [] := by
      have hnone : ¬ 0 < (RingTable.ofContours outline []).waiting := Nat.lt_irrefl 0
      rw [RingTable.joinAll, dif_neg hnone]
    have hwalk := (Layout.Account.initial outline []).walk (Layout.fits_initial outline []) ho
    have hpoints : (RingTable.ofContours outline []).ringPoints 0 = outline.points :=
      hwalk.2.2.trans (PlacedContour.map_point_vertices _)
    have hrepeats : Contour.dropRepeats outline.points = outline.points := by
      rw [Contour.dropRepeats_eq_destutter, List.destutter_of_isChain _ _ hchain]
    rw [hrun, hpoints, Contour.ofPoints, hrepeats, Contour.closedOf, ← hclosed]
    rfl
  · exact joinHoles_cons ho (List.cons_ne_nil c holes)

/-- **A hole that is given up leaves no trace.** Let the outline be closed, without two vertices in
a row that are equal. If all empty holes and all holes for which no slit is found are taken out
beforehand, whatever their places in the list, the outline is joined to the other holes by the same
slits, and the same contour results. -/
theorem joinHoles_survivingHoles (outline : Contour) (holes : List Contour)
    (hclosed : outline.closed = true) (hchain : outline.points.IsChain (· ≠ ·)) :
    joinHoles (outline :: survivingHoles outline holes) = joinHoles (outline :: holes) := by
  by_cases ho : outline.points = []
  · rw [joinHoles_of_points_eq_nil _ ho hclosed, joinHoles_of_points_eq_nil _ ho hclosed]
  · rw [joinHoles_eq_ofPoints _ ho hclosed hchain, joinHoles_eq_ofPoints _ ho hclosed hchain]
    have hpoints := RingTable.ringPoints_thinned holes ho (fun h ↦ Survives outline holes h) .origin
    simp only [Contour.translate_origin, Point.translate_origin, List.map_id'] at hpoints
    refine congrArg Contour.ofPoints (hpoints fun s hs ↦ ?_).symm
    obtain ⟨h, hh, hmem, hkept⟩ := Layout.exists_joined hs
    refine ⟨h, hh, decide_eq_true ⟨fun hnil ↦ ?_, hkept⟩, hmem⟩
    simp [PlacedContour.places, Contour.size, hnil] at hmem

/-- A hole to the left of the outline is given up, another one has no vertex, and both can be taken
out in front of a hole that is joined. -/
theorem joinHoles_survivingHoles_square :
    survivingHoles (.closedOf [⟨0, 0⟩, ⟨9, 0⟩, ⟨9, 9⟩, ⟨0, 9⟩])
        [.closedOf [⟨-3, 4⟩, ⟨-2, 3⟩, ⟨-2, 6⟩], .closedOf [],
          .closedOf [⟨3, 4⟩, ⟨5, 3⟩, ⟨3, 6⟩]] = [.closedOf [⟨3, 4⟩, ⟨5, 3⟩, ⟨3, 6⟩]] ∧
      joinHoles [.closedOf [⟨0, 0⟩, ⟨9, 0⟩, ⟨9, 9⟩, ⟨0, 9⟩],
          .closedOf [⟨3, 4⟩, ⟨5, 3⟩, ⟨3, 6⟩]] =
        joinHoles [.closedOf [⟨0, 0⟩, ⟨9, 0⟩, ⟨9, 9⟩, ⟨0, 9⟩],
          .closedOf [⟨-3, 4⟩, ⟨-2, 3⟩, ⟨-2, 6⟩], .closedOf [],
          .closedOf [⟨3, 4⟩, ⟨5, 3⟩, ⟨3, 6⟩]] := by
  have hsurviving : survivingHoles (.closedOf [⟨0, 0⟩, ⟨9, 0⟩, ⟨9, 9⟩, ⟨0, 9⟩])
      [.closedOf [⟨-3, 4⟩, ⟨-2, 3⟩, ⟨-2, 6⟩], .closedOf [],
        .closedOf [⟨3, 4⟩, ⟨5, 3⟩, ⟨3, 6⟩]] = [.closedOf [⟨3, 4⟩, ⟨5, 3⟩, ⟨3, 6⟩]] := by
    decide +kernel
  have hjoined := joinHoles_survivingHoles (.closedOf [⟨0, 0⟩, ⟨9, 0⟩, ⟨9, 9⟩, ⟨0, 9⟩])
    [.closedOf [⟨-3, 4⟩, ⟨-2, 3⟩, ⟨-2, 6⟩], .closedOf [], .closedOf [⟨3, 4⟩, ⟨5, 3⟩, ⟨3, 6⟩]] rfl
    (by decide)
  rw [hsurviving] at hjoined
  exact ⟨hsurviving, hjoined⟩

end GridGeometry
