import GridGeometry.Proofs.Contour.Repeats
import GridGeometry.Proofs.Slit.Drift

/-!
# Holes that are kept

A hole strictly inside the outline has an edge of the outline to its left. No slit is found for it
only if the parts of every such edge have drifted past it, and every slit moves them by one half at
most. So it takes a number of slits that grows with the distance from the outline to lose a hole,
and none is lost when the outline is axis-parallel or there are at most two holes, whatever the
slopes of the holes are (`keepsHoles_of_encloses`). Three holes and one sloped edge are enough to
lose one (`exists_dropped_of_encloses`).

## Main definitions

* `KeepsHoles`: all holes are joined, and no vertex is lost.
* `Segment.IsLeftOf`: an edge crosses the height of a point to the left of it.
* `RingTable.drift`: the errors of the slits that have arrived on an edge of the outline.
* `RingTable.DriftsLittle`: at every turn some edge to the left has not drifted past the hole.
-/

namespace GridGeometry

open Contour (cycle)

/-- The edge is parallel to one of the axes. -/
def Segment.IsAxial (e : Segment) : Prop := e.start.x = e.stop.x ∨ e.start.y = e.stop.y

instance (e : Segment) : Decidable e.IsAxial :=
  inferInstanceAs (Decidable (e.start.x = e.stop.x ∨ e.start.y = e.stop.y))

/-- The bridging vertex of a hole, in terms of its points. -/
theorem PlacedContour.minOn?_points {h : PlacedContour} {v : RingVertex}
    (hv : h.entrance? = some v) : h.contour.points.minOn? Point.x = some v.point := by
  rw [← h.map_point_vertices, minOn?_map]
  exact congrArg (Option.map RingVertex.point) hv

/-- Every hole is joined, and its vertices are vertices of the contour that results. -/
structure KeepsHoles (outline : Contour) (holes : List Contour) : Prop where
  joined : ∀ fate ∈ (RingTable.ofContours outline holes).joinAll.2, fate.slit?.isSome
  mem_points : ∀ c ∈ holes, ∀ p ∈ c.points, p ∈ (joinHoles (outline :: holes)).points

namespace RingTable

variable {outline : Contour} {holes : List Contour} {t : RingTable} {fates : List HoleFate}
  {e : Segment} {i place : Nat} {p : Point}

/-- Whenever a hole is next, it is one of the contours, and it is entered at the first of its
leftmost vertices. There have been fewer steps than there are holes. -/
theorem Reaches.exists_hole (h : (ofContours outline holes).Reaches t fates)
    (hn : t.nextHole? = some (place, p)) :
    (∃ c ∈ holes, c.points.minOn? Point.x = some p) ∧
      fates.length < holes.countP (!·.isEmpty) := by
  obtain ⟨L, -, hf, ha⟩ := Layout.exists_account holes h
  obtain ⟨c, hnext⟩ := hf.next_of_nextHole? hn
  refine ⟨⟨c.contour, mem_of_mem_placeContours (hf.mem_holes hnext.mem).1,
    PlacedContour.minOn?_points hnext.entry⟩, ?_⟩
  have hcount := hf.holes.length_eq
  rw [← List.countP_eq_length_filter, countP_placeContours _ _ fun c ↦ !c.isEmpty,
    List.length_append, List.length_append, List.length_map] at hcount
  have hwaiting := List.length_pos_of_mem hnext.mem
  have hlen := ha.length_fates
  omega

/-- The drift of an edge is at most one half for every step. -/
theorem Reaches.drift_le (h : (ofContours outline holes).Reaches t fates) (i : Nat) :
    (EdgeParts.after i (ofContours outline holes).edges.size fates).drift ≤ fates.length / 2 := by
  have hle := EdgeParts.drift_foldl_le h.error_le
    (.whole i (ofContours outline holes).edges.size)
  have hlen : ((fates.filterMap HoleFate.slit?).length : ℚ) ≤ fates.length := by
    exact_mod_cast List.length_filterMap_le _ _
  rw [EdgeParts.whole, zero_add] at hle
  exact hle.trans (by linarith)

/-- When a slit arrives at every turn, every hole is joined. -/
theorem Reaches.isSome_slit? (h : (ofContours outline holes).Reaches t fates)
    (hturn : ∀ t fates place p, (ofContours outline holes).Reaches t fates →
      t.nextHole? = some (place, p) → ∃ s, t.slit? place p = some s) :
    ∀ fate ∈ fates, fate.slit?.isSome := by
  induction h with
  | refl => simp
  | @step u v fates fate hreach _ hs ih =>
    intro fate' hmem
    rcases List.mem_append.1 hmem with hmem | hmem
    · exact ih fate' hmem
    · obtain rfl := List.mem_singleton.1 hmem
      obtain ⟨place, p, hn, ⟨s, -, -, rfl⟩ | ⟨hnone, -, -⟩⟩ := step?_cases hs
      · rfl
      · obtain ⟨s, hslit⟩ := hturn u fates place p hreach hn
        simp [hslit] at hnone

end RingTable

namespace Layout

variable {outline : Contour} {holes : List Contour} {L : Layout} {fates : List HoleFate}
  {size : Nat} {c : Contour} {p : Point}

/-- When every hole has been joined, none has been dropped. -/
theorem Account.dropped_eq_nil (ha : Account outline size fates L)
    (hall : ∀ fate ∈ fates, fate.slit?.isSome) : L.dropped = [] := by
  have hslits := congrArg List.length ha.slits
  rw [List.length_map, List.length_filterMap_eq_countP, List.countP_eq_length.2 hall,
    ha.length_fates] at hslits
  exact List.length_eq_zero_iff.1 (show L.dropped.length = 0 by omega)

/-- When every hole has been joined, the joined ones are those that have a vertex. -/
theorem Account.bridges_perm (ha : Account outline size fates L) {places : List PlacedContour}
    {t : RingTable} (hf : L.Fits places t) (hnil : L.waiting = [])
    (hall : ∀ fate ∈ fates, fate.slit?.isSome) :
    (L.bridges.map Bridge.hole).Perm (places.filter fun h ↦ !h.contour.isEmpty) := by
  have hperm := hf.holes
  rwa [hnil, ha.dropped_eq_nil hall, List.append_nil, List.append_nil] at hperm

/-- **The vertices of joined holes** are on the joined ring. -/
theorem mem_ringPoints (hall : ∀ fate ∈ (RingTable.ofContours outline holes).joinAll.2,
    fate.slit?.isSome) (ho : outline.points ≠ []) (hc : c ∈ holes) (hp : p ∈ c.points) :
    p ∈ (RingTable.ofContours outline holes).joinAll.1.ringPoints 0 := by
  obtain ⟨L, -, hnil, hf, ha⟩ := exists_account_joinAll outline holes
  obtain ⟨h, hh, rfl⟩ := exists_mem_placeContours outline.size hc
  have hmem : h ∈ L.bridges.map Bridge.hole := by
    rw [(ha.bridges_perm hf hnil hall).mem_iff, List.mem_filter]
    exact ⟨hh, by simpa [Contour.isEmpty] using List.ne_nil_of_mem hp⟩
  obtain ⟨b, hb, rfl⟩ := List.mem_map.1 hmem
  obtain ⟨before, after, hsplit, -, -, hsub⟩ := ha.exists_loop hb
  rw [(ha.walk hf ho).2.2]
  refine hsub.subset ?_
  rw [hsplit] at hp
  simp only [List.mem_append, List.mem_cons] at hp ⊢
  tauto

end Layout

/-- What joining gives when there is something to join. -/
theorem joinHoles_cons {outline : Contour} {holes : List Contour} (ho : outline.points ≠ [])
    (hh : holes ≠ []) : joinHoles (outline :: holes) =
      .ofPoints ((RingTable.ofContours outline holes).joinAll.1.ringPoints 0) := by
  obtain ⟨c, holes, rfl⟩ := List.exists_cons_of_ne_nil hh
  rw [joinHoles, if_neg (by simpa [Contour.isEmpty] using ho)]
  simp

namespace RingTable

variable {outline : Contour} {holes : List Contour} {t : RingTable} {fates : List HoleFate}
  {e : Segment} {i place : Nat} {p : Point}

/-- **When a slit arrives at every turn**, no hole is dropped and no vertex is lost. -/
theorem keepsHoles_of_slits (ho : ∀ c ∈ holes, c.points ≠ [] → outline.points ≠ [])
    (hturn : ∀ t fates place p, (ofContours outline holes).Reaches t fates →
      t.nextHole? = some (place, p) → ∃ s, t.slit? place p = some s) :
    KeepsHoles outline holes := by
  have hall := (reaches_joinAll (ofContours outline holes)).1.isSome_slit? hturn
  refine ⟨hall, fun c hc p hp ↦ ?_⟩
  have hne := ho c hc (List.ne_nil_of_mem hp)
  rw [joinHoles_cons hne (List.ne_nil_of_mem hc), Contour.points_ofPoints, Contour.mem_dropRepeats]
  exact Layout.mem_ringPoints hall hne hc hp

end RingTable

/-! ### Edges to the left of a hole -/

/-- The edge crosses the height of the point strictly to the left of it. -/
structure Segment.IsLeftOf (e : Segment) (p : Point) : Prop where
  straddles : e.Straddles p.y
  lt : e.crossingX p.y < p.x

/-- An enclosed point has an edge to its left. -/
theorem Contour.Encloses.exists_isLeftOf {c : Contour} {p : Point} (h : c.Encloses p) :
    ∃ e ∈ cycle c.points, e.IsLeftOf p := by
  obtain ⟨e, he, hs, hc⟩ := h.exists_not_crosses
  exact ⟨e, he, hs, Segment.crossingX_lt hs hc (h.2 e he)⟩

/-- An axis-parallel edge with a point to its right is vertical. -/
theorem Segment.IsAxial.vertical {e : Segment} {p : Point} (h : e.IsAxial) (hl : e.IsLeftOf p) :
    e.start.x = e.stop.x := h.resolve_right hl.straddles.start_ne_stop

namespace RingTable

variable {outline : Contour} {holes : List Contour} {t : RingTable} {fates : List HoleFate}
  {e : Segment} {i place : Nat} {p : Point}

/-- How far the parts of edge `i` of the outline may have drifted when the holes so far have had the
given fates. -/
def drift (outline : Contour) (holes : List Contour) (i : Nat) (fates : List HoleFate) : ℚ :=
  (EdgeParts.after i (ofContours outline holes).edges.size fates).drift

/-- At every turn there is an edge to the left of the bridging vertex that has drifted by less than
their distance and one half. -/
def DriftsLittle (outline : Contour) (holes : List Contour) : Prop :=
  ∀ t fates place p, (ofContours outline holes).Reaches t fates →
    t.nextHole? = some (place, p) → ∃ i e, (cycle outline.points)[i]? = some e ∧ e.IsLeftOf p ∧
      drift outline holes i fates < p.x - e.crossingX p.y + 1 / 2

theorem Reaches.exists_slit (h : (ofContours outline holes).Reaches t fates)
    (he : (cycle outline.points)[i]? = some e) (hl : e.IsLeftOf p)
    (hlt : drift outline holes i fates < p.x - e.crossingX p.y + 1 / 2) (place : Nat) :
    ∃ s, t.slit? place p = some s := by
  obtain ⟨L, -, hf, -⟩ := Layout.exists_account holes h
  exact (h.tracks he).exists_slit hf hl.straddles hlt place

theorem DriftsLittle.keepsHoles (h : DriftsLittle outline holes)
    (ho : ∀ c ∈ holes, c.points ≠ [] → outline.points ≠ []) : KeepsHoles outline holes := by
  refine keepsHoles_of_slits ho fun t fates place p hreach hn ↦ ?_
  obtain ⟨i, e, he, hl, hlt⟩ := h t fates place p hreach hn
  exact hreach.exists_slit he hl hlt place

/-- **Clearance.** An edge to the left of a bridging vertex never drifts past it when it is
vertical, and otherwise not as long as there are few holes for the distance. -/
theorem driftsLittle_of_clear
    (hclear : ∀ c ∈ holes, ∀ p, c.points.minOn? Point.x = some p →
      ∃ e ∈ cycle outline.points, e.IsLeftOf p ∧ (e.start.x = e.stop.x ∨
        (holes.countP (!·.isEmpty) : ℚ) < 2 * (p.x - e.crossingX p.y) + 2)) :
    DriftsLittle outline holes := by
  intro t fates place p hreach hn
  obtain ⟨⟨c, hc, hp⟩, hlen⟩ := hreach.exists_hole hn
  obtain ⟨e, he, hl, hor⟩ := hclear c hc p hp
  obtain ⟨i, hi⟩ := List.mem_iff_getElem?.1 he
  refine ⟨i, e, hi, hl, ?_⟩
  have hpos := hl.lt
  rcases hor with hvertical | hfew
  · rw [drift, (hreach.tracks hi).vertical hvertical]
    linarith
  · have hle := hreach.drift_le i
    have hlen' : (fates.length : ℚ) + 1 ≤ holes.countP (!·.isEmpty) := by exact_mod_cast hlen
    rw [drift]
    linarith

/-- **When a hole is kept.** Let every vertex of every hole be enclosed by the outline. At every
turn there is an edge of the outline to the left of the bridging vertex, the slits so far are off by
one half at most each, and no slit is found only if every such edge has drifted by its distance and
one half more. So all holes are kept when the edges drift little, which they do when every bridging
vertex has an edge to its left that is vertical or far away for the number of holes: always, if the
outline is axis-parallel or there are at most two holes. -/
theorem keepsHoles_of_encloses (outline : Contour) (holes : List Contour)
    (hin : ∀ c ∈ holes, ∀ p ∈ c.points, outline.Encloses p) :
    (∀ t fates place p, (ofContours outline holes).Reaches t fates →
      t.nextHole? = some (place, p) →
        (∃ e ∈ cycle outline.points, e.IsLeftOf p) ∧
        (∀ s ∈ fates.filterMap HoleFate.slit?, s.error ≤ 1 / 2) ∧
        (t.slit? place p = none → ∀ i e, (cycle outline.points)[i]? = some e → e.IsLeftOf p →
          p.x - e.crossingX p.y + 1 / 2 ≤ drift outline holes i fates)) ∧
    (DriftsLittle outline holes → KeepsHoles outline holes) ∧
    ((∀ c ∈ holes, ∀ p, c.points.minOn? Point.x = some p →
      ∃ e ∈ cycle outline.points, e.IsLeftOf p ∧ (e.start.x = e.stop.x ∨
        (holes.countP (!·.isEmpty) : ℚ) < 2 * (p.x - e.crossingX p.y) + 2)) →
      KeepsHoles outline holes) ∧
    ((∀ e ∈ cycle outline.points, e.IsAxial) ∨ holes.countP (!·.isEmpty) ≤ 2 →
      KeepsHoles outline holes) := by
  have ho : ∀ c ∈ holes, c.points ≠ [] → outline.points ≠ [] := by
    intro c hc hne hnil
    obtain ⟨p, hp⟩ := List.exists_mem_of_ne_nil _ hne
    obtain ⟨e, he, -⟩ := (hin c hc p hp).exists_isLeftOf
    simp [hnil, cycle] at he
  have hleft : ∀ c ∈ holes, ∀ p, c.points.minOn? Point.x = some p →
      ∃ e ∈ cycle outline.points, e.IsLeftOf p := by
    intro c hc p hp
    exact (hin c hc p (List.minOn?_mem hp)).exists_isLeftOf
  refine ⟨?_, fun h ↦ h.keepsHoles ho, fun h ↦ (driftsLittle_of_clear h).keepsHoles ho, ?_⟩
  · intro t fates place p hreach hn
    obtain ⟨⟨c, hc, hp⟩, -⟩ := hreach.exists_hole hn
    refine ⟨hleft c hc p hp, hreach.error_le, ?_⟩
    intro hnone i e he hl
    by_contra hlt
    obtain ⟨s, hs⟩ := hreach.exists_slit he hl (not_le.1 hlt) place
    rw [hnone] at hs
    simp at hs
  · intro h
    refine (driftsLittle_of_clear ?_).keepsHoles ho
    intro c hc p hp
    obtain ⟨e, he, hl⟩ := hleft c hc p hp
    refine ⟨e, he, hl, ?_⟩
    rcases h with haxial | htwo
    · exact .inl ((haxial e he).vertical hl)
    · -- At most two holes leave room for one slit, which is off by one half at most.
      have hpos := hl.lt
      have htwo' : (holes.countP (!·.isEmpty) : ℚ) ≤ 2 := by exact_mod_cast htwo
      exact .inr (by linarith)

/-- Two holes to the right of a sloped edge are kept. -/
theorem keepsHoles_two :
    KeepsHoles (.closedOf [⟨4, 0⟩, ⟨34, 0⟩, ⟨34, 35⟩, ⟨0, 35⟩])
      [.closedOf [⟨2, 25⟩, ⟨10, 25⟩, ⟨10, 26⟩], .closedOf [⟨1, 30⟩, ⟨10, 30⟩, ⟨10, 31⟩]] :=
  (keepsHoles_of_encloses _ _ (by decide)).2.2.2 (.inr (by decide))

/-- Three holes and one sloped edge: two slits arrive on it, each rounded to the right, and the
third hole is dropped although all of its vertices are enclosed. -/
theorem exists_dropped_of_encloses :
    ∃ (outline : Contour) (holes : List Contour),
      (∀ c ∈ holes, ∀ p ∈ c.points, outline.Encloses p) ∧
      (∃ fate ∈ (ofContours outline holes).joinAll.2, fate.slit? = none) ∧
      ∃ c ∈ holes, ∃ p ∈ c.points, p ∉ (joinHoles (outline :: holes)).points := by
  refine ⟨.closedOf [⟨4, 0⟩, ⟨34, 0⟩, ⟨34, 35⟩, ⟨0, 35⟩],
    [.closedOf [⟨2, 25⟩, ⟨10, 25⟩, ⟨10, 26⟩], .closedOf [⟨2, 18⟩, ⟨10, 18⟩, ⟨10, 19⟩],
      .closedOf [⟨1, 30⟩, ⟨10, 30⟩, ⟨10, 31⟩]], by decide, ?_,
    .closedOf [⟨2, 18⟩, ⟨10, 18⟩, ⟨10, 19⟩], by decide, ⟨2, 18⟩, by decide, by decide +kernel⟩
  simp only [← Option.isNone_iff_eq_none, ← List.any_eq_true]
  decide +kernel

end RingTable

end GridGeometry
