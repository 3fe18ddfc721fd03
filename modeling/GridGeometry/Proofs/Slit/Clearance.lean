import GridGeometry.Proofs.Slit.Rounding
import GridGeometry.Proofs.Slit.Run

/-!
# What a slit stays clear of

A slit runs to the left from the leftmost vertex of all holes that are still waiting, so it meets
none of them, nor the hole that it joins. On the way it passes no joined edge either, except for
what rounding hides: an edge that is met exactly to the right of where the slit arrives is at most
one half away from there (`RingTable.slit_clear`).

Which holes are waiting is told by the fates so far: a hole that no fate is about has not been
looked at (`Layout.Reaches.mem_waiting`).
-/

namespace GridGeometry

/-- A place of the hole that the fate is about. -/
def HoleFate.place : HoleFate → Nat
  | .joined s => s.hole
  | .dropped hole => hole

/-! ### Holes that have not been looked at -/

namespace Layout

variable {L M : Layout} {fate : HoleFate} {fates : List HoleFate} {h h' : PlacedContour}
  {v : RingVertex}

theorem Next.place_mem (hn : L.Next h v) : v.place ∈ h.places :=
  h.map_place_vertices ▸ List.mem_map_of_mem hn.mem_vertices

/-- A step takes away only the hole that its fate is about. -/
theorem Step.mem_waiting (hs : L.Step fate M) (hh : h ∈ L.waiting) (hfate : fate.place ∉ h.places) :
    h ∈ M.waiting := by
  have hne : ∀ {h' : PlacedContour}, fate.place ∈ h'.places → h ≠ h' := by
    rintro h' hmem rfl
    exact hfate hmem
  cases hs with
  | join hj hn ha => exact (List.mem_erase_of_ne (hne hn.place_mem)).2 hh
  | drop hn hnone => exact (List.mem_erase_of_ne (hne hn.place_mem)).2 hh

/-- **A hole that no fate is about** is still waiting. -/
theorem Reaches.mem_waiting (hr : L.Reaches fates M) (hh : h ∈ L.waiting)
    (hfates : ∀ fate ∈ fates, fate.place ∉ h.places) : h ∈ M.waiting := by
  induction hr with
  | refl => exact hh
  | step _ hs ih =>
    rw [List.forall_mem_append] at hfates
    exact hs.mem_waiting (ih hfates.1) (hfates.2 _ (List.mem_singleton.2 rfl))

end Layout

/-! ### Exact crossings beside a slit -/

/-- **Rounding hides one half.** An edge that is met no further to the right than `a`, or to the
right of `x`, does not cross the height strictly between them, if one half is left out behind
`a`. -/
theorem Segment.not_crossing_between {e : Segment} {y a x : Int} (he : e.start.y ≠ e.stop.y)
    (hle : e.meetingX y ≤ x → e.meetingX y ≤ a) :
    ¬ ((a : ℚ) + 1 / 2 < e.crossingX y ∧ e.crossingX y < x) := by
  have hround := abs_le.1 (abs_meetingX_sub_crossingX_le (y := y) he)
  rintro ⟨hleft, hright⟩
  rcases lt_or_ge x (e.meetingX y) with hbeyond | hup
  · have hbeyond' : (x : ℚ) + 1 ≤ e.meetingX y := by exact_mod_cast hbeyond
    linarith [hround.2]
  · have hup' : (e.meetingX y : ℚ) ≤ a := by exact_mod_cast hle hup
    linarith [hround.1]

namespace RingTable

variable {outline : Contour} {holes : List Contour} {t u : RingTable} {fates : List HoleFate}
  {s : Slit}

/-- No joined edge crosses the height of a slit between its ends, but for one half. -/
theorem Nearest.not_crossing_between (hn : t.Nearest s) {i : Nat} {e : RingEdge}
    (hi : t.edges[i]? = some e) (hstate : e.state = .joined) (hy : e.start.y ≠ e.stop.y)
    (hr : e.Reaches s.start.y) :
    ¬ ((s.arrival.x : ℚ) + 1 / 2 < (⟨e.start, e.stop⟩ : Segment).crossingX s.start.y ∧
      (⟨e.start, e.stop⟩ : Segment).crossingX s.start.y < s.start.x) := by
  refine Segment.not_crossing_between hy fun hle ↦ ?_
  exact (hn.least i e hi hstate hr hle).elim Int.le_of_lt fun h ↦ Int.le_of_eq h.1

/-- **A slit stays clear.** Whatever the contours are and at every turn at which a slit is made: the
slit is horizontal and runs to the left. No vertex of a hole that has not been looked at lies
further to the left than it begins. And no joined edge that reaches its height without being
horizontal crosses that height strictly between where the slit begins and one half to the right of
where it arrives. -/
theorem slit_clear (h : (ofContours outline holes).Reaches t fates)
    (hs : t.step? = some (u, .joined s)) :
    s.arrival.y = s.start.y ∧ s.arrival.x ≤ s.start.x ∧
    (∀ c ∈ placeContours outline.size holes, (∀ fate ∈ fates, fate.place ∉ c.places) →
      ∀ p ∈ c.contour.points, s.start.x ≤ p.x) ∧
    ∀ (i : Nat) (e : RingEdge), t.edges[i]? = some e → e.state = .joined → e.start.y ≠ e.stop.y →
      e.Reaches s.start.y →
        ¬ ((s.arrival.x : ℚ) + 1 / 2 < (⟨e.start, e.stop⟩ : Segment).crossingX s.start.y ∧
          (⟨e.start, e.stop⟩ : Segment).crossingX s.start.y < s.start.x) := by
  obtain ⟨hnext, hnearest⟩ := slit_of_step? hs
  obtain ⟨L, hreach, hf, -⟩ := Layout.exists_account holes h
  obtain ⟨hole, hn⟩ := hf.next_of_nextHole? hnext
  refine ⟨by rw [hnearest.arrival], hnearest.arrival_le, fun c hc hfates p hp ↦ ?_,
    fun i e hi hstate hy hr ↦ hnearest.not_crossing_between hi hstate hy hr⟩
  have hinitial : c ∈ (Layout.initial outline holes).waiting :=
    List.mem_filter.2 ⟨hc, by simpa [Contour.isEmpty] using List.ne_nil_of_mem hp⟩
  rw [← c.map_point_vertices] at hp
  obtain ⟨w, hw, rfl⟩ := List.mem_map.1 hp
  exact hn.least c (hreach.mem_waiting hinitial hfates) w hw

/-- The second of two holes in a trapezium with a sloped side. Its slit arrives on what the first
one has left of that side, at `⟨2, 18⟩`, and the side crosses that height one fifth to the right. -/
theorem slit_clear_second :
    ∃ (t u : RingTable) (fate : HoleFate) (s : Slit),
      (ofContours (.closedOf [⟨4, 0⟩, ⟨34, 0⟩, ⟨34, 35⟩, ⟨0, 35⟩])
        [.closedOf [⟨5, 18⟩, ⟨10, 18⟩, ⟨10, 19⟩],
          .closedOf [⟨3, 30⟩, ⟨10, 30⟩, ⟨10, 31⟩]]).Reaches t [fate] ∧
      t.step? = some (u, .joined s) ∧ s.start = ⟨5, 18⟩ ∧ s.arrival = ⟨2, 18⟩ ∧
      ∀ (i : Nat) (e : RingEdge), t.edges[i]? = some e → e.state = .joined →
        e.start.y ≠ e.stop.y → e.Reaches s.start.y →
          ¬ ((s.arrival.x : ℚ) + 1 / 2 < (⟨e.start, e.stop⟩ : Segment).crossingX s.start.y ∧
            (⟨e.start, e.stop⟩ : Segment).crossingX s.start.y < s.start.x) := by
  set t₀ := ofContours (.closedOf [⟨4, 0⟩, ⟨34, 0⟩, ⟨34, 35⟩, ⟨0, 35⟩])
    [.closedOf [⟨5, 18⟩, ⟨10, 18⟩, ⟨10, 19⟩], .closedOf [⟨3, 30⟩, ⟨10, 30⟩, ⟨10, 31⟩]]
  have hsecond : (t₀.step?.bind fun first ↦ first.1.step?.bind fun second ↦
      second.2.slit?.map fun s ↦ (s.start, s.arrival)) = some (⟨5, 18⟩, ⟨2, 18⟩) := by
    decide +kernel
  simp only [Option.bind_eq_some_iff, Option.map_eq_some_iff, Prod.mk.injEq] at hsecond
  obtain ⟨⟨t, fate⟩, hfirst, ⟨u, fate'⟩, hstep, s, hslit, hstart, harrival⟩ := hsecond
  obtain rfl : fate' = .joined s := by
    cases fate' with
    | joined s' => exact congrArg _ (Option.some.inj hslit)
    | dropped => simp [HoleFate.slit?] at hslit
  have hreach : t₀.Reaches t [fate] := Reaches.refl.step (by decide +kernel) hfirst
  exact ⟨t, u, fate, s, hreach, hstep, hstart, harrival, (slit_clear hreach hstep).2.2.2⟩

end RingTable

end GridGeometry
