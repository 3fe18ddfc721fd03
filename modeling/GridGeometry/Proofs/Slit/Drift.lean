import GridGeometry.Proofs.Slit.Rounding
import GridGeometry.Proofs.Slit.Run

/-!
# Drift

Every slit splits an edge at a point that is rounded to the grid, so the two parts may stand beside
the edge. Slits that arrive on the parts split them again, and what is left of an edge drifts away
from where it was. `EdgeParts` keeps account of the parts of one edge, and `Tracks` is the invariant
of a run: at every height that the edge reaches there is a part no further off than the errors of
the slits on its parts add up to.
-/

namespace GridGeometry

/-- How far from the exact meeting point a slit arrives. A horizontal edge is met exactly. -/
def Slit.error (s : Slit) : ℚ :=
  if s.split.start.y = s.split.stop.y then 0
  else |s.arrival.x - (⟨s.split.start, s.split.stop⟩ : Segment).crossingX s.start.y|

theorem Slit.error_nonneg (s : Slit) : 0 ≤ s.error := by
  rw [Slit.error]
  split
  · exact le_refl 0
  · exact abs_nonneg _

/-- **A slit arrives within one half of the exact meeting point.** -/
theorem Slit.Meets.error_le {s : Slit} (h : s.Meets) : s.error ≤ 1 / 2 := by
  rw [Slit.error]
  split
  · norm_num
  · rename_i hne
    rw [h.arrival]
    exact Segment.abs_meetingX_sub_crossingX_le (e := ⟨s.split.start, s.split.stop⟩) hne

/-! ### What a slit does to the joined edges -/

namespace RingTable

variable {t u : RingTable} {s : Slit} {a b v w : RingVertex}

/-- The slit `s` leads from `t` to `u` by splitting the joined edge from `a` to `b`. The rest of the
split edge gets the first of the new places, and all other joined edges stay. -/
structure Splits (t : RingTable) (s : Slit) (u : RingTable) (a b : RingVertex) : Prop where
  size : u.edges.size = t.edges.size + 3
  leads : t.Leads .joined a b
  target : s.target = a.place
  split : s.split = ⟨a.point, b.point, .joined, b.place⟩
  reaches : Segment.Reaches ⟨a.point, b.point⟩ s.start.y
  arrival : s.arrival = ⟨Segment.meetingX ⟨a.point, b.point⟩ s.start.y, s.start.y⟩
  keeps : ∀ v w, t.Leads .joined v w → v.place ≠ s.target → u.Leads .joined v w
  first : u.Leads .joined a ⟨t.edges.size + 1, s.arrival⟩
  rest : u.Leads .joined ⟨t.edges.size, s.arrival⟩ b

/-- A vertical edge is split where it stands. -/
theorem Splits.arrival_x (h : t.Splits s u a b) (hx : a.point.x = b.point.x) :
    s.arrival.x = a.point.x := by
  rw [h.arrival]
  exact Segment.meetingX_of_vertical hx

theorem Splits.error_eq_zero (h : t.Splits s u a b) (hx : a.point.x = b.point.x) :
    s.error = 0 := by
  rw [Slit.error, h.split]
  split
  · rfl
  · rw [h.arrival_x hx, Segment.crossingX_of_vertical hx, sub_self, abs_zero]

end RingTable

namespace Layout.Fits

variable {L : Layout} {holes : List PlacedContour} {t u : RingTable} {s : Slit} {place : Nat}
  {h : PlacedContour} {v w : RingVertex}

/-- A joined edge is not on the ring of a waiting hole. -/
theorem notMem_ring (hf : L.Fits holes t) (hn : L.Next h v) {x y : RingVertex}
    (hxy : t.Leads .joined x y) : x.place ∉ t.ring v.place := by
  rw [hf.mem_ring_iff hn.mem hn.mem_vertices]
  exact hf.notMem_of_joined hn.mem (hf.mem_joined hxy)

/-- **A hole that is joined** splits one edge. -/
theorem exists_splits (hf : L.Fits holes t) (hs : t.step? = some (u, .joined s)) :
    ∃ a b, t.Splits s u a b := by
  obtain ⟨place, p, hnext, hcases⟩ := RingTable.step?_cases hs
  obtain ⟨h, hn⟩ := hf.next_of_nextHole? hnext
  rcases hcases with ⟨s', hslit, rfl, hfate⟩ | ⟨-, -, hfate⟩
  · obtain rfl := HoleFate.joined.inj hfate
    obtain ⟨rfl, rfl, a, -, b, hab, ha⟩ := hf.arrives_of_slit? hslit
    refine ⟨a, b, RingTable.size_cut _ _, hab, ha.target, ha.split, ha.reaches, ha.arrival,
      fun v w hvw hne ↦ hvw.cut hne (hf.notMem_ring hn hvw),
      hab.cut_target ha.target.symm (hf.notMem_ring hn hab), ?_⟩
    have hnew := RingTable.getElem?_cut_new (ha.target ▸ hab.place_lt)
      (fun _ ↦ hf.lt_size_of_mem_ring hn.mem hn.mem_vertices) 0
    refine hnew.trans ?_
    simp only [Slit.edges, ha.split]
    rfl
  · simp at hfate

/-- A hole that is dropped leaves the joined edges alone. -/
theorem leads_of_dropped (hf : L.Fits holes t) (hs : t.step? = some (u, .dropped place)) :
    u.edges.size = t.edges.size ∧ ∀ v w, t.Leads .joined v w → u.Leads .joined v w := by
  obtain ⟨hole, p, hnext, hcases⟩ := RingTable.step?_cases hs
  obtain ⟨h, hn⟩ := hf.next_of_nextHole? hnext
  rcases hcases with ⟨s, -, -, hfate⟩ | ⟨-, rfl, -⟩
  · simp at hfate
  · exact ⟨RingTable.size_drop _ _, fun v w hvw ↦ hvw.drop (hf.notMem_ring hn hvw)⟩

end Layout.Fits

/-! ### The parts of an edge -/

/-- The parts into which an edge has been split by slits. -/
structure EdgeParts where
  /-- The places of the parts. -/
  places : List Nat
  /-- The size of the table. -/
  size : Nat
  /-- The errors of the slits that arrived on parts, added up. -/
  drift : ℚ

namespace EdgeParts

/-- The edge at a place, before any slit is made. -/
def whole (place size : Nat) : EdgeParts := ⟨[place], size, 0⟩

/-- The parts after one more slit. When it arrives on one of them, the rest of the split part gets
the first of the new places. -/
def add (q : EdgeParts) (s : Slit) : EdgeParts :=
  if s.target ∈ q.places then ⟨q.size :: q.places, q.size + 3, q.drift + s.error⟩
  else ⟨q.places, q.size + 3, q.drift⟩

variable {q : EdgeParts} {s : Slit}

@[simp] theorem size_add : (q.add s).size = q.size + 3 := by
  rw [add]
  split <;> rfl

theorem drift_le_add : q.drift ≤ (q.add s).drift := by
  rw [add]
  split
  · exact le_add_of_nonneg_right s.error_nonneg
  · exact le_refl _

theorem mem_add {i : Nat} :
    i ∈ (q.add s).places ↔ i ∈ q.places ∨ s.target ∈ q.places ∧ i = q.size := by
  rw [add]
  split
  · rename_i h
    rw [List.mem_cons, or_comm, and_iff_right h]
  · rename_i h
    rw [or_iff_left fun hi ↦ h hi.1]

/-- Slits within one half of the exact meeting point make the drift grow by one half each at most.
-/
theorem drift_foldl_le {slits : List Slit} (h : ∀ s ∈ slits, s.error ≤ 1 / 2) (q : EdgeParts) :
    (slits.foldl add q).drift ≤ q.drift + slits.length / 2 := by
  induction slits generalizing q with
  | nil => simp
  | cons s slits ih =>
    have hs := h s List.mem_cons_self
    have hadd : (q.add s).drift ≤ q.drift + 1 / 2 := by
      rw [add]
      split
      · exact add_le_add_right hs _
      · simp only
        linarith
    have hle := ih (fun s' hs' ↦ h s' (List.mem_cons_of_mem _ hs')) (q.add s)
    rw [List.foldl_cons, List.length_cons]
    push_cast
    linarith

end EdgeParts

/-- The table still has the parts of the edge `e`, and they are where they should be. -/
structure Tracks (e : Segment) (q : EdgeParts) (t : RingTable) : Prop where
  size : q.size = t.edges.size
  /-- Every part is a joined edge. The parts of a vertical edge stand where it stood. -/
  parts : ∀ i ∈ q.places, ∃ v w : RingVertex, v.place = i ∧ t.Leads .joined v w ∧
    (e.start.x = e.stop.x → v.point.x = e.start.x ∧ w.point.x = e.start.x)
  vertical : e.start.x = e.stop.x → q.drift = 0
  /-- At every height there is a part no further off than the drift. -/
  reaches : ∀ y, e.start.y ≠ e.stop.y → e.Reaches y → ∃ v w : RingVertex,
    v.place ∈ q.places ∧ t.Leads .joined v w ∧ v.point.y ≠ w.point.y ∧
      Segment.Reaches ⟨v.point, w.point⟩ y ∧
      |Segment.crossingX ⟨v.point, w.point⟩ y - e.crossingX y| ≤ q.drift

namespace Tracks

variable {e : Segment} {q : EdgeParts} {t u : RingTable} {s : Slit} {a b v w : RingVertex}

theorem whole (hv : t.Leads .joined v w) :
    Tracks ⟨v.point, w.point⟩ (.whole v.place t.edges.size) t where
  size := rfl
  parts i hi := by
    obtain rfl := List.mem_singleton.1 hi
    exact ⟨v, w, rfl, hv, fun hx ↦ ⟨rfl, hx.symm⟩⟩
  vertical _ := rfl
  reaches y hne hy := by
    refine ⟨v, w, List.mem_singleton.2 rfl, hv, hne, hy, ?_⟩
    rw [sub_self, abs_zero]
    exact le_refl 0

/-- Another table has the parts too if it is of the same size and has all the joined
edges. -/
theorem imp (h : Tracks e q t) (hsize : u.edges.size = t.edges.size)
    (hu : ∀ v w, t.Leads .joined v w → u.Leads .joined v w) : Tracks e q u where
  size := h.size.trans hsize.symm
  parts i hi := by
    obtain ⟨v, w, hplace, hvw, hx⟩ := h.parts i hi
    exact ⟨v, w, hplace, hu v w hvw, hx⟩
  vertical := h.vertical
  reaches y hne hy := by
    obtain ⟨v, w, hmem, hvw, hrest⟩ := h.reaches y hne hy
    exact ⟨v, w, hmem, hu v w hvw, hrest⟩

/-- The part on which a slit arrives is the edge that it splits. -/
theorem vertical_of_target (h : Tracks e q t) (hs : t.Splits s u a b) (ht : s.target ∈ q.places)
    (hv : e.start.x = e.stop.x) : a.point.x = e.start.x ∧ b.point.x = e.start.x := by
  obtain ⟨v, w, hplace, hvw, hx⟩ := h.parts _ ht
  obtain ⟨rfl, rfl⟩ := hvw.eq_of_place_eq hs.leads (hplace.trans hs.target)
  exact hx hv

/-- **A slit keeps the account of the parts.** -/
theorem add (h : Tracks e q t) (hs : t.Splits s u a b) : Tracks e (q.add s) u where
  size := by rw [EdgeParts.size_add, h.size, hs.size]
  parts i hi := by
    rcases EdgeParts.mem_add.1 hi with hi | ⟨ht, rfl⟩
    · obtain ⟨v, w, rfl, hvw, hx⟩ := h.parts i hi
      by_cases hne : v.place = s.target
      · obtain ⟨rfl, rfl⟩ := hvw.eq_of_place_eq hs.leads (hne.trans hs.target)
        refine ⟨v, _, rfl, hs.first, fun hv ↦ ⟨(hx hv).1, ?_⟩⟩
        rw [hs.arrival_x ((hx hv).1.trans (hx hv).2.symm), (hx hv).1]
      · exact ⟨v, w, rfl, hs.keeps v w hvw hne, hx⟩
    · refine ⟨_, b, h.size.symm, hs.rest, ?_⟩
      intro hv
      obtain ⟨ha, hb⟩ := h.vertical_of_target hs ht hv
      refine ⟨?_, hb⟩
      rw [hs.arrival_x (ha.trans hb.symm), ha]
  vertical hv := by
    rw [EdgeParts.add]
    split
    · rename_i ht
      obtain ⟨ha, hb⟩ := h.vertical_of_target hs ht hv
      simp only [hs.error_eq_zero (ha.trans hb.symm), h.vertical hv, add_zero]
    · exact h.vertical hv
  reaches y hne hy := by
    obtain ⟨v, w, hmem, hvw, hvy, hreach, hle⟩ := h.reaches y hne hy
    by_cases ht : v.place = s.target
    · -- The part is split: one of its two parts reaches the height.
      obtain ⟨rfl, rfl⟩ := hvw.eq_of_place_eq hs.leads (ht.trans hs.target)
      have hay : s.arrival.y = s.start.y := by rw [hs.arrival]
      obtain ⟨f, hf, hfy, hfreach, hfle⟩ := Segment.exists_part (a := s.arrival) hvy
        (hay ▸ hs.reaches) hreach
      have htarget : s.target ∈ q.places := ht ▸ hmem
      have hdrift : (q.add s).drift = q.drift + |s.arrival.x -
          (⟨v.point, w.point⟩ : Segment).crossingX s.arrival.y| := by
        rw [EdgeParts.add, if_pos htarget, Slit.error, hs.split, if_neg hvy, hay]
      have hdist : |f.crossingX y - e.crossingX y| ≤ (q.add s).drift := by
        rw [hdrift, add_comm]
        exact (abs_sub_le _ _ _).trans (add_le_add hfle hle)
      rcases hf with rfl | rfl
      · exact ⟨v, _, EdgeParts.mem_add.2 (.inl hmem), hs.first, hfy, hfreach, hdist⟩
      · exact ⟨_, w, EdgeParts.mem_add.2 (.inr ⟨htarget, h.size.symm⟩), hs.rest, hfy, hfreach,
          hdist⟩
    · exact ⟨v, w, EdgeParts.mem_add.2 (.inl hmem), hs.keeps v w hvw ht, hvy, hreach,
        hle.trans EdgeParts.drift_le_add⟩

/-- **A part that has drifted little** is still to the left of the point, and a slit arrives. -/
theorem exists_slit {L : Layout} {holes : List PlacedContour} (hf : L.Fits holes t)
    (h : Tracks e q t) {p : Point} (hs : e.Straddles p.y)
    (hlt : q.drift < p.x - e.crossingX p.y + 1 / 2) (place : Nat) :
    ∃ s, t.slit? place p = some s := by
  obtain ⟨v, w, -, hvw, hne, hreach, hle⟩ := h.reaches p.y hs.start_ne_stop hs.reaches
  have hround := Segment.abs_meetingX_sub_crossingX_le (e := ⟨v.point, w.point⟩) (y := p.y) hne
  rw [abs_le] at hle hround
  have hmeet : (Segment.meetingX ⟨v.point, w.point⟩ p.y : ℚ) < p.x + 1 := by
    linarith [hle.2, hround.2]
  have hmeet' : Segment.meetingX ⟨v.point, w.point⟩ p.y ≤ p.x :=
    Int.le_of_lt_add_one (by exact_mod_cast hmeet)
  rw [← Option.ne_none_iff_exists', ne_eq, hf.slit?_eq_none_iff]
  have hmem : (⟨v.point, w.point⟩ : Segment) ∈ L.joinedEdges :=
    hf.joined.mem_cycle.2 ⟨v, hf.mem_joined hvw, w, hvw, rfl⟩
  intro hall
  exact absurd (hall _ hmem hreach) (not_lt_of_ge hmeet')

end Tracks

/-! ### Along a run -/

/-- The parts of the edge at place `i` of a table of `size` edges when its holes have had these
fates. -/
def EdgeParts.after (i size : Nat) (fates : List HoleFate) : EdgeParts :=
  (fates.filterMap HoleFate.slit?).foldl add (whole i size)

namespace RingTable

variable {outline : Contour} {holes : List Contour} {t : RingTable} {fates : List HoleFate}
  {e : Segment} {i : Nat}

/-- Before any slit is made, every edge of the outline is whole. -/
theorem tracks_ofContours (holes : List Contour)
    (he : (Contour.cycle outline.points)[i]? = some e) :
    Tracks e (.whole i (ofContours outline holes).edges.size) (ofContours outline holes) := by
  have hi : i < outline.size := by
    simpa [Contour.size] using (List.getElem?_eq_some_iff.1 he).1
  have hleads : (ofContours outline holes).Leads .joined ⟨i, e.start⟩
      ⟨(i + 1) % outline.points.length, e.stop⟩ := by
    rw [Leads, Layout.getElem?_ofContours outline holes hi, ringEdges]
    simp [List.getElem?_zipIdx, he]
  exact Tracks.whole hleads

/-- **The edges of the outline are tracked through every run.** -/
theorem Reaches.tracks (he : (Contour.cycle outline.points)[i]? = some e)
    (h : (ofContours outline holes).Reaches t fates) :
    Tracks e (.after i (ofContours outline holes).edges.size fates) t := by
  induction h with
  | refl => exact tracks_ofContours holes he
  | @step u v fates fate hreach _ hs ih =>
    obtain ⟨L, -, hf, -⟩ := Layout.exists_account holes hreach
    rw [EdgeParts.after, List.filterMap_append, List.foldl_append]
    cases fate with
    | joined s =>
      obtain ⟨a, b, hsplits⟩ := hf.exists_splits hs
      exact ih.add hsplits
    | dropped place =>
      obtain ⟨hsize, hleads⟩ := hf.leads_of_dropped hs
      exact ih.imp hsize hleads

/-- All slits arrive within one half of the exact meeting point. -/
theorem Reaches.error_le (h : (ofContours outline holes).Reaches t fates) :
    ∀ s ∈ fates.filterMap HoleFate.slit?, s.error ≤ 1 / 2 :=
  fun s hs ↦ (h.meets s hs).error_le

end RingTable

end GridGeometry
