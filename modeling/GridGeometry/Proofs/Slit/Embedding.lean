import GridGeometry.Proofs.Contour.Translation
import GridGeometry.Proofs.Slit.Run

/-!
# Tables inside larger tables

A table is found again in another one when its edges appear there at other places and moved by one
displacement, and whatever is joined in the larger table is one of these edges. The places need not
be in a row, but they come in the same order. That is enough for every choice that is made while
holes are joined, as all of them go by differences of coordinates first and by places second: the
larger table makes the choice of the smaller one, or it looks at a hole that the smaller one does
not have. In the second case it gives the hole up, as long as it joins no such hole at all, and the
smaller table waits.

## Main statements

* `RingTable.Embeds`: a table is found in another one.
* `Embeds.step`: a step of the larger table is a step of the smaller one, or passes it by.
* `Embeds.joinAll`: so the joined rings agree in the end.
-/

namespace GridGeometry

/-! ### Edges and slits moved to other places -/

namespace RingEdge

variable {e : RingEdge} {ρ : Nat → Nat} {d : Point} {y : Int}

/-- The edge moved by `d`, where the place `i` has become the place `ρ i`. -/
def moved (ρ : Nat → Nat) (d : Point) (e : RingEdge) : RingEdge :=
  ⟨e.start.translate d, e.stop.translate d, e.state, ρ e.next⟩

theorem reaches_moved : (e.moved ρ d).Reaches (y + d.y) ↔ e.Reaches y := by
  unfold Reaches moved
  simp only [Point.translate_y]
  omega

/-- **Rounding is relative**: a moved edge meets a moved height where it did, moved. -/
theorem meetingX_moved (e : RingEdge) (ρ : Nat → Nat) (d : Point) (y : Int) :
    (e.moved ρ d).meetingX (y + d.y) = e.meetingX y + d.x := by
  unfold meetingX moved
  simp only [Point.translate_x, Point.translate_y, Int.add_left_inj, Int.add_sub_add_right]
  split
  · omega
  · omega

end RingEdge

/-- The slit moved by `d`, where the place `i` has become the place `ρ i`. -/
def Slit.moved (ρ : Nat → Nat) (d : Point) (s : Slit) : Slit :=
  ⟨ρ s.hole, s.start.translate d, ρ s.target, s.split.moved ρ d, s.arrival.translate d⟩

/-! ### Steps of one table -/

/-- The walk around the next hole comes back. -/
theorem Layout.Fits.returns_nextHole? {L : Layout} {holes : List PlacedContour} {t : RingTable}
    {i : Nat} {p : Point} (hf : L.Fits holes t) (hn : t.nextHole? = some (i, p)) :
    t.Returns i i (t.ring i).tail := by
  obtain ⟨h, hnext⟩ := hf.next_of_nextHole? hn
  exact hf.returns_ring hnext.mem hnext.mem_vertices

/-- A step is taken only while an edge is waiting. -/
theorem Layout.Fits.joinAll_of_step? {L : Layout} {holes : List PlacedContour} {t t' : RingTable}
    {fate : HoleFate} (hf : L.Fits holes t) (hs : t.step? = some (t', fate)) :
    t.joinAll.1 = t'.joinAll.1 := by
  have hpos : 0 < t.waiting := by
    obtain ⟨i, p, hn, -⟩ := RingTable.step?_cases hs
    obtain ⟨h, hnext⟩ := hf.next_of_nextHole? hn
    by_contra hzero
    have hmem := hnext.mem
    rw [hf.waiting_eq_nil (Nat.eq_zero_of_not_pos hzero)] at hmem
    exact List.not_mem_nil hmem
  rw [RingTable.joinAll, dif_pos hpos]
  split
  case h_1 u fate' hs' =>
    obtain ⟨rfl, -⟩ := Prod.mk.inj (Option.some.inj (hs.symm.trans hs'))
    rfl
  case h_2 hnone =>
    rw [hs] at hnone
    simp at hnone

namespace RingTable

/-- The table `u` is found in the table `t`: its edge at place `i` is at place `ρ i`, moved by `d`,
and nothing else is joined there. New edges will be put behind the others in both. -/
structure Embeds (u : RingTable) (ρ : Nat → Nat) (d : Point) (t : RingTable) : Prop where
  strictMono : StrictMono ρ
  behind : ∀ k, ρ (u.edges.size + k) = t.edges.size + k
  edge : ∀ i, t.edges[ρ i]? = u.edges[i]?.map (RingEdge.moved ρ d)
  joined : ∀ j e, t.edges[j]? = some e → e.state = .joined → ∃ i, ρ i = j
  entry : ∀ i, ρ i ∈ t.entries ↔ i ∈ u.entries
  ordered : u.entries.Pairwise (· < ·)
  ordered' : t.entries.Pairwise (· < ·)

variable {t u t' : RingTable} {ρ : Nat → Nat} {d p q : Point} {i j hole : Nat} {s : Slit}
  {places : List Nat}

/-! ### The choices of a table -/

/-- The next hole begins at the entry furthest to the left that is waiting, the first of these. -/
theorem nextHole?_eq_some_iff (ht : t.entries.Pairwise (· < ·)) :
    t.nextHole? = some (i, p) ↔ (i ∈ t.entries ∧ t.waitingStart? i = some p) ∧
      ∀ j q, j ∈ t.entries → t.waitingStart? j = some q → p.x < q.x ∨ p.x = q.x ∧ i ≤ j := by
  have hmem : ∀ j q, (j, q) ∈ t.entries.filterMap (fun i ↦ (t.waitingStart? i).map (i, ·)) ↔
      j ∈ t.entries ∧ t.waitingStart? j = some q := by
    intro j q
    simp only [List.mem_filterMap, Option.map_eq_some_iff, Prod.mk.injEq]
    constructor
    · rintro ⟨k, hk, q', hq', rfl, rfl⟩
      exact ⟨hk, hq'⟩
    · rintro ⟨hj, hq⟩
      exact ⟨j, hj, q, hq, rfl, rfl⟩
  have hordered : (t.entries.filterMap fun i ↦ (t.waitingStart? i).map (i, ·)).Pairwise
      fun a b ↦ a.1 < b.1 := by
    refine ht.filterMap _ fun i j hij a ha b hb ↦ ?_
    obtain ⟨-, -, rfl⟩ := Option.map_eq_some_iff.1 ha
    obtain ⟨-, -, rfl⟩ := Option.map_eq_some_iff.1 hb
    exact hij
  rw [nextHole?, minOn?_eq_some_iff hordered, hmem]
  simp only [Prod.forall, hmem, and_imp]

/-! ### Walks -/

/-- A walk that comes back has one list only. -/
theorem Returns.unique {start e : Nat} {l m : List Nat} (hl : t.Returns start e l)
    (hm : t.Returns start e m) : l = m := by
  induction hl generalizing m with
  | back he hn =>
    cases hm with
    | back => rfl
    | on he' hn' =>
      obtain rfl := Option.some.inj (he.symm.trans he')
      exact absurd hn hn'
  | on he hn _ ih =>
    cases hm with
    | back he' hn' =>
      obtain rfl := Option.some.inj (he.symm.trans he')
      exact absurd hn' hn
    | on he' _ hm =>
      obtain rfl := Option.some.inj (he.symm.trans he')
      rw [ih hm]

namespace Embeds

theorem lt_size_iff (h : u.Embeds ρ d t) : ρ i < t.edges.size ↔ i < u.edges.size := by
  have hbehind := h.behind 0
  rw [Nat.add_zero, Nat.add_zero] at hbehind
  rw [← hbehind, h.strictMono.lt_iff_lt]

/-- A walk in the smaller table is a walk in the larger one. -/
theorem returns (h : u.Embeds ρ d t) {start e : Nat} (hw : u.Returns start e places) :
    t.Returns (ρ start) (ρ e) (places.map ρ) := by
  induction hw with
  | back he hn =>
    refine .back (by rw [h.edge, he, Option.map_some]) ?_
    exact congrArg ρ hn
  | on he hn _ ih =>
    exact .on (by rw [h.edge, he, Option.map_some])
      (fun heq ↦ hn (h.strictMono.injective heq)) ih

theorem ring_eq (h : u.Embeds ρ d t) (hu : u.Returns i i (u.ring i).tail)
    (ht : t.Returns (ρ i) (ρ i) (t.ring (ρ i)).tail) : t.ring (ρ i) = (u.ring i).map ρ :=
  congrArg (ρ i :: ·) (ht.unique (h.returns hu))

theorem ringPoints_eq (h : u.Embeds ρ d t) (hu : u.Returns i i (u.ring i).tail)
    (ht : t.Returns (ρ i) (ρ i) (t.ring (ρ i)).tail) :
    t.ringPoints (ρ i) = (u.ringPoints i).map fun p ↦ p.translate d := by
  rw [ringPoints, h.ring_eq hu ht, List.filterMap_map, ringPoints, List.map_filterMap]
  refine List.filterMap_congr fun j _ ↦ ?_
  rw [Function.comp_apply, h.edge, Option.map_map, Option.map_map]
  rfl

/-- A walk of the larger table that meets the smaller one comes back in it. -/
theorem exists_of_returns (h : u.Embeds ρ d t) {start e : Nat} (hw : t.Returns start e places)
    (hmem : ∃ i, ρ i ∈ e :: places) : ∃ i, ρ i = start := by
  have hnext : ∀ {e : Nat} {edge : RingEdge}, t.edges[e]? = some edge → (∃ i, ρ i = e) →
      ∃ i, ρ i = edge.next := by
    rintro _ edge he ⟨i, rfl⟩
    rw [h.edge, Option.map_eq_some_iff] at he
    obtain ⟨edge', -, rfl⟩ := he
    exact ⟨edge'.next, rfl⟩
  induction hw with
  | back he hn =>
    obtain ⟨i, hi⟩ := hmem
    exact hn ▸ hnext he ⟨i, List.mem_singleton.1 hi⟩
  | on he hn _ ih =>
    obtain ⟨i, hi⟩ := hmem
    rcases List.mem_cons.1 hi with hi | hi
    · obtain ⟨k, hk⟩ := hnext he ⟨i, hi⟩
      exact ih ⟨k, hk ▸ List.mem_cons_self⟩
    · exact ih ⟨i, hi⟩

/-! ### The choices agree -/

theorem waitingStart?_eq (h : u.Embeds ρ d t) (i : Nat) :
    t.waitingStart? (ρ i) = (u.waitingStart? i).map fun p ↦ p.translate d := by
  unfold waitingStart?
  rw [h.edge]
  rcases u.edges[i]? with - | e
  · rfl
  · show (if e.state = .waiting then some (e.start.translate d) else none) = _
    dsimp only
    split <;> rfl

/-- When the larger table chooses a hole of the smaller one, so does that. -/
theorem exists_nextHole? (h : u.Embeds ρ d t) (hn : t.nextHole? = some (ρ i, q)) :
    ∃ p, u.nextHole? = some (i, p) ∧ q = p.translate d := by
  obtain ⟨⟨hi, hq⟩, hleast⟩ := (nextHole?_eq_some_iff h.ordered').1 hn
  rw [h.waitingStart?_eq, Option.map_eq_some_iff] at hq
  obtain ⟨p, hp, rfl⟩ := hq
  refine ⟨p, (nextHole?_eq_some_iff h.ordered).2 ⟨⟨(h.entry i).1 hi, hp⟩, ?_⟩, rfl⟩
  intro j q hj hjq
  have hle := hleast (ρ j) (q.translate d) ((h.entry j).2 hj) (by rw [h.waitingStart?_eq, hjq]; rfl)
  rw [h.strictMono.le_iff_le] at hle
  simp only [Point.translate_x] at hle
  omega

/-- The edges to the left of a moved point are those to the left of the point, moved. -/
theorem edgesLeftOf_eq (h : u.Embeds ρ d t) (p : Point) :
    t.edgesLeftOf (p.translate d) =
      (u.edgesLeftOf p).map fun (i, e, x) ↦ (ρ i, e.moved ρ d, x + d.x) := by
  have hle : ∀ e : RingEdge, (e.moved ρ d).meetingX (p.y + d.y) ≤ p.x + d.x ↔
      e.meetingX p.y ≤ p.x := by
    intro e
    rw [RingEdge.meetingX_moved]
    omega
  refine eq_of_pairwise_of_mem_iff (r := fun a b ↦ a.1 < b.1) (fun a b ↦ Nat.lt_asymm)
    (t.pairwise_edgesLeftOf _) ?_ fun ⟨j, f, x⟩ ↦ ?_
  · exact List.pairwise_map.2 ((u.pairwise_edgesLeftOf p).imp fun {a b} hab ↦ h.strictMono hab)
  · simp only [List.mem_map, Prod.exists, mem_edgesLeftOf, Prod.mk.injEq, Point.translate_x,
      Point.translate_y]
    constructor
    · rintro ⟨hj, hstate, hreach, hx, rfl⟩
      obtain ⟨i, rfl⟩ := h.joined j f hj hstate
      rw [h.edge, Option.map_eq_some_iff] at hj
      obtain ⟨e, he, rfl⟩ := hj
      exact ⟨i, e, e.meetingX p.y, ⟨he, hstate, RingEdge.reaches_moved.1 hreach, (hle e).1 hx, rfl⟩,
        rfl, rfl, (e.meetingX_moved ρ d p.y).symm⟩
    · rintro ⟨i, e, x', ⟨he, hstate, hreach, hx, rfl⟩, rfl, rfl, rfl⟩
      exact ⟨by rw [h.edge, he, Option.map_some], hstate, RingEdge.reaches_moved.2 hreach,
        (hle e).2 hx, (e.meetingX_moved ρ d p.y).symm⟩

/-- **The slit of the larger table** is that of the smaller one, moved. -/
theorem slit?_eq (h : u.Embeds ρ d t) (i : Nat) (p : Point) :
    t.slit? (ρ i) (p.translate d) = (u.slit? i p).map (Slit.moved ρ d) := by
  have hdist : (fun b : Nat × RingEdge × Int ↦ (p.translate d).x - (b.2.2 + d.x)) =
      fun b ↦ p.x - b.2.2 := funext fun b ↦ Int.add_sub_add_right _ _ _
  rw [slit?, nearestLeftOf?, h.edgesLeftOf_eq, minOn?_map, Option.map_map, slit?, Option.map_map]
  show (List.minOn? (fun b : Nat × RingEdge × Int ↦ (p.translate d).x - (b.2.2 + d.x)) _).map _ = _
  rw [hdist]
  rfl

/-! ### The edits agree -/

/-- Edges behind the others stay behind the others. -/
theorem getElem?_append (h : u.Embeds ρ d t) (s : Slit) (i : Nat) :
    (t.edges ++ ((s.moved ρ d).edges t.edges.size).toArray)[ρ i]? =
      (u.edges ++ (s.edges u.edges.size).toArray)[i]?.map (RingEdge.moved ρ d) := by
  rcases Nat.lt_or_ge i u.edges.size with hi | hi
  · rw [Array.getElem?_append_left (h.lt_size_iff.2 hi), Array.getElem?_append_left hi, h.edge]
  · obtain ⟨k, rfl⟩ := Nat.exists_eq_add_of_le hi
    rw [h.behind, Array.getElem?_append_right (Nat.le_add_right _ _),
      Array.getElem?_append_right (Nat.le_add_right _ _), Nat.add_sub_cancel_left,
      Nat.add_sub_cancel_left, List.getElem?_toArray, List.getElem?_toArray, ← List.getElem?_map]
    have hbase : ρ u.edges.size = t.edges.size := h.behind 0
    have hedges : (s.moved ρ d).edges t.edges.size =
        (s.edges u.edges.size).map (RingEdge.moved ρ d) := by
      simp only [Slit.edges, Slit.moved, List.map_cons, List.map_nil, RingEdge.moved, hbase]
    rw [hedges]

/-- **Making the same slit** in both tables. -/
theorem cut (h : u.Embeds ρ d t) (hring : t.ring (ρ s.hole) = (u.ring s.hole).map ρ) :
    (u.cut s).Embeds ρ d (t.cut (s.moved ρ d)) where
  strictMono := h.strictMono
  behind k := by
    rw [size_cut, size_cut, Nat.add_assoc, Nat.add_assoc, h.behind]
  edge i := by
    have hring' : t.ring (s.moved ρ d).hole = (u.ring s.hole).map ρ := hring
    have htarget : ρ i = (s.moved ρ d).target ↔ i = s.target := h.strictMono.injective.eq_iff
    have hmem : ρ i ∈ (u.ring s.hole).map ρ ↔ i ∈ u.ring s.hole :=
      List.mem_map_of_injective h.strictMono.injective
    have hlast : ρ i = ((u.ring s.hole).map ρ).getLastD (s.moved ρ d).hole ↔
        i = (u.ring s.hole).getLastD s.hole := by
      have hmap : ((u.ring s.hole).map ρ).getLastD (ρ s.hole) =
          ρ ((u.ring s.hole).getLastD s.hole) := by
        rw [List.getLastD_eq_getLast?, List.getLast?_map, List.getLastD_eq_getLast?]
        cases (u.ring s.hole).getLast? <;> rfl
      exact (Eq.congr_right hmap).trans h.strictMono.injective.eq_iff
    rw [getElem?_cut, getElem?_cut, h.getElem?_append, hring', Option.map_map, Option.map_map]
    refine congrArg (Option.map · _) (funext fun e ↦ ?_)
    simp only [Function.comp_apply, htarget, hmem, hlast, RingEdge.moved]
    split_ifs <;> simp only [Slit.moved, h.behind]
  joined j e he hstate := by
    have hring' : t.ring (s.moved ρ d).hole = (u.ring s.hole).map ρ := hring
    rw [getElem?_cut, Option.map_eq_some_iff] at he
    obtain ⟨f, hf, rfl⟩ := he
    by_cases hmem : j ∈ t.ring (s.moved ρ d).hole
    · rw [hring'] at hmem
      obtain ⟨i, -, hi⟩ := List.mem_map.1 hmem
      exact ⟨i, hi⟩
    · -- Off the hole, what is joined now was joined before or is new.
      have hstate' : f.state = .joined := by
        simp only [if_neg hmem] at hstate
        split_ifs at hstate <;> exact hstate
      rcases Nat.lt_or_ge j t.edges.size with hj | hj
      · rw [Array.getElem?_append_left hj] at hf
        exact h.joined j f hf hstate'
      · obtain ⟨k, rfl⟩ := Nat.exists_eq_add_of_le hj
        exact ⟨_, h.behind k⟩
  entry := h.entry
  ordered := h.ordered
  ordered' := h.ordered'

/-- Giving up the same hole in both tables. -/
theorem drop (h : u.Embeds ρ d t) (hring : t.ring (ρ hole) = (u.ring hole).map ρ) :
    (u.drop hole).Embeds ρ d (t.drop (ρ hole)) where
  strictMono := h.strictMono
  behind k := by
    rw [size_drop, size_drop, h.behind]
  edge i := by
    have hmem : ρ i ∈ (u.ring hole).map ρ ↔ i ∈ u.ring hole :=
      List.mem_map_of_injective h.strictMono.injective
    rw [getElem?_drop, getElem?_drop, h.edge, hring, Option.map_map, Option.map_map]
    refine congrArg (Option.map · _) (funext fun e ↦ ?_)
    simp only [Function.comp_apply, hmem, RingEdge.moved]
    split_ifs <;> rfl
  joined j e he hstate := by
    rw [getElem?_drop, Option.map_eq_some_iff] at he
    obtain ⟨f, hf, rfl⟩ := he
    split at hstate
    · simp at hstate
    · exact h.joined j f hf hstate
  entry := h.entry
  ordered := h.ordered
  ordered' := h.ordered'

/-- Giving up a hole that the smaller table does not have. -/
theorem drop_of_forall_ne (h : u.Embeds ρ d t) (hout : ∀ i, ρ i ∉ t.ring hole) :
    u.Embeds ρ d (t.drop hole) where
  strictMono := h.strictMono
  behind k := by
    rw [size_drop, h.behind]
  edge i := by
    rw [getElem?_drop]
    simp only [if_neg (hout i), Option.map_id_fun', id_eq, h.edge]
  joined j e he hstate := by
    rw [getElem?_drop, Option.map_eq_some_iff] at he
    obtain ⟨f, hf, rfl⟩ := he
    split at hstate
    · simp at hstate
    · exact h.joined j f hf hstate
  entry := h.entry
  ordered := h.ordered
  ordered' := h.ordered'

/-! ### Steps and runs agree -/

variable {L M : Layout} {holes holes' : List PlacedContour} {fate : HoleFate}

/-- **A step of the larger table** is a step of the smaller one for the same hole, or gives up a
hole that the smaller one does not have. -/
theorem step (h : u.Embeds ρ d t) (hu : M.Fits holes' u) (ht : L.Fits holes t)
    (hs : t.step? = some (t', fate)) (hin : ∀ s, fate = .joined s → ∃ i, ρ i = s.hole) :
    (∃ u' fate', u.step? = some (u', fate') ∧ u'.Embeds ρ d t') ∨ u.Embeds ρ d t' := by
  obtain ⟨j, q, hn, hcases⟩ := step?_cases hs
  have hwalk := ht.returns_nextHole? hn
  by_cases hj : ∃ i, ρ i = j
  · obtain ⟨i, rfl⟩ := hj
    obtain ⟨p, hnu, rfl⟩ := h.exists_nextHole? hn
    have hring := h.ring_eq (hu.returns_nextHole? hnu) hwalk
    rw [h.slit?_eq] at hcases
    refine .inl ?_
    rcases hcases with ⟨s', hs', rfl, rfl⟩ | ⟨hnone, rfl, rfl⟩
    · obtain ⟨s, hslit, rfl⟩ := Option.map_eq_some_iff.1 hs'
      obtain rfl : s.hole = i := (hu.arrives_of_slit? hslit).1
      exact ⟨u.cut s, .joined s, by simp only [step?, hnu, hslit], h.cut hring⟩
    · have hslit := Option.map_eq_none_iff.1 hnone
      exact ⟨u.drop i, .dropped i, by simp only [step?, hnu, hslit], h.drop hring⟩
  · refine .inr ?_
    rcases hcases with ⟨s, hslit, -, rfl⟩ | ⟨-, rfl, -⟩
    · obtain rfl : s.hole = j := (ht.arrives_of_slit? hslit).1
      exact absurd (hin s rfl) hj
    · exact h.drop_of_forall_ne fun i hi ↦ hj (h.exists_of_returns hwalk ⟨i, hi⟩)

/-- The smaller table has an edge waiting only if the larger one has. -/
theorem waiting_eq_zero (h : u.Embeds ρ d t) (hu : M.Fits holes' u) (ht : L.Fits holes t)
    (hzero : t.waiting = 0) : u.waiting = 0 := by
  have hcount := ht.countP_waiting
  rw [hzero, Array.countP_eq_zero] at hcount
  rw [← hu.countP_waiting, Array.countP_eq_zero]
  intro e he hstate
  obtain ⟨i, hi⟩ := Array.mem_iff_getElem?.1 he
  have hmem : t.edges[ρ i]? = some (e.moved ρ d) := by rw [h.edge, hi, Option.map_some]
  exact hcount _ (Array.mem_of_getElem? hmem) hstate

/-- **When all holes have been looked at**, the smaller table is found in the larger one, as long as
the larger one has joined no hole that the smaller one does not have. -/
theorem joinAll (h : u.Embeds ρ d t) (hu : M.Fits holes' u) (ht : L.Fits holes t)
    (hin : ∀ s, .joined s ∈ t.joinAll.2 → ∃ i, ρ i = s.hole) :
    u.joinAll.1.Embeds ρ d t.joinAll.1 := by
  fun_induction RingTable.joinAll t generalizing u L M with
  | case1 t hpos t' fate hs last fates heq ih =>
    rw [heq] at ih
    obtain ⟨L', -, ht'⟩ := ht.step hs
    have hin' : ∀ s, .joined s ∈ fates → ∃ i, ρ i = s.hole := fun s hmem ↦
      hin s (List.mem_cons_of_mem _ hmem)
    have hfate : ∀ s, fate = .joined s → ∃ i, ρ i = s.hole := fun s hs ↦
      hin s (hs ▸ List.mem_cons_self)
    rcases h.step hu ht hs hfate with ⟨u', fate', hsu, h'⟩ | h'
    · obtain ⟨M', -, hu'⟩ := hu.step hsu
      rw [hu.joinAll_of_step? hsu]
      exact ih h' hu' ht' hin'
    · exact ih h' hu ht' hin'
  | case2 t hpos hs =>
    obtain ⟨t', fate, hs'⟩ := ht.exists_step hpos
    rw [hs] at hs'
    simp at hs'
  | case3 t hzero =>
    have huzero := h.waiting_eq_zero hu ht (Nat.eq_zero_of_not_pos hzero)
    rw [RingTable.joinAll, dif_neg (by omega)]
    exact h

end Embeds

end RingTable

end GridGeometry
