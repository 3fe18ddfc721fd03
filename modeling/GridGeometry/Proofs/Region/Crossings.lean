import GridGeometry.Proofs.Contour.Loops
import GridGeometry.Proofs.Region.Enumeration
import GridGeometry.Proofs.Segment
import GridGeometry.Region.Crossings
import GridGeometry.Region.Inside

/-!
# Which crossings are found

The search compares every edge of a polygon with every later one and reports the pairs that meet,
except for edges that follow each other in a contour. Every edge has an address
(`Region.edgeAt?`), and the walk over a polygon lists its edges in increasing order of addresses. So
the pairs that are compared are those of an edge with one of a greater address, and they come in
lexicographic order (`Region.crossings_exact`).

A contour that visits a vertex twice has two edges there that meet, and they do not follow each
other, or two edges next to these do so instead, if the contour has four vertices at least
(`Contour.exists_apart`). So the contours of a region without crossings are simple
(`Region.loops_eq_of_hasCrossings`).
-/

namespace GridGeometry

/-! ### Pairs of a list -/

section LaterPairs

variable {α : Type} {R : α → α → Prop} {l : List α} {a b : α}

theorem fst_mem_of_mem_laterPairs {x : α × α} (h : x ∈ laterPairs l) : x.1 ∈ l := by
  induction l with
  | nil => exact absurd h List.not_mem_nil
  | cons c l ih =>
    rcases List.mem_append.1 h with h | h
    · obtain ⟨d, -, rfl⟩ := List.mem_map.1 h
      exact List.mem_cons_self
    · exact List.mem_cons_of_mem _ (ih h)

/-- In an increasing list, the pairs are those of an element with a greater one. -/
theorem mem_laterPairs (hR : ∀ a b, R a b → ¬ R b a) (h : l.Pairwise R) :
    (a, b) ∈ laterPairs l ↔ a ∈ l ∧ b ∈ l ∧ R a b := by
  induction l with
  | nil => simp [laterPairs]
  | cons c l ih =>
    obtain ⟨hc, hl⟩ := List.pairwise_cons.1 h
    rw [laterPairs, List.mem_append, ih hl, List.mem_map]
    constructor
    · rintro (⟨d, hd, heq⟩ | ⟨ha, hb, hab⟩)
      · obtain ⟨rfl, rfl⟩ := Prod.mk.inj heq
        exact ⟨List.mem_cons_self, List.mem_cons_of_mem _ hd, hc d hd⟩
      · exact ⟨List.mem_cons_of_mem _ ha, List.mem_cons_of_mem _ hb, hab⟩
    · rintro ⟨ha, hb, hab⟩
      rcases List.mem_cons.1 ha with rfl | hal
      · rcases List.mem_cons.1 hb with rfl | hbl
        · exact absurd hab (hR _ _ hab)
        · exact .inl ⟨b, hbl, rfl⟩
      · rcases List.mem_cons.1 hb with rfl | hbl
        · exact absurd hab (hR _ _ (hc a hal))
        · exact .inr ⟨hal, hbl, hab⟩

/-- The pairs of an increasing list come in lexicographic order. -/
theorem pairwise_laterPairs (h : l.Pairwise R) :
    (laterPairs l).Pairwise fun x y ↦ R x.1 y.1 ∨ x.1 = y.1 ∧ R x.2 y.2 := by
  induction l with
  | nil => exact .nil
  | cons c l ih =>
    obtain ⟨hc, hl⟩ := List.pairwise_cons.1 h
    refine List.pairwise_append.2 ⟨List.pairwise_map.2 (hl.imp fun h ↦ .inr ⟨rfl, h⟩), ih hl, ?_⟩
    intro x hx y hy
    obtain ⟨d, -, rfl⟩ := List.mem_map.1 hx
    exact .inl (hc _ (fst_mem_of_mem_laterPairs hy))

end LaterPairs

/-! ### Edges and their addresses -/

/-- One crossing comes before another in the order of their first edges, and of their second edges
where the first ones are the same. -/
def Crossing.Before (x y : Crossing) : Prop :=
  x.first.Before y.first ∨ x.first = y.first ∧ x.second.Before y.second

namespace Region

variable {r : Region} {a b : VertexAddress} {s t : Segment} {p : Polygon} {i : Nat}

/-- The edge of a closed contour that starts at the vertex with the given address. -/
def edgeAt? (r : Region) (a : VertexAddress) : Option Segment := do
  let p ← r.polygons[a.polygon]?
  let c ← p.contours[a.contour]?
  (Contour.cycle c.points)[a.vertex]?

/-- Vertex `b` follows vertex `a` in the closed cycle of a contour. -/
def Follows (r : Region) (a b : VertexAddress) : Prop :=
  ∃ p c, r.polygons[a.polygon]? = some p ∧ p.contours[a.contour]? = some c ∧
    b = ⟨a.polygon, a.contour, (a.vertex + 1) % c.size⟩

theorem edgeAt?_eq_some_iff : r.edgeAt? a = some s ↔ ∃ p c, r.polygons[a.polygon]? = some p ∧
    p.contours[a.contour]? = some c ∧ (Contour.cycle c.points)[a.vertex]? = some s := by
  simp only [edgeAt?, bind, Option.bind_eq_some_iff, ← exists_and_left]

/-- A walk lists the edges of its polygons. -/
theorem mem_walk_edges {first stop : Nat} : (a, s) ∈ (r.walk stop true).edges first ↔
    (first ≤ a.polygon ∧ a.polygon < stop) ∧ r.edgeAt? a = some s := by
  rw [Walk.edges, List.mem_map, edgeAt?_eq_some_iff]
  constructor
  · rintro ⟨v, hv, heq⟩
    obtain ⟨j, k, c, l, e, hfirst, hstop, hc, he, rfl⟩ := Walk.mem_visits.1 hv
    obtain ⟨rfl, rfl⟩ := Prod.mk.inj heq
    obtain ⟨p, hp, hc⟩ := contourAt?_eq_some_iff.1 (getElem?_contoursOf.1 hc).2
    exact ⟨⟨hfirst, hstop⟩, p, c, hp, hc, he⟩
  · rintro ⟨⟨hfirst, hstop⟩, p, c, hp, hc, he⟩
    exact ⟨_, Walk.mem_visits.2 ⟨_, _, c, _, s, hfirst, hstop,
      getElem?_contoursOf.2 ⟨.inl rfl, contourAt?_eq_some_iff.2 ⟨p, hp, hc⟩⟩, he, rfl⟩, rfl⟩

/-- The walk over one polygon lists its edges. -/
theorem mem_edges : (a, s) ∈ (r.walk (i + 1) true).edges i ↔
    a.polygon = i ∧ r.edgeAt? a = some s := by
  have hone : i ≤ a.polygon ∧ a.polygon < i + 1 ↔ a.polygon = i := by omega
  rw [mem_walk_edges, hone]

/-- The walk over all polygons lists all edges. -/
theorem mem_allEdges : (a, s) ∈ r.allEdges ↔ r.edgeAt? a = some s := by
  rw [allEdges, mem_walk_edges, and_iff_right_of_imp]
  intro h
  obtain ⟨p, c, hp, -⟩ := edgeAt?_eq_some_iff.1 h
  exact ⟨Nat.zero_le _, (List.getElem?_eq_some_iff.1 hp).1⟩

/-- The points on the edges of a region. -/
theorem touches_iff {q : Point} :
    r.touches q = true ↔ ∃ a s, r.edgeAt? a = some s ∧ s.contains q = true := by
  rw [touches, List.any_eq_true]
  simp only [Prod.exists, mem_allEdges]

theorem pairwise_edges (w : Walk) (first : Nat) :
    (w.edges first).Pairwise fun x y ↦ x.1.Before y.1 :=
  List.pairwise_map.2 (w.pairwise_visits first)

theorem mem_edgePairs : ((a, s), (b, t)) ∈ r.edgePairs i ↔
    (a.polygon = i ∧ r.edgeAt? a = some s) ∧ (b.polygon = i ∧ r.edgeAt? b = some t) ∧
      a.Before b := by
  rw [edgePairs, mem_laterPairs (fun _ _ ↦ VertexAddress.Before.asymm) (pairwise_edges _ i),
    mem_edges, mem_edges]

/-! ### What is reported -/

/-- The last vertex of a cycle is followed by the first one. -/
theorem mod_eq_iff {j n : Nat} (hij : i < j) (hj : j < n) :
    (j = (i + 1) % n ∨ i = (j + 1) % n) ↔ j = i + 1 ∨ i = 0 ∧ j + 1 = n := by
  rw [Nat.mod_eq_of_lt (show i + 1 < n by omega)]
  rcases Nat.lt_or_ge (j + 1) n with hlt | hge
  · rw [Nat.mod_eq_of_lt hlt]
    omega
  · obtain rfl : n = j + 1 := by omega
    rw [Nat.mod_self]
    omega

theorem follows_iff {c : Contour} (hp : r.polygons[a.polygon]? = some p)
    (hc : p.contours[a.contour]? = some c) :
    r.Follows a b ↔ b = ⟨a.polygon, a.contour, (a.vertex + 1) % c.size⟩ := by
  refine ⟨?_, fun h ↦ ⟨p, c, hp, hc, h⟩⟩
  rintro ⟨q, d, hq, hd, rfl⟩
  obtain rfl := Option.some.inj (hp.symm.trans hq)
  obtain rfl := Option.some.inj (hc.symm.trans hd)
  rfl

/-- Of two edges of a polygon, the search passes over those that follow each other. -/
theorem adjacent_iff (hp : r.polygons[a.polygon]? = some p) (hpolygon : a.polygon = b.polygon)
    (hab : a.Before b) (ha : r.edgeAt? a = some s) (hb : r.edgeAt? b = some t) :
    p.Adjacent a b ↔ r.Follows a b ∨ r.Follows b a := by
  obtain ⟨q, c, hq, hc, hs⟩ := edgeAt?_eq_some_iff.1 ha
  obtain rfl := Option.some.inj (hp.symm.trans hq)
  obtain ⟨q, d, hq', hd, ht⟩ := edgeAt?_eq_some_iff.1 hb
  obtain rfl := Option.some.inj (hq.symm.trans (hpolygon ▸ hq'))
  rw [Polygon.Adjacent, follows_iff hq hc, follows_iff hq' hd, hc, Option.map_some,
    Option.some.injEq]
  obtain ⟨i, k, u⟩ := a
  obtain ⟨j, l, v⟩ := b
  simp only [VertexAddress.mk.injEq, VertexAddress.Before] at hpolygon hab hc hd hs ht ⊢
  subst hpolygon
  by_cases hkl : k = l
  · subst hkl
    obtain rfl := Option.some.inj (hc.symm.trans hd)
    have hv : v < c.size := by
      have := (List.getElem?_eq_some_iff.1 ht).1
      rwa [Contour.length_cycle] at this
    have huv : u < v := by omega
    simpa using (mod_eq_iff huv hv).symm
  · simp [hkl, Ne.symm hkl]

theorem crosses_iff : p.crosses ((a, s), (b, t)) = true ↔ ¬ p.Adjacent a b ∧ s.meets t = true := by
  rw [Polygon.crosses, Bool.and_eq_true, Bool.not_eq_true', decide_eq_false_iff_not]

/-- **Which pairs are reported**: edges of one polygon that have a point in common, and neither of
which follows the other one. -/
theorem mem_crossings : ⟨a, b⟩ ∈ r.crossings ↔ a.polygon = b.polygon ∧ a.Before b ∧
    ¬ r.Follows a b ∧ ¬ r.Follows b a ∧
      ∃ s t, r.edgeAt? a = some s ∧ r.edgeAt? b = some t ∧ (s.points ∩ t.points).Nonempty := by
  rw [crossings, List.mem_flatMap]
  constructor
  · rintro ⟨⟨p, i⟩, hp, hab⟩
    obtain ⟨⟨⟨a', s⟩, ⟨b', t⟩⟩, hpair, heq⟩ := List.mem_map.1 hab
    obtain ⟨rfl, rfl⟩ := Crossing.mk.inj heq
    obtain ⟨hmem, hcrosses⟩ := List.mem_filter.1 hpair
    obtain ⟨⟨rfl, hs⟩, ⟨hpolygon, ht⟩, hbefore⟩ := mem_edgePairs.1 hmem
    obtain ⟨hadjacent, hmeets⟩ := crosses_iff.1 hcrosses
    have hp := List.mem_zipIdx_iff_getElem?.1 hp
    obtain ⟨hfollows, hfollows'⟩ :=
      not_or.1 (mt (adjacent_iff hp hpolygon.symm hbefore hs ht).2 hadjacent)
    exact ⟨hpolygon.symm, hbefore, hfollows, hfollows', s, t, hs, ht, Segment.meets_iff.1 hmeets⟩
  · rintro ⟨hpolygon, hbefore, hfollows, hfollows', s, t, hs, ht, hpoint⟩
    obtain ⟨p, c, hp, -⟩ := edgeAt?_eq_some_iff.1 hs
    have hcrosses : p.crosses ((a, s), (b, t)) = true := by
      rw [crosses_iff, adjacent_iff hp hpolygon hbefore hs ht]
      exact ⟨not_or.2 ⟨hfollows, hfollows'⟩, Segment.meets_iff.2 hpoint⟩
    exact ⟨(p, a.polygon), List.mem_zipIdx_iff_getElem?.2 hp, List.mem_map.2 ⟨((a, s), (b, t)),
      List.mem_filter.2 ⟨mem_edgePairs.2 ⟨⟨rfl, hs⟩, ⟨hpolygon.symm, ht⟩, hbefore⟩, hcrosses⟩, rfl⟩⟩

theorem polygon_of_mem_edgePairs {x : (VertexAddress × Segment) × (VertexAddress × Segment)}
    (h : x ∈ r.edgePairs i) : x.1.1.polygon = i :=
  (mem_edges.1 (fst_mem_of_mem_laterPairs h)).1

/-- The crossings come in increasing order, so each of them once. -/
theorem pairwise_crossings (r : Region) : r.crossings.Pairwise Crossing.Before := by
  refine pairwise_flatMap_zipIdx (fun x ↦ ?_) fun x y hlt u hu v hv ↦ ?_
  · refine List.pairwise_map.2 (((pairwise_laterPairs (pairwise_edges _ _)).filter _).imp ?_)
    rintro ⟨⟨a, s⟩, ⟨b, t⟩⟩ ⟨⟨a', s'⟩, ⟨b', t'⟩⟩ (h | ⟨h, h'⟩)
    · exact .inl h
    · exact .inr ⟨congrArg Prod.fst h, h'⟩
  · obtain ⟨e, he, rfl⟩ := List.mem_map.1 hu
    obtain ⟨f, hf, rfl⟩ := List.mem_map.1 hv
    have he := polygon_of_mem_edgePairs (List.mem_filter.1 he).1
    have hf := polygon_of_mem_edgePairs (List.mem_filter.1 hf).1
    exact .inl (.inl (he ▸ hf ▸ hlt))

theorem hasCrossings_eq_false_iff : r.hasCrossings = false ↔ r.crossings = [] := by
  rw [hasCrossings, crossings]
  simp [List.any_eq_false, List.flatMap_eq_nil_iff]

/-- **The list of crossings is exact.** It holds the pairs of closed edges of one polygon, the one
with the lesser address first, that have a rational point in common and neither of which follows the
other one around a contour. It is strictly increasing, by the address of the first edge and then by
that of the second one, so that no pair is listed twice. And the search that ends at the first
crossing finds one exactly when the list is not empty. -/
theorem crossings_exact (r : Region) :
    (∀ a b, ⟨a, b⟩ ∈ r.crossings ↔ a.polygon = b.polygon ∧ a.Before b ∧
      ¬ r.Follows a b ∧ ¬ r.Follows b a ∧
        ∃ s t, r.edgeAt? a = some s ∧ r.edgeAt? b = some t ∧ (s.points ∩ t.points).Nonempty) ∧
      r.crossings.Pairwise Crossing.Before ∧
      (r.hasCrossings = true ↔ r.crossings ≠ []) := by
  refine ⟨fun a b ↦ mem_crossings, r.pairwise_crossings, ?_⟩
  rw [ne_eq, ← hasCrossings_eq_false_iff, Bool.not_eq_false]

end Region

/-! ### Regions without crossings -/

namespace Contour

variable {l : List Point} {u v : Nat}

/-- Of the edges `i` and `j` in a cycle of `n` edges, with `i < j`, neither follows the other. -/
def Apart (n i j : Nat) : Prop := i + 1 < j ∧ j < n ∧ (i = 0 → j + 1 < n)

/-- **Where a cycle visits a vertex twice**, two of its edges have this vertex in common and do not
follow each other, if there are at least four edges. -/
theorem exists_apart (hsize : 4 ≤ l.length) (h : ¬ l.Nodup) : ∃ i j s t, Apart l.length i j ∧
    (cycle l)[i]? = some s ∧ (cycle l)[j]? = some t ∧ (s.points ∩ t.points).Nonempty := by
  obtain ⟨i, j, hi, hj, hij, heq⟩ : ∃ i j, ∃ (hi : i < l.length) (hj : j < l.length), i < j ∧
      l[i] = l[j] := by
    simpa [List.Nodup, List.pairwise_iff_getElem] using h
  have hstart : ∀ {s t : Segment}, s.start = t.start → (s.points ∩ t.points).Nonempty :=
    fun h ↦ ⟨_, Segment.start_mem_points _, h ▸ Segment.start_mem_points _⟩
  have hstop : ∀ {s t : Segment}, s.stop = t.start → (s.points ∩ t.points).Nonempty :=
    fun h ↦ ⟨_, Segment.stop_mem_points _, h ▸ Segment.start_mem_points _⟩
  have hmod : ∀ k, k % l.length < l.length := fun k ↦ Nat.mod_lt k (by omega)
  -- Where the two visits are neighbours, the edge before them and the one behind them take part.
  rcases Nat.lt_or_ge (i + 1) j with hfar | hnear
  · by_cases hclose : i = 0 ∧ j + 1 = l.length
    · obtain ⟨rfl, hlast⟩ := hclose
      obtain ⟨k, rfl⟩ : ∃ k, j = k + 1 := ⟨j - 1, by omega⟩
      have hk : k < l.length := by omega
      refine ⟨0, k, _, _, ⟨by omega, hk, by omega⟩, getElem?_cycle hi (hmod _) rfl,
        getElem?_cycle hk hj (Nat.mod_eq_of_lt hj), ?_⟩
      rw [Set.inter_comm]
      exact hstop heq.symm
    · exact ⟨i, j, _, _, ⟨hfar, hj, by omega⟩, getElem?_cycle hi (hmod _) rfl,
        getElem?_cycle hj (hmod _) rfl, hstart heq⟩
  · obtain rfl : j = i + 1 := by omega
    rcases i with - | k
    · have hlast : l.length - 1 < l.length := by omega
      have hzero : (l.length - 1 + 1) % l.length = 0 := by
        rw [Nat.sub_add_cancel (by omega), Nat.mod_self]
      refine ⟨1, l.length - 1, _, _, ⟨by omega, hlast, by omega⟩,
        getElem?_cycle hj (hmod _) rfl, getElem?_cycle hlast hi hzero, ?_⟩
      rw [Set.inter_comm]
      exact hstop heq
    · have hk : k < l.length := by omega
      exact ⟨k, k + 2, _, _, ⟨by omega, hj, by omega⟩, getElem?_cycle hk hi (Nat.mod_eq_of_lt hi),
        getElem?_cycle hj (hmod _) rfl, hstop heq⟩

end Contour

/-- **The contours of a region without crossings are simple**, from four vertices on: no vertex is
visited twice, so there is nothing to cut. -/
theorem Region.loops_eq_of_hasCrossings {r : Region} (h : r.hasCrossings = false) {p : Polygon}
    (hp : p ∈ r.polygons) {c : Contour} (hc : c ∈ p.contours) (hsize : 4 ≤ c.size) :
    c.points.Nodup ∧ c.loops = [.closedOf c.points] := by
  have hnodup : c.points.Nodup := by
    by_contra hrepeat
    obtain ⟨u, v, s, t, ⟨huv, hv, hlast⟩, hs, ht, hpoint⟩ := Contour.exists_apart hsize hrepeat
    obtain ⟨i, hi⟩ := List.mem_iff_getElem?.1 hp
    obtain ⟨k, hk⟩ := List.mem_iff_getElem?.1 hc
    have hfollows := mt (mod_eq_iff (show u < v by omega) hv).1 (by omega)
    have hmem : (⟨⟨i, k, u⟩, ⟨i, k, v⟩⟩ : Crossing) ∈ r.crossings := by
      refine mem_crossings.2 ⟨rfl, .inr ⟨rfl, .inr ⟨rfl, by simp only; omega⟩⟩, fun hf ↦ ?_,
        fun hf ↦ ?_, s, t, edgeAt?_eq_some_iff.2 ⟨p, c, hi, hk, hs⟩,
        edgeAt?_eq_some_iff.2 ⟨p, c, hi, hk, ht⟩, hpoint⟩
      · rw [follows_iff hi hk, VertexAddress.mk.injEq] at hf
        exact hfollows (.inl hf.2.2)
      · rw [follows_iff hi hk, VertexAddress.mk.injEq] at hf
        exact hfollows (.inr hf.2.2)
    rw [hasCrossings_eq_false_iff.1 h] at hmem
    exact List.not_mem_nil hmem
  exact ⟨hnodup, Contour.loops_of_nodup hnodup⟩

/-- A square with an open hole of four vertices and one without vertices. -/
theorem Region.loops_eq_square :
    hasCrossings ⟨[⟨.closedOf [⟨0, 0⟩, ⟨9, 0⟩, ⟨9, 9⟩, ⟨0, 9⟩],
        [.closedOf [], ⟨[⟨2, 2⟩, ⟨2, 5⟩, ⟨6, 6⟩, ⟨5, 2⟩], false⟩]⟩]⟩ = false ∧
      (⟨[⟨2, 2⟩, ⟨2, 5⟩, ⟨6, 6⟩, ⟨5, 2⟩], false⟩ : Contour).points.Nodup ∧
      (⟨[⟨2, 2⟩, ⟨2, 5⟩, ⟨6, 6⟩, ⟨5, 2⟩], false⟩ : Contour).loops =
        [.closedOf [⟨2, 2⟩, ⟨2, 5⟩, ⟨6, 6⟩, ⟨5, 2⟩]] :=
  have h : hasCrossings ⟨[⟨.closedOf [⟨0, 0⟩, ⟨9, 0⟩, ⟨9, 9⟩, ⟨0, 9⟩],
      [.closedOf [], ⟨[⟨2, 2⟩, ⟨2, 5⟩, ⟨6, 6⟩, ⟨5, 2⟩], false⟩]⟩]⟩ = false := by cbv
  ⟨h, loops_eq_of_hasCrossings h List.mem_cons_self
    (List.mem_cons_of_mem _ (List.mem_cons_of_mem _ List.mem_cons_self)) (by decide)⟩

/-- Three vertices are too few: of three edges, any two follow each other. -/
example : Region.hasCrossings ⟨[.ofOutline (.closedOf [⟨0, 0⟩, ⟨0, 0⟩, ⟨5, 5⟩])]⟩ = false ∧
    (Contour.closedOf [⟨0, 0⟩, ⟨0, 0⟩, ⟨5, 5⟩]).loops ≠
      [Contour.closedOf [⟨0, 0⟩, ⟨0, 0⟩, ⟨5, 5⟩]] :=
  ⟨by cbv, by decide⟩

end GridGeometry
