import GridGeometry.Proofs.Least
import GridGeometry.Proofs.Region.Loops

/-!
# What becomes of the loops of a region

Cutting a region pools the simple loops of all contours and deals them out again. `IsOwner` says
which outline a hole belongs to, without the search that finds it (`ownerIndex?_eq_some_iff`): of
the outlines that surround the hole one of least area, and the first of these. So there is at most
one such place, and there is one as soon as any outline surrounds the hole.

The holes of the result are then the loops that run clockwise and have an owner, each as often
(`Region.holes_cutIntoLoops_perm`). With the outlines, which are all the loops that run
counter-clockwise, this accounts for every loop (`Region.cutIntoLoops_conserves`): a loop without
area adds nothing to the total area, so what is missing in the result is the area of the holes that
no outline surrounds.
-/

namespace GridGeometry

/-! ### Owners -/

/-- The hole belongs to outline `i`: this outline surrounds it, no outline that does so has a lesser
area, and none before it has the same area. -/
def IsOwner (outlines : List Contour) (hole : Contour) (i : Nat) : Prop :=
  ∃ o, outlines[i]? = some o ∧ o.surrounds hole = true ∧
    ∀ j q, outlines[j]? = some q → q.surrounds hole = true →
      o.doubledArea ≤ q.doubledArea ∧ (j < i → o.doubledArea < q.doubledArea)

variable {outlines : List Contour} {hole : Contour} {i j : Nat}

theorem IsOwner.le (hi : IsOwner outlines hole i) (hj : IsOwner outlines hole j) : i ≤ j := by
  obtain ⟨o, ho, hsurrounds, hleast⟩ := hi
  obtain ⟨q, hq, hsurrounds', hleast'⟩ := hj
  by_contra hlt
  have hless := (hleast j q hq hsurrounds').2 (Nat.lt_of_not_le hlt)
  have hle := (hleast' i o ho hsurrounds).1
  omega

/-- A hole belongs to one outline at most. -/
theorem IsOwner.unique (hi : IsOwner outlines hole i) (hj : IsOwner outlines hole j) : i = j :=
  Nat.le_antisymm (hi.le hj) (hj.le hi)

/-- The outlines that surround a hole, with their places. -/
private def surrounding (outlines : List Contour) (hole : Contour) : List (Contour × Nat) :=
  outlines.zipIdx.filter fun (o, _) ↦ o.surrounds hole

private theorem mem_surrounding {o : Contour} :
    (o, i) ∈ surrounding outlines hole ↔ outlines[i]? = some o ∧ o.surrounds hole = true := by
  rw [surrounding, List.mem_filter, List.mem_zipIdx_iff_getElem?]

private theorem pairwise_surrounding (outlines : List Contour) (hole : Contour) :
    (surrounding outlines hole).Pairwise fun x y ↦ x.2 < y.2 :=
  (pairwise_zipIdx outlines 0).filter _

/-- The search finds no owner when no outline surrounds the hole. -/
theorem ownerIndex?_eq_none_iff :
    ownerIndex? outlines hole = none ↔ ∀ o ∈ outlines, o.surrounds hole = false := by
  have hnone : ownerIndex? outlines hole = none ↔ surrounding outlines hole = [] :=
    Option.map_eq_none_iff.trans minOn?_eq_none_iff
  rw [hnone, surrounding, List.filter_eq_nil_iff]
  constructor
  · intro h o ho
    obtain ⟨i, hi⟩ := List.mem_iff_getElem?.1 ho
    simpa using h (o, i) (List.mem_zipIdx_iff_getElem?.2 hi)
  · rintro h ⟨o, i⟩ ho
    simpa using h o (List.mem_of_getElem? (List.mem_zipIdx_iff_getElem?.1 ho))

theorem isOwner_of_ownerIndex? (h : ownerIndex? outlines hole = some i) :
    IsOwner outlines hole i := by
  obtain ⟨⟨o, i⟩, hmin, rfl⟩ := Option.map_eq_some_iff.1 h
  obtain ⟨ho, hsurrounds⟩ := mem_surrounding.1 (List.minOn?_mem hmin)
  obtain ⟨before, after, hsplit, hbefore, hafter⟩ :
      ∃ before after, surrounding outlines hole = before ++ (o, i) :: after ∧
        (∀ x ∈ before, o.doubledArea < x.1.doubledArea) ∧
          ∀ x ∈ after, o.doubledArea ≤ x.1.doubledArea := exists_split_of_minOn? hmin
  refine ⟨o, ho, hsurrounds, fun j q hq hq' ↦ ?_⟩
  have hmem : (q, j) ∈ before ++ (o, i) :: after := hsplit ▸ mem_surrounding.2 ⟨hq, hq'⟩
  have hsorted := hsplit ▸ pairwise_surrounding outlines hole
  -- What stands before the choice has a greater area, and what stands behind it a later place.
  rcases List.mem_append.1 hmem with hmem | hmem
  · have hlt := hbefore _ hmem
    exact ⟨hlt.le, fun _ ↦ hlt⟩
  rcases List.mem_cons.1 hmem with heq | hmem
  · obtain ⟨rfl, rfl⟩ := Prod.mk.inj heq
    exact ⟨Int.le_refl _, fun hj ↦ absurd hj (Nat.lt_irrefl _)⟩
  · have hlater : i < j :=
      List.rel_of_pairwise_cons (List.pairwise_append.1 hsorted).2.1 hmem
    exact ⟨hafter _ hmem, fun hj ↦ absurd hj hlater.asymm⟩

/-- **The search finds the owner.** -/
theorem ownerIndex?_eq_some_iff : ownerIndex? outlines hole = some i ↔ IsOwner outlines hole i := by
  refine ⟨isOwner_of_ownerIndex?, fun h ↦ ?_⟩
  rcases hj : ownerIndex? outlines hole with - | j
  · obtain ⟨o, ho, hsurrounds, -⟩ := h
    rw [ownerIndex?_eq_none_iff.1 hj o (List.mem_of_getElem? ho)] at hsurrounds
    exact absurd hsurrounds Bool.false_ne_true
  · rw [h.unique (isOwner_of_ownerIndex? hj)]

/-- A hole that an outline surrounds has an owner. -/
theorem exists_ownerIndex? (h : ∃ o ∈ outlines, o.surrounds hole = true) :
    ∃ i, ownerIndex? outlines hole = some i := by
  rw [← Option.isSome_iff_exists, ← Option.ne_none_iff_isSome, ne_eq, ownerIndex?_eq_none_iff]
  intro hnone
  obtain ⟨o, ho, hsurrounds⟩ := h
  exact Bool.false_ne_true (hnone o ho ▸ hsurrounds)

/-! ### Dealing out -/

/-- What passes one of two tests that exclude each other passes the one or the other. -/
theorem filter_append_filter_perm {β : Type} {p q : β → Bool} {l : List β}
    (h : ∀ c ∈ l, p c = true → q c = false) :
    (l.filter p ++ l.filter q).Perm (l.filter fun c ↦ p c || q c) := by
  induction l with
  | nil => exact .nil
  | cons c l ih =>
    have ih := ih fun d hd ↦ h d (List.mem_cons_of_mem _ hd)
    rcases hp : p c with - | -
    · rcases hq : q c with - | -
      · simpa [hp, hq] using ih
      · simpa [hp, hq] using List.perm_middle.trans (ih.cons c)
    · simpa [hp, h c List.mem_cons_self hp] using ih

/-- **Elements dealt out by labels below `n`** are together the elements with such a label. -/
theorem flatMap_filter_label_perm {β : Type} (f : β → Option Nat) (l : List β) (n : Nat) :
    ((List.range n).flatMap fun i ↦ l.filter fun c ↦ f c = some i).Perm
      (l.filter fun c ↦ ∃ i < n, f c = some i) := by
  induction n with
  | zero => simp
  | succ n ih =>
    have hdisjoint : ∀ c ∈ l, decide (∃ i < n, f c = some i) = true →
        decide (f c = some n) = false := by
      intro c _ h
      obtain ⟨i, hi, h⟩ := of_decide_eq_true h
      simpa [h] using hi.ne
    rw [List.range_succ, List.flatMap_append, List.flatMap_singleton]
    refine (ih.append_right _).trans ((filter_append_filter_perm hdisjoint).trans (.of_eq ?_))
    refine List.filter_congr fun c _ ↦ ?_
    rw [← Bool.decide_or, decide_eq_decide]
    simp only [Nat.lt_succ_iff_lt_or_eq, or_and_right, exists_or, exists_eq_left]

namespace Region

variable {r : Region} {p : Polygon} {c : Contour}

/-- The total of the areas of all contours, doubled. Contours that run clockwise count negative. -/
def doubledArea (r : Region) : Int :=
  ((r.polygons.flatMap Polygon.contours).map Contour.doubledArea).sum

/-- The loops that run clockwise and have no outline around them. -/
def strayLoops (r : Region) : List Contour :=
  r.innerLoops.filter fun c ↦ ∀ o ∈ r.outerLoops, o.surrounds c = false

/-- **The holes of the result** are the loops that run clockwise and are surrounded, each as
often. -/
theorem holes_cutIntoLoops_perm (r : Region) :
    r.cutIntoLoops.holes.Perm
      (r.innerLoops.filter fun c ↦ ∃ o ∈ r.outerLoops, o.surrounds c = true) := by
  have hholes : r.cutIntoLoops.holes = (List.range r.outerLoops.length).flatMap r.holesAt := by
    rw [holes, polygons_cutIntoLoops, List.flatMap_map, List.range_eq_range',
      ← List.zipIdx_map_snd 0, List.flatMap_map]
  rw [hholes]
  refine (flatMap_filter_label_perm _ _ _).trans (.of_eq (List.filter_congr fun c _ ↦ ?_))
  rw [decide_eq_decide]
  constructor
  · rintro ⟨i, -, h⟩
    obtain ⟨o, ho, hsurrounds, -⟩ := ownerIndex?_eq_some_iff.1 h
    exact ⟨o, List.mem_of_getElem? ho, hsurrounds⟩
  · intro h
    obtain ⟨i, hi⟩ := exists_ownerIndex? h
    obtain ⟨o, ho, -⟩ := ownerIndex?_eq_some_iff.1 hi
    exact ⟨i, (List.getElem?_eq_some_iff.1 ho).1, hi⟩

/-- A loop that runs clockwise is a hole of its owner as often as it is a loop. -/
theorem count_holesAt (hneg : c.doubledArea < 0) (h : ownerIndex? r.outerLoops c = some i) :
    (r.holesAt i).count c = r.loops.count c := by
  rw [holesAt, List.count_filter (by simpa using h), innerLoops,
    List.count_filter (by simpa using hneg)]

theorem sum_doubledArea_filter (l : List Contour) :
    ((l.filter fun c ↦ 0 < c.doubledArea).map Contour.doubledArea).sum +
        ((l.filter fun c ↦ c.doubledArea < 0).map Contour.doubledArea).sum =
      (l.map Contour.doubledArea).sum := by
  induction l with
  | nil => rfl
  | cons c l ih =>
    rcases lt_trichotomy 0 c.doubledArea with h | h | h
    · simp [h, h.asymm, ← ih, Int.add_assoc]
    · simp [← h, ← ih]
    · simp [h, h.asymm, ← ih, Int.add_left_comm]

/-- What contours enclose together is swept by the edges of all of them. -/
theorem sum_doubledArea (l : List Contour) :
    (l.map Contour.doubledArea).sum = Contour.sweep (l.flatMap fun c ↦ Contour.cycle c.points) := by
  rw [Contour.sweep_flatMap]
  exact congrArg List.sum (List.map_congr_left fun c _ ↦ Contour.doubledArea_eq c)

/-- The loops enclose what the contours enclose, since they have the same edges. -/
theorem sum_doubledArea_loops (r : Region) :
    (r.loops.map Contour.doubledArea).sum = r.doubledArea := by
  rw [doubledArea, sum_doubledArea, sum_doubledArea, loops, ← List.flatMap_assoc,
    List.flatMap_assoc]
  refine Contour.sweep_eq_of_perm ?_
  exact List.Perm.flatMap_left _ fun c _ ↦ Contour.loops_cycle_perm c

theorem innerLoops_perm (r : Region) :
    (r.cutIntoLoops.holes ++ r.strayLoops).Perm r.innerLoops := by
  refine (r.holes_cutIntoLoops_perm.append_right _).trans ?_
  have hstray : r.strayLoops =
      r.innerLoops.filter fun c ↦ !decide (∃ o ∈ r.outerLoops, o.surrounds c = true) := by
    refine List.filter_congr fun c _ ↦ ?_
    rw [← decide_not, decide_eq_decide]
    simp
  rw [hstray]
  exact List.filter_append_perm _ _

theorem doubledArea_eq_add (r : Region) : r.doubledArea =
    (r.outlines.map Contour.doubledArea).sum + (r.holes.map Contour.doubledArea).sum := by
  rw [doubledArea, outlines, holes, List.map_map]
  induction r.polygons with
  | nil => rfl
  | cons p l ih =>
    simp only [List.flatMap_cons, List.map_append, List.sum_append, List.map_cons, List.sum_cons,
      ih, Polygon.contours, Function.comp_apply]
    omega

/-- Cutting loses the area of the stray loops. -/
theorem doubledArea_cutIntoLoops (r : Region) : r.cutIntoLoops.doubledArea =
    r.doubledArea - (r.strayLoops.map Contour.doubledArea).sum := by
  have hinner := (r.innerLoops_perm.map Contour.doubledArea).sum_eq
  have htotal := sum_doubledArea_filter r.loops
  rw [sum_doubledArea_loops] at htotal
  rw [List.map_append, List.sum_append, innerLoops] at hinner
  rw [doubledArea_eq_add, outlines_cutIntoLoops, outerLoops]
  omega

/-- **Every loop is accounted for.** The outlines of the result are the loops that run
counter-clockwise, in their order, and its holes are among those that run clockwise. Of these, one
with an outline around it is a hole of its owner, as often as it is a loop, and of no other polygon;
one without is no hole. So the result encloses what the region encloses, less the area of the loops
that run clockwise and have no outline around them. -/
theorem cutIntoLoops_conserves (r : Region) :
    r.cutIntoLoops.outlines = r.loops.filter (fun c ↦ 0 < c.doubledArea) ∧
      (∀ c ∈ r.cutIntoLoops.holes, c ∈ r.loops ∧ c.doubledArea < 0) ∧
      (∀ c ∈ r.loops, c.doubledArea < 0 →
        (∃ o ∈ r.cutIntoLoops.outlines, o.surrounds c = true) →
          ∃ i p, r.cutIntoLoops.polygons[i]? = some p ∧ IsOwner r.cutIntoLoops.outlines c i ∧
            p.holes.count c = r.loops.count c ∧
            ∀ j q, r.cutIntoLoops.polygons[j]? = some q → c ∈ q.holes → j = i) ∧
      (∀ c, (∀ o ∈ r.cutIntoLoops.outlines, o.surrounds c = false) → c ∉ r.cutIntoLoops.holes) ∧
      r.cutIntoLoops.doubledArea = r.doubledArea -
        ((r.loops.filter fun c ↦ c.doubledArea < 0 ∧
          ∀ o ∈ r.cutIntoLoops.outlines, o.surrounds c = false).map Contour.doubledArea).sum := by
  rw [outlines_cutIntoLoops]
  refine ⟨rfl, fun c hc ↦ ?_, fun c hc hneg hsurrounded ↦ ?_, fun c hstray hc ↦ ?_, ?_⟩
  · have hinner := (List.mem_filter.1 (r.holes_cutIntoLoops_perm.mem_iff.1 hc)).1
    simpa [innerLoops] using hinner
  · obtain ⟨i, hi⟩ := exists_ownerIndex? hsurrounded
    have howner := ownerIndex?_eq_some_iff.1 hi
    obtain ⟨o, ho, -⟩ := ownerIndex?_eq_some_iff.1 hi
    refine ⟨i, ⟨o, r.holesAt i⟩, getElem?_cutIntoLoops.2 ⟨ho, rfl⟩, howner,
      count_holesAt hneg hi, fun j q hq hcq ↦ ?_⟩
    rw [(getElem?_cutIntoLoops.1 hq).2, mem_holesAt, hi] at hcq
    exact (Option.some.inj hcq.2.2).symm
  · have hmem := (List.mem_filter.1 (r.holes_cutIntoLoops_perm.mem_iff.1 hc)).2
    obtain ⟨o, ho, hsurrounds⟩ := of_decide_eq_true hmem
    exact Bool.false_ne_true (hstray o ho ▸ hsurrounds)
  · rw [doubledArea_cutIntoLoops, strayLoops, innerLoops, List.filter_filter]
    simp only [Bool.decide_and, Bool.and_comm]

end Region

end GridGeometry
