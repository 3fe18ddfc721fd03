import Mathlib.Data.List.Sort

/-!
# The first least element of a list

Several choices of the library take the element of a list with the least value, and among equals the
first one. `exists_split_of_minOn?` says so in terms of what stands before and behind the choice. In
a list with places, what stands before is what has the lesser place (`pairwise_zipIdx`).
-/

namespace GridGeometry

variable {α : Type} {f : α → Int} {l : List α}

/-- The places of a list increase. -/
theorem pairwise_zipIdx (l : List α) (first : Nat) :
    (l.zipIdx first).Pairwise fun x y ↦ x.2 < y.2 := by
  refine List.pairwise_map.1 ?_
  rw [List.zipIdx_map_snd]
  exact List.pairwise_lt_range'

/-- What is listed place by place is in order when each place is, and lesser places come first. -/
theorem pairwise_flatMap_zipIdx {β : Type} {r : β → β → Prop} {f : α × Nat → List β}
    (hf : ∀ x, (f x).Pairwise r) (hlt : ∀ x y, x.2 < y.2 → ∀ u ∈ f x, ∀ v ∈ f y, r u v) :
    (l.zipIdx.flatMap f).Pairwise r :=
  List.pairwise_flatMap.2 ⟨fun x _ ↦ hf x, (pairwise_zipIdx l 0).imp fun {x y} ↦ hlt x y⟩

theorem length_flatMap_zipIdx {β γ : Type} {f : α × Nat → List β} {g : α → List γ}
    (h : ∀ a i, (f (a, i)).length = (g a).length) :
    (l.zipIdx.flatMap f).length = (l.flatMap g).length := by
  have hmap : (l.zipIdx.map fun x ↦ (f x).length) =
      (l.zipIdx.map Prod.fst).map fun a ↦ (g a).length := by
    rw [List.map_map]
    exact List.map_congr_left fun x _ ↦ h x.1 x.2
  rw [List.length_flatMap, List.length_flatMap, hmap, List.zipIdx_map_fst]

theorem minOn?_eq_none_iff : l.minOn? f = none ↔ l = [] := by
  rw [← Option.not_isSome_iff_eq_none, List.isSome_minOn?_iff, not_not]

/-- **The choice is the first least element**: everything before it has a greater value, and nothing
behind it has a lesser one. -/
theorem exists_split_of_minOn? {a : α} (h : l.minOn? f = some a) :
    ∃ before after, l = before ++ a :: after ∧
      (∀ b ∈ before, f a < f b) ∧ ∀ b ∈ after, f a ≤ f b := by
  induction l generalizing a with
  | nil => simp at h
  | cons c l ih =>
    rw [List.minOn?_cons] at h
    rcases hl : l.minOn? f with - | d
    · rw [hl, Option.elim_none, Option.some.injEq] at h
      rw [minOn?_eq_none_iff.1 hl, ← h]
      exact ⟨[], [], rfl, by simp, by simp⟩
    · obtain ⟨before, after, rfl, hbefore, hafter⟩ := ih hl
      rw [hl, Option.elim_some, minOn_eq_if, Option.some.injEq] at h
      by_cases hcd : f c ≤ f d
      · rw [if_pos hcd] at h
        subst h
        refine ⟨[], before ++ d :: after, rfl, by simp, fun b hb ↦ ?_⟩
        rcases List.mem_append.1 hb with hb | hb
        · have := hbefore b hb
          omega
        · rcases List.mem_cons.1 hb with rfl | hb
          · exact hcd
          · exact Int.le_trans hcd (hafter b hb)
      · rw [if_neg hcd] at h
        subst h
        refine ⟨c :: before, after, rfl, fun b hb ↦ ?_, hafter⟩
        rcases List.mem_cons.1 hb with rfl | hb
        · exact Int.not_le.1 hcd
        · exact hbefore b hb

/-- **In a list in order of places**, the choice is the least element with the least place. -/
theorem minOn?_eq_some_iff {place : α → Nat} (hl : l.Pairwise fun a b ↦ place a < place b) {a : α} :
    l.minOn? f = some a ↔ a ∈ l ∧ ∀ b ∈ l, f a < f b ∨ f a = f b ∧ place a ≤ place b := by
  constructor
  · intro h
    obtain ⟨before, after, rfl, hbefore, hafter⟩ := exists_split_of_minOn? h
    refine ⟨List.minOn?_mem h, fun b hb ↦ ?_⟩
    rcases List.mem_append.1 hb with hb | hb
    · exact .inl (hbefore b hb)
    · rcases List.mem_cons.1 hb with rfl | hb
      · exact .inr ⟨rfl, Nat.le_refl _⟩
      · have hplace := List.rel_of_pairwise_cons (List.pairwise_append.1 hl).2.1 hb
        have hle := hafter b hb
        omega
  · rintro ⟨ha, hleast⟩
    rcases hc : l.minOn? f with - | c
    · rw [minOn?_eq_none_iff.1 hc] at ha
      simp at ha
    · -- The chosen element is no greater, and it has no lesser place.
      obtain ⟨before, after, rfl, hbefore, hafter⟩ := exists_split_of_minOn? hc
      rw [List.mem_append, List.mem_cons] at ha
      have hlast := hleast c (List.mem_append_right _ List.mem_cons_self)
      rcases ha with ha | rfl | ha
      · have hlt := hbefore a ha
        omega
      · rfl
      · have hplace := List.rel_of_pairwise_cons (List.pairwise_append.1 hl).2.1 ha
        have hle := hafter a ha
        omega

/-- Lists in the same order with the same elements are equal. -/
theorem eq_of_pairwise_of_mem_iff {r : α → α → Prop} (hr : ∀ a b, r a b → ¬ r b a) {m : List α}
    (hl : l.Pairwise r) (hm : m.Pairwise r) (h : ∀ a, a ∈ l ↔ a ∈ m) : l = m := by
  have : Std.Asymm r := ⟨hr⟩
  exact hl.eq_of_mem_iff hm h

theorem minOn?_map {β : Type} (g : β → α) (l : List β) :
    (l.map g).minOn? f = (l.minOn? fun b ↦ f (g b)).map g := by
  induction l with
  | nil => rfl
  | cons b l ih =>
    rw [List.map_cons, List.minOn?_cons, List.minOn?_cons, ih]
    rcases l.minOn? fun b ↦ f (g b) with - | c
    · rfl
    · simp only [Option.map_some, Option.elim_some, minOn_eq_if]
      split <;> rfl

/-- A list headed by a least element: the choice is its head. -/
theorem minOn?_cons_of_le {a : α} (h : ∀ b ∈ l, f a ≤ f b) : (a :: l).minOn? f = some a := by
  rw [List.minOn?_cons]
  rcases hl : l.minOn? f with - | b
  · rfl
  · rw [Option.elim_some, minOn_eq_if, if_pos (h b (List.minOn?_mem hl))]

/-- **Groups that are headed by their least element** are represented by their heads. -/
theorem minOn?_flatMap {β : Type} {g : β → List α} {groups : List β}
    (h : ∀ a ∈ groups, (g a).minOn? f = (g a).head?) :
    (groups.flatMap g).minOn? f = (groups.filterMap fun a ↦ (g a).head?).minOn? f := by
  induction groups with
  | nil => rfl
  | cons a groups ih =>
    rw [List.flatMap_cons, List.minOn?_append, h a List.mem_cons_self,
      ih fun b hb ↦ h b (List.mem_cons_of_mem _ hb)]
    rcases ha : (g a).head? with - | b
    · rw [List.filterMap_cons, ha]
      cases (groups.filterMap fun a ↦ (g a).head?).minOn? f <;> rfl
    · rw [List.filterMap_cons, ha, List.minOn?_cons]
      cases (groups.filterMap fun a ↦ (g a).head?).minOn? f <;> rfl

end GridGeometry
