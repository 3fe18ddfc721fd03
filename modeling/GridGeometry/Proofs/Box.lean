import GridGeometry.Box

/-!
# The box of a list of points

Points are put into a box one after another, and the box that results does not show in which order,
or how often each of them came. It is told by the boxes that it lies in: those that hold all the
points (`Box.within_iff_of_ofPoints?`). So it is the least box that holds them, two lists with the
same points have the same box (`Box.ofPoints?_congr`), and boxes of parts of a list make up the box
of the whole list (`Box.ofPoints?_flatten`).

A box that is grown stops at the ends of the grid. No point of the grid is lost by that: what is
near a point of the box is in the grown box (`Box.mem_grow`).
-/

namespace GridGeometry

/-- A coordinate on the grid is left as it is. -/
theorem Coordinate.clamp_eq_self {n : Int} (h : InRange n) : clamp n = n := by
  obtain ⟨hleast, hgreatest⟩ := h
  rw [clamp]
  omega

namespace Box

variable {b d : Box} {l m : List Point} {p q : Point} {boxes : List Box} {ls : List (List Point)}

theorem mem_iff : p ∈ b ↔ b.low.x ≤ p.x ∧ p.x ≤ b.high.x ∧ b.low.y ≤ p.y ∧ p.y ≤ b.high.y :=
  Iff.rfl

/-- The box lies within another one, edges included. -/
def Within (b d : Box) : Prop :=
  d.low.x ≤ b.low.x ∧ b.high.x ≤ d.high.x ∧ d.low.y ≤ b.low.y ∧ b.high.y ≤ d.high.y

instance (b d : Box) : Decidable (b.Within d) :=
  inferInstanceAs (Decidable
    (d.low.x ≤ b.low.x ∧ b.high.x ≤ d.high.x ∧ d.low.y ≤ b.low.y ∧ b.high.y ≤ d.high.y))

theorem Within.refl (b : Box) : b.Within b :=
  ⟨Int.le_refl _, Int.le_refl _, Int.le_refl _, Int.le_refl _⟩

theorem Within.antisymm (h : b.Within d) (h' : d.Within b) : b = d := by
  obtain ⟨⟨lx, ly⟩, ⟨hx, hy⟩⟩ := b
  obtain ⟨⟨lx', ly'⟩, ⟨hx', hy'⟩⟩ := d
  simp only [Within] at h h'
  simp only [mk.injEq, Point.mk.injEq]
  omega

/-- A box is told by the boxes that it lies in. -/
theorem eq_of_within_iff (h : ∀ e, b.Within e ↔ d.Within e) : b = d :=
  ((h d).2 (Within.refl d)).antisymm ((h b).1 (Within.refl b))

/-- What is in a box is in every box that this one lies in. -/
theorem Within.mem (h : b.Within d) (hp : p ∈ b) : p ∈ d := by
  rw [mem_iff] at hp ⊢
  rw [Within] at h
  omega

theorem ofPoint_within_iff : (ofPoint p).Within d ↔ p ∈ d := Iff.rfl

/-- A box with one more point lies within just the boxes that hold it and the point. -/
theorem insert_within_iff : (b.insert p).Within d ↔ b.Within d ∧ p ∈ d := by
  simp only [Within, insert, mem_iff]
  omega

theorem foldl_insert_within_iff :
    (l.foldl insert b).Within d ↔ b.Within d ∧ ∀ p ∈ l, p ∈ d := by
  induction l generalizing b with
  | nil => simp
  | cons q l ih => rw [List.foldl_cons, ih, insert_within_iff, List.forall_mem_cons, and_assoc]

/-- The union of two boxes lies within just the boxes in which both lie. -/
theorem union_within_iff {c : Box} : (b.union c).Within d ↔ b.Within d ∧ c.Within d := by
  simp only [Within, union]
  omega

theorem foldl_union_within_iff :
    (boxes.foldl union b).Within d ↔ b.Within d ∧ ∀ c ∈ boxes, c.Within d := by
  induction boxes generalizing b with
  | nil => simp
  | cons c boxes ih =>
    rw [List.foldl_cons, ih, union_within_iff, List.forall_mem_cons, and_assoc]

/-! ### The box of some points -/

/-- **The box of some points lies within just the boxes that hold all of them.** -/
theorem within_iff_of_ofPoints? (hb : ofPoints? l = some b) :
    b.Within d ↔ ∀ p ∈ l, p ∈ d := by
  cases l with
  | nil => simp [ofPoints?] at hb
  | cons q l =>
    obtain rfl := Option.some.inj hb
    rw [foldl_insert_within_iff, ofPoint_within_iff, List.forall_mem_cons]

/-- The box of a list of points holds each of them. -/
theorem mem_of_ofPoints? (hb : ofPoints? l = some b) (hp : p ∈ l) : p ∈ b :=
  (within_iff_of_ofPoints? hb).1 (Within.refl b) p hp

/-- Only where there is no point is there no box. -/
theorem ofPoints?_eq_none_iff : ofPoints? l = none ↔ l = [] := by
  cases l <;> simp [ofPoints?]

/-- **The box depends only on which points there are**, not on their order or number. -/
theorem ofPoints?_congr (h : ∀ p, p ∈ l ↔ p ∈ m) : ofPoints? l = ofPoints? m := by
  have hnil : l = [] ↔ m = [] := by simp only [List.eq_nil_iff_forall_not_mem, h]
  rcases hl : ofPoints? l with - | b
  · rw [ofPoints?_eq_none_iff, hnil, ← ofPoints?_eq_none_iff] at hl
    exact hl.symm
  · rcases hm : ofPoints? m with - | d
    · rw [ofPoints?_eq_none_iff, ← hnil, ← ofPoints?_eq_none_iff, hl] at hm
      exact absurd hm (Option.some_ne_none b)
    · exact congrArg some (eq_of_within_iff fun e ↦ by
        rw [within_iff_of_ofPoints? hl, within_iff_of_ofPoints? hm]
        simp only [h])

/-! ### Boxes of several lists -/

theorem filterMap_ofPoints?_eq_nil_iff : ls.filterMap ofPoints? = [] ↔ ls.flatten = [] := by
  simp only [List.filterMap_eq_nil_iff, ofPoints?_eq_none_iff, List.flatten_eq_nil_iff]

/-- The boxes of some lists lie within just the boxes that hold all points of the lists. A list
without points has no box and no part in either side. -/
theorem forall_within_iff : (∀ c ∈ ls.filterMap ofPoints?, c.Within d) ↔
    ∀ p ∈ ls.flatten, p ∈ d := by
  constructor
  · intro h p hp
    obtain ⟨l, hl, hpl⟩ := List.mem_flatten.1 hp
    rcases hc : ofPoints? l with - | c
    · rw [ofPoints?_eq_none_iff.1 hc] at hpl
      exact absurd hpl List.not_mem_nil
    · exact (h c (List.mem_filterMap.2 ⟨l, hl, hc⟩)).mem (mem_of_ofPoints? hc hpl)
  · intro h c hc
    obtain ⟨l, hl, hlc⟩ := List.mem_filterMap.1 hc
    exact (within_iff_of_ofPoints? hlc).2 fun p hp ↦ h p (List.mem_flatten.2 ⟨l, hl, hp⟩)

/-- **The boxes of several lists, put together**, are the box of all their points. -/
theorem ofPoints?_flatten (h : ls.filterMap ofPoints? = b :: boxes) :
    ofPoints? ls.flatten = some (boxes.foldl union b) := by
  rcases hd : ofPoints? ls.flatten with - | d
  · rw [ofPoints?_eq_none_iff, ← filterMap_ofPoints?_eq_nil_iff, h] at hd
    exact absurd hd (List.cons_ne_nil b boxes)
  · refine congrArg some (eq_of_within_iff fun e ↦ ?_)
    rw [within_iff_of_ofPoints? hd, foldl_union_within_iff, ← forall_within_iff, h,
      List.forall_mem_cons]

/-! ### Growing -/

/-- **A grown box holds what is near the box.** Its sides may have stopped at the ends of the grid,
but no point of the grid is beyond these. -/
theorem mem_grow {c : Int} (hp : p ∈ b) (hq : q.OnGrid) (hx : p.x - c ≤ q.x ∧ q.x ≤ p.x + c)
    (hy : p.y - c ≤ q.y ∧ q.y ≤ p.y + c) : q ∈ b.grow c := by
  obtain ⟨⟨hleast, hgreatest⟩, hleast', hgreatest'⟩ := hq
  rw [mem_iff] at hp ⊢
  simp only [grow, Coordinate.clamp]
  omega

/-- Both corners of the box are on the grid. -/
def OnGrid (b : Box) : Prop := b.low.OnGrid ∧ b.high.OnGrid

/-- The box of points on the grid is on the grid. -/
theorem onGrid_of_ofPoints? (hb : ofPoints? l = some b) (hl : ∀ p ∈ l, p.OnGrid) : b.OnGrid := by
  have hwithin : b.Within ⟨⟨Coordinate.least, Coordinate.least⟩,
      ⟨Coordinate.greatest, Coordinate.greatest⟩⟩ :=
    (within_iff_of_ofPoints? hb).2 fun p hp ↦
      ⟨(hl p hp).1.1, (hl p hp).1.2, (hl p hp).2.1, (hl p hp).2.2⟩
  -- A point in the box keeps its corners in order.
  obtain ⟨p, hp⟩ : ∃ p, p ∈ l := List.exists_mem_of_ne_nil l fun hnil ↦ by
    simp [ofPoints?_eq_none_iff.2 hnil] at hb
  have hpb := mem_iff.1 (mem_of_ofPoints? hb hp)
  simp only [Within] at hwithin
  simp only [OnGrid, Point.OnGrid, Coordinate.InRange]
  omega

/-- A box on the grid stays as it is when it is grown by nothing. -/
theorem grow_zero (h : b.OnGrid) : b.grow 0 = b := by
  obtain ⟨⟨hlx, hly⟩, hhx, hhy⟩ := h
  simp only [grow, Int.sub_zero, Int.add_zero, Coordinate.clamp_eq_self hlx,
    Coordinate.clamp_eq_self hly, Coordinate.clamp_eq_self hhx, Coordinate.clamp_eq_self hhy]

end Box

end GridGeometry
