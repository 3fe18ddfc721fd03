import GridGeometry.Contour.Inside
import GridGeometry.Proofs.Box
import GridGeometry.Proofs.Contour.Cycle
import Mathlib.Tactic.Linarith
import Mathlib.Tactic.Ring

/-!
# Crossing parity

Whether a point is inside a contour is decided edge by edge, with a special case for every way in
which an edge can touch the point. Away from the edges all of this is one question:
`Contour.contains_iff` says that a point on no edge is inside exactly when the ray from it crosses
an odd number of edges, whatever the box of the contour and the number of its vertices.

A closed cycle enters and leaves every set of points an even number of times
(`Contour.even_entering`). For the points below a height this says that it straddles the height an
even number of times: a ray that crosses an odd number of edges leaves an odd number of the
straddling ones behind it, which the bound on `x` rests on.
-/

namespace GridGeometry

namespace Segment

variable {e : Segment} {p : Point} {y : Int}

/-! ### An edge and a ray -/

/-- The ends of the edge lie on different sides of the height `y`, which counts as its upper side.
-/
def Straddles (e : Segment) (y : Int) : Prop :=
  e.start.y < y ∧ y ≤ e.stop.y ∨ e.stop.y < y ∧ y ≤ e.start.y

instance (e : Segment) (y : Int) : Decidable (e.Straddles y) :=
  inferInstanceAs (Decidable (e.start.y < y ∧ y ≤ e.stop.y ∨ e.stop.y < y ∧ y ≤ e.start.y))

theorem straddles_iff : e.Straddles y ↔ ¬ (e.start.y < y ↔ e.stop.y < y) := by
  rw [Straddles]
  omega

/-- Just one end of the edge is in the set `s`. -/
def Enters (e : Segment) (s : Point → Prop) : Prop := ¬ (s e.start ↔ s e.stop)

instance (e : Segment) (s : Point → Prop) [DecidablePred s] : Decidable (e.Enters s) :=
  inferInstanceAs (Decidable (¬ (s e.start ↔ s e.stop)))

/-- The edge crosses the ray from `p` in the direction of growing `x`: it straddles the height of
`p`, and `p` lies on its left when it runs upward and on its right when it runs downward. -/
def Crosses (e : Segment) (p : Point) : Prop :=
  e.start.y < p.y ∧ p.y ≤ e.stop.y ∧ 0 < e.side p ∨
    e.stop.y < p.y ∧ p.y ≤ e.start.y ∧ e.side p < 0

instance (e : Segment) (p : Point) : Decidable (e.Crosses p) :=
  inferInstanceAs (Decidable (e.start.y < p.y ∧ p.y ≤ e.stop.y ∧ 0 < e.side p ∨
    e.stop.y < p.y ∧ p.y ≤ e.start.y ∧ e.side p < 0))

theorem Crosses.straddles (h : e.Crosses p) : e.Straddles p.y := by
  rcases h with ⟨h₁, h₂, -⟩ | ⟨h₁, h₂, -⟩
  · exact .inl ⟨h₁, h₂⟩
  · exact .inr ⟨h₁, h₂⟩

theorem cross_eq_side : Point.cross p e.start e.stop = e.side p := by
  unfold side Point.cross
  ring

theorem side_eq : e.side p =
    (e.start.x - p.x) * (e.stop.y - p.y) - (e.start.y - p.y) * (e.stop.x - p.x) :=
  cross_eq_side.symm

theorem contains_iff : e.contains p = true ↔ e.side p = 0 ∧ e.BoxHolds p := by
  rw [contains, Bool.and_eq_true, decide_eq_true_eq, decide_eq_true_eq]

theorem contains_start (e : Segment) : e.contains e.start = true := by
  rw [contains_iff, side_eq, BoxHolds]
  refine ⟨by ring, ?_⟩
  omega

/-- A point to the left of both ends of a straddling edge has it on its ray. -/
theorem Straddles.crosses_of_lt (h : e.Straddles p.y) (h₁ : p.x < e.start.x) (h₂ : p.x < e.stop.x) :
    e.Crosses p := by
  rw [Crosses, side_eq]
  rcases h with ⟨ha, hb⟩ | ⟨ha, hb⟩
  · exact .inl ⟨ha, hb, by nlinarith⟩
  · exact .inr ⟨ha, hb, by nlinarith⟩

/-- The ray reaches as far to the right as the edges that it crosses. -/
theorem Crosses.lt_max (h : e.Crosses p) : p.x < max e.start.x e.stop.x := by
  by_contra hle
  have h₁ : e.start.x ≤ p.x := by omega
  have h₂ : e.stop.x ≤ p.x := by omega
  rw [Crosses, side_eq] at h
  rcases h with ⟨ha, hb, hside⟩ | ⟨ha, hb, hside⟩ <;> nlinarith

/-- **On the line of a straddling edge means on the edge.** -/
theorem Straddles.contains (h : e.Straddles p.y) (hside : e.side p = 0) : e.contains p = true := by
  refine contains_iff.2 ⟨hside, ?_⟩
  -- A point beside both ends would lie on one side of the line.
  have hleft : ¬ (p.x < e.start.x ∧ p.x < e.stop.x) := by
    intro ⟨h₁, h₂⟩
    have := Straddles.crosses_of_lt h h₁ h₂
    rw [Crosses, hside] at this
    omega
  rw [side_eq] at hside
  have hright : ¬ (e.start.x < p.x ∧ e.stop.x < p.x) := by
    intro ⟨h₁, h₂⟩
    rcases h with ⟨ha, hb⟩ | ⟨ha, hb⟩ <;> nlinarith
  rw [Straddles] at h
  rw [BoxHolds]
  omega

/-- A point off a straddling edge is off its line. -/
theorem Straddles.side_ne_zero (h : e.Straddles p.y) (hoff : e.contains p = false) :
    e.side p ≠ 0 := by
  intro hside
  simp [h.contains hside] at hoff

/-- A straddling edge crosses the ray of a point when neither end is to the left of the point. -/
theorem Straddles.crosses_of_le (h : e.Straddles p.y) (hoff : e.contains p = false)
    (h₁ : p.x ≤ e.start.x) (h₂ : p.x ≤ e.stop.x) : e.Crosses p := by
  have hside := h.side_ne_zero hoff
  rw [side_eq] at hside
  rw [Crosses, side_eq]
  rcases h with ⟨ha, hb⟩ | ⟨ha, hb⟩
  · exact .inl ⟨ha, hb, lt_of_le_of_ne (by nlinarith) hside.symm⟩
  · exact .inr ⟨ha, hb, lt_of_le_of_ne (by nlinarith) hside⟩

/-- An edge that does not straddle the height of a point passes through it, or misses its ray. -/
theorem rayHit_of_not_straddles (h : ¬ e.Straddles p.y) (hoff : e.contains p = false) :
    rayHit p e = .miss := by
  rw [Straddles] at h
  have hcond : ¬ (e.stop.y = p.y ∧
      (e.stop.x = p.x ∨ e.start.y = p.y ∧ (p.x < e.stop.x ↔ e.start.x < p.x))) := by
    rintro ⟨hstop, hx⟩
    have hside : e.side p = 0 := by
      rw [side_eq, hstop]
      rcases hx with hx | ⟨hstart, -⟩
      · rw [hx]
        ring
      · rw [hstart]
        ring
    have hbox : ¬ e.BoxHolds p := by
      intro hbox
      simp [contains_iff.2 ⟨hside, hbox⟩] at hoff
    rw [BoxHolds] at hbox
    omega
  rw [rayHit, if_neg hcond,
    if_pos (show e.start.y < p.y ↔ e.stop.y < p.y by omega)]

/-- An edge that straddles the height of a point crosses its ray as the side says on which the point
lies. -/
theorem Straddles.rayHit_eq (h : e.Straddles p.y) (hoff : e.contains p = false) :
    rayHit p e = if e.Crosses p then .crossing else .miss := by
  have hside := h.side_ne_zero hoff
  have hcond : ¬ (e.stop.y = p.y ∧
      (e.stop.x = p.x ∨ e.start.y = p.y ∧ (p.x < e.stop.x ↔ e.start.x < p.x))) := by
    rintro ⟨hstop, hx⟩
    rw [Straddles] at h
    rcases hx with hx | ⟨hstart, -⟩
    · rw [side_eq, hstop, hx] at hside
      exact hside (by ring)
    · omega
  have hy : ¬ (e.start.y < p.y ↔ e.stop.y < p.y) := by
    rw [Straddles] at h
    omega
  rw [rayHit, if_neg hcond, if_neg hy, cross_eq_side]
  by_cases hboth : p.x ≤ e.start.x ∧ p.x < e.stop.x
  · rw [if_pos hboth, if_pos (h.crosses_of_le hoff hboth.1 hboth.2.le)]
  · rw [if_neg hboth]
    by_cases heither : p.x ≤ e.start.x ∨ p.x < e.stop.x
    · have hcross : (0 < e.side p ↔ e.start.y < e.stop.y) ↔ e.Crosses p := by
        rw [Crosses]
        rw [Straddles] at h
        omega
      rw [if_pos heither]
      simp only [if_neg hside, hcross]
    · have hcross : ¬ e.Crosses p := by
        intro hcross
        have := hcross.lt_max
        omega
      rw [if_neg heither, if_neg hcross]

/-- **Away from an edge**, the special cases of `rayHit` come down to whether the edge crosses the
ray. -/
theorem rayHit_eq (hoff : e.contains p = false) :
    rayHit p e = if e.Crosses p then .crossing else .miss := by
  by_cases h : e.Straddles p.y
  · exact h.rayHit_eq hoff
  · rw [rayHit_of_not_straddles h hoff, if_neg fun hc ↦ h hc.straddles]

end Segment

/-! ### Around a cycle -/

namespace Contour

variable {l : List Point} {edges : List Segment} {p last : Point} {e : Segment} {y : Int}

theorem mem_of_mem_pathTo (he : e ∈ pathTo l last) :
    e.start ∈ l ∧ (e.stop ∈ l ∨ e.stop = last) := by
  induction l with
  | nil => simp [pathTo] at he
  | cons q l ih =>
    rw [pathTo, List.mem_cons] at he
    rcases he with rfl | he
    · refine ⟨List.mem_cons_self, ?_⟩
      cases l with
      | nil => exact .inr rfl
      | cons r l => exact .inl (List.mem_cons_of_mem _ List.mem_cons_self)
    · obtain ⟨hstart, hstop⟩ := ih he
      exact ⟨List.mem_cons_of_mem _ hstart, hstop.imp_left (List.mem_cons_of_mem _)⟩

/-- The edges of a cycle join vertices of it. -/
theorem mem_of_mem_cycle (he : e ∈ cycle l) : e.start ∈ l ∧ e.stop ∈ l := by
  cases l with
  | nil => simp [cycle] at he
  | cons q l =>
    rw [cycle_cons] at he
    obtain ⟨hstart, hstop⟩ := mem_of_mem_pathTo he
    exact ⟨hstart, hstop.elim id fun heq ↦ heq ▸ List.mem_cons_self⟩

/-- A path enters and leaves a set of points an odd number of times when just one of its ends is in
the set. -/
theorem countP_enters_pathTo (s : Point → Prop) [DecidablePred s] :
    (pathTo l last).countP (·.Enters s) % 2 = if s (l.headD last) ↔ s last then 0 else 1 := by
  induction l with
  | nil => simp [pathTo]
  | cons q l ih =>
    rw [pathTo, List.countP_cons, Nat.add_mod, ih, List.headD_cons]
    generalize l.headD last = r
    by_cases hq : s q <;> by_cases hr : s r <;> by_cases hlast : s last <;>
      simp [Segment.Enters, hq, hr, hlast]

/-- **A closed cycle enters and leaves a set of points an even number of times.** -/
theorem even_entering (s : Point → Prop) [DecidablePred s] (l : List Point) :
    (cycle l).countP (·.Enters s) % 2 = 0 := by
  cases l with
  | nil => rfl
  | cons q l => rw [cycle_cons, countP_enters_pathTo, List.headD_cons, if_pos Iff.rfl]

/-- Edges with just one of two properties are as many as the edges with either, up to an even
number. -/
theorem countP_add_mod_two {r f g : Segment → Prop} [DecidablePred r] [DecidablePred f]
    [DecidablePred g] (h : ∀ e ∈ edges, r e ↔ ¬ (f e ↔ g e)) :
    (edges.countP (fun e ↦ f e) + edges.countP (fun e ↦ g e)) % 2 =
      edges.countP (fun e ↦ r e) % 2 := by
  induction edges with
  | nil => rfl
  | cons e edges ih =>
    have hrest := ih fun e he ↦ h e (List.mem_cons_of_mem _ he)
    have he := h e List.mem_cons_self
    simp only [List.countP_cons, decide_eq_true_eq]
    by_cases hf : f e <;> by_cases hg : g e <;>
      simp only [hf, hg, he, iff_true, iff_false, not_true, not_false_iff, if_true, if_false] <;>
      omega

/-- **Two ways of counting the edges of a cycle have the same parity** when they differ just on the
edges that enter or leave a set of points. -/
theorem countP_mod_two_eq {f g : Segment → Prop} [DecidablePred f] [DecidablePred g]
    (s : Point → Prop) [DecidablePred s] (h : ∀ e ∈ cycle l, e.Enters s ↔ ¬ (f e ↔ g e)) :
    (cycle l).countP (fun e ↦ f e) % 2 = (cycle l).countP (fun e ↦ g e) % 2 := by
  have hsum := countP_add_mod_two h
  rw [even_entering] at hsum
  omega

/-- A closed cycle straddles every height an even number of times. -/
theorem even_straddling (y : Int) (l : List Point) :
    (cycle l).countP (·.Straddles y) % 2 = 0 := by
  rw [← even_entering (fun v ↦ v.y < y) l]
  exact congrArg (· % 2) (List.countP_congr fun e _ ↦ by
    rw [decide_eq_true_eq, decide_eq_true_eq, Segment.straddles_iff, Segment.Enters])

/-- The number of edges that cross the ray from `p`. -/
def crossings (p : Point) (edges : List Segment) : Nat := edges.countP (·.Crosses p)

theorem parityInside_iff (hoff : ∀ e ∈ edges, e.contains p = false) :
    ParityInside p edges ↔ crossings p edges % 2 = 1 := by
  have hcount : edges.countP (fun e ↦ rayHit p e = .crossing) = crossings p edges :=
    List.countP_congr fun e he ↦ by simp [Segment.rayHit_eq (hoff e he)]
  have hnone : ¬ ∃ e ∈ edges, rayHit p e = .through := by
    rintro ⟨e, he, hthrough⟩
    rw [Segment.rayHit_eq (hoff e he)] at hthrough
    split at hthrough <;> simp at hthrough
  rw [ParityInside, hcount, or_iff_right hnone]

/-- An odd number of crossings leaves an edge on the other side of the point. -/
theorem exists_not_crosses (hodd : crossings p (cycle l) % 2 = 1) :
    ∃ e ∈ cycle l, e.Straddles p.y ∧ ¬ e.Crosses p := by
  by_contra hnone
  -- Otherwise the crossed edges would be the straddling ones, an even number.
  have heq : crossings p (cycle l) = (cycle l).countP (·.Straddles p.y) := by
    refine List.countP_congr fun e he ↦ ?_
    rw [decide_eq_true_eq, decide_eq_true_eq]
    refine ⟨Segment.Crosses.straddles, fun hs ↦ ?_⟩
    by_contra hc
    exact hnone ⟨e, he, hs, hc⟩
  rw [heq, even_straddling] at hodd
  simp at hodd

/-- A cycle of fewer than three vertices runs along every edge in both directions. -/
theorem three_le_length (hodd : crossings p (cycle l) % 2 = 1) : 3 ≤ l.length := by
  match l with
  | [] => simp [crossings, cycle] at hodd
  | [a] =>
    have hnot : ¬ (⟨a, a⟩ : Segment).Crosses p := by
      simp only [Segment.Crosses]
      omega
    simp [crossings, cycle, hnot] at hodd
  | [a, b] =>
    have hiff : (⟨b, a⟩ : Segment).Crosses p ↔ (⟨a, b⟩ : Segment).Crosses p := by
      have hside : (⟨b, a⟩ : Segment).side p = -(⟨a, b⟩ : Segment).side p := by
        unfold Segment.side Point.cross
        ring
      simp only [Segment.Crosses, hside]
      omega
    by_cases hc : (⟨a, b⟩ : Segment).Crosses p <;> simp [crossings, cycle, hiff, hc] at hodd
  | a :: b :: c :: l => exact Nat.le_add_left 3 _

/-- **Crossing parity.** A point on no edge is inside exactly when its ray crosses an odd number of
edges. -/
theorem contains_iff {c : Contour} (hoff : ∀ e ∈ cycle c.points, e.contains p = false) :
    c.contains p = true ↔ crossings p (cycle c.points) % 2 = 1 := by
  rw [contains]
  rcases hb : c.box? with - | b
  · have hnil : c.points = [] := by
      rw [box?] at hb
      cases hp : c.points with
      | nil => rfl
      | cons q l => simp [hp, Box.ofPoints?] at hb
    simp [hnil, crossings, cycle]
  · rw [decide_eq_true_eq, parityInside_iff hoff]
    refine ⟨fun h ↦ h.2.2, fun hodd ↦ ⟨?_, three_le_length hodd, hodd⟩⟩
    -- The point lies between an edge behind it and one that its ray crosses.
    obtain ⟨e, he, hs, hnot⟩ := exists_not_crosses hodd
    obtain ⟨f, hf, hcross⟩ := List.countP_pos_iff.1 (show 0 < crossings p (cycle c.points) by omega)
    rw [decide_eq_true_eq] at hcross
    have hmem : ∀ {v : Point}, v ∈ c.points → v ∈ b := fun hv ↦ Box.mem_of_ofPoints? hb hv
    have hea := Box.mem_iff.1 (hmem (mem_of_mem_cycle he).1)
    have heb := Box.mem_iff.1 (hmem (mem_of_mem_cycle he).2)
    have hfa := Box.mem_iff.1 (hmem (mem_of_mem_cycle hf).1)
    have hfb := Box.mem_iff.1 (hmem (mem_of_mem_cycle hf).2)
    have hlow : ¬ (p.x < e.start.x ∧ p.x < e.stop.x) := fun h ↦ hnot (hs.crosses_of_lt h.1 h.2)
    have hhigh := hcross.lt_max
    rw [Segment.Straddles] at hs
    rw [Box.mem_iff]
    omega

/-- Off all edges, a point is inside an odd number of contours when its ray crosses an odd number of
their edges. -/
theorem foldr_contains {l : List Contour} {p : Point}
    (hoff : ∀ c ∈ l, ∀ e ∈ cycle c.points, e.contains p = false) :
    l.foldr (fun c inside ↦ c.contains p ^^ inside) false =
      decide ((l.map fun c ↦ crossings p (cycle c.points)).sum % 2 = 1) := by
  induction l with
  | nil => rfl
  | cons c l ih =>
    have hc := contains_iff (hoff c List.mem_cons_self)
    rw [List.foldr_cons, ih fun d hd ↦ hoff d (List.mem_cons_of_mem _ hd), List.map_cons,
      List.sum_cons]
    rw [Bool.eq_iff_iff, Bool.xor_iff_ne, decide_eq_true_eq, ne_eq, Bool.eq_iff_iff, hc,
      decide_eq_true_eq]
    omega

/-- The point is inside the contour and on no edge of the closed cycle through its vertices. -/
def Encloses (c : Contour) (p : Point) : Prop :=
  c.contains p = true ∧ ∀ e ∈ cycle c.points, e.contains p = false

instance (c : Contour) (p : Point) : Decidable (c.Encloses p) :=
  inferInstanceAs (Decidable (c.contains p = true ∧ ∀ e ∈ cycle c.points, e.contains p = false))

/-- An enclosed point has edges behind it, not only ahead of it. -/
theorem Encloses.exists_not_crosses {c : Contour} (h : c.Encloses p) :
    ∃ e ∈ cycle c.points, e.Straddles p.y ∧ ¬ e.Crosses p :=
  Contour.exists_not_crosses ((contains_iff h.2).1 h.1)

end Contour

end GridGeometry
