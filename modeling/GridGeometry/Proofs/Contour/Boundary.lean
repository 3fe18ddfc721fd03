import GridGeometry.Proofs.Contour.Parity

/-!
# Points on the boundary

A point on an edge counts as inside. The edge that reports it need not be the one that it lies on: a
vertex is reported by the edge that ends there (`Contour.exists_through`). With crossing parity for
all other points this says which points are inside, and only contours of fewer than three vertices
are an exception (`Contour.contains_iff_or`).
-/

namespace GridGeometry

theorem Point.eq_iff {p q : Point} : p = q ↔ p.x = q.x ∧ p.y = q.y := by
  cases p
  cases q
  rw [mk.injEq]

namespace Segment

variable {e : Segment} {p : Point}

/-- An edge reports the vertex where it ends. -/
theorem rayHit_of_stop (h : e.stop = p) : rayHit p e = .through := by
  rw [rayHit, if_pos]
  rw [h]
  exact ⟨rfl, .inl rfl⟩

/-! ### Between the ends of an edge -/

/-- On the line of an edge, the height of its start is reached at its start or everywhere. -/
theorem start_eq_or_horizontal (hside : e.side p = 0) (hy : e.start.y = p.y) :
    e.start = p ∨ e.stop.y = p.y := by
  rw [side_eq, hy, sub_self, zero_mul, sub_zero, mul_eq_zero] at hside
  rw [Point.eq_iff]
  omega

theorem stop_eq_or_horizontal (hside : e.side p = 0) (hy : e.stop.y = p.y) :
    e.stop = p ∨ e.start.y = p.y := by
  rw [side_eq, hy, sub_self, mul_zero, zero_sub, neg_eq_zero, mul_eq_zero] at hside
  rw [Point.eq_iff]
  omega

/-- A point of an edge, not an end of it, whose height the edge does not straddle: the edge is
horizontal. -/
theorem horizontal_of_contains (hp : e.contains p = true) (hstart : e.start ≠ p)
    (hstop : e.stop ≠ p) (hs : ¬ e.Straddles p.y) : e.start.y = p.y ∧ e.stop.y = p.y := by
  obtain ⟨hside, hbox⟩ := contains_iff.1 hp
  have hend : e.start.y = p.y ∨ e.stop.y = p.y := by
    rw [BoxHolds] at hbox
    rw [Straddles] at hs
    omega
  rcases hend with hy | hy
  · exact ⟨hy, (start_eq_or_horizontal hside hy).resolve_left hstart⟩
  · exact ⟨(stop_eq_or_horizontal hside hy).resolve_left hstop, hy⟩

/-- A straddling edge reports the points between its ends. -/
theorem Straddles.rayHit_eq_through (hs : e.Straddles p.y) (hp : e.contains p = true)
    (hstart : e.start ≠ p) (hstop : e.stop ≠ p) : rayHit p e = .through := by
  obtain ⟨hside, hbox⟩ := contains_iff.1 hp
  have hy : ¬ (e.start.y < p.y ↔ e.stop.y < p.y) := straddles_iff.1 hs
  -- The two tests on `x` alone would put the point beside its own edge.
  have hboth : ¬ (p.x ≤ e.start.x ∧ p.x < e.stop.x) := by
    intro ⟨h₁, h₂⟩
    rcases Int.lt_or_eq_of_le h₁ with h₁ | h₁
    · have hcross := hs.crosses_of_lt h₁ h₂
      rw [Crosses, hside] at hcross
      omega
    · rw [side_eq, ← h₁, sub_self, zero_mul, zero_sub, neg_eq_zero, mul_eq_zero] at hside
      rw [ne_eq, Point.eq_iff] at hstart
      omega
  have heither : p.x ≤ e.start.x ∨ p.x < e.stop.x := by
    by_contra hnot
    have hx : e.stop.x = p.x := by
      rw [BoxHolds] at hbox
      omega
    rw [side_eq, hx, sub_self, mul_zero, sub_zero, mul_eq_zero] at hside
    rw [ne_eq, Point.eq_iff] at hstop
    omega
  unfold rayHit
  rw [if_neg hy, if_neg hboth, if_pos heither, cross_eq_side]
  simp only [if_pos hside, ite_self]

/-- **An edge reports the points between its ends.** -/
theorem rayHit_eq_through (hp : e.contains p = true) (hstart : e.start ≠ p) (hstop : e.stop ≠ p) :
    rayHit p e = .through := by
  by_cases hs : e.Straddles p.y
  · exact hs.rayHit_eq_through hp hstart hstop
  · obtain ⟨hy₁, hy₂⟩ := horizontal_of_contains hp hstart hstop hs
    obtain ⟨-, hbox⟩ := contains_iff.1 hp
    rw [BoxHolds] at hbox
    rw [ne_eq, Point.eq_iff] at hstart hstop
    rw [rayHit, if_pos]
    omega

end Segment

namespace Contour

variable {c d : Contour} {l : List Point} {p q : Point}

/-- **Every point of a cycle is reported** by an edge of it. -/
theorem exists_through (h : ∃ e ∈ cycle l, e.contains p = true) :
    ∃ e ∈ cycle l, rayHit p e = .through := by
  by_cases hp : p ∈ l
  · obtain ⟨e, he, hstop⟩ := exists_mem_cycle_stop hp
    exact ⟨e, he, Segment.rayHit_of_stop hstop⟩
  · obtain ⟨e, he, hep⟩ := h
    obtain ⟨hstart, hstop⟩ := mem_of_mem_cycle he
    refine ⟨e, he, Segment.rayHit_eq_through hep ?_ ?_⟩
    · exact fun heq ↦ hp (heq ▸ hstart)
    · exact fun heq ↦ hp (heq ▸ hstop)

/-- The box of a contour holds its edges. -/
theorem mem_box_of_contains {b : Box} {e : Segment} (hb : c.box? = some b)
    (he : e ∈ cycle c.points) (hp : e.contains p = true) : p ∈ b := by
  obtain ⟨-, hbox⟩ := Segment.contains_iff.1 hp
  have hstart := Box.mem_iff.1 (Box.mem_of_ofPoints? hb (mem_of_mem_cycle he).1)
  have hstop := Box.mem_iff.1 (Box.mem_of_ofPoints? hb (mem_of_mem_cycle he).2)
  rw [Segment.BoxHolds] at hbox
  rw [Box.mem_iff]
  omega

/-- A contour with an edge has a box. -/
theorem exists_box {e : Segment} (he : e ∈ cycle c.points) : ∃ b, c.box? = some b := by
  rw [box?]
  cases hp : c.points with
  | nil => simp [hp, cycle] at he
  | cons q l => exact ⟨_, rfl⟩

theorem three_le_size (h : c.contains p = true) : 3 ≤ c.size := by
  rw [contains] at h
  split at h
  · exact (of_decide_eq_true h).2.1
  · simp at h

/-- **Which points are inside.** Of a contour with at least three vertices, these are the points on
its cycle and those whose ray crosses an odd number of edges. -/
theorem contains_iff_or : c.contains p = true ↔ 3 ≤ c.size ∧
    ((∃ e ∈ cycle c.points, e.contains p = true) ∨ crossings p (cycle c.points) % 2 = 1) := by
  by_cases hon : ∃ e ∈ cycle c.points, e.contains p = true
  · rw [or_iff_left_of_imp fun _ ↦ hon, and_iff_left hon]
    refine ⟨three_le_size, fun hsize ↦ ?_⟩
    obtain ⟨e, he, hp⟩ := hon
    obtain ⟨b, hb⟩ := exists_box he
    rw [contains, hb]
    exact decide_eq_true ⟨mem_box_of_contains hb he hp, hsize, .inl (exists_through ⟨e, he, hp⟩)⟩
  · have hoff : ∀ e ∈ cycle c.points, e.contains p = false := by simpa using hon
    rw [or_iff_right hon, contains_iff hoff, size, and_iff_right_of_imp three_le_length]

/-- Two contours of equal size agree on a point each when the points are on both cycles or on none,
and then have the same crossing parity. -/
theorem contains_congr (hsize : c.size = d.size)
    (hon : (∃ e ∈ cycle c.points, e.contains p = true) ↔
      ∃ e ∈ cycle d.points, e.contains q = true)
    (hoff : (∀ e ∈ cycle c.points, e.contains p = false) →
      crossings p (cycle c.points) % 2 = crossings q (cycle d.points) % 2) :
    c.contains p = d.contains q := by
  rw [Bool.eq_iff_iff, contains_iff_or, contains_iff_or, hsize, hon]
  by_cases h : ∃ e ∈ cycle d.points, e.contains q = true
  · simp [h]
  · have hnone : ∀ e ∈ cycle c.points, e.contains p = false := by simpa using mt hon.1 h
    rw [hoff hnone]

end Contour

end GridGeometry
