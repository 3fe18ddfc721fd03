import GridGeometry.Proofs.Contour.Boundary
import GridGeometry.Proofs.Contour.Repeats

/-!
# Contours freed of edges of length zero

`Contour.withoutNullEdges` takes vertices out of a contour, and `Contour.dropNullEdges` counts them.
What both of its steps keep is `Contour.Slims`. Together they leave just the edges of the contour
that have a length, in their order (`Contour.proper_edges_withoutNullEdges`). Only a closed contour
whose vertices are all one point (`Contour.IsDot`) keeps an edge of length zero, that of its last
vertex to itself. So every other edge of length zero costs one vertex
(`Contour.dropNullEdges_exact`).

Area, box and covered points are told by the vertices and by the edges that have a length, for open
contours and closed ones alike, and stay the same (`Contour.dropNullEdges_keeps`). Since these edges
come in the order of the cycle, a closed contour that is started elsewhere is left with the same
vertices, started elsewhere (`Contour.isRotated_slim`).
-/

namespace GridGeometry.Contour

variable {c : Contour} {l m : List Point} {p : Point}

/-! ### What both ways of taking vertices out keep -/

/-- The list `m` is what is left of `l` when vertices go that make edges of length zero: the same
points in the same order, from the same first one on, and around the cycle the same edges that have
a length. -/
structure Slims (l m : List Point) : Prop where
  sublist : m.Sublist l
  mem_iff {p : Point} : p ∈ m ↔ p ∈ l
  head?_eq : m.head? = l.head?
  proper_cycle_eq : proper (cycle m) = proper (cycle l)

theorem Slims.trans {k : List Point} (h : Slims l m) (h' : Slims m k) : Slims l k where
  sublist := h'.sublist.trans h.sublist
  mem_iff := h'.mem_iff.trans h.mem_iff
  head?_eq := h'.head?_eq.trans h.head?_eq
  proper_cycle_eq := h'.proper_cycle_eq.trans h.proper_cycle_eq

/-- Dropping repeats is one of the two ways. -/
theorem slims_dropRepeats (l : List Point) : Slims l (dropRepeats l) where
  sublist := dropRepeats_eq_destutter l ▸ List.destutter_sublist _ l
  mem_iff := mem_dropRepeats
  head?_eq := head?_dropRepeats l
  proper_cycle_eq := proper_cycle_dropRepeats l

theorem dropClosing_sublist (l : List Point) : (dropClosing l).Sublist l := by
  cases l with
  | nil => exact .slnil
  | cons q l => exact (List.rdropWhile_prefix _ l).sublist.cons_cons q

/-- No point is lost at the end, since what goes there equals the first vertex. -/
theorem mem_dropClosing : p ∈ dropClosing l ↔ p ∈ l := by
  refine ⟨fun hp ↦ (dropClosing_sublist l).subset hp, fun hp ↦ ?_⟩
  cases l with
  | nil => exact hp
  | cons q l =>
    rw [← List.rdropWhile_append_rtakeWhile (p := (· == q)) (l := l), ← List.cons_append,
      List.mem_append] at hp
    -- What is taken from the end equals the first vertex.
    refine hp.elim id fun hp ↦ ?_
    have hq : (p == q) = true := List.mem_rtakeWhile_imp (p := (· == q)) hp
    exact eq_of_beq hq ▸ List.mem_cons_self

/-- Dropping the end where it equals the first vertex is the other one. -/
theorem slims_dropClosing (l : List Point) : Slims l (dropClosing l) where
  sublist := dropClosing_sublist l
  mem_iff := mem_dropClosing
  head?_eq := by cases l <;> rfl
  proper_cycle_eq := proper_cycle_dropClosing l

theorem slims_slim (l : List Point) : Slims l (slim l) :=
  (slims_dropRepeats l).trans (slims_dropClosing _)

theorem mem_slim : p ∈ slim l ↔ p ∈ l := (slims_slim l).mem_iff

/-! ### Contours of one point -/

/-- There are vertices, and all of them are one point. -/
def IsDot (l : List Point) : Prop := ∃ p ∈ l, ∀ q ∈ l, q = p

instance (l : List Point) : Decidable (IsDot l) :=
  inferInstanceAs (Decidable (∃ p ∈ l, ∀ q ∈ l, q = p))

/-- Where all vertices are one point, all edges have length zero. -/
theorem IsDot.isPoint (h : IsDot l) {e : Segment} (he : e ∈ cycle l) : e.IsPoint := by
  obtain ⟨p, -, hall⟩ := h
  obtain ⟨hstart, hstop⟩ := mem_of_mem_cycle he
  exact (hall _ hstart).trans (hall _ hstop).symm

/-- **Slim lists of one vertex** are left of just those lists whose vertices are all one point. -/
theorem isDot_iff : IsDot l ↔ (slim l).length = 1 := by
  constructor
  · intro h
    obtain ⟨p, hp, hall⟩ := h
    have hpos : 0 < (slim l).length := List.length_pos_of_mem (mem_slim.2 hp)
    by_contra hne
    obtain ⟨e, he, -⟩ := exists_mem_cycle_stop (mem_slim.2 hp)
    have hdot : IsDot (slim l) := ⟨p, mem_slim.2 hp, fun q hq ↦ hall q (mem_slim.1 hq)⟩
    exact isSlim_slim (by omega) e he (hdot.isPoint he)
  · intro h
    obtain ⟨p, hp⟩ := List.length_eq_one_iff.1 h
    refine ⟨p, mem_slim.1 (hp ▸ List.mem_singleton_self p), fun q hq ↦ ?_⟩
    rw [← mem_slim, hp] at hq
    exact List.mem_singleton.1 hq

theorem slim_of_forall_eq (hp : p ∈ l) (hall : ∀ q ∈ l, q = p) : slim l = [p] := by
  obtain ⟨q, hq⟩ := List.length_eq_one_iff.1 (isDot_iff.1 ⟨p, hp, hall⟩)
  rw [← mem_slim, hq] at hp
  rw [hq, List.mem_singleton.1 hp]

/-- All other lists are left slim. -/
theorem isSlim_slim_of_not_isDot (h : ¬ IsDot l) : IsSlim (slim l) := by
  rw [isDot_iff] at h
  rcases Nat.eq_zero_or_pos (slim l).length with hzero | hpos
  · rw [List.length_eq_zero_iff.1 hzero]
    exact List.forall_mem_nil _
  · exact isSlim_slim (by omega)

/-- What is left stays as it is. -/
theorem slim_slim (l : List Point) : slim (slim l) = slim l := by
  by_cases h : IsDot l
  · obtain ⟨p, hp, hall⟩ := h
    rw [slim_of_forall_eq hp hall]
    rfl
  · exact (isSlim_slim_of_not_isDot h).slim_eq

/-! ### Edges -/

/-- **Of a closed cycle**, the edges that have a length are left. -/
theorem cycle_slim (h : ¬ IsDot l) : cycle (slim l) = proper (cycle l) := by
  rw [← (slims_slim l).proper_cycle_eq, proper_eq_self (isSlim_slim_of_not_isDot h)]

/-- Around a closed cycle, every edge of length zero costs a vertex, but for one if all vertices are
one point. -/
theorem length_slim (l : List Point) :
    (slim l).length + (cycle l).countP (·.IsPoint) = l.length + if IsDot l then 1 else 0 := by
  by_cases h : IsDot l
  · rw [if_pos h, isDot_iff.1 h, Nat.add_comm, List.countP_eq_length.2, length_cycle]
    exact fun e he ↦ decide_eq_true (h.isPoint he)
  · rw [if_neg h, ← length_cycle (l := slim l), cycle_slim h, length_proper, length_cycle,
      Nat.add_zero]

/-! ### Open and closed contours -/

theorem points_withoutNullEdges_of_closed (h : c.closed = true) :
    c.withoutNullEdges.points = slim c.points := if_pos h

theorem points_withoutNullEdges_of_open (h : c.closed = false) :
    c.withoutNullEdges.points = dropRepeats c.points := if_neg (h ▸ Bool.false_ne_true)

theorem edges_of_open (h : c.closed = false) : c.edges = path c.points :=
  if_neg (h ▸ Bool.false_ne_true)

/-- An open contour is rid of its repeats, a closed one also of what equals its start at the end. -/
theorem slims_withoutNullEdges (c : Contour) : Slims c.points c.withoutNullEdges.points := by
  rcases h : c.closed
  · exact points_withoutNullEdges_of_open h ▸ slims_dropRepeats c.points
  · exact points_withoutNullEdges_of_closed h ▸ slims_slim c.points

/-- **A contour keeps its edges that have a length**, in their order. -/
theorem proper_edges_withoutNullEdges (c : Contour) :
    proper c.withoutNullEdges.edges = proper c.edges := by
  rcases h : c.closed
  · rw [edges_of_open (c := c.withoutNullEdges) h, edges_of_open h,
      points_withoutNullEdges_of_open h, path_dropRepeats, proper_eq_self]
    exact fun e he ↦ (mem_proper.1 he).2
  · rw [edges_of_closed (c := c.withoutNullEdges) h, edges_of_closed h,
      (slims_withoutNullEdges c).proper_cycle_eq]

/-- Every edge of length zero costs a vertex, but for one of a closed contour whose vertices are all
one point. -/
theorem size_withoutNullEdges (c : Contour) :
    c.withoutNullEdges.size + c.edges.countP (·.IsPoint) =
      c.size + if c.closed = true ∧ IsDot c.points then 1 else 0 := by
  rcases h : c.closed
  · rw [size, points_withoutNullEdges_of_open h, edges_of_open h, length_dropRepeats,
      if_neg fun hdot ↦ Bool.false_ne_true hdot.1]
    rfl
  · rw [size, points_withoutNullEdges_of_closed h, edges_of_closed h, length_slim]
    simp [size]

/-- No edge of length zero is left, unless one vertex is. -/
theorem not_isPoint_of_mem_edges_withoutNullEdges (h : c.withoutNullEdges.size ≠ 1) {e : Segment}
    (he : e ∈ c.withoutNullEdges.edges) : ¬ e.IsPoint := by
  rcases hc : c.closed
  · rw [edges_of_open (c := c.withoutNullEdges) hc, points_withoutNullEdges_of_open hc,
      path_dropRepeats] at he
    exact (mem_proper.1 he).2
  · rw [size, points_withoutNullEdges_of_closed hc] at h
    rw [edges_of_closed (c := c.withoutNullEdges) hc, points_withoutNullEdges_of_closed hc] at he
    exact isSlim_slim_of_not_isDot (mt isDot_iff.1 h) e he

/-- A second time, nothing is taken out. -/
theorem withoutNullEdges_withoutNullEdges (c : Contour) :
    c.withoutNullEdges.withoutNullEdges = c.withoutNullEdges := by
  refine congrArg (Contour.mk · c.closed) ?_
  show c.withoutNullEdges.withoutNullEdges.points = c.withoutNullEdges.points
  rcases h : c.closed
  · rw [points_withoutNullEdges_of_open (c := c.withoutNullEdges) h,
      points_withoutNullEdges_of_open h, dropRepeats_dropRepeats]
  · rw [points_withoutNullEdges_of_closed (c := c.withoutNullEdges) h,
      points_withoutNullEdges_of_closed h, slim_slim]

/-- **Every edge of length zero costs one vertex**, but for one edge of a closed contour whose
vertices are all one point. Then no edge of length zero is left, or one vertex is. The vertices that
stay are in their order and start with the same one, the contour is open or closed as before, and
nothing is left for a second time. -/
theorem dropNullEdges_exact (c : Contour) :
    c.dropNullEdges.1 + c.dropNullEdges.2.size = c.size ∧
      c.dropNullEdges.1 + (if c.closed = true ∧ IsDot c.points then 1 else 0) =
        c.edges.countP (·.IsPoint) ∧
      (c.dropNullEdges.2.size = 1 ∨ ∀ e ∈ c.dropNullEdges.2.edges, ¬ e.IsPoint) ∧
      c.dropNullEdges.2.points.Sublist c.points ∧
      c.dropNullEdges.2.points.head? = c.points.head? ∧
      c.dropNullEdges.2.closed = c.closed ∧
      c.dropNullEdges.2.dropNullEdges = (0, c.dropNullEdges.2) := by
  have hslims := slims_withoutNullEdges c
  have hle : c.withoutNullEdges.size ≤ c.size := hslims.sublist.length_le
  have hsize := size_withoutNullEdges c
  unfold dropNullEdges
  refine ⟨Nat.sub_add_cancel hle, ?_, ?_, hslims.sublist, hslims.head?_eq, rfl, ?_⟩
  · show c.size - c.withoutNullEdges.size + _ = _
    omega
  · exact (Decidable.em _).imp_right fun h _ ↦ not_isPoint_of_mem_edges_withoutNullEdges h
  · show (c.withoutNullEdges.size - c.withoutNullEdges.withoutNullEdges.size,
      c.withoutNullEdges.withoutNullEdges) = (0, c.withoutNullEdges)
    rw [withoutNullEdges_withoutNullEdges, Nat.sub_self]

example : (closedOf [⟨0, 0⟩, ⟨0, 0⟩, ⟨9, 0⟩, ⟨9, 9⟩, ⟨9, 9⟩, ⟨0, 9⟩, ⟨0, 0⟩]).dropNullEdges =
    (3, closedOf [⟨0, 0⟩, ⟨9, 0⟩, ⟨9, 9⟩, ⟨0, 9⟩]) := by decide

/-! ### What stays the same -/

/-- An open path with an edge covers its vertices. -/
theorem exists_contains_path {q r : Point} (hp : p ∈ q :: r :: l) :
    ∃ e ∈ path (q :: r :: l), e.contains p = true := by
  induction l generalizing q r with
  | nil =>
    rcases List.mem_cons.1 hp with rfl | hp
    · exact ⟨_, List.mem_cons_self, Segment.contains_start ⟨p, r⟩⟩
    · exact ⟨⟨q, r⟩, List.mem_cons_self, List.mem_singleton.1 hp ▸ Segment.contains_stop ⟨q, r⟩⟩
  | cons s l ih =>
    rcases List.mem_cons.1 hp with rfl | hp
    · exact ⟨_, List.mem_cons_self, Segment.contains_start ⟨p, r⟩⟩
    · obtain ⟨e, he, hep⟩ := ih hp
      exact ⟨e, List.mem_cons_of_mem _ he, hep⟩

theorem mem_cycle_of_mem_edges {e : Segment} (he : e ∈ c.edges) : e ∈ cycle c.points := by
  rcases h : c.closed
  · exact (path_prefix_cycle c.points).subset (edges_of_open h ▸ he)
  · exact edges_of_closed h ▸ he

/-- A vertex lies on an edge, unless it is the only one. -/
theorem exists_contains_edges (hone : ∀ v, c.points ≠ [v]) (hp : p ∈ c.points) :
    ∃ e ∈ c.edges, e.contains p = true := by
  rcases h : c.closed
  · rw [edges_of_open h]
    rcases hl : c.points with - | ⟨q, - | ⟨r, l⟩⟩
    · simp [hl] at hp
    · exact absurd hl (hone q)
    · exact exists_contains_path (hl ▸ hp)
  · rw [edges_of_closed h]
    exact exists_contains_cycle_iff.2 (.inl hp)

/-- **What a contour covers**: its vertices, and the points of its edges that have a length. -/
theorem touches_iff : c.touches p = true ↔
    p ∈ c.points ∨ ∃ e ∈ proper c.edges, e.contains p = true := by
  unfold touches
  split
  case h_1 v hl =>
    have hdot : IsDot c.points := ⟨v, by simp [hl]⟩
    have hnone : ¬ ∃ e ∈ proper c.edges, e.contains p = true := by
      rintro ⟨e, he, -⟩
      obtain ⟨he, hpoint⟩ := mem_proper.1 he
      exact hpoint (hdot.isPoint (mem_cycle_of_mem_edges he))
    rw [or_iff_left hnone, hl, List.mem_singleton, beq_iff_eq, eq_comm]
  case h_2 hone =>
    rw [List.any_eq_true]
    exact exists_contains_iff (fun e he ↦ (mem_of_mem_cycle (mem_cycle_of_mem_edges he)).1)
      (exists_contains_edges hone)

/-- The same points are inside if three vertices are left. -/
theorem contains_withoutNullEdges (h : 3 ≤ c.withoutNullEdges.size) (p : Point) :
    c.withoutNullEdges.contains p = c.contains p := by
  have hslims := slims_withoutNullEdges c
  have hsize : 3 ≤ c.size := h.trans hslims.sublist.length_le
  rw [Bool.eq_iff_iff, contains_iff_or, contains_iff_or, and_iff_right h, and_iff_right hsize,
    exists_contains_cycle_iff, exists_contains_cycle_iff, hslims.mem_iff, ← crossings_proper,
    hslims.proper_cycle_eq, crossings_proper]

/-- **Edges of length zero do not count.** A contour freed of them encloses the same area, has the
same box, and covers the same points, whether it is open or closed. If it has three vertices left,
the same points are inside. -/
theorem dropNullEdges_keeps (c : Contour) :
    c.dropNullEdges.2.doubledArea = c.doubledArea ∧
      c.dropNullEdges.2.box? = c.box? ∧
      (∀ p, c.dropNullEdges.2.touches p = c.touches p) ∧
      (3 ≤ c.dropNullEdges.2.size → ∀ p, c.dropNullEdges.2.contains p = c.contains p) := by
  have hslims := slims_withoutNullEdges c
  refine ⟨?_, Box.ofPoints?_congr fun p ↦ hslims.mem_iff, fun p ↦ ?_, contains_withoutNullEdges⟩
  · show c.withoutNullEdges.doubledArea = c.doubledArea
    rw [doubledArea_eq, doubledArea_eq, ← sweep_proper, hslims.proper_cycle_eq, sweep_proper]
  · show c.withoutNullEdges.touches p = c.touches p
    rw [Bool.eq_iff_iff, touches_iff, touches_iff, hslims.mem_iff, proper_edges_withoutNullEdges]

/-! ### Starting elsewhere -/

/-- The vertices that are left are those where the edges with a length start. -/
theorem slim_eq_map_start (h : ¬ IsDot l) : slim l = (proper (cycle l)).map Segment.start := by
  rw [← cycle_slim h, map_start_cycle]

/-- **The cyclic word of the vertices that are left** does not show where the cycle started. -/
theorem isRotated_slim (h : l ~r m) : slim l ~r slim m := by
  by_cases hl : IsDot l
  · obtain ⟨p, hp, hall⟩ := hl
    rw [slim_of_forall_eq hp hall,
      slim_of_forall_eq (h.mem_iff.1 hp) fun q hq ↦ hall q (h.mem_iff.2 hq)]
  · have hm : ¬ IsDot m := by simpa only [IsDot, h.mem_iff] using hl
    rw [slim_eq_map_start hl, slim_eq_map_start hm]
    exact (isRotated_filter (isRotated_cycle h) _).map _

end GridGeometry.Contour
