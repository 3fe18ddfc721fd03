import GridGeometry.Proofs.Contour.Cycle
import Mathlib.Data.List.DropRight
import Mathlib.Data.List.Destutter

/-!
# Vertices without edges of length zero

A list of vertices is slim when no two neighbours around its cycle are equal. `Contour.slim` takes
out the vertices that stand in the way: first those that repeat their predecessor
(`Contour.dropRepeats_eq_destutter`), then those at the end that equal the first vertex. What is
left is slim unless it is a single vertex (`Contour.isSlim_slim`), and slim lists stay as they are
(`Contour.IsSlim.slim_eq`).

Neither step touches an edge that has a length (`Contour.proper_cycle_dropRepeats`,
`Contour.proper_cycle_dropClosing`). The first of the two takes out one vertex for every edge of
length zero on the path through the vertices (`Contour.length_dropRepeats`). Around the cycle these
are all edges of length zero, unless the list ends where it begins.
-/

namespace GridGeometry.Contour

variable {l : List Point} {p last : Point} {c : Contour}

/-- No two neighbours around the cycle through the vertices are equal. -/
def IsSlim (l : List Point) : Prop := ∀ e ∈ cycle l, ¬ e.IsPoint

/-- The vertices of the closed contour through `l` without those that make edges of length zero. -/
def slim (l : List Point) : List Point := dropClosing (dropRepeats l)

/-- To drop repeats is to destutter the list. -/
theorem dropRepeats_eq_destutter (l : List Point) : dropRepeats l = l.destutter (· ≠ ·) := by
  fun_induction dropRepeats l with
  | case1 => rfl
  | case2 => rfl
  | case3 p l ih => rw [ih, List.destutter_cons_cons, if_neg (not_not.2 rfl), List.destutter_cons']
  | case4 p q l hne ih => rw [ih, List.destutter_cons_cons, if_pos hne, List.destutter_cons']

/-- Repeated vertices are vertices. -/
theorem mem_dropRepeats : p ∈ dropRepeats l ↔ p ∈ l := by
  fun_induction dropRepeats l with
  | case1 => rfl
  | case2 => rfl
  | case3 q m ih =>
    rw [ih, List.mem_cons (l := q :: m), or_iff_right_of_imp]
    exact fun h ↦ h ▸ List.mem_cons_self
  | case4 q r m hne ih => rw [List.mem_cons, ih, ← List.mem_cons]

/-- No two neighbours are equal where the repeats are left out. -/
theorem isChain_dropRepeats (l : List Point) : (dropRepeats l).IsChain (· ≠ ·) :=
  dropRepeats_eq_destutter l ▸ List.isChain_destutter _ l

theorem dropClosing_cons : dropClosing (p :: l) = p :: l.rdropWhile (· == p) := rfl

/-- A path has no edge of length zero when no two neighbours are equal, its end among them. -/
theorem forall_mem_pathTo_iff :
    (∀ e ∈ pathTo l last, ¬ e.IsPoint) ↔ (l ++ [last]).IsChain (· ≠ ·) := by
  induction l with
  | nil => simp [pathTo]
  | cons p l ih =>
    rw [pathTo_cons, List.forall_mem_cons, ih]
    cases l <;> simp [Segment.IsPoint]

/-- Slim is a list without neighbours that are equal whose last vertex is not the first again. -/
theorem isSlim_cons_iff : IsSlim (p :: l) ↔
    (p :: l).IsChain (· ≠ ·) ∧ (p :: l).getLast (List.cons_ne_nil p l) ≠ p := by
  rw [IsSlim, cycle_cons, forall_mem_pathTo_iff, List.isChain_append,
    List.getLast?_eq_some_getLast (List.cons_ne_nil p l)]
  simp

/-- Slim lists are slim backward. -/
theorem IsSlim.reverse (h : IsSlim l) : IsSlim l.reverse := by
  intro e he
  obtain ⟨d, hd, rfl⟩ := List.mem_map.1 (cycle_reverse_perm.mem_iff.1 he)
  exact fun hpoint ↦ h d hd hpoint.symm

/-- **Slim lists stay as they are.** -/
theorem IsSlim.slim_eq (h : IsSlim l) : slim l = l := by
  cases l with
  | nil => rfl
  | cons p l =>
    obtain ⟨hchain, hlast⟩ := isSlim_cons_iff.1 h
    have hclosing : l.rdropWhile (· == p) = l := by
      refine List.rdropWhile_eq_self_iff.2 fun hl hp ↦ hlast ?_
      rw [List.getLast_cons hl, eq_of_beq hp]
    rw [slim, dropRepeats_eq_destutter, (List.destutter_eq_self_iff _ _).2 hchain, dropClosing_cons,
      hclosing]

/-- **What is left is slim**, unless it is one vertex. -/
theorem isSlim_slim (h : 2 ≤ (slim l).length) : IsSlim (slim l) := by
  have hchain := isChain_dropRepeats l
  unfold slim at h ⊢
  rcases hl : dropRepeats l with - | ⟨p, m⟩
  · simp [hl, dropClosing] at h
  · rw [hl, dropClosing_cons] at h
    have hm : m.rdropWhile (· == p) ≠ [] := fun hm ↦ by simp [hm] at h
    have hsplit : p :: m = (p :: m.rdropWhile (· == p)) ++ m.rtakeWhile (· == p) := by
      rw [List.cons_append, List.rdropWhile_append_rtakeWhile]
    rw [dropClosing_cons, isSlim_cons_iff]
    constructor
    · rw [hl, hsplit] at hchain
      exact hchain.left_of_append
    · rw [List.getLast_cons hm]
      exact fun hlast ↦ List.rdropWhile_last_not _ _ hm (beq_iff_eq.2 hlast)

theorem dropRepeats_dropRepeats (l : List Point) : dropRepeats (dropRepeats l) = dropRepeats l := by
  rw [dropRepeats_eq_destutter (dropRepeats l), dropRepeats_eq_destutter l, List.destutter_idem]

theorem slim_dropRepeats (l : List Point) : slim (dropRepeats l) = slim l := by
  rw [slim, slim, dropRepeats_dropRepeats]

/-- The contour built from points becomes that of the slim list. -/
theorem withoutNullEdges_ofPoints (l : List Point) :
    (ofPoints l).withoutNullEdges = closedOf (slim l) :=
  congrArg closedOf (slim_dropRepeats l)

/-! ### Paths and their ends -/

/-- The edges of a path that ends at `last`. -/
theorem path_append_singleton (l : List Point) (last : Point) :
    path (l ++ [last]) = pathTo l last := by
  induction l with
  | nil => rfl
  | cons p l ih =>
    rw [pathTo_cons, ← ih]
    cases l <;> rfl

/-- A cycle begins with the path through its vertices. -/
theorem path_prefix_cycle (l : List Point) : path l <+: cycle l := by
  rcases List.eq_nil_or_concat' l with rfl | ⟨l, q, rfl⟩
  · exact List.prefix_rfl
  · rw [path_append_singleton, cycle_append_cons]
    exact List.prefix_append _ _

theorem forall_mem_path_iff : (∀ e ∈ path l, ¬ e.IsPoint) ↔ l.IsChain (· ≠ ·) := by
  rcases List.eq_nil_or_concat' l with rfl | ⟨l, q, rfl⟩
  · simp [path]
  · rw [path_append_singleton, forall_mem_pathTo_iff]

/-- The list does not end where it begins. -/
def EndsApart (l : List Point) : Prop := ∀ p ∈ l.head?, ∀ q ∈ l.getLast?, p ≠ q

theorem EndsApart.congr {m : List Point} (hhead : l.head? = m.head?)
    (hlast : l.getLast? = m.getLast?) : EndsApart l ↔ EndsApart m := by
  rw [EndsApart, EndsApart, hhead, hlast]

/-- **A cycle is slim** when the path through its vertices is and does not end where it begins. -/
theorem isSlim_iff : IsSlim l ↔ (∀ e ∈ path l, ¬ e.IsPoint) ∧ EndsApart l := by
  rw [forall_mem_path_iff]
  cases l with
  | nil => simp [IsSlim, cycle, EndsApart]
  | cons p l =>
    rw [isSlim_cons_iff, EndsApart, List.getLast?_eq_some_getLast (List.cons_ne_nil p l)]
    simp [eq_comm]

/-- The first vertex repeats none, and stays. -/
theorem head?_dropRepeats (l : List Point) : (dropRepeats l).head? = l.head? := by
  fun_induction dropRepeats l with
  | case1 => rfl
  | case2 => rfl
  | case3 q m ih => exact ih
  | case4 q r m hne ih => rfl

theorem headD_dropRepeats (l : List Point) (o : Point) : (dropRepeats l).headD o = l.headD o := by
  rw [List.headD_eq_head?_getD, head?_dropRepeats, ← List.headD_eq_head?_getD]

/-- A last vertex that is dropped leaves its equal at the end. -/
theorem getLast?_dropRepeats (l : List Point) : (dropRepeats l).getLast? = l.getLast? := by
  fun_induction dropRepeats l with
  | case1 => rfl
  | case2 => rfl
  | case3 q m ih => rw [ih, List.getLast?_cons_cons]
  | case4 q r m hne ih => rw [List.getLast?_cons, ih, ← List.getLast?_cons]

theorem endsApart_dropRepeats_iff : EndsApart (dropRepeats l) ↔ EndsApart l :=
  EndsApart.congr (head?_dropRepeats l) (getLast?_dropRepeats l)

/-! ### Edges with a length -/

/-- The edges that have a length. -/
def proper (edges : List Segment) : List Segment := edges.filter fun e ↦ ¬ e.IsPoint

theorem mem_proper {edges : List Segment} {e : Segment} :
    e ∈ proper edges ↔ e ∈ edges ∧ ¬ e.IsPoint := by
  rw [proper, List.mem_filter, decide_eq_true_eq]

theorem proper_append (edges edges' : List Segment) :
    proper (edges ++ edges') = proper edges ++ proper edges' := List.filter_append _ _

theorem proper_cons_self (p : Point) (edges : List Segment) :
    proper (⟨p, p⟩ :: edges) = proper edges := by
  rw [proper, List.filter_cons_of_neg (by simp [Segment.IsPoint]), proper]

theorem proper_cons_of_ne {p q : Point} (h : p ≠ q) (edges : List Segment) :
    proper (⟨p, q⟩ :: edges) = ⟨p, q⟩ :: proper edges := by
  rw [proper, List.filter_cons_of_pos (by simp [Segment.IsPoint, h]), proper]

theorem proper_eq_self {edges : List Segment} (h : ∀ e ∈ edges, ¬ e.IsPoint) :
    proper edges = edges :=
  List.filter_eq_self.2 fun e he ↦ decide_eq_true (h e he)

/-- An edge has a length or has length zero. -/
theorem length_proper (edges : List Segment) :
    (proper edges).length + edges.countP (·.IsPoint) = edges.length := by
  rw [proper, ← List.countP_eq_length_filter, Nat.add_comm,
    List.length_eq_countP_add_countP (·.IsPoint)]
  simp

theorem path_cons_cons (p q : Point) (l : List Point) :
    path (p :: q :: l) = ⟨p, q⟩ :: path (q :: l) := rfl

/-- **Of an open path**, the edges that have a length are left. -/
theorem path_dropRepeats (l : List Point) : path (dropRepeats l) = proper (path l) := by
  fun_induction dropRepeats l with
  | case1 => rfl
  | case2 => rfl
  | case3 q m ih => rw [path_cons_cons, proper_cons_self, ih]
  | case4 q r m hne ih =>
    obtain ⟨t, ht⟩ := List.head?_eq_some_iff.1 (head?_dropRepeats (r :: m))
    rw [ht] at ih ⊢
    rw [path_cons_cons, path_cons_cons, proper_cons_of_ne hne, ih]

theorem proper_pathTo_dropRepeats :
    proper (pathTo (dropRepeats l) last) = proper (pathTo l last) := by
  fun_induction dropRepeats l with
  | case1 => rfl
  | case2 => rfl
  | case3 q m ih => rw [ih, pathTo_cons (l := q :: m), List.headD_cons, proper_cons_self]
  | case4 q r m hne ih =>
    rw [pathTo_cons, pathTo_cons (l := r :: m), headD_dropRepeats, List.headD_cons,
      proper_cons_of_ne hne, proper_cons_of_ne hne, ih]

/-- **Repeated vertices take no edge with a length along.** -/
theorem proper_cycle_dropRepeats (l : List Point) :
    proper (cycle (dropRepeats l)) = proper (cycle l) := by
  rw [cycle_eq_pathTo _ .origin, cycle_eq_pathTo l .origin, headD_dropRepeats]
  exact proper_pathTo_dropRepeats

/-- A last vertex equal to the first has the closing edge to itself. -/
theorem cycle_concat_head (p : Point) (l : List Point) :
    cycle (p :: (l ++ [p])) = cycle (p :: l) ++ [⟨p, p⟩] := by
  rw [cycle_cons, ← List.cons_append, pathTo_append, cycle_cons]
  rfl

/-- Nor do the vertices at the end that equal the first one. -/
theorem proper_cycle_dropClosing (l : List Point) :
    proper (cycle (dropClosing l)) = proper (cycle l) := by
  rcases l with - | ⟨p, l⟩
  · rfl
  · rw [dropClosing_cons]
    induction l using List.reverseRecOn with
    | nil => rfl
    | append_singleton l q ih =>
      by_cases h : q = p
      · subst h
        rw [List.rdropWhile_concat_pos (· == q) l q (beq_self_eq_true q), ih, cycle_concat_head,
          proper_append, proper_cons_self]
        exact (List.append_nil _).symm
      · rw [List.rdropWhile_concat_neg (· == p) l q (mt eq_of_beq h)]

/-! ### Counting edges of length zero -/

/-- A path has one edge less than vertices. -/
@[simp] theorem length_path (l : List Point) : (path l).length = l.length - 1 := by
  rw [path, List.length_zipWith, List.length_tail]
  exact Nat.min_eq_right (Nat.sub_le _ _)

/-- **Every edge of length zero costs a vertex.** -/
theorem length_dropRepeats (l : List Point) :
    (dropRepeats l).length + (path l).countP (·.IsPoint) = l.length := by
  rcases l with - | ⟨p, l⟩
  · rfl
  · obtain ⟨t, ht⟩ := List.head?_eq_some_iff.1 (head?_dropRepeats (p :: l))
    have hlength := length_proper (path (p :: l))
    rw [← path_dropRepeats, ht, length_path, length_path, List.length_cons, List.length_cons,
      Nat.add_sub_cancel, Nat.add_sub_cancel] at hlength
    rw [ht, List.length_cons, List.length_cons, ← hlength, Nat.add_right_comm]

/-- A slim list does not end where it begins. -/
theorem IsSlim.endsApart (h : IsSlim l) : EndsApart l := (isSlim_iff.1 h).2

/-- A single vertex is where its list begins and ends. -/
theorem EndsApart.two_le (h : EndsApart l) : l = [] ∨ 2 ≤ l.length := by
  rcases l with - | ⟨p, - | ⟨q, l⟩⟩
  · exact .inl rfl
  · exact absurd rfl (h p rfl p rfl)
  · exact .inr (by simp)

/-- A cycle that does not end where it begins is closed by an edge with a length. -/
theorem EndsApart.countP_cycle (h : EndsApart l) :
    (cycle l).countP (·.IsPoint) = (path l).countP (·.IsPoint) := by
  rcases List.eq_nil_or_concat' l with rfl | ⟨l, q, rfl⟩
  · rfl
  · have hhead : (l ++ [q]).head? = some (l.headD q) := by cases l <;> rfl
    have hclosing : ¬ (⟨q, l.headD q⟩ : Segment).IsPoint := fun hpoint ↦
      h (l.headD q) hhead q (by simp) hpoint.symm
    rw [cycle_append_cons, path_append_singleton, List.countP_append, pathTo_cons,
      List.countP_cons_of_neg (by rwa [decide_eq_true_eq])]
    rfl

end GridGeometry.Contour
