import GridGeometry.Contour.Basic
import Mathlib.Data.List.Rotate

/-!
# Closed cycles of edges

The closed cycle through a list of vertices is cut open into the path that runs through the list and
ends at its first vertex. A path can be split anywhere (`pathTo_append`), so a cycle can be opened
and closed again around new vertices, cut in two where it visits a vertex twice, started at another
vertex, and run backward.
-/

namespace GridGeometry

theorem headD_append {α : Type} (l m : List α) (a : α) :
    (l ++ m).headD a = l.headD (m.headD a) := by
  cases l <;> rfl

/-! ### Rotated lists -/

/-- A list is rotated by exchanging its two parts. -/
theorem exists_append_of_isRotated {α : Type} {l m : List α} (h : l ~r m) :
    ∃ j k, l = j ++ k ∧ m = k ++ j := by
  obtain ⟨i, rfl⟩ := h
  exact ⟨l.take (i % l.length), l.drop (i % l.length), (List.take_append_drop _ l).symm,
    List.rotate_eq_drop_append_take_mod⟩

/-- What a test selects from a rotated list is the selection, rotated. -/
theorem isRotated_filter {α : Type} {l m : List α} (h : l ~r m) (t : α → Bool) :
    l.filter t ~r m.filter t := by
  obtain ⟨j, k, rfl, rfl⟩ := exists_append_of_isRotated h
  rw [List.filter_append, List.filter_append]
  exact List.isRotated_append

/-- Pieces in a row are rotated when the list of pieces is. -/
theorem isRotated_flatten {α : Type} {l m : List (List α)} (h : l ~r m) :
    l.flatten ~r m.flatten := by
  obtain ⟨j, k, rfl, rfl⟩ := exists_append_of_isRotated h
  rw [List.flatten_append, List.flatten_append]
  exact List.isRotated_append

/-! ### Paths and cycles -/

namespace Contour

variable {l m : List Point} {p q last a s : Point}

/-- The edges of the path through the vertices and on to `last`. -/
def pathTo : List Point → Point → List Segment
  | [], _ => []
  | p :: l, last => ⟨p, l.headD last⟩ :: pathTo l last

theorem pathTo_cons : pathTo (p :: l) last = ⟨p, l.headD last⟩ :: pathTo l last := rfl

/-- **A path is split at any vertex.** -/
theorem pathTo_append : pathTo (l ++ m) last = pathTo l (m.headD last) ++ pathTo m last := by
  induction l with
  | nil => rfl
  | cons p l ih => rw [List.cons_append, pathTo, pathTo, ih, headD_append, List.cons_append]

theorem zipWith_eq_pathTo (p : Point) (l : List Point) (last : Point) :
    List.zipWith Segment.mk (p :: l) (l ++ [last]) = pathTo (p :: l) last := by
  induction l generalizing p with
  | nil => rfl
  | cons q l ih => rw [List.cons_append, List.zipWith_cons_cons, ih, pathTo]; rfl

/-- A cycle is the path through its vertices back to the first one. -/
theorem cycle_cons : cycle (p :: l) = pathTo (p :: l) p := zipWith_eq_pathTo p l p

theorem cycle_eq_pathTo (l : List Point) (o : Point) : cycle l = pathTo l (l.headD o) := by
  cases l with
  | nil => rfl
  | cons p l => exact cycle_cons

theorem edges_of_closed {c : Contour} (h : c.closed = true) : c.edges = cycle c.points := if_pos h

/-- A cycle leads from its first vertex to `p`, and from there back. -/
theorem cycle_append_cons :
    cycle (l ++ p :: m) = pathTo l p ++ pathTo (p :: m) (l.headD p) := by
  cases l with
  | nil => exact cycle_cons
  | cons q l => rw [List.cons_append, cycle_cons, ← List.cons_append, pathTo_append]; rfl

@[simp] theorem length_pathTo : (pathTo l last).length = l.length := by
  induction l with
  | nil => rfl
  | cons p l ih => rw [pathTo, List.length_cons, List.length_cons, ih]

/-- A cycle has as many edges as vertices. -/
@[simp] theorem length_cycle : (cycle l).length = l.length := by
  cases l with
  | nil => rfl
  | cons p l => rw [cycle_cons, length_pathTo]

theorem map_start_pathTo (l : List Point) (last : Point) :
    (pathTo l last).map Segment.start = l := by
  induction l with
  | nil => rfl
  | cons p l ih => rw [pathTo_cons, List.map_cons, ih]

/-- The edges of a cycle start at its vertices, in their order. -/
theorem map_start_cycle (l : List Point) : (cycle l).map Segment.start = l := by
  rw [cycle_eq_pathTo l .origin, map_start_pathTo]

/-- A cycle opened behind `p`. -/
theorem cycle_perm_cons :
    (cycle (l ++ p :: m)).Perm
      (⟨p, m.headD (l.headD p)⟩ :: (pathTo l p ++ pathTo m (l.headD p))) := by
  rw [cycle_append_cons, pathTo]
  exact List.perm_middle

/-- **A cycle with a detour.** Behind `p` the cycle is led to `a` and on to `s`, from there around
the cycle through `s`, and back by way of `a`. The edge from `p` is split at `a`, the way from `a`
to `s` is walked twice, and all other edges stay. -/
theorem cycle_detour_perm {j k : List Point} :
    (cycle (l ++ p :: (a :: (s :: k ++ j ++ [s]) ++ [a] ++ m))).Perm
      (⟨p, a⟩ :: ⟨a, m.headD (l.headD p)⟩ :: ⟨a, s⟩ :: ⟨s, a⟩ ::
        (cycle (j ++ s :: k) ++ (pathTo l p ++ pathTo m (l.headD p)))) := by
  have hdetour : pathTo (a :: (s :: k ++ j ++ [s]) ++ [a] ++ m) (l.headD p) =
      ⟨a, s⟩ :: (pathTo (s :: k) (j.headD s) ++ (pathTo j s ++
        ⟨s, a⟩ :: ⟨a, m.headD (l.headD p)⟩ :: pathTo m (l.headD p))) := by
    rw [List.append_assoc, List.cons_append, pathTo, List.append_assoc, List.append_assoc,
      pathTo_append, pathTo_append, headD_append j]
    rfl
  rw [cycle_append_cons, cycle_append_cons, pathTo, hdetour]
  refine List.perm_iff_count.2 fun e ↦ ?_
  simp only [List.count_append, List.count_cons, List.cons_append, List.headD_cons]
  omega

/-- **A cycle that visits `p` twice** consists of two cycles that visit it once. -/
theorem cycle_cut_perm {j : List Point} :
    (cycle (l ++ p :: (j ++ p :: m))).Perm (cycle (p :: j) ++ cycle (l ++ p :: m)) := by
  rw [cycle_append_cons, cycle_append_cons, cycle_cons, ← List.cons_append, pathTo_append]
  exact List.perm_append_comm_assoc _ _ _

/-! ### Starting elsewhere and turning round -/

theorem cycle_append (o : Point) :
    cycle (l ++ m) = pathTo l (m.headD (l.headD o)) ++ pathTo m (l.headD (m.headD o)) := by
  rw [cycle_eq_pathTo _ o, pathTo_append, headD_append]
  cases m <;> rfl

/-- A cycle can be started at any vertex. -/
theorem cycle_append_comm_perm : (cycle (l ++ m)).Perm (cycle (m ++ l)) := by
  rw [cycle_append .origin, cycle_append .origin]
  exact List.perm_append_comm

/-- A path run backward has its edges reversed, the last one first. -/
theorem pathTo_reverse (a s : Point) :
    pathTo (s :: l.reverse) a = ((pathTo (a :: l) s).map Segment.reversed).reverse := by
  induction l generalizing a with
  | nil => rfl
  | cons q l ih =>
    rw [List.reverse_cons, ← List.cons_append, pathTo_append, List.headD_cons, ih,
      pathTo_cons (p := a), List.map_cons, List.reverse_cons]
    rfl

/-- A cycle run backward has its edges reversed. -/
theorem cycle_reverse_perm : (cycle l.reverse).Perm ((cycle l).map Segment.reversed) := by
  cases l with
  | nil => exact .nil
  | cons p l =>
    rw [List.reverse_cons]
    refine cycle_append_comm_perm.trans ?_
    rw [List.singleton_append, cycle_cons, cycle_cons, pathTo_reverse]
    exact List.reverse_perm _

theorem exists_mem_pathTo_stop (p : Point) (l : List Point) (last : Point) :
    ∃ e ∈ pathTo (p :: l) last, e.stop = last := by
  induction l generalizing p with
  | nil => exact ⟨_, List.mem_cons_self, rfl⟩
  | cons q l ih =>
    obtain ⟨e, he, hstop⟩ := ih q
    exact ⟨e, List.mem_cons_of_mem _ he, hstop⟩

/-- At every vertex of a cycle an edge ends. -/
theorem exists_mem_cycle_stop (hp : p ∈ l) : ∃ e ∈ cycle l, e.stop = p := by
  obtain ⟨j, k, rfl⟩ := List.append_of_mem hp
  obtain ⟨e, he, hstop⟩ := exists_mem_pathTo_stop p (k ++ j) p
  refine ⟨e, cycle_append_comm_perm.mem_iff.2 ?_, hstop⟩
  rwa [List.cons_append, cycle_cons]

/-! ### The edge at a place -/

/-- The edges of a cycle lead from its vertices to those one place further on. -/
theorem cycle_eq_zipWith_rotate (l : List Point) :
    cycle l = List.zipWith Segment.mk l (l.rotate 1) := by
  cases l with
  | nil => rfl
  | cons p l => rw [List.rotate_cons_succ, List.rotate_zero, cycle]

/-- A cycle started elsewhere has its edges in the same order, started elsewhere. -/
theorem cycle_rotate (l : List Point) (k : Nat) : cycle (l.rotate k) = (cycle l).rotate k := by
  have hlength : l.length = (l.rotate 1).length := (List.length_rotate l 1).symm
  rw [cycle_eq_zipWith_rotate, cycle_eq_zipWith_rotate, List.zipWith_rotate_distrib _ _ _ k hlength,
    List.rotate_rotate, List.rotate_rotate, Nat.add_comm k 1]

theorem isRotated_cycle (h : l ~r m) : cycle l ~r cycle m := by
  obtain ⟨k, rfl⟩ := h
  exact ⟨k, (cycle_rotate l k).symm⟩

/-- An edge ends at the vertex behind the one where it starts, counted around the cycle. -/
theorem getElem?_cycle {u v : Nat} (hu : u < l.length) (hv : v < l.length)
    (h : (u + 1) % l.length = v) : (cycle l)[u]? = some ⟨l[u], l[v]⟩ := by
  subst h
  have hrotate : u < (l.rotate 1).length := by rwa [List.length_rotate]
  rw [cycle_eq_zipWith_rotate, List.getElem?_zipWith, List.getElem?_eq_getElem hu,
    List.getElem?_eq_getElem hrotate, List.getElem_rotate]

/-- The edge at a place leads from the vertex there to the next one around the cycle. -/
theorem getElem?_cycle_eq_some_iff {u : Nat} {e : Segment} : (cycle l)[u]? = some e ↔
    l[u]? = some e.start ∧ l[(u + 1) % l.length]? = some e.stop := by
  obtain ⟨p, q⟩ := e
  by_cases hu : u < l.length
  · have hv : (u + 1) % l.length < l.length := Nat.mod_lt _ (by omega)
    rw [getElem?_cycle hu hv rfl, List.getElem?_eq_getElem hu, List.getElem?_eq_getElem hv,
      Option.some.injEq, Option.some.injEq, Option.some.injEq, Segment.mk.injEq]
  · have hu := Nat.le_of_not_lt hu
    rw [List.getElem?_eq_none hu, List.getElem?_eq_none (length_cycle.trans_le hu)]
    simp

end Contour

end GridGeometry
