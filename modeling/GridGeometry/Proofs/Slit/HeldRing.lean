import GridGeometry.Proofs.Contour.Cycle
import GridGeometry.Slit.Join
import Mathlib.Data.List.Perm.Subperm

/-!
# Rings held by a table

A `RingTable` stores its rings as places that point to places. Here a ring is the list of its
vertices, each with the place of the edge that starts there, and the table *holds* the list when the
edge at every place leads to the vertex that comes next. The end of an edge is the start of the next
one by definition, so nothing has to be kept about it.

A path is held up to a vertex `last` outside it. That makes holding a path a statement about each
half of it (`holdsPath_append`), which is what cutting a ring open and putting another one in needs.

## Main statements

* `HoldsPath.imp`: edges that stay in their places keep a path held.
* `HoldsRing.returns`: following successors around a held ring comes back to the start.
* `HoldsRing.ring_eq`: the bounded walk of `RingTable.ring` finds exactly the held ring.
-/

namespace GridGeometry

/-- A vertex of a ring, with the place of the edge that starts there. -/
structure RingVertex where
  place : Nat
  point : Point
deriving DecidableEq, Repr

/-- A list put behind an array is an array put behind it. -/
theorem array_append_list {α : Type} (xs : Array α) (l : List α) : xs ++ l = xs ++ l.toArray :=
  Array.ext' (by simp)

namespace RingTable

variable {t u : RingTable} {state state' : RingState} {l m : List RingVertex}
  {v w last : RingVertex}

/-- The edge at the place of `v` leads to `w`. -/
def Leads (t : RingTable) (state : RingState) (v w : RingVertex) : Prop :=
  t.edges[v.place]? = some ⟨v.point, w.point, state, w.place⟩

/-- The edges at the places of the vertices lead from each to the next one, and from the last of
them to `last`. -/
def HoldsPath (t : RingTable) (state : RingState) : List RingVertex → RingVertex → Prop
  | [], _ => True
  | v :: l, last => t.Leads state v (l.headD last) ∧ t.HoldsPath state l last

/-- The edges at the places of the vertices lead around them, from the last one to the first. -/
def HoldsRing (t : RingTable) (state : RingState) : List RingVertex → Prop
  | [] => True
  | v :: l => t.HoldsPath state (v :: l) v

/-! ### Paths -/

/-- **A path is held in two halves**, the first of them up to the head of the second. -/
theorem holdsPath_append :
    t.HoldsPath state (l ++ m) last ↔
      t.HoldsPath state l (m.headD last) ∧ t.HoldsPath state m last := by
  induction l with
  | nil => simp [HoldsPath]
  | cons v l ih => rw [List.cons_append, HoldsPath, HoldsPath, ih, headD_append, and_assoc]

/-- Another table holds the path too if it has all the edges that lead along it. -/
theorem HoldsPath.imp (h : t.HoldsPath state l last)
    (hu : ∀ v ∈ l, ∀ w, t.Leads state v w → u.Leads state' v w) : u.HoldsPath state' l last := by
  induction l with
  | nil => trivial
  | cons v l ih =>
    exact ⟨hu v List.mem_cons_self _ h.1, ih h.2 fun v hv ↦ hu v (List.mem_cons_of_mem _ hv)⟩

/-! ### Rings -/

/-- A ring can be cut open at any of its vertices. -/
theorem holdsRing_append_cons :
    t.HoldsRing state (l ++ v :: m) ↔
      t.HoldsPath state l v ∧ t.HoldsPath state (v :: m) (l.headD v) := by
  cases l with
  | nil => simp [HoldsRing, HoldsPath]
  | cons w l => rw [List.cons_append, HoldsRing, ← List.cons_append, holdsPath_append]; rfl

/-- A ring may be started at any of its vertices. -/
theorem HoldsRing.rotate (h : t.HoldsRing state (l ++ v :: m)) :
    t.HoldsRing state (v :: m ++ l) := by
  obtain ⟨hl, hm⟩ := holdsRing_append_cons.1 h
  exact holdsPath_append.2 ⟨hm, hl⟩

theorem HoldsRing.imp (h : t.HoldsRing state l)
    (hu : ∀ v ∈ l, ∀ w, t.Leads state v w → u.Leads state' v w) : u.HoldsRing state' l := by
  cases l with
  | nil => trivial
  | cons v l => exact HoldsPath.imp h hu

/-- Along a path every vertex leads to another one of it, or out of it. -/
theorem HoldsPath.exists_next (h : t.HoldsPath state l last) (hv : v ∈ l) :
    ∃ w, t.Leads state v w ∧ (w ∈ l ∨ w = last) := by
  induction l with
  | nil => simp at hv
  | cons x l ih =>
    rcases List.mem_cons.1 hv with rfl | hv
    · refine ⟨_, h.1, ?_⟩
      cases l with
      | nil => exact .inr rfl
      | cons y l => exact .inl (List.mem_cons_of_mem _ List.mem_cons_self)
    · obtain ⟨w, hw, hmem⟩ := ih h.2 hv
      exact ⟨w, hw, hmem.imp_left (List.mem_cons_of_mem _)⟩

theorem HoldsRing.exists_next (h : t.HoldsRing state l) (hv : v ∈ l) :
    ∃ w ∈ l, t.Leads state v w := by
  cases l with
  | nil => simp at hv
  | cons x l =>
    obtain ⟨w, hw, hmem | rfl⟩ := HoldsPath.exists_next h hv
    · exact ⟨w, hmem, hw⟩
    · exact ⟨w, List.mem_cons_self, hw⟩

theorem HoldsRing.exists_leads (h : t.HoldsRing state l) (hv : v ∈ l) :
    ∃ w, t.Leads state v w := by
  obtain ⟨w, -, hw⟩ := h.exists_next hv
  exact ⟨w, hw⟩

theorem Leads.place_lt (h : t.Leads state v w) : v.place < t.edges.size :=
  (Array.getElem?_eq_some_iff.1 h).1

/-- An edge leads to one vertex only. -/
theorem Leads.unique {x : RingVertex} (hw : t.Leads state v w) (hx : t.Leads state v x) :
    w = x := by
  have hedge := RingEdge.mk.inj (Option.some.inj (hw.symm.trans hx))
  cases w
  cases x
  rw [RingVertex.mk.injEq]
  exact ⟨hedge.2.2.2, hedge.2.1⟩

/-- Two edges at the same place are the same. -/
theorem Leads.eq_of_place_eq {x y : RingVertex} (hw : t.Leads state v w)
    (hy : t.Leads state x y) (hplace : v.place = x.place) : v = x ∧ w = y := by
  have hpoint : v.point = x.point := by
    rw [Leads] at hw hy
    rw [hplace, hy] at hw
    exact (RingEdge.mk.inj (Option.some.inj hw)).1.symm
  have heq : v = x := by
    cases v
    cases x
    exact RingVertex.mk.injEq .. ▸ ⟨hplace, hpoint⟩
  exact ⟨heq, (heq ▸ hw).unique hy⟩

/-- A held ring without repeated places is no longer than the table. -/
theorem HoldsRing.length_le (h : t.HoldsRing state l) (hl : (l.map RingVertex.place).Nodup) :
    l.length ≤ t.edges.size := by
  have hsub : l.map RingVertex.place ⊆ List.range t.edges.size := by
    intro i hi
    obtain ⟨v, hv, rfl⟩ := List.mem_map.1 hi
    obtain ⟨w, hw⟩ := h.exists_leads hv
    exact List.mem_range.2 hw.place_lt
  simpa using (hl.subperm hsub).length_le

/-! ### Walking around a ring -/

/-- Following successors from the place `e` visits the places listed and ends when the successor is
`start`. There is no bound on the walk; a walk that never comes back has no list. -/
inductive Returns (t : RingTable) (start : Nat) : Nat → List Nat → Prop
  | back {e : Nat} {edge : RingEdge} : t.edges[e]? = some edge → edge.next = start →
      Returns t start e []
  | on {e : Nat} {edge : RingEdge} {places : List Nat} : t.edges[e]? = some edge →
      edge.next ≠ start → Returns t start edge.next places →
      Returns t start e (edge.next :: places)

/-- A walk that comes back within the bound is what the bounded walk finds. -/
theorem Returns.ringFrom_eq {start e : Nat} {places : List Nat} (h : t.Returns start e places)
    {bound : Nat} (hb : places.length < bound) : t.ringFrom start bound e = places := by
  induction h generalizing bound with
  | back he hn =>
    obtain ⟨bound, rfl⟩ := Nat.exists_eq_add_one_of_ne_zero (Nat.ne_zero_of_lt hb)
    simp [ringFrom, he, hn]
  | on he hn _ ih =>
    obtain ⟨bound, rfl⟩ := Nat.exists_eq_add_one_of_ne_zero (Nat.ne_zero_of_lt hb)
    rw [List.length_cons, Nat.add_lt_add_iff_right] at hb
    simp [ringFrom, he, hn, ih hb]

theorem HoldsPath.returns (h : t.HoldsPath state (v :: l) last)
    (hl : ∀ w ∈ l, w.place ≠ last.place) :
    t.Returns last.place v.place (l.map RingVertex.place) := by
  induction l generalizing v with
  | nil => exact .back h.1 rfl
  | cons w l ih =>
    exact .on h.1 (hl w List.mem_cons_self) (ih h.2 fun x hx ↦ hl x (List.mem_cons_of_mem _ hx))

/-- **The walk around a held ring ends where it began.** -/
theorem HoldsRing.returns (h : t.HoldsRing state (v :: l))
    (hl : ((v :: l).map RingVertex.place).Nodup) :
    t.Returns v.place v.place (l.map RingVertex.place) := by
  refine HoldsPath.returns h fun w hw heq ↦ ?_
  rw [List.map_cons, List.nodup_cons] at hl
  exact hl.1 (heq ▸ List.mem_map_of_mem hw)

/-- **The places of a ring are found by the bounded walk.** -/
theorem HoldsRing.ring_eq (h : t.HoldsRing state (v :: l))
    (hl : ((v :: l).map RingVertex.place).Nodup) :
    t.ring v.place = (v :: l).map RingVertex.place := by
  have hlen := h.length_le hl
  rw [List.length_cons] at hlen
  rw [ring, (h.returns hl).ringFrom_eq (by rw [List.length_map]; omega), List.map_cons]

/-- The points of a held ring. -/
theorem HoldsRing.ringPoints_eq (h : t.HoldsRing state (v :: l))
    (hl : ((v :: l).map RingVertex.place).Nodup) :
    t.ringPoints v.place = (v :: l).map RingVertex.point := by
  rw [ringPoints, h.ring_eq hl, List.filterMap_map, ← List.filterMap_eq_map]
  refine List.filterMap_congr fun w hw ↦ ?_
  obtain ⟨x, hx⟩ := h.exists_leads hw
  rw [Function.comp_apply, hx]
  rfl

end RingTable

end GridGeometry
