import GridGeometry.Contour.Loops
import GridGeometry.Proofs.Contour.Area
import GridGeometry.Proofs.Contour.Parity
import Mathlib.Data.List.Nodup

/-!
# What the simple loops of a contour have in common with it

Where the walk along a contour comes back to a vertex, the cycle through the walked path and the
remaining vertices falls apart into the loop that is closed there and a shorter cycle
(`Contour.cycle_cut_perm`). So the walk keeps the edges: those of all loops together are those of
the contour, each as often (`Contour.loopsFrom_cycle_perm`). All that is measured edge by edge is
shared out among the loops: vertices, area (`Contour.loops_cut`) and crossings, which decide what is
inside (`Contour.contains_loops`).
-/

namespace GridGeometry.Contour

variable {c : Contour} {walked rest : List Point} {p : Point} {k : Nat}

/-! ### The walk -/

/-- A vertex found on the path splits it. -/
theorem exists_split_of_idxOf? (h : walked.idxOf? p = some k) :
    ∃ before behind, walked = before ++ p :: behind ∧ walked.take (k + 1) = before ++ [p] ∧
      walked.drop (k + 1) = behind := by
  obtain ⟨hk, hp, -⟩ := List.idxOf?_eq_some_iff.1 h
  refine ⟨walked.take k, walked.drop (k + 1), ?_, ?_, rfl⟩
  · rw [← hp, List.cons_getElem_drop_succ, List.take_append_drop]
  · rw [List.take_add_one, List.getElem?_eq_getElem hk, hp, Option.toList_some]

/-- **No loop repeats a vertex**, since the path never does. -/
theorem nodup_of_mem_loopsFrom (hw : walked.Nodup) {l : List Point}
    (hl : l ∈ loopsFrom walked rest) : l.Nodup := by
  fun_induction loopsFrom walked rest with
  | case1 walked => exact List.mem_singleton.1 hl ▸ hw
  | case2 walked p rest k hk ih =>
    rcases List.mem_cons.1 hl with rfl | hl
    · obtain ⟨before, behind, rfl, -, hdrop⟩ := exists_split_of_idxOf? hk
      rw [hdrop]
      exact (List.nodup_append.1 hw).2.1
    · exact ih (hw.sublist (List.take_sublist _ _)) hl
  | case3 walked p rest hp ih =>
    refine ih (List.nodup_append.2 ⟨hw, List.nodup_singleton p, ?_⟩) hl
    rintro q hq _ hqp rfl
    exact List.idxOf?_eq_none_iff.1 hp (List.mem_singleton.1 hqp ▸ hq)

/-- **The walk keeps the edges**: those of the loops are those of the cycle through the path and the
remaining vertices. -/
theorem loopsFrom_cycle_perm (walked rest : List Point) :
    ((loopsFrom walked rest).flatMap cycle).Perm (cycle (walked ++ rest)) := by
  fun_induction loopsFrom walked rest with
  | case1 walked => simp
  | case2 walked p rest k hk ih =>
    obtain ⟨before, behind, rfl, htake, hdrop⟩ := exists_split_of_idxOf? hk
    rw [htake, List.append_assoc] at ih
    rw [htake, hdrop, List.flatMap_cons, List.append_assoc, List.cons_append]
    exact (ih.append_left _).trans cycle_cut_perm.symm
  | case3 walked p rest hp ih => rwa [List.append_assoc] at ih

/-- A path that never comes back is one loop. -/
theorem loopsFrom_of_nodup (h : (walked ++ rest).Nodup) :
    loopsFrom walked rest = [walked ++ rest] := by
  fun_induction loopsFrom walked rest with
  | case1 walked => rw [List.append_nil]
  | case2 walked p rest k hk ih =>
    obtain ⟨before, behind, hsplit, -⟩ := exists_split_of_idxOf? hk
    have hp : p ∈ walked := hsplit ▸ List.mem_append_right _ List.mem_cons_self
    exact absurd rfl ((List.nodup_append.1 h).2.2 p hp p List.mem_cons_self)
  | case3 walked p rest hp ih =>
    rw [ih, List.append_assoc, List.singleton_append]
    rwa [List.append_assoc, List.singleton_append]

/-! ### The loops -/

/-- A closed contour is simple when it has at least three vertices and visits none of them twice. -/
structure IsSimple (c : Contour) : Prop where
  closed : c.closed = true
  three_le : 3 ≤ c.size
  nodup : c.points.Nodup

/-- A contour that visits no vertex twice is cut nowhere. -/
theorem loops_of_nodup (h : c.points.Nodup) : c.loops = [closedOf c.points] := by
  have hloops : loopsFrom [] c.points = [c.points] := loopsFrom_of_nodup h
  rw [loops, hloops, List.map_singleton]

theorem IsSimple.loops_eq (h : c.IsSimple) : c.loops = [c] := by
  rw [loops_of_nodup h.nodup, closedOf, ← h.closed]

theorem closed_of_mem_loops {d : Contour} (h : d ∈ c.loops) : d.closed = true := by
  obtain ⟨l, -, rfl⟩ := List.mem_map.1 h
  rfl

theorem nodup_of_mem_loops {d : Contour} (h : d ∈ c.loops) : d.points.Nodup := by
  obtain ⟨l, hl, rfl⟩ := List.mem_map.1 h
  exact nodup_of_mem_loopsFrom List.nodup_nil hl

/-- The edges of the loops are those of the contour. -/
theorem loops_cycle_perm (c : Contour) :
    (c.loops.flatMap fun d ↦ cycle d.points).Perm (cycle c.points) := by
  rw [loops, List.flatMap_map]
  exact loopsFrom_cycle_perm [] c.points

/-- **A contour cut into its simple loops.** No loop repeats a vertex, and the edges of the loops,
all of them closed, are the edges of the closed cycle through the vertices of the contour, each as
often. So the loops have together as many vertices as the contour, and enclose the same area. -/
theorem loops_cut (c : Contour) :
    (∀ d ∈ c.loops, d.closed = true ∧ d.points.Nodup) ∧
      (c.loops.flatMap edges).Perm (cycle c.points) ∧
      (c.loops.map size).sum = c.size ∧
      (c.loops.map doubledArea).sum = c.doubledArea := by
  have hperm := loops_cycle_perm c
  have hedges : c.loops.flatMap edges = c.loops.flatMap fun d ↦ cycle d.points :=
    List.flatMap_congr fun d hd ↦ edges_of_closed (closed_of_mem_loops hd)
  refine ⟨fun d hd ↦ ⟨closed_of_mem_loops hd, nodup_of_mem_loops hd⟩, ?_, ?_, ?_⟩
  · rwa [hedges]
  · have hlength := hperm.length_eq
    simp only [List.length_flatMap, length_cycle] at hlength
    exact hlength
  · calc (c.loops.map doubledArea).sum
        = (c.loops.map fun d ↦ sweep (cycle d.points)).sum :=
          congrArg List.sum (List.map_congr_left fun d _ ↦ doubledArea_eq d)
      _ = sweep (c.loops.flatMap fun d ↦ cycle d.points) := (sweep_flatMap _ _).symm
      _ = sweep (cycle c.points) := sweep_eq_of_perm hperm
      _ = c.doubledArea := (doubledArea_eq c).symm

example : (closedOf [⟨0, 0⟩, ⟨1, 0⟩, ⟨1, 1⟩, ⟨2, 1⟩, ⟨2, 2⟩, ⟨1, 1⟩, ⟨0, 1⟩]).loops =
    [closedOf [⟨1, 1⟩, ⟨2, 1⟩, ⟨2, 2⟩], closedOf [⟨0, 0⟩, ⟨1, 0⟩, ⟨1, 1⟩, ⟨0, 1⟩]] := by
  decide

/-- **Inside a contour is inside an odd number of its loops**, for a point on no edge. -/
theorem contains_loops (c : Contour) (p : Point)
    (hoff : ∀ e ∈ cycle c.points, e.contains p = false) :
    c.contains p = c.loops.foldr (fun d inside ↦ d.contains p ^^ inside) false := by
  have hperm := loops_cycle_perm c
  have hoff' : ∀ d ∈ c.loops, ∀ e ∈ cycle d.points, e.contains p = false := fun d hd e he ↦
    hoff e (hperm.mem_iff.1 (List.mem_flatMap_of_mem hd he))
  have hcross : crossings p (cycle c.points) =
      (c.loops.map fun d ↦ crossings p (cycle d.points)).sum := by
    rw [crossings, ← hperm.countP_eq, List.countP_flatMap]
    rfl
  rw [foldr_contains hoff', Bool.eq_iff_iff, contains_iff hoff, hcross, decide_eq_true_eq]

/-- A square that goes on around a second one, with a corner drawn twice and a spike at that corner:
its loops have one, two, four and four vertices, and the point is in the second square. -/
theorem contains_loops_spike :
    (∀ e ∈ cycle [⟨0, 0⟩, ⟨4, 0⟩, ⟨4, 0⟩, ⟨6, 0⟩, ⟨4, 0⟩, ⟨4, 4⟩, ⟨8, 4⟩, ⟨8, 8⟩, ⟨4, 8⟩, ⟨4, 4⟩,
        ⟨0, 4⟩], e.contains ⟨5, 6⟩ = false) ∧
      (closedOf [⟨0, 0⟩, ⟨4, 0⟩, ⟨4, 0⟩, ⟨6, 0⟩, ⟨4, 0⟩, ⟨4, 4⟩, ⟨8, 4⟩, ⟨8, 8⟩, ⟨4, 8⟩, ⟨4, 4⟩,
          ⟨0, 4⟩]).contains ⟨5, 6⟩ =
        ((closedOf [⟨4, 0⟩]).contains ⟨5, 6⟩ ^^ ((closedOf [⟨4, 0⟩, ⟨6, 0⟩]).contains ⟨5, 6⟩ ^^
          ((closedOf [⟨4, 4⟩, ⟨8, 4⟩, ⟨8, 8⟩, ⟨4, 8⟩]).contains ⟨5, 6⟩ ^^
            ((closedOf [⟨0, 0⟩, ⟨4, 0⟩, ⟨4, 4⟩, ⟨0, 4⟩]).contains ⟨5, 6⟩ ^^ false)))) :=
  ⟨by decide, contains_loops _ _ (by decide)⟩

end GridGeometry.Contour
