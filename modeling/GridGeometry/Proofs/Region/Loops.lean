import GridGeometry.Proofs.Contour.Loops
import GridGeometry.Region.Loops

/-!
# Cut regions are a normal form

A region is cut when its contours are simple, outlines run counter-clockwise and holes clockwise,
and every hole stands in the polygon that the search for its owner chooses (`Region.IsCut`). Cutting
a region into loops gives a cut region (`Region.isCut_cutIntoLoops`), and changes nothing in a cut
one (`Region.IsCut.cutIntoLoops_eq`): the search sees the same outlines in the same order, so it
puts every hole back where it was, although holes now come grouped by polygons.
-/

namespace GridGeometry

namespace Region

variable {r : Region} {p : Polygon} {c : Contour} {i : Nat}

/-- The outlines of all polygons. -/
def outlines (r : Region) : List Contour := r.polygons.map Polygon.outline

/-- The holes of all polygons, polygon by polygon. -/
def holes (r : Region) : List Contour := r.polygons.flatMap Polygon.holes

/-- A region is cut when its contours are simple, its outlines run counter-clockwise and its holes
clockwise, and every hole is in the polygon that it belongs to. -/
structure IsCut (r : Region) : Prop where
  isSimple : ∀ p ∈ r.polygons, ∀ c ∈ p.contours, c.IsSimple
  outline_pos : ∀ p ∈ r.polygons, 0 < p.outline.doubledArea
  hole_neg : ∀ p ∈ r.polygons, ∀ c ∈ p.holes, c.doubledArea < 0
  owned : ∀ i p, r.polygons[i]? = some p → ∀ c ∈ p.holes, ownerIndex? r.outlines c = some i

/-! ### What cutting does -/

/-- The loops that become outlines. -/
def outerLoops (r : Region) : List Contour := r.loops.filter fun c ↦ 0 < c.doubledArea

/-- The loops that become holes. -/
def innerLoops (r : Region) : List Contour := r.loops.filter fun c ↦ c.doubledArea < 0

/-- The loops that become holes of outline `i`. -/
def holesAt (r : Region) (i : Nat) : List Contour :=
  r.innerLoops.filter fun c ↦ ownerIndex? r.outerLoops c = some i

theorem holesAt_eq (r : Region) (i : Nat) :
    r.holesAt i = r.innerLoops.filterMap fun c ↦
      if ownerIndex? r.outerLoops c = some i then some c else none := by
  rw [holesAt, ← List.filterMap_eq_filter]
  exact List.filterMap_congr fun c _ ↦ by simp [Option.guard]

theorem polygons_cutIntoLoops (r : Region) :
    r.cutIntoLoops.polygons = r.outerLoops.zipIdx.map fun x ↦ ⟨x.1, r.holesAt x.2⟩ := by
  refine List.map_congr_left fun x _ ↦ congrArg (Polygon.mk x.1) ?_
  rw [List.filterMap_map, holesAt_eq]
  rfl

/-- A polygon of the region that results: an outer loop with the inner loops that it owns. -/
theorem getElem?_cutIntoLoops : r.cutIntoLoops.polygons[i]? = some p ↔
    r.outerLoops[i]? = some p.outline ∧ p.holes = r.holesAt i := by
  rw [polygons_cutIntoLoops]
  cases p
  simp [List.getElem?_zipIdx, eq_comm]

theorem outlines_cutIntoLoops (r : Region) : r.cutIntoLoops.outlines = r.outerLoops := by
  rw [outlines, polygons_cutIntoLoops, List.map_map]
  exact List.zipIdx_map_fst 0 r.outerLoops

theorem mem_outerLoops : c ∈ r.outerLoops ↔ c ∈ r.loops ∧ 0 < c.doubledArea := by
  rw [outerLoops, List.mem_filter, decide_eq_true_eq]

theorem mem_holesAt : c ∈ r.holesAt i ↔
    c ∈ r.loops ∧ c.doubledArea < 0 ∧ ownerIndex? r.outerLoops c = some i := by
  rw [holesAt, innerLoops, List.mem_filter, List.mem_filter, decide_eq_true_eq, decide_eq_true_eq,
    and_assoc]

/-- A loop that encloses an area is simple. -/
theorem isSimple_of_mem_loops (h : c ∈ r.loops) (harea : c.doubledArea ≠ 0) : c.IsSimple := by
  obtain ⟨p, -, h⟩ := List.mem_flatMap.1 h
  obtain ⟨d, -, h⟩ := List.mem_flatMap.1 h
  exact ⟨Contour.closed_of_mem_loops h, Contour.three_le_of_doubledArea harea,
    Contour.nodup_of_mem_loops h⟩

/-- **Cutting gives a cut region.** -/
theorem isCut_cutIntoLoops (r : Region) : r.cutIntoLoops.IsCut := by
  have hpolygon : ∀ p ∈ r.cutIntoLoops.polygons,
      p.outline ∈ r.outerLoops ∧ ∃ i, p.holes = r.holesAt i := by
    intro p hp
    obtain ⟨i, hi⟩ := List.mem_iff_getElem?.1 hp
    obtain ⟨houtline, hholes⟩ := getElem?_cutIntoLoops.1 hi
    exact ⟨List.mem_of_getElem? houtline, i, hholes⟩
  exact {
    isSimple := by
      intro p hp c hc
      obtain ⟨houtline, i, hholes⟩ := hpolygon p hp
      rcases List.mem_cons.1 hc with rfl | hc
      · obtain ⟨hmem, hpos⟩ := mem_outerLoops.1 houtline
        exact isSimple_of_mem_loops hmem hpos.ne'
      · obtain ⟨hmem, hneg, -⟩ := mem_holesAt.1 (hholes ▸ hc)
        exact isSimple_of_mem_loops hmem hneg.ne
    outline_pos := fun p hp ↦ (mem_outerLoops.1 (hpolygon p hp).1).2
    hole_neg := by
      intro p hp c hc
      obtain ⟨-, i, hholes⟩ := hpolygon p hp
      exact (mem_holesAt.1 (hholes ▸ hc)).2.1
    owned := by
      intro i p hp c hc
      obtain ⟨-, hholes⟩ := getElem?_cutIntoLoops.1 hp
      rw [outlines_cutIntoLoops]
      exact (mem_holesAt.1 (hholes ▸ hc)).2.2 }

/-! ### Cut regions stay as they are -/

/-- When every element is labelled with the place of its group, the elements with one label are the
group at that place. -/
theorem filter_flatMap_of_labelled {α β : Type} {g : α → List β} {f : β → Option Nat} {l : List α}
    {i : Nat} {a : α} (h : ∀ j b, l[j]? = some b → ∀ c ∈ g b, f c = some j)
    (ha : l[i]? = some a) : (l.flatMap g).filter (fun c ↦ f c = some i) = g a := by
  have hother : ∀ {m : List α}, (∀ b ∈ m, ∃ j, j ≠ i ∧ l[j]? = some b) →
      (m.flatMap g).filter (fun c ↦ f c = some i) = [] := by
    intro m hm
    rw [List.filter_eq_nil_iff]
    intro c hc
    obtain ⟨b, hb, hc⟩ := List.mem_flatMap.1 hc
    obtain ⟨j, hj, hjb⟩ := hm b hb
    simpa [h j b hjb c hc] using hj
  have hbefore : ∀ b ∈ l.take i, ∃ j, j ≠ i ∧ l[j]? = some b := by
    intro b hb
    obtain ⟨j, hj⟩ := List.mem_iff_getElem?.1 hb
    rw [List.getElem?_take, Option.ite_none_right_eq_some] at hj
    exact ⟨j, hj.1.ne, hj.2⟩
  have hbehind : ∀ b ∈ l.drop (i + 1), ∃ j, j ≠ i ∧ l[j]? = some b := by
    intro b hb
    obtain ⟨j, hj⟩ := List.mem_iff_getElem?.1 hb
    rw [List.getElem?_drop] at hj
    exact ⟨i + 1 + j, by omega, hj⟩
  have hgroup : (g a).filter (fun c ↦ f c = some i) = g a :=
    List.filter_eq_self.2 fun c hc ↦ decide_eq_true (h i a ha c hc)
  have hsplit : l = l.take i ++ a :: l.drop (i + 1) := by
    obtain ⟨hi, rfl⟩ := List.getElem?_eq_some_iff.1 ha
    rw [List.cons_getElem_drop_succ, List.take_append_drop]
  conv_lhs => rw [hsplit]
  rw [List.flatMap_append, List.flatMap_cons, List.filter_append, List.filter_append,
    hother hbefore, hother hbehind, hgroup, List.nil_append, List.append_nil]

/-- The loops of a cut region are its contours. -/
theorem IsCut.loops_eq (h : r.IsCut) : r.loops = r.polygons.flatMap Polygon.contours := by
  refine List.flatMap_congr fun p hp ↦ ?_
  rw [List.flatMap_congr fun c hc ↦ (h.isSimple p hp c hc).loops_eq, List.flatMap_singleton']

theorem IsCut.outerLoops_eq (h : r.IsCut) : r.outerLoops = r.outlines := by
  rw [outerLoops, h.loops_eq, List.filter_flatMap, outlines, List.map_eq_flatMap]
  refine List.flatMap_congr fun p hp ↦ ?_
  have hholes : p.holes.filter (fun c ↦ 0 < c.doubledArea) = [] := by
    rw [List.filter_eq_nil_iff]
    intro c hc
    simpa using (h.hole_neg p hp c hc).le
  rw [Polygon.contours, List.filter_cons, if_pos (decide_eq_true (h.outline_pos p hp)), hholes]

theorem IsCut.innerLoops_eq (h : r.IsCut) : r.innerLoops = r.holes := by
  rw [innerLoops, h.loops_eq, List.filter_flatMap, holes]
  refine List.flatMap_congr fun p hp ↦ ?_
  have houtline : ¬ decide (p.outline.doubledArea < 0) = true := by
    simpa using (h.outline_pos p hp).le
  rw [Polygon.contours, List.filter_cons, if_neg houtline, List.filter_eq_self]
  exact fun c hc ↦ decide_eq_true (h.hole_neg p hp c hc)

/-- Every hole of a cut region finds its polygon again. -/
theorem IsCut.holesAt_eq (h : r.IsCut) (hp : r.polygons[i]? = some p) : r.holesAt i = p.holes := by
  rw [holesAt, h.innerLoops_eq, h.outerLoops_eq, holes]
  exact filter_flatMap_of_labelled h.owned hp

/-- **Cutting changes nothing in a cut region.** -/
theorem IsCut.cutIntoLoops_eq (h : r.IsCut) : r.cutIntoLoops = r := by
  have hpolygons : r.cutIntoLoops.polygons = r.polygons := by
    refine List.ext_getElem? fun i ↦ Option.ext fun p ↦ ?_
    rw [getElem?_cutIntoLoops, h.outerLoops_eq, outlines, List.getElem?_map]
    rcases hq : r.polygons[i]? with - | q
    · simp
    · rw [h.holesAt_eq hq, Option.map_some, Option.some.injEq, Option.some.injEq]
      cases p
      cases q
      simp [eq_comm]
  exact congrArg Region.mk hpolygons

/-- The cut regions are those that cutting leaves as they are. -/
theorem cutIntoLoops_eq_self_iff : r.cutIntoLoops = r ↔ r.IsCut :=
  ⟨fun h ↦ h ▸ isCut_cutIntoLoops r, IsCut.cutIntoLoops_eq⟩

/-- **Cut regions are the normal form of cutting**: all contours of the region that results are
closed, visit at least three vertices and none of them twice, its outlines run counter-clockwise and
its holes clockwise, and cutting it again gives the same polygons with the same holes and vertices
in the same order. -/
theorem cutIntoLoops_normal (r : Region) :
    (∀ p ∈ r.cutIntoLoops.polygons,
      (∀ c ∈ p.contours, c.closed = true ∧ 3 ≤ c.size ∧ c.points.Nodup) ∧
        0 < p.outline.doubledArea ∧ ∀ c ∈ p.holes, c.doubledArea < 0) ∧
      r.cutIntoLoops.cutIntoLoops = r.cutIntoLoops := by
  have hcut := isCut_cutIntoLoops r
  refine ⟨fun p hp ↦ ⟨fun c hc ↦ ?_, hcut.outline_pos p hp, hcut.hole_neg p hp⟩,
    cutIntoLoops_eq_self_iff.2 hcut⟩
  obtain ⟨hclosed, hthree, hnodup⟩ := hcut.isSimple p hp c hc
  exact ⟨hclosed, hthree, hnodup⟩

/-- A bay that closes at a corner becomes a hole. -/
example : cutIntoLoops ⟨[.ofOutline (.closedOf
      [⟨0, 0⟩, ⟨6, 0⟩, ⟨6, 6⟩, ⟨3, 6⟩, ⟨4, 4⟩, ⟨2, 4⟩, ⟨3, 6⟩, ⟨0, 6⟩])]⟩ =
    ⟨[⟨.closedOf [⟨0, 0⟩, ⟨6, 0⟩, ⟨6, 6⟩, ⟨3, 6⟩, ⟨0, 6⟩],
      [.closedOf [⟨3, 6⟩, ⟨4, 4⟩, ⟨2, 4⟩]]⟩]⟩ := by
  decide

end Region

end GridGeometry
