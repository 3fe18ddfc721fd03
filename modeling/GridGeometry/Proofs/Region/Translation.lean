import GridGeometry.Proofs.Least
import GridGeometry.Proofs.Region.Crossings
import GridGeometry.Proofs.Region.Loops
import GridGeometry.Proofs.Region.Shapes
import GridGeometry.Proofs.Slit.Translation

/-!
# Moving a region

What is computed from a region moves with it. Each operation is taken apart layer by layer, contour
by contour and polygon by polygon, down to the measurements that a displacement does not change:
sides, boxes and areas choose the same holes, owners and directions before and after.

`Region.translate` moves a region wherever the displacement leads, and `Region.shift` is that where
it stays on the grid (`Region.shift_eq_ok_iff`). No operation makes coordinates that are outside the
box of the region, so that what is computed first can be moved as well (`Region.shift_commutes`).
-/

namespace GridGeometry

/-! ### Loops and paths of contours -/

namespace Contour

variable {c : Contour} {p : Point} {d : Point}

/-- Loops have no other vertices than the contour. -/
theorem mem_of_mem_loopsFrom {walked rest l : List Point} (hl : l ∈ loopsFrom walked rest)
    (hp : p ∈ l) : p ∈ walked ∨ p ∈ rest := by
  fun_induction loopsFrom walked rest with
  | case1 walked =>
    obtain rfl := List.mem_singleton.1 hl
    exact .inl hp
  | case2 walked q rest k hk ih =>
    rcases List.mem_cons.1 hl with rfl | hl
    · rcases List.mem_cons.1 hp with rfl | hp
      · exact .inr List.mem_cons_self
      · exact .inl (List.mem_of_mem_drop hp)
    · exact (ih hl).imp List.mem_of_mem_take (List.mem_cons_of_mem q)
  | case3 walked q rest hk ih =>
    rcases ih hl with h | h
    · rcases List.mem_append.1 h with h | h
      · exact .inl h
      · exact .inr (List.mem_singleton.1 h ▸ List.mem_cons_self)
    · exact .inr (List.mem_cons_of_mem q h)

/-- The loops of a contour on the grid are on the grid. -/
theorem OnGrid.loops (h : c.OnGrid) : ∀ e ∈ c.loops, e.OnGrid := by
  intro e he p hp
  obtain ⟨l, hl, rfl⟩ := List.mem_map.1 he
  exact h p ((mem_of_mem_loopsFrom hl hp).resolve_left List.not_mem_nil)

theorem OnGrid.reverse (h : c.OnGrid) : c.reverse.OnGrid := fun p hp ↦ h p (List.mem_reverse.1 hp)

theorem OnGrid.directed (h : c.OnGrid) (ccw : Bool) : (c.directed ccw).OnGrid := by
  rcases directed_eq ccw c with hd | hd
  · rwa [hd]
  · exact hd ▸ h.reverse

/-- A moved contour has the direction it had, and is turned when the contour is. -/
theorem directed_translate (ccw : Bool) (c : Contour) (d : Point) :
    (c.translate d).directed ccw = (c.directed ccw).translate d := by
  rw [directed, directed, isCounterclockwise, doubledArea_translate, isCounterclockwise,
    reverse_translate]
  split <;> rfl

/-- The path of a moved contour is its path, moved, and it has one when the contour has. -/
theorem toPath?_translate (ccw : Bool) (c : Contour) (d : Point) :
    (c.translate d).toPath? ccw =
      (c.toPath? ccw).map fun path ↦ path.map fun p ↦ p.translate d := by
  rw [toPath?, toPath?, size_translate, directed_translate]
  split <;> rfl

/-- Moved together, an outline surrounds a hole as before: the vertex that decides is moved too. -/
theorem surrounds_translate (outline hole : Contour) (d : Point) :
    (outline.translate d).surrounds (hole.translate d) = outline.surrounds hole := by
  have hfind : (hole.points.map fun p ↦ p.translate d).find?
      (fun p ↦ !(outline.translate d).touches p) =
        (hole.points.find? fun p ↦ !outline.touches p).map fun p ↦ p.translate d := by
    rw [List.find?_map]
    simp only [Function.comp_def, touches_translate]
  unfold surrounds
  rw [points_translate, hfind, List.head?_map]
  rcases hole.points.find? fun p ↦ !outline.touches p with - | p
  · rcases hole.points.head? with - | p
    · rfl
    · exact outline.contains_translate p d
  · exact outline.contains_translate p d

end Contour

/-- Among the moved outlines, a moved hole belongs to the one that it belonged to. -/
theorem ownerIndex?_translate (outlines : List Contour) (hole : Contour) (d : Point) :
    ownerIndex? (outlines.map fun c ↦ c.translate d) (hole.translate d) =
      ownerIndex? outlines hole := by
  unfold ownerIndex?
  rw [List.zipIdx_map, List.filter_map, minOn?_map, Option.map_map]
  simp only [Function.comp_def, Prod.map, Contour.surrounds_translate,
    Contour.doubledArea_translate, id]

/-! ### Polygons and regions -/

/-- The polygon moved by `d`. -/
def Polygon.translate (p : Polygon) (d : Point) : Polygon := p.mapContours fun c ↦ c.translate d

namespace Polygon

variable {p q : Polygon} {d : Point}

@[simp] theorem contours_translate (p : Polygon) (d : Point) :
    (p.translate d).contours = p.contours.map fun c ↦ c.translate d := rfl

/-- A point moved with a polygon is inside it as before. -/
theorem contains_translate (polygon : Polygon) (p d : Point) :
    (polygon.translate d).contains (p.translate d) = polygon.contains p := by
  show ((polygon.outline.translate d).contains _ && (polygon.holes.map _).all _) = _
  rw [List.all_map]
  simp only [Function.comp_def, Contour.contains_translate, Contour.touches_translate]
  rfl

/-- A polygon is shifted when all its contours stay on the grid. -/
theorem shift_eq_ok_iff : p.shift d = .ok q ↔ q = p.translate d ∧ ∀ c ∈ q.contours, c.OnGrid := by
  simp only [shift, mapContoursM, bind_eq_ok_iff, Contour.shift_eq_ok_iff,
    mapM_eq_ok_iff fun _ _ ↦ Contour.shift_eq_ok_iff]
  constructor
  · rintro ⟨_, ⟨rfl, houtline⟩, _, ⟨rfl, hholes⟩, heq⟩
    obtain rfl := Except.ok.inj heq
    exact ⟨rfl, List.forall_mem_cons.2 ⟨houtline, hholes⟩⟩
  · rintro ⟨rfl, hall⟩
    obtain ⟨houtline, hholes⟩ := List.forall_mem_cons.1 hall
    exact ⟨_, ⟨rfl, houtline⟩, _, ⟨rfl, hholes⟩, rfl⟩

/-- The paths of a moved polygon are its paths, moved. -/
theorem toPaths_translate (p : Polygon) (d : Point) :
    (p.translate d).toPaths = p.toPaths.map fun path ↦ path.map fun q ↦ q.translate d := by
  show ((p.outline.translate d).toPath? true).toList ++ (p.holes.map _).filterMap _ = _
  rw [toPaths, List.map_append, List.filterMap_map, List.map_filterMap, Contour.toPath?_translate,
    ← Option.toList_map]
  simp only [Function.comp_def, Contour.toPath?_translate]

end Polygon

/-- The order of crossings is strict, so that their list is known by its members. -/
theorem Crossing.Before.asymm {x y : Crossing} (h : x.Before y) : ¬ y.Before x := by
  rintro (h' | ⟨h', h''⟩)
  · rcases h with h | ⟨h, -⟩
    · exact h.asymm h'
    · exact h'.asymm (h ▸ h')
  · rcases h with h | ⟨-, h⟩
    · exact h.asymm (h' ▸ h)
    · exact h.asymm h''

namespace Region

variable {r s : Region} {p : Point} {a b : VertexAddress} {d : Point}

/-- The region moved by `d`. -/
def translate (r : Region) (d : Point) : Region := ⟨r.polygons.map fun p ↦ p.translate d⟩

/-- All vertices are on the grid. -/
def OnGrid (r : Region) : Prop := ∀ p ∈ r.polygons, ∀ c ∈ p.contours, c.OnGrid

/-- **Shifting a region is translation that stays on the grid.** -/
theorem shift_eq_ok_iff : r.shift d = .ok s ↔ s = r.translate d ∧ s.OnGrid := by
  simp only [shift, bind_eq_ok_iff, mapM_eq_ok_iff fun _ _ ↦ Polygon.shift_eq_ok_iff]
  constructor
  · rintro ⟨_, ⟨rfl, hgrid⟩, heq⟩
    obtain rfl := Except.ok.inj heq
    exact ⟨rfl, hgrid⟩
  · rintro ⟨rfl, hgrid⟩
    exact ⟨_, ⟨rfl, hgrid⟩, rfl⟩

/-! ### Points -/

/-- A point moved with a region is inside it as before. -/
theorem contains_translate (r : Region) (p d : Point) :
    (r.translate d).contains (p.translate d) = r.contains p := by
  show (r.polygons.map _).any _ = _
  rw [List.any_map]
  simp only [Function.comp_def, Polygon.contains_translate]
  rfl

/-- An address of the moved region leads to the moved edge. -/
theorem edgeAt?_translate (r : Region) (a : VertexAddress) (d : Point) :
    (r.translate d).edgeAt? a = (r.edgeAt? a).map fun e ↦ e.translate d := by
  unfold edgeAt? translate
  rw [List.getElem?_map]
  cases r.polygons[a.polygon]? with
  | none => rfl
  | some p =>
    simp only [Option.map_some, Option.bind_eq_bind, Option.bind_some, Polygon.contours_translate,
      List.getElem?_map]
    cases p.contours[a.contour]? with
    | none => rfl
    | some c =>
      show (Contour.cycle (c.points.map _))[a.vertex]? = _
      rw [Contour.cycle_map, List.getElem?_map]
      rfl

/-- A point moved with a region lies on its edges as before. -/
theorem touches_translate (r : Region) (p d : Point) :
    (r.translate d).touches (p.translate d) = r.touches p := by
  rw [Bool.eq_iff_iff, touches_iff, touches_iff]
  simp only [edgeAt?_translate, Option.map_eq_some_iff, exists_exists_and_eq_and,
    Segment.contains_translate]

/-- Addresses do not move, and so the same edges follow each other. -/
theorem follows_translate (r : Region) (a b : VertexAddress) (d : Point) :
    (r.translate d).Follows a b ↔ r.Follows a b := by
  unfold Follows translate
  simp only [List.getElem?_map, Option.map_eq_some_iff]
  constructor
  · rintro ⟨_, _, ⟨p, hp, rfl⟩, hc, rfl⟩
    rw [Polygon.contours_translate, List.getElem?_map, Option.map_eq_some_iff] at hc
    obtain ⟨c, hc, rfl⟩ := hc
    exact ⟨p, c, hp, hc, by rw [Contour.size_translate]⟩
  · rintro ⟨p, c, hp, hc, rfl⟩
    refine ⟨_, c.translate d, ⟨p, hp, rfl⟩, ?_, by rw [Contour.size_translate]⟩
    rw [Polygon.contours_translate, List.getElem?_map, hc, Option.map_some]

/-- **The same pairs of edges cross.** Both lists are in the order of addresses, so that the same
members make them the same list. -/
theorem crossings_translate (r : Region) (d : Point) : (r.translate d).crossings = r.crossings := by
  refine eq_of_pairwise_of_mem_iff (fun _ _ ↦ Crossing.Before.asymm) (pairwise_crossings _)
    (pairwise_crossings _) fun ⟨a, b⟩ ↦ ?_
  have hmeet : (∃ s t, (r.translate d).edgeAt? a = some s ∧ (r.translate d).edgeAt? b = some t ∧
      (s.points ∩ t.points).Nonempty) ↔ ∃ s t, r.edgeAt? a = some s ∧ r.edgeAt? b = some t ∧
        (s.points ∩ t.points).Nonempty := by
    simp only [edgeAt?_translate, ← Segment.meets_iff]
    constructor
    · rintro ⟨_, _, hs, ht, hmeets⟩
      obtain ⟨s, hs', rfl⟩ := Option.map_eq_some_iff.1 hs
      obtain ⟨t, ht', rfl⟩ := Option.map_eq_some_iff.1 ht
      exact ⟨s, t, hs', ht', (s.meets_translate t d).symm.trans hmeets⟩
    · rintro ⟨s, t, hs, ht, hmeets⟩
      rw [hs, ht]
      exact ⟨_, _, rfl, rfl, (s.meets_translate t d).trans hmeets⟩
  rw [mem_crossings, mem_crossings, follows_translate, follows_translate, hmeet]

theorem hasCrossings_translate (r : Region) (d : Point) :
    (r.translate d).hasCrossings = r.hasCrossings := by
  rw [Bool.eq_iff_iff, ← not_iff_not, Bool.not_eq_true, Bool.not_eq_true,
    hasCrossings_eq_false_iff, hasCrossings_eq_false_iff, crossings_translate]

/-! ### Paths and loops -/

theorem toPaths_translate (r : Region) (d : Point) :
    (r.translate d).toPaths = r.toPaths.map fun path ↦ path.map fun p ↦ p.translate d := by
  show (r.polygons.map _).flatMap _ = _
  rw [List.flatMap_map, toPaths, List.map_flatMap]
  exact List.flatMap_congr fun p _ ↦ p.toPaths_translate d

/-- The loops of the moved region are its loops, moved. -/
theorem loops_translate (r : Region) (d : Point) :
    (r.translate d).loops = r.loops.map fun c ↦ c.translate d := by
  show (r.polygons.map _).flatMap _ = _
  rw [List.flatMap_map, loops, List.map_flatMap]
  refine List.flatMap_congr fun p _ ↦ ?_
  rw [Polygon.contours_translate, List.flatMap_map, List.map_flatMap]
  exact List.flatMap_congr fun c _ ↦ c.loops_translate d

/-- Areas do not change, so the loops that become outlines are the same ones, moved. -/
theorem outerLoops_translate (r : Region) (d : Point) :
    (r.translate d).outerLoops = r.outerLoops.map fun c ↦ c.translate d := by
  rw [outerLoops, loops_translate, List.filter_map]
  simp only [Function.comp_def, Contour.doubledArea_translate]
  rfl

/-- The moved outlines have the holes they had, moved. -/
theorem holesAt_translate (r : Region) (d : Point) (i : Nat) :
    (r.translate d).holesAt i = (r.holesAt i).map fun c ↦ c.translate d := by
  rw [holesAt, innerLoops, loops_translate, List.filter_map, List.filter_map, outerLoops_translate]
  simp only [Function.comp_def, Contour.doubledArea_translate, ownerIndex?_translate]
  rfl

/-- **A moved region is cut into the moved loops.** -/
theorem cutIntoLoops_translate (r : Region) (d : Point) :
    (r.translate d).cutIntoLoops = r.cutIntoLoops.translate d := by
  refine congrArg Region.mk ?_
  show (r.translate d).cutIntoLoops.polygons = r.cutIntoLoops.polygons.map _
  rw [polygons_cutIntoLoops, polygons_cutIntoLoops, outerLoops_translate, List.zipIdx_map,
    List.map_map, List.map_map]
  refine List.map_congr_left fun x _ ↦ ?_
  show (⟨x.1.translate d, (r.translate d).holesAt x.2⟩ : Polygon) = _
  rw [holesAt_translate]
  rfl

/-- A region on the grid is cut into loops on the grid. -/
theorem OnGrid.cutIntoLoops (h : r.OnGrid) : r.cutIntoLoops.OnGrid := by
  have hloops : ∀ c ∈ r.loops, c.OnGrid := by
    intro c hc
    obtain ⟨p, hp, hc⟩ := List.mem_flatMap.1 hc
    obtain ⟨e, he, hc⟩ := List.mem_flatMap.1 hc
    exact (h p hp e he).loops c hc
  intro p hp c hc
  obtain ⟨i, hi⟩ := List.mem_iff_getElem?.1 hp
  obtain ⟨houtline, hholes⟩ := getElem?_cutIntoLoops.1 hi
  rcases List.mem_cons.1 hc with rfl | hc
  · exact hloops _ (mem_outerLoops.1 (List.mem_of_getElem? houtline)).1
  · exact hloops _ (mem_holesAt.1 (hholes ▸ hc)).1

/-- The paths of a region on the grid have all their points on the grid. -/
theorem OnGrid.toPaths (h : r.OnGrid) : ∀ path ∈ r.toPaths, ∀ p ∈ path, p.OnGrid := by
  intro path hpath
  obtain ⟨p, hp, hpath⟩ := List.mem_flatMap.1 hpath
  have hcontour : ∀ c ∈ p.contours, ∀ ccw, c.toPath? ccw = some path → ∀ q ∈ path, q.OnGrid := by
    intro c hc ccw hpath
    obtain ⟨-, hpath⟩ := Option.ite_none_right_eq_some.1 hpath
    obtain rfl := Option.some.inj hpath
    exact (h p hp c hc).directed ccw
  rcases List.mem_append.1 hpath with hpath | hpath
  · exact hcontour _ List.mem_cons_self _ (Option.mem_toList.1 hpath)
  · obtain ⟨c, hc, hpath⟩ := List.mem_filterMap.1 hpath
    exact hcontour c (List.mem_cons_of_mem _ hc) _ hpath

/-- **A displacement commutes with everything that is computed from a region**, wherever it keeps
the vertices on the grid: with joining the holes of each polygon to its outline, with cutting
contours into loops and with listing paths, none of which can leave the grid then. A point that is
moved with the region is inside it and on its edges as before, and the same pairs of edges cross. -/
theorem shift_commutes (r : Region) (p d : Point)
    (hr : ∀ polygon ∈ r.polygons, ∀ c ∈ polygon.contours, ∀ v ∈ c.points, (v.translate d).OnGrid)
    (hp : (p.translate d).OnGrid) :
    ∃ s q, r.shift d = .ok s ∧ p.add d = .ok q ∧
      List.Forall₂ (fun a b ↦ (GridGeometry.joinHoles a.contours).shift d =
        .ok (GridGeometry.joinHoles b.contours)) r.polygons s.polygons ∧
      r.cutIntoLoops.shift d = .ok s.cutIntoLoops ∧
      (r.toPaths.mapM fun path ↦ path.mapM fun v ↦ v.add d) = .ok s.toPaths ∧
      s.contains q = r.contains p ∧ s.touches q = r.touches p ∧
      s.crossings = r.crossings ∧ s.hasCrossings = r.hasCrossings := by
  have hcontours : ∀ polygon ∈ r.polygons, ∀ c ∈ polygon.contours, (c.translate d).OnGrid :=
    fun polygon hpolygon c hc ↦ List.forall_mem_map.2 (hr polygon hpolygon c hc)
  have hs : (r.translate d).OnGrid :=
    List.forall_mem_map.2 fun polygon hpolygon ↦ List.forall_mem_map.2 (hcontours polygon hpolygon)
  refine ⟨r.translate d, p.translate d, shift_eq_ok_iff.2 ⟨rfl, hs⟩,
    Point.add_eq_ok_iff.2 ⟨rfl, hp⟩, ?_, ?_, ?_, r.contains_translate p d, r.touches_translate p d,
    r.crossings_translate d, r.hasCrossings_translate d⟩
  · refine List.forall₂_map_right_iff.2 (List.forall₂_same.2 fun polygon hpolygon ↦ ?_)
    exact shift_joinHoles (hcontours polygon hpolygon)
  · exact shift_eq_ok_iff.2 ⟨r.cutIntoLoops_translate d, hs.cutIntoLoops⟩
  · simp only [mapM_eq_ok_iff fun _ _ ↦ mapM_eq_ok_iff fun _ _ ↦ Point.add_eq_ok_iff]
    exact ⟨r.toPaths_translate d, hs.toPaths⟩

/-- A triangle with a hole, moved to the far corner of the grid. The slit from the hole arrives at
the slanted edge between two columns, so that it is rounded. -/
theorem shift_commutes_corner :
    let r : Region := ⟨[⟨.closedOf [⟨0, 0⟩, ⟨8, 0⟩, ⟨8, 9⟩], [.closedOf [⟨6, 2⟩, ⟨6, 3⟩, ⟨7, 3⟩]]⟩]⟩
    let d : Point := ⟨2147483639, 2147483638⟩
    ∃ s q, r.shift d = .ok s ∧ Point.add ⟨8, 9⟩ d = .ok q ∧
      List.Forall₂ (fun a b ↦ (GridGeometry.joinHoles a.contours).shift d =
        .ok (GridGeometry.joinHoles b.contours)) r.polygons s.polygons ∧
      r.cutIntoLoops.shift d = .ok s.cutIntoLoops ∧
      (r.toPaths.mapM fun path ↦ path.mapM fun v ↦ v.add d) = .ok s.toPaths ∧
      s.contains q = r.contains ⟨8, 9⟩ ∧ s.touches q = r.touches ⟨8, 9⟩ ∧
      s.crossings = r.crossings ∧ s.hasCrossings = r.hasCrossings :=
  shift_commutes ⟨[⟨.closedOf [⟨0, 0⟩, ⟨8, 0⟩, ⟨8, 9⟩], [.closedOf [⟨6, 2⟩, ⟨6, 3⟩, ⟨7, 3⟩]]⟩]⟩
    ⟨8, 9⟩ ⟨2147483639, 2147483638⟩ (by decide) (by decide)

end Region

end GridGeometry
