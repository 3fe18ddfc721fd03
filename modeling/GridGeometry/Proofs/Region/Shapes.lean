import GridGeometry.Proofs.Contour.Area
import GridGeometry.Proofs.Contour.NullEdges
import GridGeometry.Region.Clipper

/-!
# The region of a clipper's answer

A clipper may answer with any shapes. The region made of them is tidy (`Region.IsTidy`): all its
contours are closed and slim and have three vertices, no outline runs clockwise, and no hole runs
counter-clockwise. `Polygon.IsOfShape` says which polygon a shape gives: that of its paths without
edges of length zero, each run in one of the two directions, where a path of which fewer than three
vertices are left is no contour.

A tidy region whose outlines enclose an area goes through a clipper unchanged: its paths are its
contours (`Region.IsTidy.toPaths_eq`), and one shape for each polygon, made of the paths of its
contours, gives the region again (`Region.IsTidy.ofShapes_eq`).
-/

namespace GridGeometry

namespace Contour

variable {c : Contour} {path : ClosedPath}

/-- The path has three vertices without edges of length zero. -/
def Survives (path : ClosedPath) : Prop := 3 ≤ (slim path).length

instance (path : ClosedPath) : Decidable (Survives path) :=
  inferInstanceAs (Decidable (3 ≤ (slim path).length))

/-- A closed contour without edges of length zero that has at least three vertices. -/
structure IsTidy (c : Contour) : Prop where
  closed : c.closed = true
  three_le : 3 ≤ c.size
  slim : IsSlim c.points

/-- A path becomes a contour when it survives. -/
theorem ofPath?_eq (path : ClosedPath) :
    ofPath? path = if Survives path then some (closedOf (slim path)) else none := by
  rw [ofPath?, withoutNullEdges_ofPoints]
  rfl

theorem ofPath?_eq_some_iff : ofPath? path = some c ↔ Survives path ∧ c = closedOf (slim path) := by
  rw [ofPath?_eq, Option.ite_none_right_eq_some, Option.some.injEq, eq_comm (a := c)]

/-- The contour of a path is tidy. -/
theorem isTidy_of_ofPath? (h : ofPath? path = some c) : c.IsTidy := by
  obtain ⟨hthree, rfl⟩ := ofPath?_eq_some_iff.1 h
  exact ⟨rfl, hthree, isSlim_slim (Nat.le_of_succ_le hthree)⟩

/-- A tidy contour is the contour of its own path. -/
theorem IsTidy.ofPath?_eq (h : c.IsTidy) : ofPath? c.points = some c := by
  rw [ofPath?_eq_some_iff, Survives, h.slim.slim_eq]
  exact ⟨h.three_le, by rw [closedOf, ← h.closed]⟩

/-! ### Direction -/

/-- To give a contour a direction is to leave it as it is or to reverse it. -/
theorem directed_eq (ccw : Bool) (c : Contour) :
    c.directed ccw = c ∨ c.directed ccw = c.reverse := by
  unfold directed
  split
  · exact .inl rfl
  · exact .inr rfl

theorem IsTidy.reverse (h : c.IsTidy) : c.reverse.IsTidy where
  closed := h.closed
  three_le := by
    have := h.three_le
    rwa [size, Contour.reverse, List.length_reverse]
  slim := h.slim.reverse

/-- Tidy contours are tidy in either direction. -/
theorem IsTidy.directed (h : c.IsTidy) (ccw : Bool) : (c.directed ccw).IsTidy := by
  rcases directed_eq ccw c with hd | hd
  · rwa [hd]
  · exact hd ▸ h.reverse

/-- Turned counter-clockwise, no contour has a negative area. -/
theorem doubledArea_directed_true (c : Contour) : 0 ≤ (c.directed true).doubledArea := by
  unfold Contour.directed isCounterclockwise
  split
  case isTrue h => exact (of_decide_eq_true h).le
  case isFalse h =>
    rw [decide_eq_true_eq] at h
    rw [doubledArea_reverse]
    omega

/-- Turned clockwise, none has a positive one. -/
theorem doubledArea_directed_false (c : Contour) : (c.directed false).doubledArea ≤ 0 := by
  unfold Contour.directed isCounterclockwise
  split
  case isTrue h => exact Int.not_lt.1 (of_decide_eq_false h)
  case isFalse h =>
    rw [decide_eq_false_iff_not, not_not] at h
    rw [doubledArea_reverse]
    omega

theorem directed_true_of_pos (h : 0 < c.doubledArea) : c.directed true = c :=
  if_pos (decide_eq_true h)

theorem directed_false_of_nonpos (h : c.doubledArea ≤ 0) : c.directed false = c :=
  if_pos (decide_eq_false h.not_gt)

/-! ### Paths -/

theorem IsTidy.toPath?_eq (h : c.IsTidy) (ccw : Bool) :
    c.toPath? ccw = some (c.directed ccw).points := if_pos h.three_le

/-- The contour has the vertices of the path without edges of length zero, in one of the two
orders. -/
def IsOfPath (c : Contour) (path : ClosedPath) : Prop :=
  c.points = Contour.slim path ∨ c.points = (Contour.slim path).reverse

theorem isOfPath_directed (ccw : Bool) (path : ClosedPath) :
    ((closedOf (slim path)).directed ccw).IsOfPath path := by
  rcases directed_eq ccw (closedOf (slim path)) with hd | hd
  · exact .inl (congrArg points hd)
  · exact .inr (congrArg points hd)

end Contour

/-- What is selected by a test and what is made of it go together, in order. -/
theorem forall₂_filter_filterMap {α β : Type} {R : α → β → Prop} {f : α → Option β} {t : α → Bool}
    (h : ∀ a, t a = false ∧ f a = none ∨ t a = true ∧ ∃ b, f a = some b ∧ R a b) (l : List α) :
    List.Forall₂ R (l.filter t) (l.filterMap f) := by
  induction l with
  | nil => exact .nil
  | cons a l ih =>
    rcases h a with ⟨ht, hf⟩ | ⟨ht, b, hf, hR⟩
    · rwa [List.filter_cons_of_neg (by simp [ht]), List.filterMap_cons_none hf]
    · rw [List.filter_cons_of_pos ht, List.filterMap_cons_some hf]
      exact .cons hR ih

/-- What is written down and taken in again element by element is the same list. -/
theorem filterMap_map_eq_self {α β : Type} {f : β → Option α} {g : α → β} {l : List α}
    (h : ∀ a ∈ l, f (g a) = some a) : (l.map g).filterMap f = l := by
  rw [List.filterMap_map]
  calc l.filterMap (f ∘ g)
      = l.filterMap some := List.filterMap_congr h
    _ = l := List.filterMap_some

namespace Polygon

variable {s : Shape} {p : Polygon}

/-- The first path of the shape survives. -/
def outlineSurvives (s : Shape) : Bool := s.head?.any fun path ↦ Contour.Survives path

/-- The polygon is that of the shape: its outline is the contour of the first path, and its holes
are those of the other paths that survive, in order. -/
inductive IsOfShape : Shape → Polygon → Prop
  | intro {path : ClosedPath} {paths : List ClosedPath} {p : Polygon} :
      p.outline.IsOfPath path →
      List.Forall₂ (fun path c ↦ Contour.IsOfPath c path)
        (paths.filter fun path ↦ Contour.Survives path) p.holes →
      IsOfShape (path :: paths) p

/-- All contours are tidy, the outline does not run clockwise, and no hole runs
counter-clockwise. -/
structure IsTidy (p : Polygon) : Prop where
  isTidy : ∀ c ∈ p.contours, c.IsTidy
  outline_nonneg : 0 ≤ p.outline.doubledArea
  hole_nonpos : ∀ c ∈ p.holes, c.doubledArea ≤ 0

/-- The polygon of a shape whose outline survives. -/
def ofSurviving (path : ClosedPath) (paths : List ClosedPath) : Polygon :=
  ⟨(Contour.closedOf (Contour.slim path)).directed true,
    (paths.filterMap Contour.ofPath?).map (Contour.directed false)⟩

theorem ofShape?_cons (path : ClosedPath) (paths : List ClosedPath) :
    ofShape? (path :: paths) =
      if Contour.Survives path then some (ofSurviving path paths) else none := by
  rw [ofShape?, Contour.ofPath?_eq]
  split <;> rfl

/-- The polygon of a shape has its paths, in order. -/
theorem isOfShape_ofSurviving (path : ClosedPath) (paths : List ClosedPath) :
    IsOfShape (path :: paths) (ofSurviving path paths) := by
  refine .intro (Contour.isOfPath_directed true path) ?_
  rw [ofSurviving, List.map_filterMap]
  refine forall₂_filter_filterMap (fun path ↦ ?_) paths
  by_cases h : Contour.Survives path
  · refine .inr ⟨decide_eq_true h, _, ?_, Contour.isOfPath_directed false path⟩
    rw [Contour.ofPath?_eq, if_pos h, Option.map_some]
  · refine .inl ⟨decide_eq_false h, ?_⟩
    rw [Contour.ofPath?_eq, if_neg h, Option.map_none]

/-- It is tidy, since its contours are slim and turned as they should be. -/
theorem isTidy_ofSurviving {path : ClosedPath} (h : Contour.Survives path)
    (paths : List ClosedPath) : (ofSurviving path paths).IsTidy where
  isTidy := by
    intro c hc
    rcases List.mem_cons.1 hc with rfl | hc
    · exact (Contour.isTidy_of_ofPath? (Contour.ofPath?_eq_some_iff.2 ⟨h, rfl⟩)).directed true
    · obtain ⟨d, hd, rfl⟩ := List.mem_map.1 hc
      obtain ⟨path, -, hpath⟩ := List.mem_filterMap.1 hd
      exact (Contour.isTidy_of_ofPath? hpath).directed false
  outline_nonneg := Contour.doubledArea_directed_true _
  hole_nonpos := by
    intro c hc
    obtain ⟨d, -, rfl⟩ := List.mem_map.1 hc
    exact Contour.doubledArea_directed_false d

/-- **A shape gives a polygon exactly when its first path survives**, and that polygon is tidy. -/
theorem ofShape?_cases (s : Shape) : outlineSurvives s = false ∧ ofShape? s = none ∨
    outlineSurvives s = true ∧ ∃ p, ofShape? s = some p ∧ IsOfShape s p ∧ p.IsTidy := by
  rcases s with - | ⟨path, paths⟩
  · exact .inl ⟨rfl, rfl⟩
  by_cases h : Contour.Survives path
  · refine .inr ⟨decide_eq_true h, ofSurviving path paths, ?_, isOfShape_ofSurviving path paths,
      isTidy_ofSurviving h paths⟩
    rw [ofShape?_cons, if_pos h]
  · refine .inl ⟨decide_eq_false h, ?_⟩
    rw [ofShape?_cons, if_neg h]

/-! ### Tidy polygons -/

/-- A tidy polygon whose outline encloses an area exports its contours as they are. -/
theorem IsTidy.toPaths_eq (h : p.IsTidy) (hp : 0 < p.outline.doubledArea) :
    p.toPaths = p.contours.map Contour.points := by
  have hholes : p.holes.filterMap (Contour.toPath? false) = p.holes.map Contour.points := by
    rw [← List.filterMap_eq_map]
    refine List.filterMap_congr fun c hc ↦ ?_
    rw [(h.isTidy c (List.mem_cons_of_mem _ hc)).toPath?_eq,
      Contour.directed_false_of_nonpos (h.hole_nonpos c hc)]
    rfl
  rw [toPaths, (h.isTidy _ List.mem_cons_self).toPath?_eq, Contour.directed_true_of_pos hp, hholes]
  rfl

/-- A tidy polygon whose outline encloses an area is the polygon of its own paths. -/
theorem IsTidy.ofShape?_eq (h : p.IsTidy) (hp : 0 < p.outline.doubledArea) :
    ofShape? (p.contours.map Contour.points) = some p := by
  have hholes : (p.holes.map Contour.points).filterMap Contour.ofPath? = p.holes :=
    filterMap_map_eq_self fun c hc ↦ (h.isTidy c (List.mem_cons_of_mem _ hc)).ofPath?_eq
  have hdirected : p.holes.map (Contour.directed false) = p.holes :=
    (List.map_congr_left fun c hc ↦ Contour.directed_false_of_nonpos (h.hole_nonpos c hc)).trans
      p.holes.map_id
  rw [contours, List.map_cons, ofShape?, (h.isTidy _ List.mem_cons_self).ofPath?_eq,
    Option.map_some, Contour.directed_true_of_pos hp, hholes, hdirected]

end Polygon

namespace Region

variable {r : Region}

/-- All polygons are tidy. -/
def IsTidy (r : Region) : Prop := ∀ p ∈ r.polygons, p.IsTidy

/-- **The region of any shapes is tidy.** -/
theorem isTidy_ofShapes (shapes : List Shape) : (ofShapes shapes).IsTidy := by
  intro p hp
  obtain ⟨s, -, hs⟩ := List.mem_filterMap.1 hp
  rcases Polygon.ofShape?_cases s with ⟨-, hnone⟩ | ⟨-, q, hq, -, htidy⟩
  · rw [hs] at hnone
    exact absurd hnone (Option.some_ne_none p)
  · rw [hs, Option.some.injEq] at hq
    exact hq ▸ htidy

/-- **A tidy region goes to a clipper as it is**, if its outlines enclose areas. -/
theorem IsTidy.toPaths_eq (h : r.IsTidy) (hr : ∀ p ∈ r.polygons, 0 < p.outline.doubledArea) :
    r.toPaths = r.polygons.flatMap fun p ↦ p.contours.map Contour.points :=
  List.flatMap_congr fun p hp ↦ (h p hp).toPaths_eq (hr p hp)

/-- **A tidy region comes back from a clipper as it is**, if its outlines enclose areas. -/
theorem IsTidy.ofShapes_eq (h : r.IsTidy) (hr : ∀ p ∈ r.polygons, 0 < p.outline.doubledArea) :
    ofShapes (r.polygons.map fun p ↦ p.contours.map Contour.points) = r :=
  congrArg Region.mk (filterMap_map_eq_self fun p hp ↦ (h p hp).ofShape?_eq (hr p hp))

/-- **What a clipper's answer becomes.** For any shapes, the contours of the region are closed, have
three vertices, and no two vertices that are neighbours around the cycle are equal; outlines do not
run clockwise, and holes do not run counter-clockwise. There is one polygon for each shape whose
first path survives, in order, and it is made of the paths of that shape. If moreover every outline
encloses an area, the region goes to a clipper with the vertices of its contours unchanged and in
order, and taken as the clipper's answer, one shape for each polygon, these give it again. -/
theorem ofShapes_normal (shapes : List Shape) :
    (∀ p ∈ (ofShapes shapes).polygons,
      (∀ c ∈ p.contours, c.closed = true ∧ 3 ≤ c.size ∧ ∀ e ∈ c.edges, e.start ≠ e.stop) ∧
        0 ≤ p.outline.doubledArea ∧ ∀ c ∈ p.holes, c.doubledArea ≤ 0) ∧
      List.Forall₂ Polygon.IsOfShape (shapes.filter Polygon.outlineSurvives)
        (ofShapes shapes).polygons ∧
      ((∀ p ∈ (ofShapes shapes).polygons, p.outline.doubledArea ≠ 0) →
        (ofShapes shapes).toPaths =
            (ofShapes shapes).polygons.flatMap (fun p ↦ p.contours.map Contour.points) ∧
          ofShapes ((ofShapes shapes).polygons.map fun p ↦ p.contours.map Contour.points) =
            ofShapes shapes) := by
  have htidy := isTidy_ofShapes shapes
  refine ⟨fun p hp ↦ ⟨fun c hc ↦ ?_, (htidy p hp).outline_nonneg, (htidy p hp).hole_nonpos⟩, ?_,
    fun hne ↦ ?_⟩
  · have hc := (htidy p hp).isTidy c hc
    refine ⟨hc.closed, hc.three_le, fun e he ↦ ?_⟩
    rw [Contour.edges_of_closed hc.closed] at he
    exact hc.slim e he
  · refine forall₂_filter_filterMap (fun s ↦ ?_) shapes
    rcases Polygon.ofShape?_cases s with h | ⟨hs, p, hp, hof, -⟩
    · exact .inl h
    · exact .inr ⟨hs, p, hp, hof⟩
  · have hpos : ∀ p ∈ (ofShapes shapes).polygons, 0 < p.outline.doubledArea := fun p hp ↦
      lt_of_le_of_ne (htidy p hp).outline_nonneg (hne p hp).symm
    exact ⟨htidy.toPaths_eq hpos, htidy.ofShapes_eq hpos⟩

/-- A clockwise triangle that returns to its start, with a counter-clockwise hole drawn with a
repeat. -/
theorem ofShapes_normal_triangle :
    (∀ p ∈ (ofShapes [[[⟨0, 0⟩, ⟨0, 9⟩, ⟨9, 9⟩, ⟨0, 0⟩],
        [⟨1, 5⟩, ⟨2, 8⟩, ⟨2, 8⟩, ⟨1, 8⟩]]]).polygons, p.outline.doubledArea ≠ 0) ∧
      (ofShapes [[[⟨0, 0⟩, ⟨0, 9⟩, ⟨9, 9⟩, ⟨0, 0⟩], [⟨1, 5⟩, ⟨2, 8⟩, ⟨2, 8⟩, ⟨1, 8⟩]]]).toPaths =
        [[⟨9, 9⟩, ⟨0, 9⟩, ⟨0, 0⟩], [⟨1, 8⟩, ⟨2, 8⟩, ⟨1, 5⟩]] ∧
      ofShapes [[[⟨9, 9⟩, ⟨0, 9⟩, ⟨0, 0⟩], [⟨1, 8⟩, ⟨2, 8⟩, ⟨1, 5⟩]]] =
        ofShapes [[[⟨0, 0⟩, ⟨0, 9⟩, ⟨9, 9⟩, ⟨0, 0⟩], [⟨1, 5⟩, ⟨2, 8⟩, ⟨2, 8⟩, ⟨1, 8⟩]]] :=
  have hpos : ∀ p ∈ (ofShapes [[[⟨0, 0⟩, ⟨0, 9⟩, ⟨9, 9⟩, ⟨0, 0⟩],
      [⟨1, 5⟩, ⟨2, 8⟩, ⟨2, 8⟩, ⟨1, 8⟩]]]).polygons, p.outline.doubledArea ≠ 0 := by decide
  ⟨hpos, ((ofShapes_normal _).2.2 hpos).1, ((ofShapes_normal _).2.2 hpos).2⟩

end Region

end GridGeometry
