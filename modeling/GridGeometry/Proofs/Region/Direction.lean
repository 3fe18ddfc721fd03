import GridGeometry.Proofs.Region.Shapes
import GridGeometry.Region.Growth

/-!
# The direction of contours

A clipper is given every contour in the direction of its role: outlines counter-clockwise, holes
clockwise. The direction in which a contour was drawn is therefore lost on the way to the clipper,
as long as there is one: run backward, a contour has the opposite area
(`Contour.doubledArea_reverse`), and so it is turned exactly when it was not turned before
(`Contour.directed_reverse`). A contour without area has no direction and is the exception. It goes
to the clipper as it is drawn when it is a hole, and turned round when it is an outline.

`Region.IsTurned` relates regions that differ in the direction of such contours only. They have the
same paths, so that no clipper can tell them apart (`Region.direction_lost`).
-/

namespace GridGeometry

/-! ### One contour -/

namespace Contour

variable {c d : Contour}

/-- The contour `d` is `c`, possibly run backward if it is no path for a clipper or encloses an
area. -/
inductive IsTurned : Contour → Contour → Prop
  | same {c : Contour} : IsTurned c c
  | back {c : Contour} : c.size < 3 ∨ c.doubledArea ≠ 0 → IsTurned c c.reverse

/-- The path has the vertices of the contour in one of the two orders, and it does not run against
the role of the contour. -/
structure IsExported (isOutline : Bool) (c : Contour) (path : ClosedPath) : Prop where
  order : path = c.points ∨ path = c.points.reverse
  outline_nonneg : isOutline = true → 0 ≤ (closedOf path).doubledArea
  hole_nonpos : isOutline = false → (closedOf path).doubledArea ≤ 0

@[simp] theorem size_reverse (c : Contour) : c.reverse.size = c.size := List.length_reverse

@[simp] theorem reverse_reverse (c : Contour) : c.reverse.reverse = c := by
  show (⟨c.points.reverse.reverse, c.closed⟩ : Contour) = c
  rw [List.reverse_reverse]

/-- Of a contour with an area and its reverse, just one runs counter-clockwise. -/
theorem isCounterclockwise_reverse (h : c.doubledArea ≠ 0) :
    c.reverse.isCounterclockwise = !c.isCounterclockwise := by
  unfold isCounterclockwise
  rw [doubledArea_reverse, ← decide_not, decide_eq_decide]
  omega

/-- **A contour with an area is directed alike from either side.** -/
theorem directed_reverse (h : c.doubledArea ≠ 0) (ccw : Bool) :
    c.reverse.directed ccw = c.directed ccw := by
  rw [directed, directed, isCounterclockwise_reverse h, reverse_reverse]
  cases c.isCounterclockwise <;> cases ccw <;> rfl

theorem IsTurned.toPath?_eq (h : c.IsTurned d) (isOutline : Bool) :
    d.toPath? isOutline = c.toPath? isOutline := by
  cases h with
  | same => rfl
  | back h =>
    rw [toPath?, toPath?, size_reverse]
    rcases h with hsmall | harea
    · rw [if_neg hsmall.not_ge, if_neg hsmall.not_ge]
    · rw [directed_reverse harea]

/-- A directed contour does not run against its role. -/
theorem isExported_directed (isOutline : Bool) (c : Contour) :
    c.IsExported isOutline (c.directed isOutline).points where
  order := by
    rcases directed_eq isOutline c with h | h
    · exact .inl (congrArg points h)
    · exact .inr (congrArg points h)
  outline_nonneg := by
    intro h
    subst h
    exact doubledArea_directed_true c
  hole_nonpos := by
    intro h
    subst h
    exact doubledArea_directed_false c

end Contour

/-! ### All contours with their roles -/

/-- Lists that agree element by element, as far as a function sees, have the same images. -/
theorem map_eq_map_of_forall₂ {α γ : Type} {R : α → α → Prop} {f : α → γ} {l m : List α}
    (hf : ∀ a b, R a b → f a = f b) (h : List.Forall₂ R l m) : l.map f = m.map f := by
  induction h with
  | nil => rfl
  | cons hab _ ih => rw [List.map_cons, List.map_cons, hf _ _ hab, ih]

namespace Polygon

variable {p q : Polygon}

/-- The contours of a polygon, each with the decision whether it is the outline. -/
def roles (p : Polygon) : List (Bool × Contour) := (true, p.outline) :: p.holes.map (false, ·)

/-- The polygons differ in the direction of contours only. -/
structure IsTurned (p q : Polygon) : Prop where
  outline : p.outline.IsTurned q.outline
  holes : List.Forall₂ Contour.IsTurned p.holes q.holes

theorem toPaths_eq_filterMap (p : Polygon) :
    p.toPaths = p.roles.filterMap fun role ↦ role.2.toPath? role.1 := by
  have hholes : (p.holes.map (false, ·)).filterMap (fun role ↦ role.2.toPath? role.1) =
      p.holes.filterMap (Contour.toPath? false) := List.filterMap_map
  rw [roles, ← List.singleton_append, List.filterMap_append, hholes]
  cases h : p.outline.toPath? true <;> simp [toPaths, h]

theorem IsTurned.toPaths_eq (h : p.IsTurned q) : q.toPaths = p.toPaths := by
  have hholes : q.holes.filterMap (Contour.toPath? false) =
      p.holes.filterMap (Contour.toPath? false) :=
    calc q.holes.filterMap (id ∘ Contour.toPath? false)
        = (q.holes.map (Contour.toPath? false)).filterMap id := List.filterMap_map.symm
      _ = (p.holes.map (Contour.toPath? false)).filterMap id :=
        congrArg _ (map_eq_map_of_forall₂ (fun _ _ hc ↦ (hc.toPath?_eq false).symm) h.holes).symm
      _ = p.holes.filterMap (id ∘ Contour.toPath? false) := List.filterMap_map
  rw [toPaths, toPaths, h.outline.toPath?_eq, hholes]

end Polygon

namespace Region

variable {r s : Region}

/-- The contours of a region, polygon by polygon, each with the decision whether it is an
outline. -/
def roles (r : Region) : List (Bool × Contour) := r.polygons.flatMap Polygon.roles

/-- The regions differ in the direction of contours only. -/
def IsTurned (r s : Region) : Prop := List.Forall₂ Polygon.IsTurned r.polygons s.polygons

theorem toPaths_eq_filterMap (r : Region) :
    r.toPaths = r.roles.filterMap fun role ↦ role.2.toPath? role.1 := by
  rw [toPaths, roles, List.filterMap_flatMap]
  exact List.flatMap_congr fun p _ ↦ p.toPaths_eq_filterMap

theorem IsTurned.toPaths_eq (h : r.IsTurned s) : s.toPaths = r.toPaths := by
  rw [toPaths, toPaths, List.flatMap_def, List.flatMap_def]
  exact congrArg _ (map_eq_map_of_forall₂ (fun _ _ hp ↦ hp.toPaths_eq.symm) h).symm

/-- Each path stands for a contour of three vertices, in order. -/
theorem isExported_toPaths (r : Region) :
    List.Forall₂ (fun role path ↦ role.2.IsExported role.1 path)
      (r.roles.filter fun role ↦ 3 ≤ role.2.size) r.toPaths := by
  rw [toPaths_eq_filterMap]
  refine forall₂_filter_filterMap (fun (isOutline, c) ↦ ?_) r.roles
  rcases Nat.lt_or_ge c.size 3 with hsmall | hsize
  · exact .inl ⟨decide_eq_false hsmall.not_ge, if_neg hsmall.not_ge⟩
  · exact .inr ⟨decide_eq_true hsize, _, if_pos hsize, c.isExported_directed isOutline⟩

/-- **The direction of contours is lost on the way to a clipper.** Every path of a region stands for
one of its contours of three vertices, polygon by polygon: it has the vertices of that contour in
one of the two orders, where outlines do not run clockwise and holes do not run counter-clockwise.
If any contours of two regions are run backward, where each of them has fewer than three vertices or
encloses an area, then the paths of both stay as they are, and so does every result of combining
them or of growing one of them, whatever the clipper. -/
theorem direction_lost (r s : Region) :
    List.Forall₂ (fun role path ↦ role.2.IsExported role.1 path)
        (r.roles.filter fun role ↦ 3 ≤ role.2.size) r.toPaths ∧
      ∀ r' s' : Region, r.IsTurned r' → s.IsTurned s' →
        r'.toPaths = r.toPaths ∧ s'.toPaths = s.toPaths ∧
        (∀ (clip : Clipper) (op : SetOperation) (mode : ResultMode),
          combine clip op r' s' mode = combine clip op r s mode) ∧
        ∀ (clip : Clipper) (g : Grower) (distance : Int) (segments : Nat),
          g.grow clip r' distance segments = g.grow clip r distance segments := by
  refine ⟨r.isExported_toPaths, fun r' s' hr hs ↦ ?_⟩
  have hr' : r'.toPaths = r.toPaths := hr.toPaths_eq
  have hs' : s'.toPaths = s.toPaths := hs.toPaths_eq
  refine ⟨hr', hs', fun clip op mode ↦ ?_, fun clip g distance segments ↦ ?_⟩
  · rw [combine, combine, combineRequest, combineRequest, hr', hs']
  · rw [Grower.grow, Grower.grow, Grower.growRequest, Grower.growRequest, combineRequest,
      combineRequest, hr']

/-- A clockwise triangle as outline, with a counter-clockwise hole and one of two vertices, all of
which are run backward, and a square as second operand, which is not. -/
theorem direction_lost_triangle :
    let r : Region := ⟨[⟨.closedOf [⟨0, 0⟩, ⟨0, 9⟩, ⟨9, 9⟩],
      [.closedOf [⟨1, 5⟩, ⟨2, 8⟩, ⟨1, 8⟩], .closedOf [⟨3, 3⟩, ⟨4, 4⟩]]⟩]⟩
    let r' : Region := ⟨[⟨.closedOf [⟨9, 9⟩, ⟨0, 9⟩, ⟨0, 0⟩],
      [.closedOf [⟨1, 8⟩, ⟨2, 8⟩, ⟨1, 5⟩], .closedOf [⟨4, 4⟩, ⟨3, 3⟩]]⟩]⟩
    let s : Region := .ofPolygon (.ofOutline (.closedOf [⟨0, 0⟩, ⟨5, 0⟩, ⟨5, 5⟩, ⟨0, 5⟩]))
    r.IsTurned r' ∧ s.IsTurned s ∧ r'.toPaths = r.toPaths ∧ r.toPaths ≠ [] := by
  intro r r' s
  have hr : r.IsTurned r' := .cons ⟨.back (.inr (by decide)),
    .cons (.back (.inr (by decide))) (.cons (.back (.inl (by decide))) .nil)⟩ .nil
  have hs : s.IsTurned s := .cons ⟨.same, .nil⟩ .nil
  exact ⟨hr, hs, ((direction_lost r s).2 r' s hr hs).1, by decide⟩

end Region

end GridGeometry
