import GridGeometry.Proofs.Contour.Loops
import GridGeometry.Proofs.Contour.NullEdges
import GridGeometry.Proofs.Contour.Symmetry

/-!
# Translation

Everything that is measured on the grid is a difference of coordinates: on which side of a line a
point lies, what a box around a segment holds, how two areas compare. So nothing changes when all
points are moved by one displacement, and what is built of vertices moves with them.

`Point.translate` moves a point wherever the displacement leads. `Contour.shift` stays on the grid
or fails, and where it succeeds the two agree (`Contour.shift_eq_ok_iff`).
-/

namespace GridGeometry

/-! ### Operations without a fault -/

/-- Two operations in succession come out when both do. -/
theorem bind_eq_ok_iff {α β : Type} {x : Except Fault α} {f : α → Except Fault β} {b : β} :
    x >>= f = .ok b ↔ ∃ a, x = .ok a ∧ f a = .ok b := by
  cases x <;> simp [bind, Except.bind]

/-- A guarded operation comes out when the guard holds and the operation does. -/
theorem ite_error_eq_ok_iff {α : Type} {P : Prop} [Decidable P] {x : Except Fault α} {e : Fault}
    {a : α} : (if P then x else .error e) = .ok a ↔ P ∧ x = .ok a := by
  split
  case isTrue h => exact (and_iff_right h).symm
  case isFalse h => exact iff_of_false (by simp) fun hx ↦ h hx.1

/-- A list goes through a function that may fail when each of its elements does. -/
theorem mapM_eq_ok_iff {α β : Type} {f : α → Except Fault β} {g : α → β} {P : β → Prop}
    (hf : ∀ a b, f a = .ok b ↔ b = g a ∧ P b) {l : List α} {m : List β} :
    l.mapM f = .ok m ↔ m = l.map g ∧ ∀ b ∈ m, P b := by
  induction l generalizing m with
  | nil =>
    rw [List.mapM_nil, List.map_nil]
    show Except.ok [] = Except.ok m ↔ _
    rw [Except.ok.injEq, eq_comm, iff_self_and]
    rintro rfl
    exact List.forall_mem_nil P
  | cons a l ih =>
    simp only [List.mapM_cons, bind_eq_ok_iff, hf, ih]
    constructor
    · rintro ⟨_, ⟨rfl, hP⟩, _, ⟨rfl, hall⟩, heq⟩
      obtain rfl := Except.ok.inj heq
      exact ⟨rfl, List.forall_mem_cons.2 ⟨hP, hall⟩⟩
    · rintro ⟨rfl, hall⟩
      obtain ⟨hP, hall⟩ := List.forall_mem_cons.1 hall
      exact ⟨_, ⟨rfl, hP⟩, _, ⟨rfl, hall⟩, rfl⟩

/-! ### Points -/

namespace Point

variable {p q d : Point}

/-- The point moved by `d`, on the grid or off it. -/
def translate (p d : Point) : Point := ⟨p.x + d.x, p.y + d.y⟩

@[simp] theorem translate_x (p d : Point) : (p.translate d).x = p.x + d.x := rfl

@[simp] theorem translate_y (p d : Point) : (p.translate d).y = p.y + d.y := rfl

@[simp] theorem translate_inj : p.translate d = q.translate d ↔ p = q := by
  rw [eq_iff, eq_iff, translate_x, translate_x, translate_y, translate_y]
  omega

theorem translate_injective (d : Point) : Function.Injective fun p : Point ↦ p.translate d :=
  fun _ _ ↦ translate_inj.1

@[simp] theorem translate_origin (p : Point) : p.translate .origin = p := by
  rw [eq_iff, translate_x, translate_y]
  exact ⟨Int.add_zero _, Int.add_zero _⟩

/-- The vector product is one of differences: three points moved together keep it. -/
theorem cross_translate (o a b d : Point) :
    cross (o.translate d) (a.translate d) (b.translate d) = cross o a b := by
  unfold cross translate
  ring

/-- Adding on the grid is translation that stays on it. -/
theorem add_eq_ok_iff : p.add d = .ok q ↔ q = p.translate d ∧ q.OnGrid := by
  simp only [add, Coordinate.checked, bind_eq_ok_iff, ite_error_eq_ok_iff, Except.ok.injEq]
  constructor
  · rintro ⟨_, ⟨hx, rfl⟩, _, ⟨hy, rfl⟩, heq⟩
    obtain rfl := Except.ok.inj heq
    exact ⟨rfl, hx, hy⟩
  · rintro ⟨rfl, hx, hy⟩
    exact ⟨_, ⟨hx, rfl⟩, _, ⟨hy, rfl⟩, rfl⟩

end Point

/-! ### Segments -/

namespace Segment

variable {e s t : Segment} {p d : Point}

/-- The segment moved by `d`. -/
def translate (e : Segment) (d : Point) : Segment := e.map fun p ↦ p.translate d

@[simp] theorem translate_start (e : Segment) (d : Point) :
    (e.translate d).start = e.start.translate d := rfl

@[simp] theorem translate_stop (e : Segment) (d : Point) :
    (e.translate d).stop = e.stop.translate d := rfl

/-- A point moved with a segment is on the same side of it. -/
@[simp] theorem side_translate (e : Segment) (p d : Point) :
    (e.translate d).side (p.translate d) = e.side p := Point.cross_translate _ _ _ d

/-- A point moved with a segment is in its box as before. -/
theorem boxHolds_translate : (e.translate d).BoxHolds (p.translate d) ↔ e.BoxHolds p := by
  unfold BoxHolds
  simp only [translate_start, translate_stop, Point.translate_x, Point.translate_y]
  omega

/-- A point moved with a segment lies on it as before. -/
@[simp] theorem contains_translate (e : Segment) (p d : Point) :
    (e.translate d).contains (p.translate d) = e.contains p := by
  rw [Bool.eq_iff_iff, contains_iff, contains_iff, side_translate, boxHolds_translate]

/-- A segment crosses the ray of a point as before when both are moved. -/
theorem crosses_translate : (e.translate d).Crosses (p.translate d) ↔ e.Crosses p := by
  rw [Crosses, Crosses, side_translate]
  simp only [translate_start, translate_stop, Point.translate_y]
  omega

/-- Segments moved together meet as before. -/
@[simp] theorem meets_translate (s t : Segment) (d : Point) :
    (s.translate d).meets (t.translate d) = s.meets t := by
  simp only [meets, translate_start, translate_stop, side_translate, contains_translate]

end Segment

/-! ### Contours -/

namespace Contour

variable {c : Contour} {l : List Point} {p d : Point}

/-- The contour moved by `d`. -/
def translate (c : Contour) (d : Point) : Contour := c.map fun p ↦ p.translate d

@[simp] theorem points_translate (c : Contour) (d : Point) :
    (c.translate d).points = c.points.map fun p ↦ p.translate d := rfl

@[simp] theorem size_translate (c : Contour) (d : Point) : (c.translate d).size = c.size :=
  List.length_map _

@[simp] theorem translate_origin (c : Contour) : c.translate .origin = c := by
  show (⟨c.points.map fun p ↦ p.translate .origin, c.closed⟩ : Contour) = c
  rw [List.map_congr_left fun p _ ↦ p.translate_origin, List.map_id']

/-- The edges of a mapped path are the mapped edges. -/
theorem path_map {f : Point → Point} (l : List Point) :
    path (l.map f) = (path l).map (Segment.map f) := by
  rw [path, path, ← List.map_tail, List.zipWith_map, List.map_zipWith]
  rfl

/-- The edges of a moved contour are its edges, moved, the closing one included. -/
theorem edges_translate (c : Contour) (d : Point) :
    (c.translate d).edges = c.edges.map fun e ↦ e.translate d := by
  unfold edges
  rw [apply_ite (List.map _)]
  exact if_congr Iff.rfl (cycle_map c.points) (path_map c.points)

/-- **A point and a contour moved together** are inside each other as before. -/
@[simp] theorem contains_translate (c : Contour) (p d : Point) :
    (c.translate d).contains (p.translate d) = c.contains p := by
  -- The moved edge crosses the moved ray when the edge did, so nothing has to be entered.
  refine contains_map (fun _ ↦ False) (fun e ↦ e.contains_translate p d) fun e _ ↦ ?_
  show ¬ (False ↔ False) ↔ ¬ ((e.translate d).Crosses (p.translate d) ↔ e.Crosses p)
  simp only [Segment.crosses_translate]

/-- A point moved with a contour lies on its edges as before. -/
@[simp] theorem touches_translate (c : Contour) (p d : Point) :
    (c.translate d).touches (p.translate d) = c.touches p := by
  have hedges : (c.translate d).edges.any (·.contains (p.translate d)) =
      c.edges.any (·.contains p) := by
    rw [edges_translate, List.any_map]
    exact congrArg _ (funext fun e ↦ e.contains_translate p d)
  unfold touches
  rw [points_translate, hedges]
  match c.points with
  | [] => rfl
  | [v] => exact Bool.eq_iff_iff.2 (by simp)
  | v :: w :: l => rfl

/-- Triangles moved together keep their areas. -/
theorem fanFrom_map_translate (o : Point) (l : List Point) (d : Point) :
    fanFrom (o.translate d) (l.map fun p ↦ p.translate d) = fanFrom o l := by
  fun_induction fanFrom o l with
  | case1 a b l ih =>
    rw [List.map_cons] at ih
    rw [List.map_cons, List.map_cons, fanFrom, ih, Point.cross_translate]
  | case2 l hl =>
    rcases l with - | ⟨a, - | ⟨b, l⟩⟩
    · rfl
    · rfl
    · exact absurd rfl (hl a b l)

/-- The area does not depend on where a contour lies. -/
@[simp] theorem doubledArea_translate (c : Contour) (d : Point) :
    (c.translate d).doubledArea = c.doubledArea := by
  rw [doubledArea, doubledArea, points_translate]
  cases c.points with
  | nil => rfl
  | cons o l => exact fanFrom_map_translate o l d

theorem reverse_translate (c : Contour) (d : Point) :
    (c.translate d).reverse = c.reverse.translate d := by
  show (⟨(c.points.map _).reverse, c.closed⟩ : Contour) = ⟨c.points.reverse.map _, c.closed⟩
  rw [List.map_reverse]

/-- An injective map keeps neighbours equal or different, so the same vertices are dropped. -/
theorem dropRepeats_map {f : Point → Point} (hf : Function.Injective f) (l : List Point) :
    dropRepeats (l.map f) = (dropRepeats l).map f := by
  rw [dropRepeats_eq_destutter, dropRepeats_eq_destutter]
  exact (List.map_destutter_ne l hf).symm

/-- Moved points make the moved contour. -/
theorem ofPoints_map_translate (l : List Point) (d : Point) :
    ofPoints (l.map fun p ↦ p.translate d) = (ofPoints l).translate d :=
  congrArg closedOf (dropRepeats_map (Point.translate_injective d) l)

/-- Loops are closed where a vertex is visited again, which an injective map does not change. -/
theorem loopsFrom_map {f : Point → Point} (hf : Function.Injective f) (walked rest : List Point) :
    loopsFrom (walked.map f) (rest.map f) = (loopsFrom walked rest).map (List.map f) := by
  have hidx : ∀ (l : List Point) (p : Point), (l.map f).idxOf? (f p) = l.idxOf? p := by
    intro l p
    rw [List.idxOf?, List.idxOf?, List.findIdx?_map]
    refine congrArg (List.findIdx? · l) (funext fun q ↦ ?_)
    exact Bool.eq_iff_iff.2 (by simp [hf.eq_iff])
  fun_induction loopsFrom walked rest with
  | case1 walked => rfl
  | case2 walked p rest k hk ih =>
    rw [List.map_take] at ih
    rw [List.map_cons, loopsFrom, hidx, hk, List.map_cons, List.map_cons, List.map_drop, ← ih]
  | case3 walked p rest hk ih =>
    rw [List.map_append] at ih
    rw [List.map_cons, loopsFrom, hidx, hk]
    exact ih

/-- The loops of a moved contour are its loops, moved. -/
theorem loops_translate (c : Contour) (d : Point) :
    (c.translate d).loops = c.loops.map fun e ↦ e.translate d := by
  have hloops : loopsFrom [] (c.points.map fun p ↦ p.translate d) = _ :=
    loopsFrom_map (Point.translate_injective d) [] c.points
  rw [loops, points_translate, hloops, loops, List.map_map, List.map_map]
  rfl

end Contour

/-! ### Staying on the grid -/

/-- All vertices are on the grid. -/
def Contour.OnGrid (c : Contour) : Prop := ∀ p ∈ c.points, p.OnGrid

/-- **Shifting is translation that stays on the grid.** -/
theorem Contour.shift_eq_ok_iff {c e : Contour} {d : Point} :
    c.shift d = .ok e ↔ e = c.translate d ∧ e.OnGrid := by
  simp only [shift, bind_eq_ok_iff, mapM_eq_ok_iff fun _ _ ↦ Point.add_eq_ok_iff]
  constructor
  · rintro ⟨_, ⟨rfl, hgrid⟩, heq⟩
    obtain rfl := Except.ok.inj heq
    exact ⟨rfl, hgrid⟩
  · rintro ⟨rfl, hgrid⟩
    exact ⟨_, ⟨rfl, hgrid⟩, rfl⟩

end GridGeometry
