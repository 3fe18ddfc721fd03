import GridGeometry.Proofs.Contour.Boundary
import Mathlib.Data.List.Rotate

/-!
# Symmetries of containment

Containment is decided by a ray with a direction of its own and by a rule for vertices on the ray
that tells above from below. The answer depends on neither (`Contour.contains_symmetric`).

For a point off all edges this rests on a comparison edge by edge. The rays to the right and to the
left together cross what straddles the height of the point. The rays to the right and upward
together cross what enters or leaves the quadrant between them (`Segment.enters_quadrant_iff`). A
closed cycle enters and leaves a set of points an even number of times, so all rays have the same
parity.
-/

namespace GridGeometry

/-! ### Mirror images -/

namespace Point

/-- The mirror image in the diagonal through the origin. -/
def swap (p : Point) : Point := ⟨p.y, p.x⟩

/-- The mirror image in the vertical axis. -/
def flipX (p : Point) : Point := ⟨-p.x, p.y⟩

/-- The mirror image in the horizontal axis. -/
def flipY (p : Point) : Point := ⟨p.x, -p.y⟩

end Point

/-- The segment between the images of the ends. -/
def Segment.map (f : Point → Point) (e : Segment) : Segment := ⟨f e.start, f e.stop⟩

namespace Contour

/-- The contour through the images of the vertices. -/
def map (f : Point → Point) (c : Contour) : Contour := { c with points := c.points.map f }

/-- The contour started at vertex `k`, counted around the cycle. -/
def startAt (k : Nat) (c : Contour) : Contour := { c with points := c.points.rotate k }

end Contour

/-! ### Images of one edge -/

namespace Segment

variable {e : Segment} {p : Point}

/-- What is to the left of an edge is to the right of the edge run backward. -/
theorem side_reversed : e.reversed.side p = -e.side p := by
  rw [side_eq, side_eq, reversed]
  ring

theorem contains_reversed : e.reversed.contains p = e.contains p := by
  rw [Bool.eq_iff_iff, contains_iff, contains_iff, side_reversed, neg_eq_zero]
  unfold BoxHolds
  rw [reversed, min_comm e.stop.x, max_comm e.stop.x, min_comm e.stop.y, max_comm e.stop.y]

/-- An edge crosses the ray in whichever direction it runs. -/
theorem crosses_reversed : e.reversed.Crosses p ↔ e.Crosses p := by
  rw [Crosses, Crosses, side_reversed, reversed]
  dsimp only
  omega

/-- In a mirror, left and right change places. -/
theorem side_swap : (e.map Point.swap).side p.swap = -e.side p := by
  rw [side_eq, side_eq, map, Point.swap, Point.swap, Point.swap]
  ring

theorem contains_swap : (e.map Point.swap).contains p.swap = e.contains p := by
  rw [Bool.eq_iff_iff, contains_iff, contains_iff, side_swap, neg_eq_zero]
  unfold BoxHolds
  rw [map, Point.swap, Point.swap, Point.swap]
  dsimp only
  tauto

theorem side_flipX : (e.map Point.flipX).side p.flipX = -e.side p := by
  rw [side_eq, side_eq, map, Point.flipX, Point.flipX, Point.flipX]
  ring

theorem contains_flipX : (e.map Point.flipX).contains p.flipX = e.contains p := by
  rw [Bool.eq_iff_iff, contains_iff, contains_iff, side_flipX, neg_eq_zero]
  unfold BoxHolds
  rw [map, Point.flipX, Point.flipX, Point.flipX]
  dsimp only
  omega

/-- **The rays to both sides** of a point off an edge: just one of them crosses it when the edge
straddles the height of the point. -/
theorem enters_below_iff (hoff : e.contains p = false) :
    e.Enters (fun v ↦ v.y < p.y) ↔
      ¬ ((e.map Point.flipX).Crosses p.flipX ↔ e.Crosses p) := by
  have hside : e.Straddles p.y → e.side p ≠ 0 := fun h ↦ h.side_ne_zero hoff
  rw [Straddles] at hside
  rw [Crosses, Crosses, side_flipX, Enters]
  simp only [map, Point.flipX]
  omega

/-- An edge beside a point crosses its ray when it lies to the right. -/
theorem Straddles.crosses_iff_le (h : e.Straddles p.y) (hoff : e.contains p = false)
    (hx : e.start.x < p.x ↔ e.stop.x < p.x) : e.Crosses p ↔ p.x ≤ e.start.x := by
  refine ⟨fun hc ↦ ?_, fun hle ↦ h.crosses_of_le hoff hle ?_⟩
  · have hmax := hc.lt_max
    omega
  · omega

/-- The image in the diagonal straddles a point when the edge has an end on either side of it. -/
theorem straddles_swap : (e.map Point.swap).Straddles p.swap.y ↔
    ¬ (e.start.x < p.x ↔ e.stop.x < p.x) := straddles_iff

/-- **The rays to the right and upward** from a point off an edge: just one of them crosses it when
the edge enters or leaves the quadrant between them. -/
theorem enters_quadrant_iff (hoff : e.contains p = false) :
    e.Enters (fun v ↦ p.x ≤ v.x ∧ p.y ≤ v.y) ↔
      ¬ ((e.map Point.swap).Crosses p.swap ↔ e.Crosses p) := by
  have hswap : (e.map Point.swap).contains p.swap = false := contains_swap.trans hoff
  rw [Enters]
  by_cases hx : e.start.x < p.x ↔ e.stop.x < p.x
  · -- The upward ray is not reached.
    have hup : ¬ (e.map Point.swap).Crosses p.swap := fun h ↦ straddles_swap.1 h.straddles hx
    by_cases hy : e.start.y < p.y ↔ e.stop.y < p.y
    · have hright : ¬ e.Crosses p := fun h ↦ straddles_iff.1 h.straddles hy
      simp only [hup, hright, iff_self, not_true_eq_false, iff_false]
      omega
    · rw [(straddles_iff.2 hy).crosses_iff_le hoff hx]
      simp only [hup, false_iff, not_not]
      omega
  · by_cases hy : e.start.y < p.y ↔ e.stop.y < p.y
    · have hright : ¬ e.Crosses p := fun h ↦ straddles_iff.1 h.straddles hy
      rw [(straddles_swap.2 hx).crosses_iff_le hswap hy]
      simp only [hright, map, Point.swap, iff_false, not_not]
      omega
    · -- The ends lie in opposite quadrants, and the point is on one side for both rays.
      have hside := (straddles_iff.2 hy).side_ne_zero hoff
      rw [Crosses, Crosses, side_swap]
      simp only [map, Point.swap]
      omega

end Segment

/-! ### Images of a contour -/

namespace Contour

variable {c : Contour} {l : List Point} {p : Point} {f : Point → Point}

theorem pathTo_map (l : List Point) (last : Point) :
    pathTo (l.map f) (f last) = (pathTo l last).map (Segment.map f) := by
  induction l with
  | nil => rfl
  | cons q l ih => rw [List.map_cons, pathTo, pathTo, List.map_cons, ih, List.headD_map]; rfl

/-- The edges of a mapped cycle are the mapped edges. -/
theorem cycle_map (l : List Point) : cycle (l.map f) = (cycle l).map (Segment.map f) := by
  cases l with
  | nil => rfl
  | cons q l =>
    rw [List.map_cons, cycle_cons, cycle_cons, ← List.map_cons, pathTo_map]

/-- **A map keeps containment** when it keeps what is on an edge, and when the rays before and after
it differ, for a point off the edge, on what enters or leaves a set of points. -/
theorem contains_map (s : Point → Prop) [DecidablePred s]
    (hon : ∀ e : Segment, (e.map f).contains (f p) = e.contains p)
    (hoff : ∀ e : Segment, e.contains p = false →
      (e.Enters s ↔ ¬ ((e.map f).Crosses (f p) ↔ e.Crosses p))) :
    (c.map f).contains (f p) = c.contains p := by
  have hcycle : cycle (c.map f).points = (cycle c.points).map (Segment.map f) := cycle_map c.points
  refine contains_congr (List.length_map f) ?_ fun hnone ↦ ?_
  · rw [hcycle]
    simp only [List.mem_map, exists_exists_and_eq_and, hon]
  · have hnone' : ∀ e ∈ cycle c.points, e.contains p = false := by
      intro e he
      rw [← hon]
      exact hnone _ (hcycle ▸ List.mem_map_of_mem he)
    rw [hcycle, crossings, List.countP_map]
    exact countP_mod_two_eq s fun e he ↦ hoff e (hnone' e he)

/-- The ray upward gives the answer of the ray to the right. -/
theorem contains_swap : (c.map Point.swap).contains p.swap = c.contains p :=
  contains_map _ (fun _ ↦ Segment.contains_swap) fun _ ↦ Segment.enters_quadrant_iff

/-- So does the ray to the left. -/
theorem contains_flipX : (c.map Point.flipX).contains p.flipX = c.contains p :=
  contains_map _ (fun _ ↦ Segment.contains_flipX) fun _ ↦ Segment.enters_below_iff

/-- The mirror image in the horizontal axis is made of the other two. -/
theorem map_flipY (c : Contour) :
    c.map Point.flipY = ((c.map Point.swap).map Point.flipX).map Point.swap := by
  simp only [map, List.map_map]
  rfl

/-- And so does a rule for vertices on the ray that takes above for below. -/
theorem contains_flipY : (c.map Point.flipY).contains p.flipY = c.contains p := by
  rw [map_flipY]
  exact contains_swap.trans (contains_flipX.trans contains_swap)

/-- The direction of a contour plays no part. -/
theorem contains_reverse : c.reverse.contains p = c.contains p := by
  have hperm : (cycle c.reverse.points).Perm ((cycle c.points).map Segment.reversed) :=
    cycle_reverse_perm
  refine contains_congr List.length_reverse ?_ fun _ ↦ ?_
  · simp only [hperm.mem_iff, List.mem_map, exists_exists_and_eq_and, Segment.contains_reversed]
  · rw [crossings, hperm.countP_eq, List.countP_map]
    exact congrArg (· % 2) (List.countP_congr fun e _ ↦ by
      simp only [Function.comp, Segment.crosses_reversed])

/-- The cycle of a contour started elsewhere. -/
theorem cycle_rotate_perm (k : Nat) (l : List Point) : (cycle (l.rotate k)).Perm (cycle l) :=
  cycle_rotate l k ▸ List.rotate_perm _ k

/-- Nor does the vertex where it starts. -/
theorem contains_startAt (k : Nat) : (c.startAt k).contains p = c.contains p := by
  have hperm : (cycle (c.startAt k).points).Perm (cycle c.points) := cycle_rotate_perm k c.points
  refine contains_congr (List.length_rotate _ _) ?_ fun _ ↦ ?_
  · simp only [hperm.mem_iff]
  · rw [crossings, hperm.countP_eq, crossings]

/-- **The symmetries of containment.** The answer for a point stays the same when the point and the
contour are reflected together in the diagonal or in an axis, wherever the images lie, and when the
contour is run backward or started at another vertex. -/
theorem contains_symmetric (c : Contour) (p : Point) :
    (c.map Point.swap).contains p.swap = c.contains p ∧
      (c.map Point.flipX).contains p.flipX = c.contains p ∧
      (c.map Point.flipY).contains p.flipY = c.contains p ∧
      c.reverse.contains p = c.contains p ∧
      ∀ k, (c.startAt k).contains p = c.contains p :=
  ⟨contains_swap, contains_flipX, contains_flipY, contains_reverse, fun _ ↦ contains_startAt _⟩

end Contour

end GridGeometry
