import GridGeometry.Contour.Corners
import GridGeometry.Proofs.Contour.Slimming
import GridGeometry.Proofs.Contour.Translation

/-!
# Corners of a contour started elsewhere

What replaces a corner depends on the corner alone, whatever the floating-point operations make of
it. So a contour started at another vertex has the same corners and the same pieces in their place,
only started elsewhere (`Contour.corners_rotate`, `exists_mapM_of_isRotated`). Repeats are taken out
of the points of all pieces around the closed cycle, which does not show where it starts either
(`Contour.isRotated_slim`). Nothing else decides the outcome: the contour that results, up to its
first vertex, or the one fault there can be (`Contour.replaceCorners_startAt`).
-/

namespace GridGeometry

/-! ### The only fault -/

/-- The only fault that can come out is a sum that leaves the grid. -/
def OnlyOverflows {α : Type} (x : Except Fault α) : Prop := ∀ f, x = .error f → f = .sumOverflow

theorem onlyOverflows_ok {α : Type} (a : α) : OnlyOverflows (.ok a : Except Fault α) :=
  fun _ h ↦ nomatch h

/-- Operations in succession have no other fault when neither has. -/
theorem OnlyOverflows.bind {α β : Type} {x : Except Fault α} {g : α → Except Fault β}
    (hx : OnlyOverflows x) (hg : ∀ a, OnlyOverflows (g a)) : OnlyOverflows (x >>= g) := by
  rcases x with f | a
  · intro f' h
    exact hx f' (congrArg Except.error (Except.error.inj h))
  · exact hg a

/-- Neither has an operation that runs through a list. -/
theorem OnlyOverflows.mapM {α β : Type} {g : α → Except Fault β} (hg : ∀ a, OnlyOverflows (g a))
    (l : List α) : OnlyOverflows (l.mapM g) := by
  induction l with
  | nil => exact onlyOverflows_ok []
  | cons a l ih =>
    rw [List.mapM_cons]
    exact (hg a).bind fun b ↦ ih.bind fun bs ↦ onlyOverflows_ok (b :: bs)

theorem Point.onlyOverflows_add (p q : Point) : OnlyOverflows (p.add q) := by
  have hchecked : ∀ n, OnlyOverflows (Coordinate.checked .sumOverflow n) := by
    intro n f h
    unfold Coordinate.checked at h
    split at h
    · cases h
    · exact (Except.error.inj h).symm
  exact (hchecked _).bind fun x ↦ (hchecked _).bind fun y ↦ onlyOverflows_ok (Point.mk x y)

/-- A chamfer adds to the corner, which may leave the grid. The points of a fillet are cast, which
never fails. -/
theorem Corner.onlyOverflows_piece (style : CornerStyle) (c : Corner) :
    OnlyOverflows (c.piece style) := by
  unfold piece
  split
  · exact onlyOverflows_ok _
  · cases style with
    | chamfer distance =>
      exact (Point.onlyOverflows_add _ _).bind fun p ↦
        (Point.onlyOverflows_add _ _).bind fun q ↦ onlyOverflows_ok [p, q]
    | fillet radius segments => exact onlyOverflows_ok _

/-! ### Lists of pieces -/

/-- A list goes through a function that may fail when both of its parts do. -/
theorem mapM_append_eq_ok_iff {α β : Type} {g : α → Except Fault β} {l m : List α} {r : List β} :
    (l ++ m).mapM g = .ok r ↔ ∃ a b, l.mapM g = .ok a ∧ m.mapM g = .ok b ∧ a ++ b = r := by
  rw [List.mapM_append]
  simp only [bind_eq_ok_iff]
  constructor
  · rintro ⟨a, ha, b, hb, hr⟩
    exact ⟨a, b, ha, hb, Except.ok.inj hr⟩
  · rintro ⟨a, b, ha, hb, rfl⟩
    exact ⟨a, ha, b, hb, rfl⟩

/-- A rotated list goes through a function that may fail when the list does. -/
theorem exists_mapM_of_isRotated {α β : Type} {g : α → Except Fault β} {l m : List α} {r : List β}
    (h : l ~r m) (hl : l.mapM g = .ok r) : ∃ s, m.mapM g = .ok s ∧ r ~r s := by
  obtain ⟨j, k, rfl, rfl⟩ := exists_append_of_isRotated h
  obtain ⟨a, b, ha, hb, rfl⟩ := mapM_append_eq_ok_iff.1 hl
  exact ⟨b ++ a, mapM_append_eq_ok_iff.2 ⟨b, a, hb, ha, rfl⟩, List.isRotated_append⟩

namespace Contour

variable {style : CornerStyle} {c d e : Contour}

/-- The vertices that come next are the vertices rotated by one place. -/
theorem rotateAhead_eq (l : List Point) : rotateAhead l = l.rotate 1 := by
  cases l with
  | nil => rfl
  | cons p l => rw [rotateAhead, List.rotate_cons_succ, List.rotate_zero]

/-- The vertices that came before are the vertices rotated by all places but one. -/
theorem rotateBack_eq (l : List Point) : rotateBack l = l.rotate (l.length - 1) := by
  rcases List.eq_nil_or_concat' l with rfl | ⟨l, p, rfl⟩
  · rfl
  · rw [rotateBack, List.getLast?_concat, List.length_append, List.length_singleton,
      Nat.add_sub_cancel, List.rotate_append_length_eq, List.dropLast_concat]
    rfl

/-- **A contour started elsewhere has the same corners**, started elsewhere. -/
theorem corners_rotate (l : List Point) (k : Nat) :
    corners (l.rotate k) = (corners l).rotate k := by
  have hswap : ∀ i, (l.rotate k).rotate i = (l.rotate i).rotate k := fun i ↦ by
    rw [List.rotate_rotate, List.rotate_rotate, Nat.add_comm]
  have hzip : (l.rotate k).zip ((l.rotate 1).rotate k) = (l.zip (l.rotate 1)).rotate k :=
    (List.zipWith_rotate_distrib Prod.mk l (l.rotate 1) k (List.length_rotate l 1).symm).symm
  rw [corners, corners, rotateBack_eq, rotateBack_eq, rotateAhead_eq, rotateAhead_eq,
    List.length_rotate, hswap, hswap, hzip, List.zipWith_rotate_distrib]
  simp

/-- **What comes out is told by the pieces**: their points in a row, without repeats around the
closed cycle. -/
theorem replaceCorners_eq_ok_iff : c.replaceCorners style = .ok d ↔
    ∃ pieces, (corners c.points).mapM (Corner.piece style) = .ok pieces ∧
      closedOf (slim pieces.flatten) = d := by
  rw [replaceCorners, bind_eq_ok_iff]
  refine exists_congr fun pieces ↦ and_congr_right fun _ ↦ ?_
  rw [← withoutNullEdges_ofPoints]
  exact iff_of_eq (Except.ok.injEq _ d)

theorem onlyOverflows_replaceCorners (style : CornerStyle) (c : Contour) :
    OnlyOverflows (c.replaceCorners style) :=
  (OnlyOverflows.mapM (Corner.onlyOverflows_piece style) _).bind fun _ ↦ onlyOverflows_ok _

/-- A contour with the vertices rotated gives the same outcome, started elsewhere. -/
theorem exists_replaceCorners_of_isRotated (h : c.points ~r e.points)
    (hd : c.replaceCorners style = .ok d) :
    ∃ j, e.replaceCorners style = .ok (d.startAt j) := by
  obtain ⟨k, hk⟩ := h
  obtain ⟨pieces, hpieces, rfl⟩ := replaceCorners_eq_ok_iff.1 hd
  have hcorners : corners c.points ~r corners e.points := ⟨k, hk ▸ (corners_rotate c.points k).symm⟩
  obtain ⟨pieces', hpieces', hrotated⟩ := exists_mapM_of_isRotated hcorners hpieces
  obtain ⟨j, hj⟩ := isRotated_slim (isRotated_flatten hrotated)
  exact ⟨j, replaceCorners_eq_ok_iff.2 ⟨pieces', hpieces', congrArg closedOf hj.symm⟩⟩

/-- **Cut and rounded corners do not show where the contour starts.** Started at another vertex, it
gives the same contour started elsewhere, or fails as before. What comes out is closed and has no
edge of length zero, unless it is one point. -/
theorem replaceCorners_startAt (style : CornerStyle) (c : Contour) :
    (∀ k, (∃ d j, c.replaceCorners style = .ok d ∧
        (c.startAt k).replaceCorners style = .ok (d.startAt j)) ∨
      c.replaceCorners style = .error .sumOverflow ∧
        (c.startAt k).replaceCorners style = .error .sumOverflow) ∧
      ∀ d, c.replaceCorners style = .ok d → d.closed = true ∧ (d.size = 1 ∨ IsSlim d.points) := by
  refine ⟨fun k ↦ ?_, fun d hd ↦ ?_⟩
  · have hrotated : c.points ~r (c.startAt k).points := ⟨k, rfl⟩
    rcases hc : c.replaceCorners style with f | d
    · right
      obtain rfl := onlyOverflows_replaceCorners style c f hc
      rcases he : (c.startAt k).replaceCorners style with g | e
      · obtain rfl := onlyOverflows_replaceCorners style _ g he
        exact ⟨rfl, rfl⟩
      · -- Started back at the first vertex, the contour would have come out.
        obtain ⟨j, hj⟩ := exists_replaceCorners_of_isRotated hrotated.symm he
        rw [hc] at hj
        cases hj
    · left
      obtain ⟨j, hj⟩ := exists_replaceCorners_of_isRotated hrotated hc
      exact ⟨d, j, rfl, hj⟩
  · obtain ⟨pieces, -, rfl⟩ := replaceCorners_eq_ok_iff.1 hd
    refine ⟨rfl, ?_⟩
    by_cases h : IsDot pieces.flatten
    · exact .inl (isDot_iff.1 h)
    · exact .inr (isSlim_slim_of_not_isDot h)

end Contour

end GridGeometry
