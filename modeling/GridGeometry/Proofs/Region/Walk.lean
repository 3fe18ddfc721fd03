import GridGeometry.Proofs.Contour.Cycle
import GridGeometry.Proofs.Least
import GridGeometry.Region.Cursor

/-!
# What a walk visits

The cursor of a walk moves on by itself, over contours and polygons without vertices. What is still
to be visited from an address on (`Walk.remaining`) is the same before and after such a move
(`Walk.remaining_skipEmpty`), and a visit takes its first element off
(`Walk.remaining_of_next?`). So the stream of a walk is the enumeration of all vertices of its
polygons, contour by contour and polygon by polygon (`Walk.visits_eq`). It visits each vertex of the
stretch (`Walk.mem_visits`), and in increasing order of addresses (`Walk.pairwise_visits`).
-/

namespace GridGeometry

/-- The order of addresses: by polygon, then by contour, then by vertex. -/
def VertexAddress.Before (a b : VertexAddress) : Prop :=
  a.polygon < b.polygon ∨ a.polygon = b.polygon ∧
    (a.contour < b.contour ∨ a.contour = b.contour ∧ a.vertex < b.vertex)

/-- The order of addresses is strict. -/
theorem VertexAddress.Before.asymm {a b : VertexAddress} (h : a.Before b) : ¬ b.Before a := by
  rw [Before] at h ⊢
  omega

namespace Walk

variable {w : Walk} {a b : VertexAddress} {c : Contour} {v : Visit} {i k : Nat}

/-! ### The enumeration -/

/-- The visit at a vertex of the contour `c`, where the edge `e` starts. -/
def visitAt (w : Walk) (a : VertexAddress) (c : Contour) (e : Segment) : Visit :=
  ⟨a, e, a.vertex + 1 == c.size, a.polygon + 1 == w.stop⟩

/-- The visits at the vertices of contour `k` of polygon `i`, in order. -/
def contourVisits (w : Walk) (i k : Nat) (c : Contour) : List Visit :=
  (Contour.cycle c.points).zipIdx.map fun (e, j) ↦ w.visitAt ⟨i, k, j⟩ c e

/-- The visits at the vertices of polygon `i` from contour `k` on. -/
def polygonVisits (w : Walk) (i k : Nat) : List Visit :=
  (((w.contoursOf i).drop k).zipIdx k).flatMap fun (c, k) ↦ w.contourVisits i k c

/-- The visits from contour `k` of polygon `i` on. -/
def later (w : Walk) (i k : Nat) : List Visit :=
  if i < w.stop then
    w.polygonVisits i k ++
      (List.range' (i + 1) (w.stop - (i + 1))).flatMap fun i ↦ w.polygonVisits i 0
  else []

/-- The visits from an address on. -/
def remaining (w : Walk) (a : VertexAddress) : List Visit :=
  if a.polygon < w.stop then
    match (w.contoursOf a.polygon)[a.contour]? with
    | some c =>
      (w.contourVisits a.polygon a.contour c).drop a.vertex ++ w.later a.polygon (a.contour + 1)
    | none => w.later (a.polygon + 1) 0
  else []

/-- From the first contour of a polygon on, it and all polygons behind it are visited. -/
theorem later_eq_flatMap (w : Walk) (i : Nat) :
    w.later i 0 = (List.range' i (w.stop - i)).flatMap fun i ↦ w.polygonVisits i 0 := by
  rw [later]
  split
  case isTrue h =>
    rw [show w.stop - i = w.stop - (i + 1) + 1 by omega, List.range'_succ, List.flatMap_cons]
  case isFalse h =>
    rw [Nat.sub_eq_zero_of_le (Nat.le_of_not_lt h)]
    rfl

/-- From a contour on, it is visited first, and then what is behind it. -/
theorem later_of_some (hi : i < w.stop) (hc : (w.contoursOf i)[k]? = some c) :
    w.later i k = w.contourVisits i k c ++ w.later i (k + 1) := by
  obtain ⟨hk, hc⟩ := List.getElem?_eq_some_iff.1 hc
  rw [later, later, if_pos hi, if_pos hi, polygonVisits, List.drop_eq_getElem_cons hk, hc,
    List.zipIdx_cons, List.flatMap_cons, List.append_assoc]
  rfl

/-- Behind the last contour of a polygon comes the next polygon. -/
theorem later_of_none (hi : i < w.stop) (hc : (w.contoursOf i)[k]? = none) :
    w.later i k = w.later (i + 1) 0 := by
  rw [later_eq_flatMap, later, if_pos hi, polygonVisits,
    List.drop_eq_nil_of_le (List.getElem?_eq_none_iff.1 hc)]
  rfl

theorem remaining_of_some (hi : a.polygon < w.stop)
    (hc : (w.contoursOf a.polygon)[a.contour]? = some c) : w.remaining a =
      (w.contourVisits a.polygon a.contour c).drop a.vertex ++
        w.later a.polygon (a.contour + 1) := by
  rw [remaining, if_pos hi, hc]

/-- From the first vertex of a contour on, everything from this contour on is visited. -/
theorem remaining_contour (w : Walk) (i k : Nat) : w.remaining ⟨i, k, 0⟩ = w.later i k := by
  rw [remaining]
  split
  case isTrue hi =>
    split
    case h_1 c hc => exact (later_of_some hi hc).symm
    case h_2 hc => exact (later_of_none hi hc).symm
  case isFalse hi => rw [later, if_neg hi]

@[simp] theorem length_contourVisits (w : Walk) (i k : Nat) (c : Contour) :
    (w.contourVisits i k c).length = c.size := by
  rw [contourVisits, List.length_map, List.length_zipIdx, Contour.length_cycle, Contour.size]

/-! ### The cursor -/

/-- **Nothing is lost** when the cursor is carried over empty contours. -/
theorem remaining_skipEmpty (w : Walk) (a : VertexAddress) :
    w.remaining (w.skipEmpty a) = w.remaining a := by
  fun_induction skipEmpty w a with
  | case1 => rfl
  | case2 a hi c hc hv ih =>
    rw [ih, remaining_contour, remaining_of_some hi hc, List.drop_eq_nil_of_le, List.nil_append]
    rw [length_contourVisits]
    omega
  | case3 a hi hc ih => rw [ih, remaining_contour, remaining, if_pos hi, hc]
  | case4 => rfl

/-- The cursor has come to a vertex or to the end of the stretch. -/
def Rests (w : Walk) (a : VertexAddress) : Prop :=
  a.polygon < w.stop → ∃ c, (w.contoursOf a.polygon)[a.contour]? = some c ∧ a.vertex < c.size

/-- The place to which the cursor is carried is one where it rests. -/
theorem rests_skipEmpty (w : Walk) (a : VertexAddress) : w.Rests (w.skipEmpty a) := by
  fun_induction skipEmpty w a with
  | case1 a hi c hc hv => exact fun _ ↦ ⟨c, hc, hv⟩
  | case2 a hi c hc hv ih => exact ih
  | case3 a hi hc ih => exact ih
  | case4 a hi => exact fun h ↦ absurd h hi

/-- A visit is made at a vertex, and the cursor moves on from there. -/
theorem next?_eq_some_iff : w.next? a = some (v, b) ↔ a.polygon < w.stop ∧
    ∃ c e, (w.contoursOf a.polygon)[a.contour]? = some c ∧
      (Contour.cycle c.points)[a.vertex]? = some e ∧ v = w.visitAt a c e ∧
      b = w.skipEmpty ⟨a.polygon, a.contour, a.vertex + 1⟩ := by
  rw [next?]
  split
  case isTrue hi =>
    simp only [visitAt, bind, Option.bind_eq_some_iff, pure, Option.some.injEq, Prod.mk.injEq, hi,
      true_and, ← exists_and_left, eq_comm (a := v), eq_comm (a := b)]
  case isFalse hi => simp [hi]

/-- **A visit is the next one of those that remain.** -/
theorem remaining_of_next? (h : w.next? a = some (v, b)) : w.remaining a = v :: w.remaining b := by
  obtain ⟨hi, c, e, hc, he, rfl, rfl⟩ := next?_eq_some_iff.1 h
  obtain ⟨hv, he⟩ := List.getElem?_eq_some_iff.1 he
  have hsize : a.vertex < (w.contourVisits a.polygon a.contour c).length := by
    rwa [length_contourVisits, Contour.size, ← Contour.length_cycle]
  have hvisit : (w.contourVisits a.polygon a.contour c)[a.vertex] = w.visitAt a c e := by
    simp [contourVisits, he]
  rw [remaining_skipEmpty, remaining_of_some hi hc, List.drop_eq_getElem_cons hsize, hvisit,
    List.cons_append, remaining_of_some (a := ⟨a.polygon, a.contour, a.vertex + 1⟩) hi hc]

/-- A cursor that rests and gives no visit has nothing left to visit. -/
theorem remaining_of_next?_eq_none (ha : w.Rests a) (h : w.next? a = none) :
    w.remaining a = [] := by
  rw [next?] at h
  split at h
  case isTrue hi =>
    obtain ⟨c, hc, hv⟩ := ha hi
    rw [Contour.size, ← Contour.length_cycle] at hv
    simp [hc, List.getElem?_eq_getElem hv] at h
  case isFalse hi => rw [remaining, if_neg hi]

/-- After a visit the cursor rests again. -/
theorem rests_of_next? (h : w.next? a = some (v, b)) : w.Rests b := by
  obtain ⟨-, c, e, -, -, -, rfl⟩ := next?_eq_some_iff.1 h
  exact w.rests_skipEmpty _

/-- **A resting cursor visits all that remains.** -/
theorem visitsFrom_eq (ha : w.Rests a) : w.visitsFrom a = w.remaining a := by
  fun_induction visitsFrom w a with
  | case1 a v b h ih => rw [remaining_of_next? h, ih (rests_of_next? h)]
  | case2 a h => exact (remaining_of_next?_eq_none ha h).symm

/-- **The stream of a walk** is the enumeration of the vertices of its polygons. -/
theorem visits_eq (w : Walk) (first : Nat) : w.visits first =
    (List.range' first (w.stop - first)).flatMap fun i ↦ w.polygonVisits i 0 := by
  rw [visits, visitsFrom_eq (w.rests_skipEmpty _), remaining_skipEmpty, remaining_contour,
    later_eq_flatMap]

/-! ### Which vertices are visited, and in which order -/

theorem mem_contourVisits : v ∈ w.contourVisits i k c ↔
    ∃ j e, (Contour.cycle c.points)[j]? = some e ∧ v = w.visitAt ⟨i, k, j⟩ c e := by
  rw [contourVisits, List.mem_map]
  constructor
  · rintro ⟨⟨e, j⟩, he, rfl⟩
    exact ⟨j, e, List.mem_zipIdx_iff_getElem?.1 he, rfl⟩
  · rintro ⟨j, e, he, rfl⟩
    exact ⟨(e, j), List.mem_zipIdx_iff_getElem?.2 he, rfl⟩

theorem mem_polygonVisits : v ∈ w.polygonVisits i 0 ↔ ∃ k c j e,
    (w.contoursOf i)[k]? = some c ∧ (Contour.cycle c.points)[j]? = some e ∧
      v = w.visitAt ⟨i, k, j⟩ c e := by
  rw [polygonVisits, List.drop_zero, List.mem_flatMap]
  constructor
  · rintro ⟨⟨c, k⟩, hc, hv⟩
    obtain ⟨j, e, he, rfl⟩ := mem_contourVisits.1 hv
    exact ⟨k, c, j, e, List.mem_zipIdx_iff_getElem?.1 hc, he, rfl⟩
  · rintro ⟨k, c, j, e, hc, he, rfl⟩
    exact ⟨(c, k), List.mem_zipIdx_iff_getElem?.2 hc, mem_contourVisits.2 ⟨j, e, he, rfl⟩⟩

/-- **Every vertex of the stretch is visited**, and nothing else. -/
theorem mem_visits {first : Nat} : v ∈ w.visits first ↔ ∃ i k c j e, first ≤ i ∧ i < w.stop ∧
    (w.contoursOf i)[k]? = some c ∧ (Contour.cycle c.points)[j]? = some e ∧
      v = w.visitAt ⟨i, k, j⟩ c e := by
  rw [visits_eq, List.mem_flatMap]
  constructor
  · rintro ⟨i, hi, hv⟩
    obtain ⟨hfirst, hstop⟩ := List.mem_range'_1.1 hi
    obtain ⟨k, c, j, e, hc, he, rfl⟩ := mem_polygonVisits.1 hv
    exact ⟨i, k, c, j, e, hfirst, by omega, hc, he, rfl⟩
  · rintro ⟨i, k, c, j, e, hfirst, hstop, hc, he, rfl⟩
    exact ⟨i, List.mem_range'_1.2 ⟨hfirst, by omega⟩,
      mem_polygonVisits.2 ⟨k, c, j, e, hc, he, rfl⟩⟩

theorem pairwise_contourVisits (w : Walk) (i k : Nat) (c : Contour) :
    (w.contourVisits i k c).Pairwise fun u v ↦ u.address.Before v.address :=
  List.pairwise_map.2 ((pairwise_zipIdx _ 0).imp fun h ↦ .inr ⟨rfl, .inr ⟨rfl, h⟩⟩)

theorem pairwise_polygonVisits (w : Walk) (i : Nat) :
    (w.polygonVisits i 0).Pairwise fun u v ↦ u.address.Before v.address := by
  refine pairwise_flatMap_zipIdx (fun x ↦ w.pairwise_contourVisits i x.2 x.1) ?_
  intro x y hlt u hu v hv
  obtain ⟨_, _, _, rfl⟩ := mem_contourVisits.1 hu
  obtain ⟨_, _, _, rfl⟩ := mem_contourVisits.1 hv
  exact .inr ⟨rfl, .inl hlt⟩

/-- **Vertices are visited in increasing order**, so each of them once. -/
theorem pairwise_visits (w : Walk) (first : Nat) :
    (w.visits first).Pairwise fun u v ↦ u.address.Before v.address := by
  rw [visits_eq]
  refine List.pairwise_flatMap.2 ⟨fun i _ ↦ w.pairwise_polygonVisits i, ?_⟩
  refine List.Pairwise.imp (fun {i j} hlt u hu v hv ↦ ?_) List.pairwise_lt_range'
  obtain ⟨_, _, _, _, _, _, rfl⟩ := mem_polygonVisits.1 hu
  obtain ⟨_, _, _, _, _, _, rfl⟩ := mem_polygonVisits.1 hv
  exact .inl hlt

end Walk

end GridGeometry
