import GridGeometry.Proofs.Region.Enumeration

/-!
# The vertex at an address

A vertex is found by its address, by a signed polygon index together with a hole or none, or by
waiting until the stream of all vertices comes to it. The three ways agree: an address has a vertex
exactly when the stream visits it, and a signed index stands for an address. All of them lead to the
contour at a place (`Region.contourAt?`). To move a vertex is to change that contour in one place
(`Region.contourAt?_of_setVertex`), and so the stream changes in one visit (`Region.addressing`).
-/

namespace GridGeometry

/-! ### Contours and their vertices -/

theorem Contour.point_eq_ok_iff {c : Contour} {j : Nat} {p : Point} :
    c.point j = .ok p ↔ c.points[j]? = some p := by
  unfold point
  cases c.points[j]? <;> simp

namespace Polygon

variable {p q : Polygon} {c d : Contour} {k : Nat}

theorem contour_eq_ok_iff : p.contour k = .ok c ↔ p.contours[k]? = some c := by
  unfold contour
  cases p.contours[k]? <;> simp

/-- Among the contours, the holes come behind the outline. -/
theorem hole_eq_ok_iff : p.hole k = .ok c ↔ p.contours[k + 1]? = some c := by
  show p.hole k = .ok c ↔ p.holes[k]? = some c
  unfold hole
  cases p.holes[k]? <;> simp

/-- A contour that is there can be replaced. -/
theorem exists_setContour (hc : p.contours[k]? = some c) (d : Contour) :
    ∃ q, p.setContour k d = .ok q := by
  cases k with
  | zero => exact ⟨_, rfl⟩
  | succ k =>
    have hk : k + 1 < p.holes.length + 1 := (List.getElem?_eq_some_iff.1 hc).1
    exact ⟨_, if_pos (Nat.lt_of_succ_lt_succ hk)⟩

/-- The other contours stay as they are. -/
theorem contours_of_setContour (h : p.setContour k d = .ok q) :
    q.contours = p.contours.set k d := by
  cases k with
  | zero => exact Except.ok.inj h ▸ rfl
  | succ k =>
    obtain ⟨-, h⟩ := ite_error_eq_ok_iff.1 h
    exact Except.ok.inj h ▸ rfl

end Polygon

namespace Region

variable {r s : Region} {a : VertexAddress} {c : Contour} {p q : Point} {outline : Int}

/-! ### The contour at a place -/

/-- A vertex is found in the contour at its place. -/
theorem vertex_eq_ok_iff : r.vertex a = .ok p ↔
    ∃ c, r.contourAt? a.polygon a.contour = some c ∧ c.points[a.vertex]? = some p := by
  simp only [vertex, bind_eq_ok_iff, polygonAt_eq_ok_iff, Polygon.contour_eq_ok_iff,
    Contour.point_eq_ok_iff, contourAt?_eq_some_iff]
  constructor
  · rintro ⟨polygon, hpolygon, c, hc, hp⟩
    exact ⟨c, ⟨polygon, hpolygon, hc⟩, hp⟩
  · rintro ⟨c, ⟨polygon, hpolygon, hc⟩, hp⟩
    exact ⟨polygon, hpolygon, c, hc, hp⟩

/-- **A signed index stands for a place**: no hole is the outline, contour zero, and hole `h` is
contour `h + 1`. -/
theorem contour_eq_ok_iff {hole : Option Nat} : r.contour outline hole = .ok c ↔
    ∃ i, r.Names outline i ∧ r.contourAt? i (hole.elim 0 (· + 1)) = some c := by
  simp only [contour, polygon, bind_eq_ok_iff, polygonAt_eq_ok_iff, polygonIndex_eq_ok_iff,
    contourAt?_eq_some_iff]
  constructor
  · rintro ⟨p, ⟨i, hi, hp⟩, hc⟩
    refine ⟨i, hi, p, hp, ?_⟩
    cases hole with
    | none => exact congrArg some (Except.ok.inj hc)
    | some h => exact Polygon.hole_eq_ok_iff.1 hc
  · rintro ⟨i, hi, p, hp, hc⟩
    refine ⟨p, ⟨i, hi, hp⟩, ?_⟩
    cases hole with
    | none => exact congrArg Except.ok (Option.some.inj hc)
    | some h => exact Polygon.hole_eq_ok_iff.2 hc

/-- A signed index leads to the vertex at the address that it stands for. -/
theorem vertexAt_eq_ok_iff {vertex : Nat} {hole : Option Nat} :
    r.vertexAt vertex outline hole = .ok p ↔
      ∃ i, r.Names outline i ∧ r.vertex ⟨i, hole.elim 0 (· + 1), vertex⟩ = .ok p := by
  simp only [vertexAt, bind_eq_ok_iff, contour_eq_ok_iff, Contour.point_eq_ok_iff, vertex_eq_ok_iff]
  constructor
  · rintro ⟨c, ⟨i, hi, hc⟩, hp⟩
    exact ⟨i, hi, c, hc, hp⟩
  · rintro ⟨i, hi, c, hc, hp⟩
    exact ⟨c, ⟨i, hi, hc⟩, hp⟩

/-- A vertex can be moved where there is one. -/
theorem exists_setVertex_iff : (∃ s, r.setVertex a q = .ok s) ↔
    ∃ c, r.contourAt? a.polygon a.contour = some c ∧ a.vertex < c.size := by
  simp only [setVertex, bind_eq_ok_iff, polygonAt_eq_ok_iff, Polygon.contour_eq_ok_iff,
    contourAt?_eq_some_iff]
  constructor
  · rintro ⟨s, p, hp, c, hc, d, hd, -⟩
    exact ⟨c, ⟨p, hp, hc⟩, (ite_error_eq_ok_iff.1 hd).1⟩
  · rintro ⟨c, ⟨p, hp, hc⟩, hv⟩
    obtain ⟨p', hp'⟩ := Polygon.exists_setContour hc { c with points := c.points.set a.vertex q }
    exact ⟨_, p, hp, c, hc, _, if_pos hv, p', hp', rfl⟩

/-- **To move a vertex** is to change the contour at its address in one place, and to leave all
other contours as they are. -/
theorem contourAt?_of_setVertex (h : r.setVertex a q = .ok s) (i k : Nat) :
    s.contourAt? i k = (r.contourAt? i k).map fun c ↦
      { c with points :=
          if i = a.polygon ∧ k = a.contour then c.points.set a.vertex q else c.points } := by
  simp only [setVertex, bind_eq_ok_iff, polygonAt_eq_ok_iff, Polygon.contour_eq_ok_iff] at h
  obtain ⟨p, hp, c, hc, d, hd, p', hp', heq⟩ := h
  obtain rfl := Except.ok.inj heq
  obtain rfl := Except.ok.inj (ite_error_eq_ok_iff.1 hd).2
  show (r.polygons.set a.polygon p')[i]?.bind _ = (r.polygons[i]?.bind _).map _
  -- Another polygon is as before, and so is another contour of the polygon at the address.
  by_cases hi : i = a.polygon
  · subst hi
    rw [List.getElem?_set_self (List.getElem?_eq_some_iff.1 hp).1, hp]
    show p'.contours[k]? = p.contours[k]?.map _
    rw [Polygon.contours_of_setContour hp']
    by_cases hk : k = a.contour
    · subst hk
      rw [List.getElem?_set_self (List.getElem?_eq_some_iff.1 hc).1, hc]
      simp
    · rw [List.getElem?_set_ne (Ne.symm hk)]
      simp [hk]
  · rw [List.getElem?_set_ne (Ne.symm hi)]
    simp [hi]

theorem size_of_setVertex (h : r.setVertex a q = .ok s) : s.size = r.size := by
  simp only [setVertex, bind_eq_ok_iff] at h
  obtain ⟨p, -, c, -, d, -, p', -, heq⟩ := h
  obtain rfl := Except.ok.inj heq
  exact List.length_set

end Region

/-! ### The stream of vertices -/

/-- A visit without the edge that leads on. -/
structure VertexVisit where
  address : VertexAddress
  /-- The vertex visited. -/
  point : Point
  /-- Whether this is the last vertex of its contour. -/
  endsContour : Bool
  /-- Whether the vertex lies in the last polygon. -/
  inLastPolygon : Bool
deriving DecidableEq, Repr

/-- What a visit tells of its vertex. -/
def Visit.atVertex (v : Visit) : VertexVisit :=
  ⟨v.address, v.point, v.endsContour, v.inLastPolygon⟩

namespace Region

variable {r s : Region} {a b : VertexAddress} {v : VertexVisit} {p q : Point}

/-- The stream of all vertices. -/
def vertexVisits (r : Region) : List VertexVisit := r.allVisits.map Visit.atVertex

/-- The visit that is due at an address, if there is a vertex. -/
def visitDue? (r : Region) (a : VertexAddress) : Option VertexVisit := do
  let c ← r.contourAt? a.polygon a.contour
  let p ← c.points[a.vertex]?
  return ⟨a, p, a.vertex + 1 == c.size, a.polygon + 1 == r.size⟩

theorem visitDue?_eq_some_iff : r.visitDue? a = some v ↔
    ∃ c p, r.contourAt? a.polygon a.contour = some c ∧ c.points[a.vertex]? = some p ∧
      ⟨a, p, a.vertex + 1 == c.size, a.polygon + 1 == r.size⟩ = v := by
  simp only [visitDue?, bind, Option.bind_eq_some_iff, pure, Option.some.injEq, ← exists_and_left]

theorem address_of_visitDue? (h : r.visitDue? a = some v) : v.address = a := by
  obtain ⟨c, p, -, -, rfl⟩ := visitDue?_eq_some_iff.1 h
  rfl

/-- **The stream makes the visits that are due.** -/
theorem mem_vertexVisits : v ∈ r.vertexVisits ↔ r.visitDue? v.address = some v := by
  rw [vertexVisits, List.mem_map, visitDue?_eq_some_iff]
  constructor
  · rintro ⟨u, hu, rfl⟩
    obtain ⟨i, k, c, j, e, -, -, hc, he, rfl⟩ := Walk.mem_visits.1 hu
    obtain ⟨hstart, -⟩ := Contour.getElem?_cycle_eq_some_iff.1 he
    exact ⟨c, e.start, (getElem?_contoursOf.1 hc).2, hstart, rfl⟩
  · rintro ⟨c, p, hc, hp, hv⟩
    obtain ⟨polygon, hpolygon, -⟩ := contourAt?_eq_some_iff.1 hc
    have hi : v.address.polygon < r.size := (List.getElem?_eq_some_iff.1 hpolygon).1
    have hj : v.address.vertex < (Contour.cycle c.points).length := by
      rw [Contour.length_cycle]
      exact (List.getElem?_eq_some_iff.1 hp).1
    have he := List.getElem?_eq_getElem hj
    obtain ⟨hstart, -⟩ := Contour.getElem?_cycle_eq_some_iff.1 he
    obtain rfl := Option.some.inj (hp.symm.trans hstart)
    exact ⟨_, Walk.mem_visits.2 ⟨_, _, c, _, _, Nat.zero_le _, hi,
      getElem?_contoursOf.2 ⟨.inl rfl, hc⟩, he, rfl⟩, hv⟩

/-- What the stream visits at an address is the visit that is due there. -/
theorem exists_mem_vertexVisits_iff {P : VertexVisit → Prop} :
    (∃ v ∈ r.vertexVisits, v.address = a ∧ P v) ↔ ∃ v, r.visitDue? a = some v ∧ P v := by
  constructor
  · rintro ⟨v, hv, rfl, hP⟩
    exact ⟨v, mem_vertexVisits.1 hv, hP⟩
  · rintro ⟨v, hv, hP⟩
    obtain rfl := address_of_visitDue? hv
    exact ⟨v, mem_vertexVisits.2 hv, rfl, hP⟩

/-- The stream makes its visits in the order of addresses. -/
theorem pairwise_vertexVisits (r : Region) :
    r.vertexVisits.Pairwise fun u v ↦ u.address.Before v.address :=
  List.pairwise_map.2 (Walk.pairwise_visits _ _)

/-- What is found at `b` in its contour, where the vertex at `a` is moved if that is the contour. -/
theorem getElem?_ite_set (l : List Point) (a b : VertexAddress) (q : Point) :
    (if b.polygon = a.polygon ∧ b.contour = a.contour then l.set a.vertex q else l)[b.vertex]? =
      l[b.vertex]?.map fun p ↦ if b = a then q else p := by
  obtain ⟨i, k, j⟩ := b
  by_cases hplace : i = a.polygon ∧ k = a.contour
  · obtain ⟨rfl, rfl⟩ := hplace
    rw [if_pos ⟨rfl, rfl⟩]
    by_cases hj : a.vertex = j
    · subst hj
      by_cases hlt : a.vertex < l.length
      · simp [hlt]
      · simp [hlt]
    · have hne : (⟨a.polygon, a.contour, j⟩ : VertexAddress) ≠ a := by
        rintro h
        exact hj (congrArg VertexAddress.vertex h).symm
      simp [hne, List.getElem?_set_ne hj]
  · have hne : (⟨i, k, j⟩ : VertexAddress) ≠ a := by
      rintro rfl
      exact hplace ⟨rfl, rfl⟩
    simp [hplace, hne]

/-- When a vertex is moved, the visit due at its address comes to the new place, and all others are
due as before. -/
theorem visitDue?_of_setVertex (h : r.setVertex a q = .ok s) (b : VertexAddress) :
    s.visitDue? b = (r.visitDue? b).map fun v ↦
      { v with point := if v.address = a then q else v.point } := by
  have hlength : ∀ l : List Point,
      (if b.polygon = a.polygon ∧ b.contour = a.contour then l.set a.vertex q else l).length =
        l.length := by
    intro l
    split
    · exact List.length_set
    · rfl
  simp only [visitDue?, contourAt?_of_setVertex h, size_of_setVertex h, Contour.size]
  rcases r.contourAt? b.polygon b.contour with - | c
  · rfl
  · simp only [Option.map_some, bind, Option.bind_some, getElem?_ite_set, hlength]
    rcases c.points[b.vertex]? with - | p
    · rfl
    · rfl

/-- **When a vertex is moved**, the stream makes the same visits in the same order, and only the
one at its address comes to the new place. -/
theorem vertexVisits_of_setVertex (h : r.setVertex a q = .ok s) :
    s.vertexVisits = r.vertexVisits.map fun v ↦
      { v with point := if v.address = a then q else v.point } := by
  refine eq_of_pairwise_of_mem_iff (fun _ _ ↦ VertexAddress.Before.asymm) s.pairwise_vertexVisits
    (List.pairwise_map.2 r.pairwise_vertexVisits) fun v ↦ ?_
  rw [mem_vertexVisits, visitDue?_of_setVertex h, Option.map_eq_some_iff, List.mem_map]
  constructor
  · rintro ⟨u, hu, rfl⟩
    exact ⟨u, mem_vertexVisits.2 hu, rfl⟩
  · rintro ⟨u, hu, rfl⟩
    exact ⟨u, mem_vertexVisits.1 hu, rfl⟩

/-- A vertex is found where a visit is due. -/
theorem vertex_eq_ok_iff_visitDue? :
    r.vertex a = .ok p ↔ ∃ v, r.visitDue? a = some v ∧ v.point = p := by
  simp only [vertex_eq_ok_iff, visitDue?_eq_some_iff]
  constructor
  · rintro ⟨c, hc, hp⟩
    exact ⟨_, ⟨c, p, hc, hp, rfl⟩, rfl⟩
  · rintro ⟨_, ⟨c, p, hc, hp, rfl⟩, rfl⟩
    exact ⟨c, hc, hp⟩

theorem exists_setVertex_iff_visitDue? :
    (∃ s, r.setVertex a q = .ok s) ↔ ∃ v, r.visitDue? a = some v := by
  simp only [exists_setVertex_iff, visitDue?_eq_some_iff]
  constructor
  · rintro ⟨c, hc, hv⟩
    exact ⟨_, c, _, hc, List.getElem?_eq_getElem hv, rfl⟩
  · rintro ⟨_, c, p, hc, hp, -⟩
    exact ⟨c, hc, (List.getElem?_eq_some_iff.1 hp).1⟩

/-- **The ways to a vertex agree.** At an address, a vertex is found exactly when the stream visits
the address, and it is the one that is visited. It can be moved in the same cases. After that the
stream makes the same visits in the same order, and only the one at this address comes to the new
place. A signed polygon index, with a hole or none, leads to the address of the polygon that it
names, with contour zero for the outline and contour `h + 1` for hole `h`, and it fails where that
address has no vertex. -/
theorem addressing (r : Region) (a : VertexAddress) (q : Point) :
    (∀ p, r.vertex a = .ok p ↔ ∃ v ∈ r.vertexVisits, v.address = a ∧ v.point = p) ∧
    ((∃ s, r.setVertex a q = .ok s) ↔ ∃ v ∈ r.vertexVisits, v.address = a) ∧
    (∀ s, r.setVertex a q = .ok s → s.vertexVisits = r.vertexVisits.map fun v ↦
      { v with point := if v.address = a then q else v.point }) ∧
    ∀ vertex outline hole p, r.vertexAt vertex outline hole = .ok p ↔
      ∃ i, r.Names outline i ∧ r.vertex ⟨i, hole.elim 0 (· + 1), vertex⟩ = .ok p := by
  refine ⟨fun p ↦ ?_, ?_, fun s ↦ vertexVisits_of_setVertex, fun _ _ _ _ ↦ vertexAt_eq_ok_iff⟩
  · rw [vertex_eq_ok_iff_visitDue?, exists_mem_vertexVisits_iff]
  · rw [exists_setVertex_iff_visitDue?]
    simpa only [and_true] using (exists_mem_vertexVisits_iff (P := fun _ ↦ True)).symm

/-- The only vertex of a third hole is moved, behind two holes without vertices. -/
theorem addressing_third_hole : ∃ r s : Region,
    r = ⟨[.ofOutline (.closedOf [⟨1, 1⟩]),
      ⟨.closedOf [⟨0, 0⟩, ⟨9, 0⟩], [.closedOf [], .closedOf [], .closedOf [⟨7, 2⟩]]⟩]⟩ ∧
    r.setVertex ⟨1, 3, 0⟩ ⟨8, 8⟩ = .ok s ∧
    s.vertexVisits = [⟨⟨0, 0, 0⟩, ⟨1, 1⟩, true, false⟩, ⟨⟨1, 0, 0⟩, ⟨0, 0⟩, false, true⟩,
      ⟨⟨1, 0, 1⟩, ⟨9, 0⟩, true, true⟩, ⟨⟨1, 3, 0⟩, ⟨8, 8⟩, true, true⟩] := by
  have hset : setVertex ⟨[.ofOutline (.closedOf [⟨1, 1⟩]),
      ⟨.closedOf [⟨0, 0⟩, ⟨9, 0⟩], [.closedOf [], .closedOf [], .closedOf [⟨7, 2⟩]]⟩]⟩ ⟨1, 3, 0⟩
      ⟨8, 8⟩ = .ok ⟨[.ofOutline (.closedOf [⟨1, 1⟩]),
        ⟨.closedOf [⟨0, 0⟩, ⟨9, 0⟩], [.closedOf [], .closedOf [], .closedOf [⟨8, 8⟩]]⟩]⟩ := rfl
  exact ⟨_, _, rfl, hset, ((addressing _ _ _).2.2.1 _ hset).trans (by cbv)⟩

end Region

end GridGeometry
