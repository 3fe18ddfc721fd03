import GridGeometry.Proofs.Box
import GridGeometry.Proofs.Contour.Boundary
import GridGeometry.Region.Inside

/-!
# The box of a region

The box of a region is put together from the boxes of its outlines, and outlines without a vertex
have none. It is the box of all vertices of outlines, grown (`Region.box?_eq`), so that the order of
the polygons and the empty outlines among them leave no trace.

Whoever asks the box before the region itself relies on it to miss nothing: a point inside the
region is in the box of an outline, and with it everything on the grid that is near the point is in
the grown box (`Region.box?_covers`).
-/

namespace GridGeometry

/-- A point inside a contour is in its box. -/
theorem Contour.exists_mem_box {c : Contour} {p : Point} (h : c.contains p = true) :
    ∃ b, c.box? = some b ∧ p ∈ b := by
  rcases hb : c.box? with - | b
  · simp [contains, hb] at h
  · rw [contains, hb] at h
    exact ⟨b, rfl, (of_decide_eq_true h).1⟩

namespace Region

variable {r : Region} {p : Point} {b : Box}

/-- The vertices of all outlines. -/
def outlinePoints (r : Region) : List Point := r.polygons.flatMap (·.outline.points)

/-- **The box of a region** is that of the vertices of its outlines, grown. -/
theorem box?_eq (r : Region) (clearance : Int) :
    r.box? clearance = (Box.ofPoints? r.outlinePoints).map (·.grow clearance) := by
  have hpoints : r.outlinePoints = (r.polygons.map (·.outline.points)).flatten := rfl
  have hboxes : r.polygons.filterMap (·.outline.box?) =
      (r.polygons.map (·.outline.points)).filterMap Box.ofPoints? := by
    rw [List.filterMap_map]
    rfl
  rw [box?, hboxes, hpoints]
  rcases h : (r.polygons.map (·.outline.points)).filterMap Box.ofPoints? with - | ⟨b, boxes⟩
  · rw [h, Box.ofPoints?_eq_none_iff.2 (Box.filterMap_ofPoints?_eq_nil_iff.1 h)]
    rfl
  · rw [h, Box.ofPoints?_flatten h]
    rfl

theorem box?_eq_some_iff {clearance : Int} : r.box? clearance = some b ↔
    ∃ d, Box.ofPoints? r.outlinePoints = some d ∧ d.grow clearance = b := by
  rw [box?_eq, Option.map_eq_some_iff]

/-- A point inside the region is in the box of the vertices of outlines. -/
theorem exists_mem_box (h : r.contains p = true) :
    ∃ b, Box.ofPoints? r.outlinePoints = some b ∧ p ∈ b := by
  obtain ⟨polygon, hpolygon, hp⟩ := List.any_eq_true.1 h
  rw [Polygon.contains, Bool.and_eq_true] at hp
  obtain ⟨b, hb, hpb⟩ := Contour.exists_mem_box hp.1
  have hmem : ∀ v ∈ polygon.outline.points, v ∈ r.outlinePoints := fun v hv ↦
    List.mem_flatMap.2 ⟨polygon, hpolygon, hv⟩
  rcases hd : Box.ofPoints? r.outlinePoints with - | d
  · rw [Box.ofPoints?_eq_none_iff] at hd
    have hnil : polygon.outline.points = [] := List.eq_nil_iff_forall_not_mem.2 fun v hv ↦
      List.not_mem_nil (hd ▸ hmem v hv)
    simp [Contour.box?, hnil, Box.ofPoints?] at hb
  · have hwithin : b.Within d := (Box.within_iff_of_ofPoints? hb).2 fun v hv ↦
      Box.mem_of_ofPoints? hd (hmem v hv)
    exact ⟨d, rfl, hwithin.mem hpb⟩

/-- **The box of a region misses nothing.** Grown by a clearance, it is there and holds every point
of the grid that is within the clearance, along both axes, of a point inside the region. Not grown,
it is the least box that holds every vertex of an outline. It is missing just when no outline has a
vertex. -/
theorem box?_covers (r : Region) :
    (∀ p, r.contains p = true → ∀ c q, q.OnGrid → |q.x - p.x| ≤ c → |q.y - p.y| ≤ c →
      ∃ b, r.box? c = some b ∧ q ∈ b) ∧
    ((∀ v ∈ r.outlinePoints, v.OnGrid) → ∀ b, r.box? 0 = some b →
      (∀ v ∈ r.outlinePoints, v ∈ b) ∧ ∀ d, (∀ v ∈ r.outlinePoints, v ∈ d) → b.Within d) ∧
    ∀ c, r.box? c = none ↔ ∀ polygon ∈ r.polygons, polygon.outline.points = [] := by
  refine ⟨fun p hp c q hq hx hy ↦ ?_, fun hgrid b hb ↦ ?_, fun c ↦ ?_⟩
  · obtain ⟨b, hb, hpb⟩ := exists_mem_box hp
    rw [abs_le] at hx hy
    refine ⟨b.grow c, box?_eq_some_iff.2 ⟨b, hb, rfl⟩, Box.mem_grow hpb hq ?_ ?_⟩ <;> omega
  · obtain ⟨d, hd, rfl⟩ := box?_eq_some_iff.1 hb
    rw [Box.grow_zero (Box.onGrid_of_ofPoints? hd hgrid)]
    exact ⟨fun v ↦ Box.mem_of_ofPoints? hd, fun e ↦ (Box.within_iff_of_ofPoints? hd).2⟩
  · rw [box?_eq, Option.map_eq_none_iff, Box.ofPoints?_eq_none_iff, outlinePoints,
      List.flatMap_eq_nil_iff]

/-- A triangle in the corner of the grid, after a polygon with an empty outline. Its box can be
grown only away from the corner. -/
theorem box?_covers_corner :
    let r : Region := ⟨[.ofOutline (.closedOf []),
      .ofOutline (.closedOf [⟨2147483640, 2147483640⟩, ⟨2147483647, 2147483640⟩,
        ⟨2147483647, 2147483647⟩])]⟩
    r.contains ⟨2147483645, 2147483642⟩ = true ∧
      (∃ b, r.box? 7 = some b ∧ (⟨2147483638, 2147483647⟩ : Point) ∈ b) ∧
      ∀ b, r.box? 0 = some b → (∀ v ∈ r.outlinePoints, v ∈ b) ∧
        ∀ d, (∀ v ∈ r.outlinePoints, v ∈ d) → b.Within d := by
  intro r
  have hinside : r.contains ⟨2147483645, 2147483642⟩ = true := by decide
  exact ⟨hinside, (box?_covers r).1 _ hinside 7 _ (by decide) (by decide) (by decide),
    (box?_covers r).2.1 (by decide)⟩

end Region

end GridGeometry
