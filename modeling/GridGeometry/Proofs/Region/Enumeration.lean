import GridGeometry.Proofs.Contour.Translation
import GridGeometry.Proofs.Region.Walk
import Mathlib.Logic.Relation

/-!
# The enumeration of a region's vertices

The vertices of a region are counted polygon by polygon, contour by contour and vertex by vertex
(`Region.addresses`). A walk visits the addresses of its stretch in this order
(`Region.map_address_visits`). Of each it tells where the vertex lies, whether it is the last one of
its contour, and whether it is in the last polygon (`Region.visitsBetween_enumerates`).

The cursor is carried over contours and polygons without vertices one move at a time (`Walk.Moves`).
It cannot move forever (`Walk.wellFounded_moves`), and it stops at one place only
(`Walk.stops_iff_skipEmpty`).
-/

namespace GridGeometry

/-! ### The moves of a cursor -/

namespace Walk

variable {w : Walk} {a b : VertexAddress}

/-- One move of a cursor that does not rest on a vertex of the stretch: to the next contour behind
the last vertex of a contour, and to the next polygon behind the last contour of a polygon. -/
inductive Moves (w : Walk) : VertexAddress → VertexAddress → Prop
  | nextContour {a : VertexAddress} {c : Contour} : a.polygon < w.stop →
      (w.contoursOf a.polygon)[a.contour]? = some c → c.size ≤ a.vertex →
        Moves w a ⟨a.polygon, a.contour + 1, 0⟩
  | nextPolygon {a : VertexAddress} : a.polygon < w.stop →
      (w.contoursOf a.polygon)[a.contour]? = none → Moves w a ⟨a.polygon + 1, 0, 0⟩

/-- A cursor that rests does not move. -/
theorem Rests.not_moves (ha : w.Rests a) : ¬ w.Moves a b := by
  intro h
  cases h with
  | nextContour hi hc hv =>
    obtain ⟨d, hd, hlt⟩ := ha hi
    obtain rfl := Option.some.inj (hc.symm.trans hd)
    omega
  | nextPolygon hi hc =>
    obtain ⟨d, hd, -⟩ := ha hi
    exact Option.some_ne_none d (hd.symm.trans hc)

/-- A move leaves the place where the cursor will stop as it is. -/
theorem Moves.skipEmpty_eq (h : w.Moves a b) : w.skipEmpty a = w.skipEmpty b := by
  cases h with
  | nextContour hi hc hv =>
    rw [skipEmpty, if_pos hi]
    split
    case h_1 d hd =>
      obtain rfl := Option.some.inj (hc.symm.trans hd)
      rw [if_neg (Nat.not_lt.2 hv)]
    case h_2 hd => exact absurd (hc.symm.trans hd) (Option.some_ne_none _)
  | nextPolygon hi hc =>
    rw [skipEmpty, if_pos hi]
    split
    case h_1 d hd => exact absurd (hd.symm.trans hc) (Option.some_ne_none _)
    case h_2 => rfl

/-- The cursor is carried to its place move by move. -/
theorem moves_skipEmpty (w : Walk) (a : VertexAddress) :
    Relation.ReflTransGen w.Moves a (w.skipEmpty a) := by
  fun_induction skipEmpty w a with
  | case1 => exact .refl
  | case2 a hi c hc hv ih => exact .head (.nextContour hi hc (Nat.not_lt.1 hv)) ih
  | case3 a hi hc ih => exact .head (.nextPolygon hi hc) ih
  | case4 => exact .refl

/-- **Where the cursor stops**: there is one place from which no move leads on, and it is the one
that is taken. -/
theorem stops_iff_skipEmpty :
    (Relation.ReflTransGen w.Moves a b ∧ ∀ c, ¬ w.Moves b c) ↔ w.skipEmpty a = b := by
  constructor
  · rintro ⟨hab, hstop⟩
    induction hab using Relation.ReflTransGen.head_induction_on with
    | refl =>
      rcases (w.moves_skipEmpty b).cases_head with h | ⟨c, h, -⟩
      · exact h.symm
      · exact absurd h (hstop c)
    | head h _ ih => exact h.skipEmpty_eq.trans ih
  · rintro rfl
    exact ⟨w.moves_skipEmpty a, fun c ↦ (w.rests_skipEmpty a).not_moves⟩

/-- **The cursor cannot move forever**, from whatever address it starts. -/
theorem wellFounded_moves (w : Walk) : WellFounded (flip w.Moves) := by
  refine ⟨fun a ↦ ?_⟩
  -- From an address there is one move at most, and it leads to where the recursion goes on.
  fun_induction skipEmpty w a with
  | case1 a hi c hc hv =>
    exact .intro a fun b h ↦ absurd h (Rests.not_moves fun _ ↦ ⟨c, hc, hv⟩)
  | case2 a hi c hc hv ih =>
    refine .intro a fun b h ↦ ?_
    cases h with
    | nextContour => exact ih
    | nextPolygon _ hn => exact absurd (hc.symm.trans hn) (Option.some_ne_none _)
  | case3 a hi hc ih =>
    refine .intro a fun b h ↦ ?_
    cases h with
    | nextContour _ hs => exact absurd (hs.symm.trans hc) (Option.some_ne_none _)
    | nextPolygon => exact ih
  | case4 a hi => exact .intro a fun b h ↦ absurd h (Rests.not_moves fun h ↦ absurd h hi)

end Walk

/-! ### Addresses in order -/

namespace Contour

/-- The addresses of the vertices of a contour. -/
def addresses (c : Contour) (i k : Nat) : List VertexAddress := (List.range c.size).map (⟨i, k, ·⟩)

theorem mem_addresses {c : Contour} {i k : Nat} {a : VertexAddress} :
    a ∈ c.addresses i k ↔ (a.polygon = i ∧ a.contour = k) ∧ a.vertex < c.size := by
  rw [addresses, List.mem_map]
  constructor
  · rintro ⟨j, hj, rfl⟩
    exact ⟨⟨rfl, rfl⟩, List.mem_range.1 hj⟩
  · rintro ⟨⟨rfl, rfl⟩, hj⟩
    exact ⟨_, List.mem_range.2 hj, rfl⟩

end Contour

namespace Polygon

/-- The contours of a polygon that are visited. -/
def visited (p : Polygon) (withHoles : Bool) : List Contour :=
  if withHoles then p.contours else [p.outline]

theorem getElem?_visited {p : Polygon} {withHoles : Bool} {k : Nat} {c : Contour} :
    (p.visited withHoles)[k]? = some c ↔
      (withHoles = true ∨ k = 0) ∧ p.contours[k]? = some c := by
  cases withHoles with
  | true => simp [visited]
  | false => cases k <;> simp [visited, contours]

/-- The addresses of the vertices of a polygon, contour by contour. -/
def addresses (p : Polygon) (withHoles : Bool) (i : Nat) : List VertexAddress :=
  (p.visited withHoles).zipIdx.flatMap fun (c, k) ↦ c.addresses i k

theorem mem_addresses {p : Polygon} {withHoles : Bool} {i : Nat} {a : VertexAddress} :
    a ∈ p.addresses withHoles i ↔ a.polygon = i ∧ (withHoles = true ∨ a.contour = 0) ∧
      ∃ c, p.contours[a.contour]? = some c ∧ a.vertex < c.size := by
  rw [addresses, List.mem_flatMap]
  constructor
  · rintro ⟨⟨c, k⟩, hc, ha⟩
    obtain ⟨⟨rfl, rfl⟩, hv⟩ := Contour.mem_addresses.1 ha
    obtain ⟨hholes, hc⟩ := getElem?_visited.1 (List.mem_zipIdx_iff_getElem?.1 hc)
    exact ⟨rfl, hholes, c, hc, hv⟩
  · rintro ⟨rfl, hholes, c, hc, hv⟩
    exact ⟨(c, a.contour), List.mem_zipIdx_iff_getElem?.2 (getElem?_visited.2 ⟨hholes, hc⟩),
      Contour.mem_addresses.2 ⟨⟨rfl, rfl⟩, hv⟩⟩

end Polygon

namespace Region

variable {r : Region} {withHoles : Bool} {i k : Nat} {a : VertexAddress} {c : Contour}
  {outline : Int}

/-- Contour `k` of polygon `i`, the outline being contour zero. -/
def contourAt? (r : Region) (i k : Nat) : Option Contour := do
  let p ← r.polygons[i]?
  p.contours[k]?

theorem contourAt?_eq_some_iff : r.contourAt? i k = some c ↔
    ∃ p, r.polygons[i]? = some p ∧ p.contours[k]? = some c := Option.bind_eq_some_iff

/-- The addresses of all vertices of a region, polygon by polygon, contour by contour and vertex by
vertex, with or without those of holes. -/
def addresses (r : Region) (withHoles : Bool) : List VertexAddress :=
  r.polygons.zipIdx.flatMap fun (p, i) ↦ p.addresses withHoles i

/-- There is an address for every vertex, or for those of outlines if holes are left out. -/
theorem mem_addresses : a ∈ r.addresses withHoles ↔ (withHoles = true ∨ a.contour = 0) ∧
    ∃ c, r.contourAt? a.polygon a.contour = some c ∧ a.vertex < c.size := by
  rw [addresses, List.mem_flatMap]
  constructor
  · rintro ⟨⟨p, i⟩, hp, ha⟩
    obtain ⟨rfl, hholes, c, hc, hv⟩ := Polygon.mem_addresses.1 ha
    exact ⟨hholes, c, contourAt?_eq_some_iff.2 ⟨p, List.mem_zipIdx_iff_getElem?.1 hp, hc⟩, hv⟩
  · rintro ⟨hholes, c, hc, hv⟩
    obtain ⟨p, hp, hc⟩ := contourAt?_eq_some_iff.1 hc
    exact ⟨(p, a.polygon), List.mem_zipIdx_iff_getElem?.2 hp,
      Polygon.mem_addresses.2 ⟨rfl, hholes, c, hc, hv⟩⟩

/-- The addresses are listed in increasing order. -/
theorem pairwise_addresses (r : Region) (withHoles : Bool) :
    (r.addresses withHoles).Pairwise VertexAddress.Before := by
  refine pairwise_flatMap_zipIdx (fun x ↦ ?_) fun x y hlt u hu v hv ↦ ?_
  · refine pairwise_flatMap_zipIdx (fun y ↦ ?_) fun y z hlt u hu v hv ↦ ?_
    · exact List.pairwise_map.2 (List.pairwise_lt_range.imp fun h ↦ .inr ⟨rfl, .inr ⟨rfl, h⟩⟩)
    · obtain ⟨⟨hu, hu'⟩, -⟩ := Contour.mem_addresses.1 hu
      obtain ⟨⟨hv, hv'⟩, -⟩ := Contour.mem_addresses.1 hv
      exact .inr ⟨hu.trans hv.symm, .inl (hu' ▸ hv' ▸ hlt)⟩
  · obtain ⟨hu, -⟩ := Polygon.mem_addresses.1 hu
    obtain ⟨hv, -⟩ := Polygon.mem_addresses.1 hv
    exact .inl (hu ▸ hv ▸ hlt)

/-- There are as many addresses as vertices. -/
theorem length_addresses (r : Region) : (r.addresses true).length = r.vertexCount := by
  refine length_flatMap_zipIdx fun p i ↦ ?_
  show (p.addresses true i).length = (p.contours.flatMap Contour.points).length
  refine length_flatMap_zipIdx fun c k ↦ ?_
  show (c.addresses i k).length = c.size
  rw [Contour.addresses, List.length_map, List.length_range]

/-! ### What a walk lists -/

theorem getElem?_contoursOf {stop : Nat} : ((r.walk stop withHoles).contoursOf i)[k]? = some c ↔
    (withHoles = true ∨ k = 0) ∧ r.contourAt? i k = some c := by
  rw [contourAt?_eq_some_iff, Walk.contoursOf, walk]
  rcases hp : r.polygons[i]? with - | p
  · simp
  · simp only [Option.some.injEq, exists_eq_left']
    exact Polygon.getElem?_visited

/-- What is visited at an address: the vertex there and the one behind it around the contour, and
whether it is the last one of its contour and in the last polygon. -/
theorem visit_spec {first stop : Nat} {v : Visit}
    (hv : v ∈ (r.walk stop withHoles).visits first) :
    ∃ c, r.contourAt? v.address.polygon v.address.contour = some c ∧
      c.points[v.address.vertex]? = some v.point ∧
      c.points[(v.address.vertex + 1) % c.size]? = some v.edge.stop ∧
      (v.endsContour = true ↔ v.address.vertex + 1 = c.size) ∧
      (v.inLastPolygon = true ↔ v.address.polygon + 1 = stop) := by
  obtain ⟨i, k, c, j, e, -, -, hc, he, rfl⟩ := Walk.mem_visits.1 hv
  obtain ⟨hstart, hstop⟩ := Contour.getElem?_cycle_eq_some_iff.1 he
  exact ⟨c, (getElem?_contoursOf.1 hc).2, hstart, hstop, beq_iff_eq, beq_iff_eq⟩

/-- A walk visits the addresses of the polygons in its stretch. -/
theorem mem_map_address_visits {first stop : Nat} :
    a ∈ ((r.walk stop withHoles).visits first).map Visit.address ↔
      a ∈ r.addresses withHoles ∧ first ≤ a.polygon ∧ a.polygon < stop := by
  rw [List.mem_map, mem_addresses]
  constructor
  · rintro ⟨v, hv, rfl⟩
    obtain ⟨i, k, c, j, e, hfirst, hstop, hc, he, rfl⟩ := Walk.mem_visits.1 hv
    obtain ⟨hholes, hc⟩ := getElem?_contoursOf.1 hc
    have hj := (List.getElem?_eq_some_iff.1 he).1
    rw [Contour.length_cycle] at hj
    exact ⟨⟨hholes, c, hc, hj⟩, hfirst, hstop⟩
  · rintro ⟨⟨hholes, c, hc, hj⟩, hfirst, hstop⟩
    have he : a.vertex < (Contour.cycle c.points).length := by rwa [Contour.length_cycle]
    exact ⟨_, Walk.mem_visits.2 ⟨_, _, c, _, _, hfirst, hstop,
      getElem?_contoursOf.2 ⟨hholes, hc⟩, List.getElem?_eq_getElem he, rfl⟩, rfl⟩

/-- **The addresses that a walk visits** are those of its stretch, in the order of the region. -/
theorem map_address_visits (r : Region) (withHoles : Bool) (first stop : Nat) :
    ((r.walk stop withHoles).visits first).map Visit.address =
      (r.addresses withHoles).filter fun a ↦ first ≤ a.polygon ∧ a.polygon < stop := by
  -- Both lists are increasing, so they are equal when they have the same members.
  refine eq_of_pairwise_of_mem_iff (fun _ _ ↦ VertexAddress.Before.asymm)
    (List.pairwise_map.2 (Walk.pairwise_visits _ _)) ((r.pairwise_addresses _).filter _) fun a ↦ ?_
  rw [mem_map_address_visits, List.mem_filter, decide_eq_true_iff]

/-- The walk over all polygons visits all addresses. -/
theorem map_address_allVisits (r : Region) :
    r.allVisits.map Visit.address = r.addresses true := by
  rw [allVisits, map_address_visits, List.filter_eq_self]
  intro a ha
  obtain ⟨-, c, hc, -⟩ := mem_addresses.1 ha
  obtain ⟨p, hp, -⟩ := contourAt?_eq_some_iff.1 hc
  exact decide_eq_true ⟨Nat.zero_le _, (List.getElem?_eq_some_iff.1 hp).1⟩

/-- **There are as many visits as vertices.** -/
theorem length_allVisits (r : Region) : r.allVisits.length = r.vertexCount := by
  rw [← length_addresses, ← map_address_allVisits, List.length_map]

/-! ### Polygons and their indices -/

theorem polygonAt_eq_ok_iff {p : Polygon} : r.polygonAt i = .ok p ↔ r.polygons[i]? = some p := by
  unfold polygonAt
  cases r.polygons[i]? <;> simp

/-- The signed index `outline` names polygon `i`: it counts from the front, or from the end if it is
negative. -/
def Names (r : Region) (outline : Int) (i : Nat) : Prop :=
  (i : Int) = (if outline < 0 then outline + r.size else outline) ∧ i < r.size

instance (outline : Int) (i : Nat) : Decidable (r.Names outline i) :=
  inferInstanceAs (Decidable (_ ∧ _))

/-- A signed index leads to the place that it names. -/
theorem polygonIndex_eq_ok_iff : r.polygonIndex outline = .ok i ↔ r.Names outline i := by
  rw [polygonIndex, Names]
  simp only [ite_error_eq_ok_iff, Except.ok.injEq]
  omega

theorem outlineRange_eq_ok {first last : Int} {i j : Nat} (hi : r.Names first i)
    (hj : r.Names last j) (hij : i ≤ j) : r.outlineRange first last = .ok (i, j) :=
  bind_eq_ok_iff.2 ⟨i, polygonIndex_eq_ok_iff.2 hi,
    bind_eq_ok_iff.2 ⟨j, polygonIndex_eq_ok_iff.2 hj, if_pos hij⟩⟩

/-- **What a walk from one polygon to another visits.** Let two signed indices name the polygons `i`
and `j` of a region, where `i ≤ j`. Then the cursor always comes to a place where it stops, and to
one only. The walk succeeds and visits the vertices of these polygons, with or without those of
holes, in the order in which the region counts them, and each of them once. A visit tells the vertex
at its address, and whether it is the last one of its contour and in polygon `j`. The walk over the
edges succeeds too. At the same addresses it gives the edges from there to the next vertex around
the contour. And a walk over all vertices makes as many visits as there are vertices. -/
theorem visitsBetween_enumerates {first last : Int} {i j : Nat} (hi : r.Names first i)
    (hj : r.Names last j) (hij : i ≤ j) (withHoles : Bool) :
    WellFounded (flip (r.walk (j + 1) withHoles).Moves) ∧
    (∀ a b, (Relation.ReflTransGen (r.walk (j + 1) withHoles).Moves a b ∧
      ∀ c, ¬ (r.walk (j + 1) withHoles).Moves b c) ↔ (r.walk (j + 1) withHoles).skipEmpty a = b) ∧
    (∃ visits edges, r.visitsBetween first last withHoles = .ok visits ∧
      r.edgesBetween first last withHoles = .ok edges ∧
      visits.map Visit.address =
        (r.addresses withHoles).filter (fun a ↦ i ≤ a.polygon ∧ a.polygon ≤ j) ∧
      visits.Pairwise (fun u v ↦ u.address.Before v.address) ∧
      (∀ v ∈ visits, ∃ c, r.contourAt? v.address.polygon v.address.contour = some c ∧
        c.points[v.address.vertex]? = some v.point ∧
        (v.endsContour = true ↔ v.address.vertex + 1 = c.size) ∧
        (v.inLastPolygon = true ↔ v.address.polygon = j)) ∧
      edges.map Prod.fst = visits.map Visit.address ∧
      ∀ a s, (a, s) ∈ edges → ∃ c, r.contourAt? a.polygon a.contour = some c ∧
        c.points[a.vertex]? = some s.start ∧
        c.points[(a.vertex + 1) % c.size]? = some s.stop) ∧
    r.allVisits.length = r.vertexCount := by
  refine ⟨Walk.wellFounded_moves _, fun a b ↦ Walk.stops_iff_skipEmpty, ?_, r.length_allVisits⟩
  have hrange := outlineRange_eq_ok hi hj hij
  refine ⟨(r.walk (j + 1) withHoles).visits i, (r.walk (j + 1) withHoles).edges i,
    bind_eq_ok_iff.2 ⟨_, hrange, rfl⟩, bind_eq_ok_iff.2 ⟨_, hrange, rfl⟩, ?_,
    Walk.pairwise_visits _ _, fun v hv ↦ ?_, ?_, fun a s has ↦ ?_⟩
  · rw [map_address_visits]
    exact List.filter_congr fun a _ ↦ decide_eq_decide.2 (and_congr_right' Nat.lt_succ_iff)
  · obtain ⟨c, hc, hpoint, -, hends, hlast⟩ := visit_spec hv
    exact ⟨c, hc, hpoint, hends, hlast.trans Nat.succ_inj⟩
  · rw [Walk.edges, List.map_map]
    rfl
  · obtain ⟨v, hv, heq⟩ := List.mem_map.1 has
    obtain ⟨rfl, rfl⟩ := Prod.mk.inj heq
    obtain ⟨c, hc, hstart, hstop, -⟩ := visit_spec hv
    exact ⟨c, hc, hstart, hstop⟩

/-- Of three polygons, the first and the last are without vertices, and so is the first hole of the
second one. The second hole has one vertex. -/
theorem visitsBetween_enumerates_islands : ∃ (r : Region) (visits : List Visit)
    (edges : List (VertexAddress × Segment)),
    r = ⟨[.ofOutline (.closedOf []),
      ⟨.closedOf [⟨0, 0⟩, ⟨9, 0⟩, ⟨9, 9⟩], [.closedOf [], .closedOf [⟨7, 2⟩]]⟩,
      .ofOutline (.closedOf [])]⟩ ∧
    r.Names 0 0 ∧ r.Names (-1) 2 ∧
    r.visitsBetween 0 (-1) true = .ok visits ∧ r.edgesBetween 0 (-1) true = .ok edges ∧
    visits.map Visit.address = [⟨1, 0, 0⟩, ⟨1, 0, 1⟩, ⟨1, 0, 2⟩, ⟨1, 2, 0⟩] ∧
    edges.map Prod.fst = [⟨1, 0, 0⟩, ⟨1, 0, 1⟩, ⟨1, 0, 2⟩, ⟨1, 2, 0⟩] := by
  have hfirst : Names ⟨[.ofOutline (.closedOf []),
    ⟨.closedOf [⟨0, 0⟩, ⟨9, 0⟩, ⟨9, 9⟩], [.closedOf [], .closedOf [⟨7, 2⟩]]⟩,
    .ofOutline (.closedOf [])]⟩ 0 0 := by decide
  have hlast : Names ⟨[.ofOutline (.closedOf []),
    ⟨.closedOf [⟨0, 0⟩, ⟨9, 0⟩, ⟨9, 9⟩], [.closedOf [], .closedOf [⟨7, 2⟩]]⟩,
    .ofOutline (.closedOf [])]⟩ (-1) 2 := by decide
  obtain ⟨-, -, ⟨visits, edges, hvisits, hedges, haddresses, -, -, hsame, -⟩, -⟩ :=
    visitsBetween_enumerates hfirst hlast (by decide) true
  have haddresses := haddresses.trans
    (show _ = [⟨1, 0, 0⟩, ⟨1, 0, 1⟩, ⟨1, 0, 2⟩, ⟨1, 2, 0⟩] by decide)
  exact ⟨_, visits, edges, rfl, hfirst, hlast, hvisits, hedges, haddresses,
    hsame.trans haddresses⟩

end Region

end GridGeometry
