import GridGeometry.Proofs.Contour.Slimming
import GridGeometry.Proofs.Region.Loops
import GridGeometry.Proofs.Region.Translation
import GridGeometry.Proofs.Slit.Axial
import GridGeometry.Proofs.Text.Grammar
import GridGeometry.Region.Growth

/-!
# Regions as they are built

A region starts empty and is changed by one operation after another (`Region.Edit`,
`Region.Built`). Every operation keeps its contours closed (`Region.Edit.isClosed`), whatever a
clipper answers and whatever a text denotes, and so they are closed whenever they are looked at.
Nothing more can be said of them: each region of closed contours can be built
(`Region.built_iff_isClosed`).

A region and its contours have different tests for points on edges. The region takes the closed
cycle of every contour, and a contour takes its own edges, or its vertex if it has one only. On
closed contours the tests agree (`Region.touches_iff_exists_contour`).
-/

namespace GridGeometry

/-- What holds of all elements of a list and of a new one still holds when that replaces one. -/
theorem forall_mem_set {α : Type} {P : α → Prop} {l : List α} {a : α} (hl : ∀ b ∈ l, P b)
    (ha : P a) (i : Nat) : ∀ b ∈ l.set i a, P b := by
  intro b hb
  rcases List.mem_or_eq_of_mem_set hb with hb | rfl
  · exact hl b hb
  · exact ha

/-! ### Closed contours -/

namespace Polygon

variable {p q : Polygon} {c : Contour} {index : Nat}

/-- All contours are closed. -/
def IsClosed (p : Polygon) : Prop := ∀ c ∈ p.contours, c.closed = true

theorem isClosed_iff :
    p.IsClosed ↔ p.outline.closed = true ∧ ∀ c ∈ p.holes, c.closed = true := List.forall_mem_cons

theorem isClosed_ofOutline (hc : c.closed = true) : (ofOutline c).IsClosed :=
  isClosed_iff.2 ⟨hc, List.forall_mem_nil _⟩

theorem IsClosed.addHole (hp : p.IsClosed) (hc : c.closed = true) : (p.addHole c).2.IsClosed := by
  obtain ⟨houtline, hholes⟩ := isClosed_iff.1 hp
  exact isClosed_iff.2 ⟨houtline, List.forall_mem_append.2 ⟨hholes, List.forall_mem_singleton.2 hc⟩⟩

theorem IsClosed.setHole (hp : p.IsClosed) (hc : c.closed = true)
    (h : p.setHole index c = .ok q) : q.IsClosed := by
  obtain ⟨houtline, hholes⟩ := isClosed_iff.1 hp
  obtain ⟨-, h⟩ := ite_error_eq_ok_iff.1 h
  exact Except.ok.inj h ▸ isClosed_iff.2 ⟨houtline, forall_mem_set hholes hc index⟩

theorem IsClosed.setContour (hp : p.IsClosed) (hc : c.closed = true)
    (h : p.setContour index c = .ok q) : q.IsClosed := by
  obtain ⟨houtline, hholes⟩ := isClosed_iff.1 hp
  cases index with
  | zero => exact Except.ok.inj h ▸ isClosed_iff.2 ⟨hc, hholes⟩
  | succ k =>
    obtain ⟨-, h⟩ := ite_error_eq_ok_iff.1 h
    exact Except.ok.inj h ▸ isClosed_iff.2 ⟨houtline, forall_mem_set hholes hc k⟩

theorem IsClosed.hole (hp : p.IsClosed) (h : p.hole index = .ok c) : c.closed = true := by
  unfold Polygon.hole at h
  split at h
  case h_1 d hd => exact Except.ok.inj h ▸ hp d (List.mem_cons_of_mem _ (List.mem_of_getElem? hd))
  case h_2 => cases h

theorem IsClosed.contour (hp : p.IsClosed) (h : p.contour index = .ok c) : c.closed = true := by
  unfold Polygon.contour at h
  split at h
  case h_1 d hd => exact Except.ok.inj h ▸ hp d (List.mem_of_getElem? hd)
  case h_2 => cases h

/-- All contours may be changed at once, as long as each stays open or closed. -/
theorem IsClosed.mapContours (hp : p.IsClosed) {f : Contour → Contour}
    (hf : ∀ c, (f c).closed = c.closed) : (p.mapContours f).IsClosed := by
  obtain ⟨houtline, hholes⟩ := isClosed_iff.1 hp
  refine isClosed_iff.2 ⟨(hf _).trans houtline, ?_⟩
  exact List.forall_mem_map.2 fun c hc ↦ (hf c).trans (hholes c hc)

end Polygon

/-- Appending a point neither closes nor opens a contour. -/
theorem Contour.closed_append (c : Contour) (p : Point) : (c.append p).closed = c.closed := by
  unfold append
  split <;> rfl

theorem Contour.closed_of_setPoint {c d : Contour} {i : Nat} {p : Point}
    (h : c.setPoint i p = .ok d) : d.closed = c.closed := by
  obtain ⟨-, h⟩ := ite_error_eq_ok_iff.1 h
  exact Except.ok.inj h ▸ rfl

namespace Region

variable {r s : Region} {p : Polygon} {c : Contour} {outline : Int} {i : Nat}

/-- All contours are closed. -/
def IsClosed (r : Region) : Prop := ∀ p ∈ r.polygons, p.IsClosed

theorem isClosed_empty : empty.IsClosed := List.forall_mem_nil _

theorem IsClosed.append (hr : r.IsClosed) (hs : s.IsClosed) : (r ++ s).IsClosed :=
  List.forall_mem_append.2 ⟨hr, hs⟩

theorem IsClosed.addPolygon (hr : r.IsClosed) (hp : p.IsClosed) : (r.addPolygon p).2.IsClosed :=
  List.forall_mem_append.2 ⟨hr, List.forall_mem_singleton.2 hp⟩

theorem IsClosed.set (hr : r.IsClosed) (hp : p.IsClosed) (i : Nat) :
    (⟨r.polygons.set i p⟩ : Region).IsClosed := forall_mem_set hr hp i

theorem IsClosed.polygonAt (hr : r.IsClosed) (h : r.polygonAt i = .ok p) : p.IsClosed :=
  hr p (List.mem_of_getElem? (polygonAt_eq_ok_iff.1 h))

/-- Putting a closed hole into a polygon keeps the region closed. -/
theorem IsClosed.insertHole (hr : r.IsClosed) (hc : c.closed = true)
    (h : r.insertHole outline c = .ok (i, s)) : s.IsClosed := by
  simp only [Region.insertHole, bind_eq_ok_iff] at h
  obtain ⟨k, -, p, hp, heq⟩ := h
  obtain ⟨-, rfl⟩ := Prod.mk.inj (Except.ok.inj heq)
  exact hr.set ((hr.polygonAt hp).addHole hc) k

/-- Changing one contour keeps the region closed, if the change leaves contours open or closed. -/
theorem IsClosed.modifyContour (hr : r.IsClosed) {hole : Option Nat} {f : Contour → Contour}
    (hf : ∀ c, (f c).closed = c.closed) (h : r.modifyContour outline hole f = .ok s) :
    s.IsClosed := by
  cases hole with
  | none =>
    simp only [Region.modifyContour, bind_eq_ok_iff] at h
    obtain ⟨k, -, p, hp, q, hq, heq⟩ := h
    obtain rfl := Except.ok.inj heq
    obtain ⟨houtline, hholes⟩ := Polygon.isClosed_iff.1 (hr.polygonAt hp)
    exact hr.set (Except.ok.inj hq ▸ Polygon.isClosed_iff.2 ⟨(hf _).trans houtline, hholes⟩) k
  | some index =>
    simp only [Region.modifyContour, bind_eq_ok_iff] at h
    obtain ⟨k, -, p, hp, c, hc, q, hq, heq⟩ := h
    obtain rfl := Except.ok.inj heq
    have hp := hr.polygonAt hp
    exact hr.set (hp.setHole ((hf c).trans (hp.hole hc)) hq) k

/-- Moving a vertex keeps the region closed. -/
theorem IsClosed.setVertex (hr : r.IsClosed) {a : VertexAddress} {q : Point}
    (h : r.setVertex a q = .ok s) : s.IsClosed := by
  simp only [Region.setVertex, bind_eq_ok_iff] at h
  obtain ⟨p, hp, c, hc, d, hd, p', hp', heq⟩ := h
  obtain rfl := Except.ok.inj heq
  have hp := hr.polygonAt hp
  exact hr.set (hp.setContour ((Contour.closed_of_setPoint hd).trans (hp.contour hc)) hp') _

theorem IsClosed.mapContours (hr : r.IsClosed) {f : Contour → Contour}
    (hf : ∀ c, (f c).closed = c.closed) :
    (⟨r.polygons.map fun p ↦ p.mapContours f⟩ : Region).IsClosed :=
  List.forall_mem_map.2 fun p hp ↦ (hr p hp).mapContours hf

theorem IsClosed.shift (hr : r.IsClosed) {d : Point} (h : r.shift d = .ok s) : s.IsClosed :=
  (shift_eq_ok_iff.1 h).1 ▸ hr.mapContours fun _ ↦ rfl

/-- What is made of a clipper's answer is closed, whatever the answer is. -/
theorem isClosed_ofAnswer (mode : ResultMode) (shapes : List Shape) :
    (ofAnswer mode shapes).IsClosed := by
  cases mode with
  | plain => exact fun p hp c hc ↦ ((isTidy_ofShapes shapes p hp).isTidy c hc).closed
  | simpleLoops => exact fun p hp c hc ↦ ((isCut_cutIntoLoops _).isSimple p hp c hc).closed

end Region

/-! ### Closed contours of a document -/

namespace Text

/-- What is denoted by a sequence is denoted item by item. -/
theorem IsSequence.exists_of_mem {α : Type} {P : List Word → α → Prop} {ws : List Word}
    {l : List α} {a : α} (h : IsSequence P ws l) (ha : a ∈ l) : ∃ vs, P vs a := by
  induction h with
  | nil => exact absurd ha List.not_mem_nil
  | cons hitem _ ih =>
    rcases List.mem_cons.1 ha with rfl | ha
    · exact ⟨_, hitem⟩
    · exact ih ha

/-- What a document denotes has closed contours only. -/
theorem IsDocument.isClosed {ws : List Word} {r : Region} (h : IsDocument ws r) : r.IsClosed := by
  intro p hp c hc
  obtain ⟨-, hpolygons⟩ := h
  obtain ⟨_, hpolygon⟩ := hpolygons.exists_of_mem hp
  obtain ⟨-, hcontours⟩ := hpolygon
  obtain ⟨_, hcontour⟩ := hcontours.exists_of_mem hc
  cases hcontour
  rfl

end Text

namespace Region

variable {r s : Region} {p : Polygon} {q : Point}

/-! ### Operations one after another -/

/-- One operation on the first region makes the second one of it. Where an operation fails, there is
no second region. -/
inductive Edit : Region → Region → Prop
  | startPolygon {r : Region} : Edit r r.startPolygon.2
  | startHole {r s : Region} {outline : Int} {index : Nat} :
      r.startHole outline = .ok (index, s) → Edit r s
  | addOutline {r s : Region} {c : Contour} {index : Nat} :
      r.addOutline c = .ok (index, s) → Edit r s
  | addHole {r s : Region} {c : Contour} {outline : Int} {index : Nat} :
      r.addHole c outline = .ok (index, s) → Edit r s
  | append {r s : Region} {p : Point} {outline : Int} {hole : Option Nat} {size : Nat} :
      r.append p outline hole = .ok (size, s) → Edit r s
  | appendRepeat {r s : Region} {p : Point} {outline : Int} {hole : Option Nat} {size : Nat} :
      r.appendRepeat p outline hole = .ok (size, s) → Edit r s
  | setVertex {r s : Region} {a : VertexAddress} {q : Point} : r.setVertex a q = .ok s → Edit r s
  | shift {r s : Region} {d : Point} : r.shift d = .ok s → Edit r s
  | erasePolygon {r s : Region} {index : Nat} : r.erasePolygon index = .ok s → Edit r s
  | clear {r : Region} : Edit r empty
  | dropNullEdges {r : Region} : Edit r r.dropNullEdges.2
  | read {r s : Region} {text : String} : Region.read text = .ok s → Edit r s
  /-- The holes of a polygon are joined to its outline. -/
  | joinHoles {r : Region} {index : Nat} {p : Polygon} : r.polygonAt index = .ok p →
      Edit r ⟨r.polygons.set index (.ofOutline (GridGeometry.joinHoles p.contours))⟩
  | combine {r s : Region} {clip : Clipper} {op : SetOperation} {mode : ResultMode} :
      Edit r (r.combine clip op s mode)
  | grow {r : Region} {clip : Clipper} {g : Grower} {distance : Int} {segments : Nat} :
      Edit r (g.grow clip r distance segments).1

/-- The regions that operations make of the empty region. One region can be added to another when
both are made in this way. -/
inductive Built : Region → Prop
  | empty : Built empty
  | edit {r s : Region} : Built r → r.Edit s → Built s
  | append {r s : Region} : Built r → Built s → Built (r ++ s)

/-- **Every operation keeps the contours closed.** -/
theorem Edit.isClosed (h : r.Edit s) (hr : r.IsClosed) : s.IsClosed := by
  cases h with
  | startPolygon => exact hr.addPolygon (Polygon.isClosed_ofOutline rfl)
  | startHole h => exact hr.insertHole rfl h
  | addOutline h =>
    obtain ⟨hc, h⟩ := ite_error_eq_ok_iff.1 h
    obtain ⟨-, rfl⟩ := Prod.mk.inj (Except.ok.inj h)
    exact hr.addPolygon (Polygon.isClosed_ofOutline hc)
  | addHole h =>
    obtain ⟨hc, h⟩ := ite_error_eq_ok_iff.1 h
    exact hr.insertHole hc h
  | append h =>
    simp only [Region.append, bind_eq_ok_iff] at h
    obtain ⟨t, ht, size, -, heq⟩ := h
    obtain ⟨-, rfl⟩ := Prod.mk.inj (Except.ok.inj heq)
    exact hr.modifyContour (fun c ↦ c.closed_append _) ht
  | appendRepeat h =>
    simp only [Region.appendRepeat, bind_eq_ok_iff] at h
    obtain ⟨t, ht, size, -, heq⟩ := h
    obtain ⟨-, rfl⟩ := Prod.mk.inj (Except.ok.inj heq)
    exact hr.modifyContour (fun c ↦ show (c.appendRepeat _).closed = c.closed from rfl) ht
  | setVertex h => exact hr.setVertex h
  | shift h => exact hr.shift h
  | erasePolygon h =>
    obtain ⟨-, h⟩ := ite_error_eq_ok_iff.1 h
    obtain rfl := Except.ok.inj h
    exact fun p hp ↦ hr p (List.mem_of_mem_eraseIdx hp)
  | clear => exact isClosed_empty
  | dropNullEdges => exact hr.mapContours fun _ ↦ rfl
  | read h =>
    obtain ⟨doc, -, hdoc⟩ := Text.ofWords_eq_ok_iff.1 h
    exact hdoc.isClosed
  | joinHoles h =>
    obtain ⟨houtline, -⟩ := Polygon.isClosed_iff.1 (hr.polygonAt h)
    exact hr.set (Polygon.isClosed_ofOutline (closed_joinHoles _ houtline)) _
  | combine => exact isClosed_ofAnswer _ _
  | grow => exact isClosed_ofAnswer _ _

/-- **Operations one after another keep the contours closed.** -/
theorem Built.isClosed (h : r.Built) : r.IsClosed := by
  induction h with
  | empty => exact isClosed_empty
  | edit _ he ih => exact he.isClosed ih
  | append _ _ ihr ihs => exact ihr.append ihs

/-! ### Every closed region is built -/

/-- A polygon is built of its outline and of one hole after another. -/
theorem built_ofPolygon (hp : p.IsClosed) : (ofPolygon p).Built := by
  obtain ⟨outline, holes⟩ := p
  induction holes using List.reverseRecOn with
  | nil =>
    have houtline : outline.closed = true := hp _ List.mem_cons_self
    exact .edit .empty (.addOutline (if_pos houtline))
  | append_singleton holes c ih =>
    obtain ⟨houtline, hholes⟩ := Polygon.isClosed_iff.1 hp
    obtain ⟨hholes, hc⟩ := List.forall_mem_append.1 hholes
    have hadd : (ofPolygon ⟨outline, holes⟩).addHole c 0 =
        .ok (holes.length, ofPolygon ⟨outline, holes ++ [c]⟩) := if_pos (hc c List.mem_cons_self)
    exact .edit (ih (Polygon.isClosed_iff.2 ⟨houtline, hholes⟩)) (.addHole hadd)

/-- **What can be built** are the regions of closed contours. -/
theorem built_iff_isClosed : r.Built ↔ r.IsClosed := by
  refine ⟨Built.isClosed, fun hr ↦ ?_⟩
  obtain ⟨polygons⟩ := r
  induction polygons with
  | nil => exact .empty
  | cons p polygons ih =>
    obtain ⟨hp, hpolygons⟩ := List.forall_mem_cons.1 hr
    exact (built_ofPolygon hp).append (ih hpolygons)

end Region

/-! ### Points on edges -/

/-- On a closed contour, the test for points on edges takes those of the cycle. -/
theorem Contour.touches_iff_of_closed {c : Contour} {q : Point} (hc : c.closed = true) :
    c.touches q = true ↔ ∃ e ∈ cycle c.points, e.contains q = true := by
  rw [touches_iff, exists_contains_cycle_iff, edges_of_closed hc]

namespace Region

variable {r : Region}

/-- **The two tests for points on edges agree** where all contours are closed. -/
theorem touches_iff_exists_contour (hr : r.IsClosed) (q : Point) :
    r.touches q = true ↔ ∃ p ∈ r.polygons, ∃ c ∈ p.contours, c.touches q = true := by
  simp only [touches_iff, edgeAt?_eq_some_iff]
  constructor
  · rintro ⟨a, e, ⟨p, c, hp, hc, he⟩, hq⟩
    have hp := List.mem_of_getElem? hp
    have hc := List.mem_of_getElem? hc
    exact ⟨p, hp, c, hc,
      (Contour.touches_iff_of_closed (hr p hp c hc)).2 ⟨e, List.mem_of_getElem? he, hq⟩⟩
  · rintro ⟨p, hp, c, hc, hq⟩
    obtain ⟨e, he, hq⟩ := (Contour.touches_iff_of_closed (hr p hp c hc)).1 hq
    obtain ⟨i, hi⟩ := List.mem_iff_getElem?.1 hp
    obtain ⟨k, hk⟩ := List.mem_iff_getElem?.1 hc
    obtain ⟨u, hu⟩ := List.mem_iff_getElem?.1 he
    exact ⟨⟨i, k, u⟩, e, ⟨p, c, hi, hk, hu⟩, hq⟩

/-- The region takes an open contour for closed, and the contour itself does not. -/
example : touches ⟨[.ofOutline ⟨[⟨0, 0⟩, ⟨4, 0⟩, ⟨4, 4⟩], false⟩]⟩ ⟨2, 2⟩ = true ∧
    Contour.touches ⟨[⟨0, 0⟩, ⟨4, 0⟩, ⟨4, 4⟩], false⟩ ⟨2, 2⟩ = false := ⟨by cbv, by decide⟩

/-- **What is true of every region that is built**, by whichever operations: each polygon has a
contour, all contours are closed, and a point is on an edge of the region exactly when it is on an
edge of one of the contours. -/
theorem Built.wellFormed (h : r.Built) :
    (∀ p ∈ r.polygons, p.contours ≠ [] ∧ ∀ c ∈ p.contours, c.closed = true) ∧
      ∀ q, r.touches q = true ↔ ∃ p ∈ r.polygons, ∃ c ∈ p.contours, c.touches q = true :=
  ⟨fun p hp ↦ ⟨List.cons_ne_nil _ _, h.isClosed p hp⟩, touches_iff_exists_contour h.isClosed⟩

/-- A triangle that is read from a text and given a hole of one vertex. -/
theorem Built.wellFormed_dot :
    Built ⟨[⟨.closedOf [⟨0, 0⟩, ⟨6, 0⟩, ⟨6, 6⟩], [.closedOf [⟨4, 2⟩]]⟩]⟩ ∧
      touches ⟨[⟨.closedOf [⟨0, 0⟩, ⟨6, 0⟩, ⟨6, 6⟩], [.closedOf [⟨4, 2⟩]]⟩]⟩ ⟨4, 2⟩ = true := by
  have hread : Region.read "polyset 1 poly 1 3 0 0 6 0 6 6" =
      .ok ⟨[.ofOutline (.closedOf [⟨0, 0⟩, ⟨6, 0⟩, ⟨6, 6⟩])]⟩ := by decide +kernel
  have hhole : startHole ⟨[.ofOutline (.closedOf [⟨0, 0⟩, ⟨6, 0⟩, ⟨6, 6⟩])]⟩ (-1) =
      .ok (0, ⟨[⟨.closedOf [⟨0, 0⟩, ⟨6, 0⟩, ⟨6, 6⟩], [.closedOf []]⟩]⟩) := by decide
  have happend : Region.append ⟨[⟨.closedOf [⟨0, 0⟩, ⟨6, 0⟩, ⟨6, 6⟩], [.closedOf []]⟩]⟩ ⟨4, 2⟩ 0
      (some 0) = .ok (1, ⟨[⟨.closedOf [⟨0, 0⟩, ⟨6, 0⟩, ⟨6, 6⟩], [.closedOf [⟨4, 2⟩]]⟩]⟩) := by
    decide
  have hbuilt := ((Built.empty.edit (.read hread)).edit (.startHole hhole)).edit (.append happend)
  exact ⟨hbuilt, (hbuilt.wellFormed.2 ⟨4, 2⟩).2
    ⟨_, List.mem_cons_self, _, List.mem_cons_of_mem _ List.mem_cons_self, rfl⟩⟩

end Region

end GridGeometry
