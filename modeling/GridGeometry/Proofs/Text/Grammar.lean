import GridGeometry.Proofs.Text.Numeral
import GridGeometry.Text.Reader

/-!
# The grammar of documents

A document is a sequence of words. `IsDocument` says which words denote which region: a keyword and
a count are followed by as many polygons, each of them a keyword, a count and as many contours, each
of those a count and as many pairs of coordinates.

A reader accepts a grammar when it takes exactly the words that the grammar allows off the front of
its input, whatever follows them (`Accepts`). Each reader of the library accepts its part of the
grammar, and so reading a text succeeds exactly when its words begin with a document
(`read_eq_ok_iff`). No sequence of words begins with two different documents, because a reader gives
one answer (`Accepts.unique`).
-/

namespace GridGeometry.Text

/-! ### Grammar -/

/-- The word is a numeral for a number of things. -/
def IsCount (w : Word) (n : Nat) : Prop := IsNumeral w n ∧ (n : Int) ≤ greatestCount

/-- The word is a numeral for a coordinate. -/
def IsCoordinate (w : Word) (n : Int) : Prop := IsNumeral w n ∧ Coordinate.InRange n

/-- The words denote the items of the list, one after the other. -/
inductive IsSequence {α : Type} (IsItem : List Word → α → Prop) : List Word → List α → Prop
  | nil : IsSequence IsItem [] []
  | cons {ws vs : List Word} {a : α} {l : List α} :
      IsItem ws a → IsSequence IsItem vs l → IsSequence IsItem (ws ++ vs) (a :: l)

/-- The words denote the point: its two coordinates. -/
inductive IsVertex : List Word → Point → Prop
  | intro {u v : Word} {p : Point} :
      IsCoordinate u p.x → IsCoordinate v p.y → IsVertex [u, v] p

/-- The words denote the contour, which is closed: the number of its vertices and the vertices. -/
inductive IsContour : List Word → Contour → Prop
  | intro {w : Word} {ws : List Word} {points : List Point} :
      IsCount w points.length → IsSequence IsVertex ws points →
        IsContour (w :: ws) (.closedOf points)

/-- The words denote the polygon: a keyword, the number of its contours and the contours. -/
inductive IsPolygon : List Word → Polygon → Prop
  | intro {w : Word} {ws : List Word} {p : Polygon} :
      IsCount w p.contours.length → IsSequence IsContour ws p.contours →
        IsPolygon ("poly".toList :: w :: ws) p

/-- The words denote the region: a keyword, the number of its polygons and the polygons. -/
inductive IsDocument : List Word → Region → Prop
  | intro {w : Word} {ws : List Word} {r : Region} :
      IsCount w r.polygons.length → IsSequence IsPolygon ws r.polygons →
        IsDocument ("polyset".toList :: w :: ws) r

/-! ### Readers -/

/-- The reader takes exactly the words of the grammar off its input and gives what they denote. -/
def Accepts {α : Type} (m : Reader α) (P : List Word → α → Prop) : Prop :=
  ∀ input a rest, m input = .ok (a, rest) ↔ ∃ ws, input = ws ++ rest ∧ P ws a

section Combinators

variable {α β : Type} {m : Reader α} {f : α → Reader β} {P Q : List Word → α → Prop}
  {R : α → List Word → β → Prop}

/-- Of two readers one after the other, the second takes words of what the first left over. -/
theorem bind_eq_ok_iff {input rest : List Word} {b : β} : (m >>= f) input = .ok (b, rest) ↔
    ∃ a mid, m input = .ok (a, mid) ∧ f a mid = .ok (b, rest) := by
  show (m input >>= fun x ↦ f x.1 x.2) = _ ↔ _
  rcases m input with e | ⟨a, mid⟩
  · simp [bind, Except.bind]
  · simp [bind, Except.bind]

theorem Accepts.congr (h : Accepts m P) (hPQ : ∀ ws a, P ws a ↔ Q ws a) : Accepts m Q := by
  intro input a rest
  rw [h input a rest]
  exact exists_congr fun ws ↦ and_congr_right fun _ ↦ hPQ ws a

/-- Two readers one after the other take the words of the first and then those of the second. -/
theorem Accepts.bind (hm : Accepts m P) (hf : ∀ a, Accepts (f a) (R a)) :
    Accepts (m >>= f) fun ws b ↦ ∃ a us vs, ws = us ++ vs ∧ P us a ∧ R a vs b := by
  intro input b rest
  rw [bind_eq_ok_iff]
  constructor
  · rintro ⟨a, mid, ha, hb⟩
    obtain ⟨us, rfl, hus⟩ := (hm _ _ _).1 ha
    obtain ⟨vs, rfl, hvs⟩ := (hf a _ _ _).1 hb
    exact ⟨us ++ vs, (List.append_assoc us vs rest).symm, a, us, vs, rfl, hus, hvs⟩
  · rintro ⟨ws, rfl, a, us, vs, rfl, hus, hvs⟩
    exact ⟨a, vs ++ rest, (hm _ _ _).2 ⟨us, List.append_assoc us vs rest, hus⟩,
      (hf a _ _ _).2 ⟨vs, rfl, hvs⟩⟩

/-- A result without reading takes no words. -/
theorem accepts_pure (a : α) : Accepts (pure a) fun ws b ↦ ws = [] ∧ b = a := by
  intro input b rest
  show Except.ok (a, input) = Except.ok (b, rest) ↔ _
  rw [Except.ok.injEq, Prod.mk.injEq]
  constructor
  · rintro ⟨rfl, rfl⟩
    exact ⟨[], rfl, rfl, rfl⟩
  · rintro ⟨ws, rfl, rfl, rfl⟩
    exact ⟨rfl, rfl⟩

theorem accepts_throw (e : ReadError) : Accepts (throw e : Reader α) fun _ _ ↦ False := by
  intro input b rest
  show Except.error e = Except.ok (b, rest) ↔ _
  simp

/-- A test of what a reader gave takes no words. -/
theorem Accepts.check {T : α → β → Prop} (hm : Accepts m P)
    (hf : ∀ a, Accepts (f a) fun vs b ↦ vs = [] ∧ T a b) :
    Accepts (m >>= f) fun ws b ↦ ∃ a, P ws a ∧ T a b := by
  refine (hm.bind hf).congr fun ws b ↦ ⟨?_, ?_⟩
  · rintro ⟨a, us, vs, rfl, hus, rfl, hT⟩
    exact ⟨a, by rwa [List.append_nil], hT⟩
  · rintro ⟨a, hws, hT⟩
    exact ⟨a, ws, [], (List.append_nil ws).symm, hws, rfl, hT⟩

/-- **No input begins with two different word sequences that a reader accepts.** -/
theorem Accepts.unique (h : Accepts m P) {ws vs rest rest' : List Word} {a b : α}
    (ha : P ws a) (hb : P vs b) (heq : ws ++ rest = vs ++ rest') : ws = vs ∧ a = b := by
  have hws := (h _ a rest).2 ⟨ws, rfl, ha⟩
  have hvs := (h _ b rest').2 ⟨vs, heq, hb⟩
  obtain ⟨rfl, rfl⟩ := Prod.mk.inj (Except.ok.inj (hws.symm.trans hvs))
  exact ⟨List.append_cancel_right heq, rfl⟩

end Combinators

/-- The next word is taken, whatever it is. -/
theorem accepts_next (expected : Expected) : Accepts (next expected) fun ws w ↦ ws = [w] := by
  rintro (- | ⟨v, input⟩) w rest
  · simp [next]
  · simp [next, eq_comm]

theorem accepts_keyword (k : Keyword) :
    Accepts (keyword k) fun ws _ ↦ ws = [k.spelling.toList] := by
  have htest : ∀ w, Accepts (if w = k.spelling.toList then return () else throw (.wrongKeyword k w))
      fun vs _ ↦ vs = [] ∧ w = k.spelling.toList := by
    intro w
    split
    case isTrue h => exact (accepts_pure ()).congr fun ws _ ↦ by simp [h]
    case isFalse h => exact (accepts_throw _).congr fun ws _ ↦ by simp [h]
  exact ((accepts_next _).check htest).congr fun ws _ ↦ by simp

/-- A number is a numeral between the bounds. -/
theorem accepts_number (expected : Expected) (least greatest : Int) :
    Accepts (number expected least greatest) fun ws n ↦
      ∃ w, ws = [w] ∧ IsNumeral w n ∧ least ≤ n ∧ n ≤ greatest := by
  refine (accepts_next expected).check fun w ↦ ?_
  split
  case h_1 n hn =>
    refine (accepts_pure n).congr fun vs m ↦ and_congr_right fun _ ↦ ?_
    rw [← readWithin?_eq_some_iff, hn, Option.some.injEq, eq_comm]
  case h_2 hn =>
    refine (accepts_throw _).congr fun vs m ↦ ?_
    simp [← readWithin?_eq_some_iff, hn]

theorem accepts_coordinate (a : Axis) :
    Accepts (coordinate a) fun ws n ↦ ∃ w, ws = [w] ∧ IsCoordinate w n :=
  accepts_number _ _ _

/-- A count is a numeral for a natural number. -/
theorem accepts_count (c : Counted) :
    Accepts (count c) fun ws n ↦ ∃ w, ws = [w] ∧ IsCount w n := by
  have htest : ∀ n : Int, Accepts (if n < 0 then throw (.negativeCount c n) else return n.toNat)
      fun vs k ↦ vs = [] ∧ n = k := by
    intro n
    split
    case isTrue h => exact (accepts_throw _).congr fun vs k ↦ by simp; omega
    case isFalse h => exact (accepts_pure n.toNat).congr fun vs k ↦ by simp; omega
  refine ((accepts_number _ _ _).check htest).congr fun ws k ↦ ⟨?_, ?_⟩
  · rintro ⟨n, ⟨w, hws, hw, -, hle⟩, rfl⟩
    exact ⟨w, hws, hw, hle⟩
  · rintro ⟨w, hws, hw, hle⟩
    exact ⟨k, ⟨w, hws, hw, by unfold leastCount; omega, hle⟩, rfl⟩

/-- As many items as asked for, the first of which has the given index. -/
theorem accepts_items {α : Type} {item : Nat → Reader α} {P : List Word → α → Prop}
    (h : ∀ i, Accepts (item i) P) (index n : Nat) :
    Accepts (items item index n) fun ws l ↦ l.length = n ∧ IsSequence P ws l := by
  induction n generalizing index with
  | zero =>
    refine (accepts_pure []).congr fun ws l ↦ ⟨?_, ?_⟩
    · rintro ⟨rfl, rfl⟩
      exact ⟨rfl, .nil⟩
    · rintro ⟨hl, hws⟩
      obtain rfl := List.eq_nil_of_length_eq_zero hl
      cases hws
      exact ⟨rfl, rfl⟩
  | succ n ih =>
    refine ((h index).bind fun a ↦ (ih (index + 1)).check fun l ↦ accepts_pure (a :: l)).congr
      fun ws l ↦ ⟨?_, ?_⟩
    · rintro ⟨a, us, vs, rfl, ha, l, ⟨rfl, hl⟩, rfl⟩
      exact ⟨rfl, .cons ha hl⟩
    · rintro ⟨hlength, hws⟩
      cases hws with
      | nil => cases hlength
      | cons ha hl => exact ⟨_, _, _, rfl, ha, _, ⟨Nat.succ.inj hlength, hl⟩, rfl⟩

theorem accepts_vertex : Accepts vertex IsVertex := by
  refine ((accepts_coordinate .x).bind fun x ↦ (accepts_coordinate .y).check fun y ↦
    accepts_pure (Point.mk x y)).congr fun ws p ↦ ⟨?_, ?_⟩
  · rintro ⟨x, us, vs, rfl, ⟨u, rfl, hu⟩, y, ⟨v, rfl, hv⟩, rfl⟩
    exact .intro hu hv
  · rintro ⟨hu, hv⟩
    exact ⟨_, [_], [_], rfl, ⟨_, rfl, hu⟩, _, ⟨_, rfl, hv⟩, rfl⟩

theorem accepts_contour : Accepts contour IsContour := by
  refine ((accepts_count .vertices).bind fun n ↦ (accepts_items (fun _ ↦ accepts_vertex) 0 n).check
    fun points ↦ accepts_pure (Contour.closedOf points)).congr fun ws c ↦ ⟨?_, ?_⟩
  · rintro ⟨n, us, vs, rfl, ⟨w, rfl, hw⟩, points, ⟨rfl, hpoints⟩, rfl⟩
    exact .intro hw hpoints
  · rintro ⟨hw, hpoints⟩
    exact ⟨_, [_], _, rfl, ⟨_, rfl, hw⟩, _, ⟨rfl, hpoints⟩, rfl⟩

/-- The contours of a polygon, at least one of which is there: the outline. -/
theorem accepts_contours (index n : Nat) :
    Accepts (match n with
      | 0 => throw (.noContours index)
      | n + 1 => do
        let outline ← contour
        let holes ← items (fun _ ↦ contour) 1 n
        return (⟨outline, holes⟩ : Polygon))
      fun ws p ↦ p.contours.length = n ∧ IsSequence IsContour ws p.contours := by
  cases n with
  | zero => exact (accepts_throw _).congr fun ws p ↦ by simp [Polygon.contours]
  | succ n =>
    refine (accepts_contour.bind fun outline ↦ (accepts_items (fun _ ↦ accepts_contour) 1 n).check
      fun holes ↦ accepts_pure (Polygon.mk outline holes)).congr fun ws p ↦ ⟨?_, ?_⟩
    · rintro ⟨outline, us, vs, rfl, houtline, holes, ⟨rfl, hholes⟩, rfl⟩
      exact ⟨rfl, .cons houtline hholes⟩
    · rintro ⟨hlength, hcontours⟩
      obtain ⟨outline, holes⟩ := p
      cases hcontours with
      | cons houtline hholes =>
        exact ⟨_, _, _, rfl, houtline, _, ⟨Nat.succ.inj hlength, hholes⟩, rfl⟩

theorem accepts_polygon (index : Nat) : Accepts (polygon index) IsPolygon := by
  refine ((accepts_keyword .polygon).bind fun _ ↦ (accepts_count .contours).bind fun n ↦
    accepts_contours index n).congr fun ws p ↦ ⟨?_, ?_⟩
  · rintro ⟨-, us, vs, rfl, rfl, n, us', vs', rfl, ⟨w, rfl, hw⟩, rfl, hcontours⟩
    exact .intro hw hcontours
  · rintro ⟨hw, hcontours⟩
    exact ⟨(), [_], _, rfl, rfl, _, [_], _, rfl, ⟨_, rfl, hw⟩, rfl, hcontours⟩

/-- **The reader of regions accepts the documents.** -/
theorem accepts_region : Accepts region IsDocument := by
  refine ((accepts_keyword .region).bind fun _ ↦ (accepts_count .polygons).bind fun n ↦
    (accepts_items accepts_polygon 0 n).check fun polygons ↦
      accepts_pure (Region.mk polygons)).congr fun ws r ↦ ⟨?_, ?_⟩
  · rintro ⟨-, us, vs, rfl, rfl, n, us', vs', rfl, ⟨w, rfl, hw⟩, polygons, ⟨rfl, hpolygons⟩, rfl⟩
    exact .intro hw hpolygons
  · rintro ⟨hw, hpolygons⟩
    exact ⟨(), [_], _, rfl, rfl, _, [_], _, rfl, ⟨_, rfl, hw⟩, _, ⟨rfl, hpolygons⟩, rfl⟩

/-- The region of some words is that of the document with which they begin. -/
theorem ofWords_eq_ok_iff {input : List Word} {r : Region} :
    Region.ofWords input = .ok r ↔ ∃ doc, doc <+: input ∧ IsDocument doc r := by
  have hmap : Region.ofWords input = .ok r ↔ ∃ rest, region input = .ok (r, rest) := by
    rw [Region.ofWords]
    rcases region input with e | ⟨s, rest⟩
    · simp [Except.map]
    · simp [Except.map]
  rw [hmap]
  constructor
  · rintro ⟨rest, h⟩
    obtain ⟨doc, rfl, hdoc⟩ := (accepts_region _ _ _).1 h
    exact ⟨doc, List.prefix_append _ _, hdoc⟩
  · rintro ⟨doc, ⟨rest, rfl⟩, hdoc⟩
    exact ⟨rest, (accepts_region _ _ _).2 ⟨doc, rfl, hdoc⟩⟩

end GridGeometry.Text

namespace GridGeometry

open Text

/-- **Reading succeeds exactly on documents.** A text is read as a region exactly when its words,
which are the pieces between its blanks without the empty ones, begin with a document that denotes
the region; and they begin with one document at most, which denotes one region. -/
theorem Region.read_eq_ok_iff (text : String) :
    (∀ r, Region.read text = .ok r ↔
      ∃ doc, doc <+: (text.toList.splitOnP isBlank).filter (· ≠ []) ∧ IsDocument doc r) ∧
    ∀ doc doc' r r', doc <+: (text.toList.splitOnP isBlank).filter (· ≠ []) → IsDocument doc r →
      doc' <+: (text.toList.splitOnP isBlank).filter (· ≠ []) → IsDocument doc' r' →
        doc = doc' ∧ r = r' := by
  rw [← words_eq]
  refine ⟨fun r ↦ ofWords_eq_ok_iff, ?_⟩
  rintro doc doc' r r' ⟨rest, hrest⟩ hdoc ⟨rest', hrest'⟩ hdoc'
  exact accepts_region.unique hdoc hdoc' (hrest.trans hrest'.symm)

end GridGeometry
