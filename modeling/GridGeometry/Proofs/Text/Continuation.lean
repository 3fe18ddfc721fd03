import GridGeometry.Proofs.Text.RoundTrip
import Mathlib.Data.List.Basic

/-!
# Reading a text that goes on

A reader takes words from the front, so what it has accepted or refused stays as it is when more
words follow; only the refusal that the words ended is open. `Incremental` says this of a reader,
and that an open refusal can still turn into success: some words that follow complete what was
begun.

The readers of the library are incremental, one after the other from a single word up to a region.
Where blanks stand between a text and what follows it, the words of the two are put together
(`words_append_gap`), and so the same holds of texts (`Region.read_continued`).
-/

namespace GridGeometry

/-- The refusal says that the words ended. -/
def ReadError.IsEnd (e : ReadError) : Prop := ∃ expected, e = .endOfText expected

namespace Text

variable {α β : Type} {m : Reader α} {f : α → Reader β} {Q : α → Prop} {R : β → Prop}

/-! ### Incremental readers -/

/-- The reader judges words as they come. What it took from some words it takes from longer ones,
and what it refused it refuses again, unless the words ended. If they did, some words that follow
make it succeed and leave nothing over, and its result can be brought to have the property `Q`. -/
structure Incremental (m : Reader α) (Q : α → Prop) : Prop where
  ok_append {input rest : List Word} {a : α} (h : m input = .ok (a, rest)) (more : List Word) :
    m (input ++ more) = .ok (a, rest ++ more)
  error_append {input : List Word} {e : ReadError} (h : m input = .error e) (he : ¬ e.IsEnd)
    (more : List Word) : m (input ++ more) = .error e
  exists_more {input : List Word} {e : ReadError} (h : m input = .error e) (he : e.IsEnd) :
    ∃ more a, m (input ++ more) = .ok (a, []) ∧ Q a

/-- Of two readers one after the other, the first refuses or the second does. -/
theorem bind_eq_error_iff {input : List Word} {e : ReadError} : (m >>= f) input = .error e ↔
    m input = .error e ∨ ∃ a mid, m input = .ok (a, mid) ∧ f a mid = .error e := by
  show (m input >>= fun x ↦ f x.1 x.2) = _ ↔ _
  rcases m input with e | ⟨a, mid⟩
  · simp [bind, Except.bind]
  · simp [bind, Except.bind]

theorem incremental_pure (a : α) : Incremental (pure a) Q where
  ok_append h more := by
    obtain ⟨rfl, rfl⟩ := Prod.mk.inj (Except.ok.inj h)
    rfl
  error_append h := nomatch h
  exists_more h := nomatch h

theorem incremental_throw {e : ReadError} (he : ¬ e.IsEnd) :
    Incremental (throw e : Reader α) Q where
  ok_append h := nomatch h
  error_append h _ _ := h
  exists_more h hend := absurd (Except.error.inj h ▸ hend) he

/-- Two readers one after the other are incremental if the second one can start from nothing on each
result that the first one may be brought to. -/
theorem Incremental.bind (hm : Incremental m Q) (hf : ∀ a, Incremental (f a) R)
    (hstart : ∀ a, Q a → ∃ ws b, f a ws = .ok (b, []) ∧ R b) : Incremental (m >>= f) R where
  ok_append h more := by
    obtain ⟨a, mid, ha, hb⟩ := bind_eq_ok_iff.1 h
    exact bind_eq_ok_iff.2 ⟨a, mid ++ more, hm.ok_append ha more, (hf a).ok_append hb more⟩
  error_append h he more := by
    rcases bind_eq_error_iff.1 h with h | ⟨a, mid, ha, hb⟩
    · exact bind_eq_error_iff.2 (.inl (hm.error_append h he more))
    · exact bind_eq_error_iff.2
        (.inr ⟨a, mid ++ more, hm.ok_append ha more, (hf a).error_append hb he more⟩)
  exists_more h he := by
    rcases bind_eq_error_iff.1 h with h | ⟨a, mid, ha, hb⟩
    · obtain ⟨more, a, ha, hQ⟩ := hm.exists_more h he
      obtain ⟨ws, b, hb, hR⟩ := hstart a hQ
      have hboth := hm.ok_append ha ws
      rw [List.append_assoc, List.nil_append] at hboth
      exact ⟨more ++ ws, b, bind_eq_ok_iff.2 ⟨a, ws, hboth, hb⟩, hR⟩
    · obtain ⟨more, b, hb, hR⟩ := (hf a).exists_more hb he
      exact ⟨more, b, bind_eq_ok_iff.2 ⟨a, mid ++ more, hm.ok_append ha more, hb⟩, hR⟩

/-- What is made of a result without reading on may be anything. -/
theorem Incremental.map (h : Incremental m Q) (g : α → β) :
    Incremental (do return g (← m)) fun _ ↦ True :=
  h.bind (fun a ↦ incremental_pure (g a)) fun a _ ↦ ⟨[], g a, rfl, trivial⟩

/-- The reader does not succeed without a word. -/
def NeedsWord (m : Reader α) : Prop := ∃ e, m [] = .error e ∧ e.IsEnd

theorem NeedsWord.bind (h : NeedsWord m) : NeedsWord (m >>= f) := by
  obtain ⟨e, h, he⟩ := h
  exact ⟨e, bind_eq_error_iff.2 (.inl h), he⟩

theorem needsWord_next (expected : Expected) : NeedsWord (next expected) :=
  ⟨.endOfText expected, rfl, expected, rfl⟩

/-- A reader that needs a word can start from nothing: there are words on which it succeeds. -/
theorem NeedsWord.exists_words (h : NeedsWord m) (hm : Incremental m Q) :
    ∃ ws a, m ws = .ok (a, []) ∧ Q a := by
  obtain ⟨e, h, he⟩ := h
  exact hm.exists_more h he

/-! ### Words and numbers -/

/-- A word that is missing can be any word. -/
theorem incremental_next (expected : Expected) (w : Word) :
    Incremental (next expected) (· = w) where
  ok_append {input rest a} h more := by
    cases input with
    | nil => cases h
    | cons v input =>
      obtain ⟨rfl, rfl⟩ := Prod.mk.inj (Except.ok.inj h)
      rfl
  error_append {input e} h he := by
    cases input with
    | nil => exact absurd ⟨expected, (Except.error.inj h).symm⟩ he
    | cons v input => cases h
  exists_more {input _} h _ := by
    cases input with
    | nil => exact ⟨[w], w, rfl, rfl⟩
    | cons v input => cases h

/-- A keyword that is missing can follow. -/
theorem incremental_keyword (k : Keyword) : Incremental (keyword k) fun _ ↦ True := by
  refine (incremental_next _ k.spelling.toList).bind (fun w ↦ ?_) ?_
  · split
    case isTrue => exact incremental_pure ()
    case isFalse => exact incremental_throw (by rintro ⟨_, ⟨⟩⟩)
  · rintro _ rfl
    exact ⟨[], (), if_pos rfl ▸ rfl, trivial⟩

/-- A number that is missing can be any number between the bounds. -/
theorem incremental_number (expected : Expected) {least greatest n : Int} (hleast : least ≤ n)
    (hgreatest : n ≤ greatest) : Incremental (number expected least greatest) (· = n) := by
  have hread : readWithin? least greatest (toString n).toList = some n :=
    readWithin?_eq_some_iff.2 ⟨isNumeral_toString n, hleast, hgreatest⟩
  refine (incremental_next _ (toString n).toList).bind (fun w ↦ ?_) ?_
  · split
    case h_1 => exact incremental_pure _
    case h_2 => exact incremental_throw (by rintro ⟨_, ⟨⟩⟩)
  · rintro _ rfl
    rw [hread]
    exact ⟨[], n, rfl, rfl⟩

/-- A coordinate that is missing can be zero. -/
theorem incremental_coordinate (a : Axis) : Incremental (coordinate a) (· = 0) :=
  incremental_number _ (by decide) (by decide)

/-- A count that is missing can be any number that is not too great. -/
theorem incremental_count (c : Counted) {n : Nat} (hn : (n : Int) ≤ greatestCount) :
    Incremental (count c) (· = n) := by
  have hleast : leastCount ≤ n := by
    unfold leastCount
    omega
  refine (incremental_number _ hleast hn).bind (fun k ↦ ?_) ?_
  · split
    case isTrue => exact incremental_throw (by rintro ⟨_, ⟨⟩⟩)
    case isFalse => exact incremental_pure _
  · rintro _ rfl
    rw [if_neg (by omega)]
    exact ⟨[], n, rfl, rfl⟩

theorem needsWord_keyword (k : Keyword) : NeedsWord (keyword k) := (needsWord_next _).bind

theorem needsWord_coordinate (a : Axis) : NeedsWord (coordinate a) := (needsWord_next _).bind

theorem needsWord_count (c : Counted) : NeedsWord (count c) := (needsWord_next _).bind.bind

/-! ### From vertices to regions -/

section Items

variable {item : Nat → Reader α}

/-- There are words for any number of items. -/
theorem exists_items (hneeds : ∀ i, NeedsWord (item i)) {index n : Nat}
    (h : Incremental (items item index n) fun _ ↦ True) :
    ∃ ws l, items item index n ws = .ok (l, []) ∧ True := by
  cases n with
  | zero => exact ⟨[], [], rfl, trivial⟩
  | succ n => exact (hneeds index).bind.exists_words h

/-- However many items are still to come, words for them can follow. -/
theorem incremental_items (h : ∀ i, Incremental (item i) Q) (hneeds : ∀ i, NeedsWord (item i))
    (index n : Nat) : Incremental (items item index n) fun _ ↦ True := by
  induction n generalizing index with
  | zero => exact incremental_pure []
  | succ n ih =>
    refine (h index).bind (fun a ↦ (ih (index + 1)).map (a :: ·)) fun a _ ↦ ?_
    obtain ⟨ws, l, hl, -⟩ := exists_items hneeds (ih (index + 1))
    exact ⟨ws, a :: l, bind_eq_ok_iff.2 ⟨l, [], hl, rfl⟩, trivial⟩

end Items

/-- Of a vertex, both coordinates or one of them can follow. -/
theorem incremental_vertex : Incremental vertex fun _ ↦ True :=
  have hy : ∀ x, Incremental (do return Point.mk x (← coordinate .y)) fun _ ↦ True := fun x ↦
    (incremental_coordinate .y).map (Point.mk x)
  (incremental_coordinate .x).bind hy fun x _ ↦ (needsWord_coordinate .y).bind.exists_words (hy x)

theorem needsWord_vertex : NeedsWord vertex := (needsWord_coordinate .x).bind

/-- A contour whose number of vertices is missing can be without any. -/
theorem incremental_contour : Incremental contour fun _ ↦ True := by
  refine (incremental_count (n := 0) .vertices (by decide)).bind (fun n ↦
    (incremental_items (fun _ ↦ incremental_vertex) (fun _ ↦ needsWord_vertex) 0 n).map _) ?_
  rintro _ rfl
  exact ⟨[], .closedOf [], rfl, trivial⟩

theorem needsWord_contour : NeedsWord contour := (needsWord_count .vertices).bind

theorem incremental_contours (n : Nat) :
    Incremental (items (fun _ ↦ contour) 1 n) fun _ ↦ True :=
  incremental_items (fun _ ↦ incremental_contour) (fun _ ↦ needsWord_contour) 1 n

/-- The contours of a polygon, for any number of them. -/
theorem incremental_polygonOf (index n : Nat) :
    Incremental (match n with
      | 0 => throw (.noContours index)
      | n + 1 => do
        let outline ← contour
        let holes ← items (fun _ ↦ contour) 1 n
        return (⟨outline, holes⟩ : Polygon)) fun _ ↦ True := by
  cases n with
  | zero => exact incremental_throw (by rintro ⟨_, ⟨⟩⟩)
  | succ n =>
    refine incremental_contour.bind (fun outline ↦ (incremental_contours n).map _) fun c _ ↦ ?_
    obtain ⟨ws, holes, hholes, -⟩ := exists_items (fun _ ↦ needsWord_contour)
      (incremental_contours n)
    exact ⟨ws, ⟨c, holes⟩, bind_eq_ok_iff.2 ⟨holes, [], hholes, rfl⟩, trivial⟩

/-- A polygon whose number of contours is missing can have one. -/
theorem incremental_polygon (index : Nat) : Incremental (polygon index) fun _ ↦ True := by
  have hone := needsWord_contour.bind.exists_words (incremental_polygonOf index 1)
  have hcounted := (incremental_count (n := 1) .contours (by decide)).bind
    (incremental_polygonOf index) (by rintro _ rfl; exact hone)
  exact (incremental_keyword .polygon).bind (fun _ ↦ hcounted) fun _ _ ↦
    (needsWord_count .contours).bind.exists_words hcounted

theorem needsWord_polygon (index : Nat) : NeedsWord (polygon index) :=
  (needsWord_keyword .polygon).bind

/-- **Reading a region is incremental.** -/
theorem incremental_region : Incremental region fun _ ↦ True := by
  have hcounted := (incremental_count (n := 0) .polygons (by decide)).bind (fun n ↦
    (incremental_items incremental_polygon needsWord_polygon 0 n).map Region.mk)
    (by rintro _ rfl; exact ⟨[], .empty, rfl, trivial⟩)
  exact (incremental_keyword .region).bind (fun _ ↦ hcounted) fun _ _ ↦
    (needsWord_count .polygons).bind.exists_words hcounted

/-! ### The words of a document -/

theorem IsSequence.isWord {P : List Word → α → Prop} {ws : List Word} {l : List α}
    (h : IsSequence P ws l) (hP : ∀ vs a, P vs a → ∀ w ∈ vs, IsWord w) : ∀ w ∈ ws, IsWord w := by
  induction h with
  | nil => exact fun w hw ↦ absurd hw List.not_mem_nil
  | cons ha _ ih => exact List.forall_mem_append.2 ⟨hP _ _ ha, ih⟩

theorem IsVertex.isWord {ws : List Word} {p : Point} (h : IsVertex ws p) : ∀ w ∈ ws, IsWord w := by
  obtain ⟨hx, hy⟩ := h
  simpa using ⟨hx.1.isWord, hy.1.isWord⟩

theorem IsContour.isWord {ws : List Word} {c : Contour} (h : IsContour ws c) :
    ∀ w ∈ ws, IsWord w := by
  obtain ⟨hn, hpoints⟩ := h
  exact List.forall_mem_cons.2 ⟨hn.1.isWord, hpoints.isWord fun _ _ ↦ IsVertex.isWord⟩

theorem IsPolygon.isWord {ws : List Word} {p : Polygon} (h : IsPolygon ws p) :
    ∀ w ∈ ws, IsWord w := by
  obtain ⟨hn, hcontours⟩ := h
  exact List.forall_mem_cons.2 ⟨isWord_spelling .polygon, List.forall_mem_cons.2
    ⟨hn.1.isWord, hcontours.isWord fun _ _ ↦ IsContour.isWord⟩⟩

/-- A document consists of words. -/
theorem IsDocument.isWord {ws : List Word} {r : Region} (h : IsDocument ws r) :
    ∀ w ∈ ws, IsWord w := by
  obtain ⟨hn, hpolygons⟩ := h
  exact List.forall_mem_cons.2 ⟨isWord_spelling .region, List.forall_mem_cons.2
    ⟨hn.1.isWord, hpolygons.isWord fun _ _ ↦ IsPolygon.isWord⟩⟩

/-- Every sequence of words is that of a text. -/
theorem exists_words_eq {ws : List Word} (h : ∀ w ∈ ws, IsWord w) : ∃ text, words text = ws := by
  have hline : ∀ w ∈ ws, words (String.ofList w) = [w] := fun w hw ↦ by
    rw [words, String.toList_ofList, (h w hw).wordsFrom_eq]
  refine ⟨String.join ((ws.map String.ofList).map (· ++ "\n")) ++ "", ?_⟩
  rw [words_join, List.flatMap_map, List.flatMap_congr hline, List.flatMap_singleton', words]
  exact List.append_nil ws

/-! ### Texts -/

/-- At least one character, and all of them blank. -/
structure IsGap (gap : String) : Prop where
  ne_empty : gap ≠ ""
  isBlank_eq_true : ∀ c ∈ gap.toList, isBlank c = true

/-- Blanks before a text make no words. -/
theorem wordsFrom_append_of_blank {gap : List Char} (h : ∀ c ∈ gap, isBlank c = true)
    (cs : List Char) : wordsFrom [] (gap ++ cs) = wordsFrom [] cs := by
  induction gap with
  | nil => rfl
  | cons b gap ih =>
    obtain ⟨hb, hgap⟩ := List.forall_mem_cons.1 h
    rw [List.cons_append, wordsFrom, if_pos hb, ih hgap]
    rfl

/-- **A gap keeps the words apart** that stand on its two sides. -/
theorem words_append_gap {gap : String} (h : IsGap gap) (text more : String) :
    words (text ++ gap ++ more) = words text ++ words more := by
  obtain ⟨b, bs, hgap⟩ := List.exists_cons_of_ne_nil (mt String.toList_eq_nil_iff.1 h.ne_empty)
  obtain ⟨hb, hbs⟩ := List.forall_mem_cons.1 (hgap ▸ h.isBlank_eq_true)
  rw [words, String.toList_append, String.toList_append, hgap, List.append_assoc,
    List.cons_append, wordsFrom_append_cons hb, wordsFrom_append_of_blank hbs]
  rfl

end Text

namespace Region

open Text

theorem ofWords_eq_error_iff {input : List Word} {e : ReadError} :
    ofWords input = .error e ↔ region input = .error e := by
  rw [ofWords]
  cases region input <;> simp [Except.map]

/-- **What was read of a text stays**, whatever follows it behind a gap: a region that was read is
read again, and a refusal other than that the words ended is repeated. If the words ended, some text
that follows makes the whole one a document. -/
theorem read_continued (text : String) {gap : String} (hgap : IsGap gap) :
    (∀ r, read text = .ok r → ∀ more, read (text ++ gap ++ more) = .ok r) ∧
      (∀ e, read text = .error e → ¬ e.IsEnd → ∀ more, read (text ++ gap ++ more) = .error e) ∧
      ∀ e, read text = .error e → e.IsEnd → ∃ more r, read (text ++ gap ++ more) = .ok r := by
  have hwords : ∀ more, read (text ++ gap ++ more) = ofWords (words text ++ words more) :=
    fun more ↦ congrArg ofWords (words_append_gap hgap text more)
  refine ⟨fun r h more ↦ ?_, fun e h he more ↦ ?_, fun e h he ↦ ?_⟩
  · rw [hwords]
    obtain ⟨doc, hdoc, hr⟩ := ofWords_eq_ok_iff.1 h
    exact ofWords_eq_ok_iff.2 ⟨doc, hdoc.trans (List.prefix_append _ _), hr⟩
  · rw [hwords]
    exact ofWords_eq_error_iff.2
      (incremental_region.error_append (ofWords_eq_error_iff.1 h) he (words more))
  · obtain ⟨vs, r, hr, -⟩ := incremental_region.exists_more (ofWords_eq_error_iff.1 h) he
    obtain ⟨doc, hdoc, hdenotes⟩ := (accepts_region _ _ _).1 hr
    rw [List.append_nil] at hdoc
    have hvs : ∀ w ∈ vs, IsWord w := fun w hw ↦
      hdenotes.isWord w (hdoc ▸ List.mem_append_right _ hw)
    obtain ⟨more, hmore⟩ := exists_words_eq hvs
    refine ⟨more, r, ?_⟩
    rw [hwords, hmore, ofWords_eq_ok_iff]
    exact ⟨doc, hdoc ▸ List.prefix_refl _, hdenotes⟩

/-- A document that ends before a coordinate and one with a wrong keyword, each followed by a line
break and a blank. -/
theorem read_continued_line :
    IsGap "\n " ∧
      read "polyset 1 poly 1 1 -5" = .error (.endOfText (.coordinate .y)) ∧
      (∃ more r, read ("polyset 1 poly 1 1 -5" ++ "\n " ++ more) = .ok r) ∧
      read "polyset 1 pole" = .error (.wrongKeyword .polygon "pole".toList) ∧
      ∀ more, read ("polyset 1 pole" ++ "\n " ++ more) =
        .error (.wrongKeyword .polygon "pole".toList) :=
  have hgap : IsGap "\n " := ⟨by decide, List.all_eq_true.1 (by decide)⟩
  have hend : read "polyset 1 poly 1 1 -5" = .error (.endOfText (.coordinate .y)) := by
    have hwords : words "polyset 1 poly 1 1 -5" = ["polyset".toList, "1".toList, "poly".toList,
      "1".toList, "1".toList, "-5".toList] := by decide
    rw [read, ofWords_eq_error_iff, hwords]
    decide
  have hword : read "polyset 1 pole" = .error (.wrongKeyword .polygon "pole".toList) := by
    have hwords : words "polyset 1 pole" = ["polyset".toList, "1".toList, "pole".toList] := by
      decide
    rw [read, ofWords_eq_error_iff, hwords]
    decide
  ⟨hgap, hend, (read_continued _ hgap).2.2 _ hend ⟨_, rfl⟩, hword,
    (read_continued _ hgap).2.1 _ hword (by rintro ⟨_, ⟨⟩⟩)⟩

end Region

end GridGeometry
