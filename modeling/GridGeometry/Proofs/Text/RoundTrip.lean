import GridGeometry.Proofs.Text.Grammar
import GridGeometry.Text.Document

/-!
# Reading what was written

The written form of a region ends every line with a line break, so its words are those of its lines
(`words_join`), and text that follows it begins a new word. The words of the written form are a
document for the region with all its contours closed (`Region.isDocument_writtenWords`). So reading
gives this region back, whatever text follows (`Region.read_write`).
-/

namespace GridGeometry

open Text

/-! ### The words of the written form -/

namespace Text

/-- **The words of lines**, each ended by a line break, and of a text behind them. -/
theorem words_join (lines : List String) (text : String) :
    words (String.join (lines.map (· ++ "\n")) ++ text) = lines.flatMap words ++ words text := by
  induction lines with
  | nil =>
    rw [List.map_nil, String.join_nil, String.empty_append, List.flatMap_nil, List.nil_append]
  | cons line lines ih =>
    have hline : (String.join ((line :: lines).map (· ++ "\n")) ++ text).toList =
        line.toList ++ '\n' :: (String.join (lines.map (· ++ "\n")) ++ text).toList := by
      simp [String.join_cons]
    rw [words, hline, wordsFrom_append_cons (by decide), List.flatMap_cons, List.append_assoc, ← ih]
    rfl

/-- Two words with a blank between them are the words of a line. -/
theorem words_pair {line : String} {v w : Word} (hline : line.toList = v ++ ' ' :: w)
    (hv : IsWord v) (hw : IsWord w) : words line = [v, w] := by
  rw [words, hline]
  exact hv.wordsFrom_append_cons_eq (by decide) hw

theorem isWord_toString_nat (n : Nat) : IsWord (toString n).toList :=
  (isNumeral_toString_nat n).isWord

theorem isWord_toString (n : Int) : IsWord (toString n).toList := (isNumeral_toString n).isWord

theorem isWord_spelling (k : Keyword) : IsWord k.spelling.toList := by
  cases k with
  | region => exact ⟨by decide, by simp [Keyword.spelling, isBlank, blankCodes]⟩
  | polygon => exact ⟨by decide, by simp [Keyword.spelling, isBlank, blankCodes]⟩

end Text

/-- The words of a written contour. -/
def Contour.writtenWords (c : Contour) : List Word :=
  (toString c.size).toList ::
    c.points.flatMap fun p ↦ [(toString p.x).toList, (toString p.y).toList]

/-- The words of a written polygon. -/
def Polygon.writtenWords (p : Polygon) : List Word :=
  "poly".toList :: (toString p.contourCount).toList :: p.contours.flatMap Contour.writtenWords

/-- The words of a written region. -/
def Region.writtenWords (r : Region) : List Word :=
  "polyset".toList :: (toString r.size).toList :: r.polygons.flatMap Polygon.writtenWords

theorem Contour.words_lines (c : Contour) : c.lines.flatMap words = c.writtenWords := by
  have hpoint : ∀ p : Point,
      words (toString p) = [(toString p.x).toList, (toString p.y).toList] := fun p ↦
    words_pair (by simp [toString]) (isWord_toString p.x) (isWord_toString p.y)
  rw [lines, List.flatMap_cons, List.flatMap_map, writtenWords]
  simp only [hpoint]
  rw [words, (isWord_toString_nat c.size).wordsFrom_eq, List.singleton_append]

/-- The empty line behind a polygon has no words. -/
theorem Polygon.words_lines (p : Polygon) : p.lines.flatMap words = p.writtenWords := by
  have hhead : words s!"poly {p.contourCount}" =
      ["poly".toList, (toString p.contourCount).toList] :=
    words_pair (by simp [toString]) (isWord_spelling .polygon) (isWord_toString_nat p.contourCount)
  have hcontours : (p.contours.flatMap Contour.lines).flatMap words =
      p.contours.flatMap Contour.writtenWords := by
    rw [List.flatMap_assoc]
    simp only [Contour.words_lines]
  rw [lines, List.flatMap_append, List.flatMap_cons, hhead, hcontours, writtenWords]
  simp [words, wordsFrom, finished]

theorem Region.words_lines (r : Region) : r.lines.flatMap words = r.writtenWords := by
  have hhead : words s!"polyset {r.size}" = ["polyset".toList, (toString r.size).toList] :=
    words_pair (by simp [toString]) (isWord_spelling .region) (isWord_toString_nat r.size)
  have hpolygons : (r.polygons.flatMap Polygon.lines).flatMap words =
      r.polygons.flatMap Polygon.writtenWords := by
    rw [List.flatMap_assoc]
    simp only [Polygon.words_lines]
  rw [lines, List.flatMap_cons, hhead, hpolygons, writtenWords]
  rfl

/-- **The words of a written region** stay the same whatever text follows. -/
theorem Region.words_write (r : Region) (text : String) :
    words (r.write ++ text) = r.writtenWords ++ words text := by
  rw [write, words_join, words_lines]

/-! ### The written form as a document -/

/-- The region with all its contours closed. -/
def Region.close (r : Region) : Region :=
  ⟨r.polygons.map fun p ↦ p.mapContours fun c ↦ .closedOf c.points⟩

/-- All counts of the region can be read, and all its vertices are on the grid. -/
structure Region.IsWritable (r : Region) : Prop where
  size_le : (r.size : Int) ≤ greatestCount
  contourCount_le : ∀ p ∈ r.polygons, (p.contourCount : Int) ≤ greatestCount
  vertexCount_le : ∀ p ∈ r.polygons, ∀ c ∈ p.contours, (c.size : Int) ≤ greatestCount
  onGrid : ∀ p ∈ r.polygons, ∀ c ∈ p.contours, ∀ v ∈ c.points, v.OnGrid

/-- A region of closed contours stays as it is when its contours are closed. -/
theorem Region.close_eq_self {r : Region}
    (h : ∀ p ∈ r.polygons, ∀ c ∈ p.contours, c.closed = true) : r.close = r := by
  have hcontour : ∀ c : Contour, c.closed = true → Contour.closedOf c.points = c := fun c hc ↦ by
    rw [Contour.closedOf, ← hc]
  refine congrArg Region.mk ((List.map_congr_left fun p hp ↦ ?_).trans r.polygons.map_id)
  obtain ⟨houtline, hholes⟩ := List.forall_mem_cons.1 (h p hp)
  rw [Polygon.mapContours, hcontour _ houtline,
    List.map_congr_left fun c hc ↦ hcontour c (hholes c hc), List.map_id']
  rfl

/-- Items written one after the other denote the list of them. -/
theorem Text.IsSequence.of_flatMap {α β : Type} {P : List Word → β → Prop} {g : α → List Word}
    {f : α → β} {l : List α} (h : ∀ a ∈ l, P (g a) (f a)) :
    IsSequence P (l.flatMap g) (l.map f) := by
  induction l with
  | nil => exact .nil
  | cons a l ih =>
    obtain ⟨ha, hl⟩ := List.forall_mem_cons.1 h
    exact .cons ha (ih hl)

/-- A written contour denotes the closed contour with its vertices. -/
theorem Contour.isContour_writtenWords {c : Contour} (hsize : (c.size : Int) ≤ greatestCount)
    (hgrid : ∀ v ∈ c.points, v.OnGrid) : IsContour c.writtenWords (.closedOf c.points) := by
  refine .intro ⟨isNumeral_toString_nat c.size, hsize⟩ ?_
  have hpoints := IsSequence.of_flatMap (P := IsVertex) (f := id) fun v hv ↦ IsVertex.intro
    ⟨isNumeral_toString v.x, (hgrid v hv).1⟩ ⟨isNumeral_toString v.y, (hgrid v hv).2⟩
  rwa [List.map_id] at hpoints

theorem Polygon.contours_mapContours (f : Contour → Contour) (p : Polygon) :
    (p.mapContours f).contours = p.contours.map f := rfl

/-- A written polygon denotes the one with its contours closed. -/
theorem Polygon.isPolygon_writtenWords {p : Polygon}
    (hcount : (p.contourCount : Int) ≤ greatestCount)
    (hcontours : ∀ c ∈ p.contours, IsContour c.writtenWords (.closedOf c.points)) :
    IsPolygon p.writtenWords (p.mapContours fun c ↦ .closedOf c.points) := by
  refine .intro ?_ (IsSequence.of_flatMap hcontours)
  rw [contours_mapContours, List.length_map]
  exact ⟨isNumeral_toString_nat p.contourCount, hcount⟩

/-- **The words of a written region are a document** for it, with its contours closed. -/
theorem Region.isDocument_writtenWords {r : Region} (h : r.IsWritable) :
    IsDocument r.writtenWords r.close := by
  refine .intro ?_ (IsSequence.of_flatMap fun p hp ↦ ?_)
  · rw [close, List.length_map]
    exact ⟨isNumeral_toString_nat r.size, h.size_le⟩
  · exact Polygon.isPolygon_writtenWords (h.contourCount_le p hp) fun c hc ↦
      Contour.isContour_writtenWords (h.vertexCount_le p hp c hc) (h.onGrid p hp c hc)

/-- **What was written is read back**, with all contours closed, whatever text follows; so a region
of closed contours is read back as it is. -/
theorem Region.read_write (r : Region) (h : r.IsWritable) (text : String) :
    Region.read (r.write ++ text) = .ok r.close ∧
      ((∀ p ∈ r.polygons, ∀ c ∈ p.contours, c.closed = true) →
        Region.read (r.write ++ text) = .ok r) := by
  have hread : Region.read (r.write ++ text) = .ok r.close := by
    refine ofWords_eq_ok_iff.2 ⟨r.writtenWords, ?_, isDocument_writtenWords h⟩
    rw [words_write]
    exact List.prefix_append _ _
  exact ⟨hread, fun hclosed ↦ hread.trans (congrArg _ (close_eq_self hclosed))⟩

/-- Two polygons at the ends of the grid, with a repeated vertex, an open contour without vertices
and a text that begins with a digit. -/
theorem Region.read_write_ends :
    Region.IsWritable ⟨[⟨.closedOf [⟨-2147483648, 2147483647⟩, ⟨0, -7⟩, ⟨0, -7⟩], [.empty]⟩,
        .ofOutline (.closedOf [])]⟩ ∧
      Region.read (Region.write ⟨[⟨.closedOf [⟨-2147483648, 2147483647⟩, ⟨0, -7⟩, ⟨0, -7⟩],
          [.empty]⟩, .ofOutline (.closedOf [])]⟩ ++ "5 poly") =
        .ok ⟨[⟨.closedOf [⟨-2147483648, 2147483647⟩, ⟨0, -7⟩, ⟨0, -7⟩], [.closedOf []]⟩,
          .ofOutline (.closedOf [])]⟩ :=
  have h : Region.IsWritable ⟨[⟨.closedOf [⟨-2147483648, 2147483647⟩, ⟨0, -7⟩, ⟨0, -7⟩], [.empty]⟩,
      .ofOutline (.closedOf [])]⟩ := ⟨by decide, by decide, by decide, by decide⟩
  ⟨h, (Region.read_write _ h "5 poly").1⟩

end GridGeometry
