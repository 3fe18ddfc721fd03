import GridGeometry.Text.Word

/-!
# The words of a text

The words of a text are the pieces between its blanks, without the empty ones (`words_eq`). So a
blank separates what stands before it from what follows (`wordsFrom_append_cons`): whatever text
comes behind it, the words before it stay the same.
-/

namespace GridGeometry.Text

variable {v w : Word} {cs ds : List Char} {b : Char}

theorem finished_eq_filter (w : Word) : finished w = [w].filter (· ≠ []) := by
  cases w <;> rfl

theorem wordsFrom_eq (w : Word) (cs : List Char) :
    wordsFrom w cs = ((cs.splitOnP isBlank).modifyHead (w ++ ·)).filter (· ≠ []) := by
  fun_induction wordsFrom w cs with
  | case1 w => rw [List.splitOnP_nil, List.modifyHead_cons, List.append_nil, finished_eq_filter]
  | case2 w c cs hc ih =>
    have hid : (([] : Word) ++ ·) = id := rfl
    rw [List.splitOnP_cons_eq_if_modifyHead, if_pos hc, List.modifyHead_cons, List.append_nil, ih,
      hid, List.modifyHead_id, finished_eq_filter, id, ← List.filter_append, List.singleton_append]
  | case3 w c cs hc ih =>
    have happend : ((w ++ ·) ∘ List.cons c) = (w ++ [c] ++ ·) := by
      funext d
      simp
    rw [List.splitOnP_cons_eq_if_modifyHead, if_neg hc, List.modifyHead_modifyHead, happend, ih]

/-- **The words of a text** are the pieces between its blanks, without the empty ones. -/
theorem words_eq (text : String) :
    words text = (text.toList.splitOnP isBlank).filter (· ≠ []) := by
  have hid : (([] : Word) ++ ·) = id := rfl
  rw [words, wordsFrom_eq, hid, List.modifyHead_id, id]

/-- **A blank separates the words** before it from those behind it. -/
theorem wordsFrom_append_cons (hb : isBlank b = true) :
    wordsFrom w (cs ++ b :: ds) = wordsFrom w cs ++ wordsFrom [] ds := by
  induction cs generalizing w with
  | nil => rw [List.nil_append, wordsFrom.eq_2, if_pos hb, wordsFrom.eq_1]
  | cons c cs ih =>
    rw [List.cons_append, wordsFrom.eq_2, wordsFrom.eq_2, ih, ih]
    split
    · rw [List.append_assoc]
    · rfl

/-- At least one character, and none of them blank. -/
structure IsWord (w : Word) : Prop where
  ne_nil : w ≠ []
  isBlank_eq_false : ∀ c ∈ w, isBlank c = false

/-- A run of characters that are not blank goes on with the unfinished word. -/
theorem wordsFrom_of_run (h : ∀ c ∈ w, isBlank c = false) : wordsFrom v w = finished (v ++ w) := by
  induction w generalizing v with
  | nil => rw [wordsFrom, List.append_nil]
  | cons c w ih =>
    obtain ⟨hc, hw⟩ := List.forall_mem_cons.1 h
    rw [wordsFrom, hc, if_neg Bool.false_ne_true, ih hw, List.append_assoc, List.singleton_append]

theorem IsWord.wordsFrom_eq (h : IsWord w) : wordsFrom [] w = [w] := by
  rw [wordsFrom_of_run h.isBlank_eq_false, List.nil_append]
  cases w with
  | nil => exact absurd rfl h.ne_nil
  | cons c w => rfl

/-- Two words with a blank between them. -/
theorem IsWord.wordsFrom_append_cons_eq (hv : IsWord v) (hb : isBlank b = true) (hw : IsWord w) :
    wordsFrom [] (v ++ b :: w) = [v, w] := by
  rw [wordsFrom_append_cons hb, hv.wordsFrom_eq, hw.wordsFrom_eq, List.singleton_append]

end GridGeometry.Text
