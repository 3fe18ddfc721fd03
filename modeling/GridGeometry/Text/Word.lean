import GridGeometry.Text.Blank

/-!
# Words

A word is a longest run of characters that are not blank. A document is read as the list of its
words, so that the number and kind of the blanks between them have no meaning.
-/

namespace GridGeometry.Text

/-- A run of characters without blanks. -/
abbrev Word := List Char

/-- The word that ends here, if any of its characters have been seen. -/
def finished : Word → List Word
  | [] => []
  | w => [w]

/-- The words of a text that continues the unfinished word `w`. -/
def wordsFrom (w : Word) : List Char → List Word
  | [] => finished w
  | c :: rest =>
    if isBlank c then finished w ++ wordsFrom [] rest else wordsFrom (w ++ [c]) rest

/-- The words of a text in order. -/
def words (text : String) : List Word := wordsFrom [] text.toList

end GridGeometry.Text
