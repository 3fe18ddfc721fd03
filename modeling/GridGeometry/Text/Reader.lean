import GridGeometry.Region.Basic
import GridGeometry.Text.Numeral

/-!
# Reading a region

The reader takes the words of a document one after another. Every contour it builds is closed and
keeps repeated vertices. Words after the last polygon are ignored.

A count is only a promise: what it announces is read item by item, so that a document which
announces more than it holds ends in `ReadError.endOfText`.

## Main definitions

* `ReadError`: why a document was refused, worded by `ReadError.message`.
* `Region.read`: the region that a text denotes.
-/

namespace GridGeometry

namespace Text

/-- The words with a fixed spelling. -/
inductive Keyword where
  /-- The word that opens a document. -/
  | region
  /-- The word that opens a polygon. -/
  | polygon
deriving DecidableEq, Repr

/-- The spelling of a keyword. -/
def Keyword.spelling : Keyword → String
  | region => "polyset"
  | polygon => "poly"

/-- What a count counts. -/
inductive Counted where
  | polygons
  | contours
  | vertices
deriving DecidableEq, Repr

/-- The name of a count. -/
def Counted.name : Counted → String
  | polygons => "polygon count"
  | contours => "contour count"
  | vertices => "vertex count"

/-- The two axes of the grid. -/
inductive Axis where
  | x
  | y
deriving DecidableEq, Repr

/-- The name of the coordinate along an axis. -/
def Axis.name : Axis → String
  | x => "x coordinate"
  | y => "y coordinate"

/-- What the reader expects as the next word. -/
inductive Expected where
  | keyword (k : Keyword)
  | count (c : Counted)
  | coordinate (a : Axis)
deriving DecidableEq, Repr

/-- The name of what is expected. -/
def Expected.name : Expected → String
  | keyword k => k.spelling
  | count c => c.name
  | coordinate a => a.name

end Text

open Text

/-- Why a document was refused. -/
inductive ReadError where
  /-- Another word stands where a keyword belongs. -/
  | wrongKeyword (expected : Keyword) (found : Word)
  /-- The words ended before the document was complete. -/
  | endOfText (expected : Expected)
  /-- A word where a number belongs is no numeral, or its number is out of range. -/
  | notANumber (word : Word) (expected : Expected)
  /-- A count is negative. -/
  | negativeCount (counted : Counted) (value : Int)
  /-- Polygon `index` announces no contours. -/
  | noContours (index : Nat)
deriving DecidableEq, Repr

/-- The wording of a refusal. -/
def ReadError.message : ReadError → String
  | wrongKeyword expected found =>
    "expected keyword `" ++ expected.spelling ++ "`, found `" ++ String.ofList found ++ "`"
  | endOfText expected => "unexpected end of input while reading " ++ expected.name
  | notANumber word expected =>
    "invalid integer `" ++ String.ofList word ++ "` for " ++ expected.name
  | negativeCount counted value => "negative " ++ counted.name ++ ": " ++ toString value
  | noContours index => "polygon " ++ toString index ++ " has no contours"

namespace Text

/-- A reader takes some words from the front of a list and returns what they denote, or refuses. -/
abbrev Reader := StateT (List Word) (Except ReadError)

/-- The least count that can be written. -/
def leastCount : Int := -9223372036854775808

/-- The greatest count that can be written. -/
def greatestCount : Int := 9223372036854775807

/-- Takes the next word. -/
def next (expected : Expected) : Reader Word
  | w :: rest => .ok (w, rest)
  | [] => .error (.endOfText expected)

/-- Takes a keyword. -/
def keyword (k : Keyword) : Reader Unit := do
  let w ← next (.keyword k)
  if w = k.spelling.toList then return () else throw (.wrongKeyword k w)

/-- Takes a number between two bounds. -/
def number (expected : Expected) (least greatest : Int) : Reader Int := do
  let w ← next expected
  match readWithin? least greatest w with
  | some n => return n
  | none => throw (.notANumber w expected)

/-- Takes a count. -/
def count (c : Counted) : Reader Nat := do
  let n ← number (.count c) leastCount greatestCount
  if n < 0 then throw (.negativeCount c n) else return n.toNat

/-- Takes a coordinate. -/
def coordinate (a : Axis) : Reader Int :=
  number (.coordinate a) Coordinate.least Coordinate.greatest

/-- Takes `n` items, the first of which has the given index. -/
def items {α : Type} (item : Nat → Reader α) (index : Nat) : Nat → Reader (List α)
  | 0 => return []
  | n + 1 => do
    let first ← item index
    let others ← items item (index + 1) n
    return first :: others

/-- Takes a vertex. -/
def vertex : Reader Point := do
  let x ← coordinate .x
  let y ← coordinate .y
  return ⟨x, y⟩

/-- Takes a contour. -/
def contour : Reader Contour := do
  let n ← count .vertices
  return .closedOf (← items (fun _ ↦ vertex) 0 n)

/-- Takes polygon `index`. -/
def polygon (index : Nat) : Reader Polygon := do
  keyword .polygon
  match ← count .contours with
  | 0 => throw (.noContours index)
  | n + 1 => do
    let outline ← contour
    let holes ← items (fun _ ↦ contour) 1 n
    return ⟨outline, holes⟩

/-- Takes a region. -/
def region : Reader Region := do
  keyword .region
  let n ← count .polygons
  return ⟨← items polygon 0 n⟩

end Text

/-- The region that the words of a document denote. -/
def Region.ofWords (document : List Word) : Except ReadError Region :=
  (Text.region document).map Prod.fst

/-- The region that a text denotes. -/
def Region.read (text : String) : Except ReadError Region := Region.ofWords (words text)

end GridGeometry
