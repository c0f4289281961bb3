import CodeGraph.Bits
import CodeGraph.Text.Split
import CodeGraph.Text.Utf8

/-!
# Lines of a text

Lines are counted from one and end at a line feed. `lineOf` places a byte offset; `splitLines` takes
a text apart at its line ends, where a carriage return before a line feed belongs to the line end.
-/

namespace CodeGraph.Text

/-- The number of line feeds. -/
def lineFeeds (l : List Char) : Nat := l.count '\n'

@[simp] theorem lineFeeds_nil : lineFeeds [] = 0 := rfl

@[simp] theorem lineFeeds_append (l m : List Char) :
    lineFeeds (l ++ m) = lineFeeds l + lineFeeds m := by
  simp [lineFeeds]

/-- The line that comes after so many line feeds, at most the largest 32-bit number. -/
def lineNumber (feeds : Nat) : Nat := min (feeds + 1) (Bits.limit32 - 1)

/-- The line on which the text after `before` starts. -/
def lineAfter (before : List Char) : Nat := lineNumber (lineFeeds before)

theorem lineAfter_eq (before : List Char) :
    lineAfter before = min (lineFeeds before + 1) (Bits.limit32 - 1) := rfl

/-- The line of byte offset `offset`, or of the end of the text if `offset` lies outside it or
inside a character. -/
def lineOf (text : String) (offset : Nat) : Nat :=
  match splitAtByte? text.toList offset with
  | some (before, _) => lineAfter before
  | none => lineAfter text.toList

/-- Takes off a carriage return at the end. -/
def dropReturn (l : List Char) : List Char :=
  if l.getLast? = some '\r' then l.dropLast else l

/-- The lines of the text without their ends. A text that ends in a line feed has no empty last
line, and only a line that a line feed ended loses a carriage return at its end. -/
def splitLines (text : String) : List (List Char) :=
  match (pieces '\n' text.toList).reverse with
  | [] => []
  | last :: earlier =>
    let ended := earlier.reverse.map dropReturn
    if last.isEmpty then ended else ended ++ [last]

end CodeGraph.Text
