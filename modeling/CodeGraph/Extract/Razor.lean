import CodeGraph.Extract.Extraction
import CodeGraph.Text.Blank
import CodeGraph.Text.Front
import CodeGraph.Text.Line

/-!
# Razor directives

A directive starts a line with an at-sign and one of four words, and its value is the rest of the
line. A value may recur in a file, so its line is no part of its key.
-/

namespace CodeGraph.Razor

def isGap (c : Char) : Bool := c == ' ' || c == '\t'

/-- The words that start a directive. -/
def words : List (String × SymbolKind) :=
  [("using", .usingDirective), ("inject", .injectDirective), ("model", .modelDirective),
    ("inherits", .inheritsDirective)]

/-- The value of a directive without blanks around it and without semicolons at its end. -/
def value (rest : List Char) : List Char :=
  let text := Text.trimChars (rest.takeWhile (· ≠ '\r'))
  Text.trimChars (text.reverse.dropWhile (· == ';')).reverse

/-- The directive on a line. -/
def directive? (line : List Char) : Option (SymbolKind × String) := do
  let rest ← Text.after? ['@'] (line.dropWhile isGap)
  let (kind, rest) ← words.findSome? fun (word, kind) =>
    (Text.after? word.toList rest).map fun rest => (kind, rest)
  let text := value rest
  if (rest.head?.map isGap).getD false && !text.isEmpty then some (kind, String.ofList text)
  else none

def extract (f : SourceFile) : Extraction :=
  let lines := (Text.pieces '\n' f.content.toList).zipIdx
  .ofAttachments (lines.filterMap fun (line, feeds) =>
    (directive? line).map fun (kind, value) =>
      ⟨f.key, .contains, f.named kind value none (some (Text.lineNumber feeds))⟩)

end CodeGraph.Razor
