import CodeGraph.Extract.Extraction
import CodeGraph.Text.Pattern

/-!
# Scripts

Function declarations and module imports of JavaScript files. A match stands on the line on which it
starts.
-/

namespace CodeGraph.Script

open Text (Pattern)
open Text.Pattern

/-- Whether the character may be part of a name. -/
def isNameChar (c : Char) : Bool := Text.isAsciiWord c || c == '_' || c == '$'

def name : Pattern := capture (several isNameChar)

/-- A function with a name of its own, a constant or variable that is set to an arrow function, or a
member that is set to a function. -/
def function : Pattern := firstOf [
  inOrder [word "function", gap, name],
  inOrder [firstOf [word "const", word "let", word "var"], gap, name, blanks, char '=', blanks,
    maybe (inOrder [word "async", blanks]), char '(', many (· != ')'), char ')', blanks, word "=>"],
  inOrder [name, blanks, char ':', blanks, maybe (inOrder [word "async", gap]), word "function"]]

/-- An import that binds names, or a call that requires a module. -/
def moduleImport : Pattern := firstOf [
  inOrder [word "import", gap, few (· != ';'), gap, word "from", gap, quoted],
  inOrder [word "require(", blanks, quoted, blanks, char ')']]

/-- The line of the place before `onward`. -/
def lineBefore (content onward : List Char) : Nat :=
  Text.lineAfter (content.take (content.length - onward.length))

/-- The names found by a pattern, with the lines of the matches. -/
def find (p : Pattern) (content : List Char) : List (String × Nat) :=
  (p.all content).map fun m =>
    (String.ofList m.captured.text, lineBefore content m.onward)

def extract (f : SourceFile) : Extraction :=
  let content := f.content.toList
  let functions := (find function content).map fun (name, line) =>
    ⟨f.key, .contains, f.named .javaScriptFunction name (some line) (some line)⟩
  let imports := (find moduleImport content).map fun (name, line) =>
    ⟨f.key, .dependsOn, f.named .javaScriptImport name (some line) (some line)⟩
  .ofAttachments (functions ++ imports)

end CodeGraph.Script
