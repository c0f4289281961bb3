import CodeGraph.Extract.Extraction
import CodeGraph.Extract.Script

/-!
# Pages

The scripts an HTML page refers to and the identifiers of its elements. A reference stands on the
line of its value.
-/

namespace CodeGraph.Page

open Text (Pattern)
open Text.Pattern

/-- The equals sign and the value of an attribute. -/
def value : Pattern := inOrder [blanks, char '=', blanks, quoted]

/-- The source of a script. -/
def scriptSource : Pattern :=
  inOrder [anyCase "<script", one Text.isBlank, few (· != '>'), anyCase "src", value]

/-- The identifier of an element. -/
def elementId : Pattern := inOrder [one Text.isBlank, anyCase "id", value]

/-- The values found by a pattern, with their lines. -/
def find (p : Pattern) (content : List Char) : List (String × Nat) :=
  (p.all content).map fun m =>
    (String.ofList m.captured.text, Script.lineBefore content m.captured.onward)

def extract (f : SourceFile) : Extraction :=
  let content := f.content.toList
  let scripts := (find scriptSource content).map fun (name, line) =>
    ⟨f.key, .dependsOn, f.named .htmlScriptReference name (some line) (some line)⟩
  let ids := (find elementId content).map fun (name, line) =>
    ⟨f.key, .contains, f.named .htmlElementId name (some line) (some line)⟩
  .ofAttachments (scripts ++ ids)

end CodeGraph.Page
