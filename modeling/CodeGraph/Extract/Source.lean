import CodeGraph.Declaration
import CodeGraph.Extract.Extraction

/-!
# Compiled sources

The declarations of a source file become symbols. A namespace only scopes names, so what it holds
hangs on what holds the namespace. Declarations below the minimum are left out with all that is
inside them, and so are those that the compiler made up.
-/

namespace CodeGraph.Source

/-- Whether the compiler made the name up, or did not resolve it. -/
def isSynthetic (name : String) : Bool := name == "" || name.toList.head? == some '<'

mutual

/-- The extraction of a declaration inside the node `container`. -/
def visit (f : SourceFile) (minimum : Accessibility) (container : Option String) :
    Declaration → Extraction
  | ⟨name, kind, qualifiedName, signature, accessibility, startLine, endLine, documentation,
      children⟩ =>
    if isSynthetic name then .empty
    else if kind.isNamespace then visitAll f minimum container children
    else if !accessibility.admits minimum then .empty
    else
      let key := Key.symbol f.repoKey signature
      let s : Symbol := {
        key, name, kind, qualifiedName, accessibility
        fileKey := f.key
        filePath := f.path
        startLine := some startLine
        endLine := some endLine
        documentation
        comments := none }
      let links := container.toList.map fun c => ⟨c, key, .contains⟩
      ⟨[s], links⟩ ++ visitAll f minimum (some key) children

def visitAll (f : SourceFile) (minimum : Accessibility) (container : Option String) :
    List Declaration → Extraction
  | [] => .empty
  | d :: rest => visit f minimum container d ++ visitAll f minimum container rest

end

/-- A file whose declarations cannot be had has no symbols. -/
def extract (f : SourceFile) (minimum : Accessibility)
    (facts : Except FactError (List Declaration)) : Extraction :=
  match facts with
  | .ok declarations => visitAll f minimum none declarations
  | .error _ => .empty

end CodeGraph.Source
