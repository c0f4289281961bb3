import CodeGraph.Graph.Accessibility
import CodeGraph.Graph.SymbolKind

/-!
# Declarations

A declaration of a compiled source file with the declarations inside it. Source files are not parsed
here; a language server reports what they declare.
-/

namespace CodeGraph

structure Declaration where
  name : String
  kind : SymbolKind
  qualifiedName : String
  /-- The qualified name with the parameter types, which tells overloads apart. -/
  signature : String
  accessibility : Accessibility
  /-- The first line, counted from one. -/
  startLine : Nat
  endLine : Nat
  documentation : Option String
  children : List Declaration
deriving Repr, Inhabited

/-- Why the declarations of a file could not be had. -/
inductive FactError where
  | server (text : String)
  | io (text : String)
  /-- A line number does not fit its word, which stops the program. -/
  | lineOverflow
deriving DecidableEq, Repr

def FactError.message : FactError → String
  | server text => s!"Language server error: {text}"
  | io text => s!"IO error: {text}"
  | lineOverflow => "attempt to add with overflow"

end CodeGraph
