import CodeGraph.Graph.Node
import CodeGraph.Key
import CodeGraph.Text.Line

/-!
# Extractions

What is found in one file: symbols and relationships, each in the order found. In most kinds of
files every symbol hangs on a node by one relationship; `Extraction.ofAttachments` is the extraction
of such a file.
-/

namespace CodeGraph

/-- A file to extract from. -/
structure SourceFile where
  repoKey : String
  /-- The key of the file. -/
  key : String
  /-- The normalized path. -/
  path : String
  content : String
deriving Repr

namespace SourceFile

/-- A symbol for an element of the file. -/
def element (f : SourceFile) (key name : String) (kind : SymbolKind) (qualifiedName : String)
    (line : Option Nat) : Symbol where
  key := key
  name := name
  kind := kind
  qualifiedName := qualifiedName
  accessibility := .pub
  fileKey := f.key
  filePath := f.path
  startLine := line
  endLine := line
  documentation := none
  comments := none

/-- A symbol with one text for its name and its qualified name, and the key made of it. -/
def named (f : SourceFile) (kind : SymbolKind) (name : String) (keyLine line : Option Nat) :
    Symbol :=
  f.element (Key.element f.key kind.name name keyLine) name kind name line

end SourceFile

/-- A symbol and the node it hangs on. -/
structure Attachment where
  parent : String
  type : RelType
  symbol : Symbol
deriving DecidableEq, Repr

namespace Attachment

def relationship (a : Attachment) : Relationship := ⟨a.parent, a.symbol.key, a.type⟩

end Attachment

structure Extraction where
  symbols : List Symbol
  relationships : List Relationship
deriving DecidableEq, Repr, Inhabited

namespace Extraction

def empty : Extraction := ⟨[], []⟩

def isEmpty (e : Extraction) : Bool := e.symbols.isEmpty && e.relationships.isEmpty

def append (d e : Extraction) : Extraction :=
  ⟨d.symbols ++ e.symbols, d.relationships ++ e.relationships⟩

instance : Append Extraction := ⟨append⟩

def ofAttachments (l : List Attachment) : Extraction :=
  ⟨l.map (·.symbol), l.map Attachment.relationship⟩

@[simp] theorem symbols_append (d e : Extraction) : (d ++ e).symbols = d.symbols ++ e.symbols := rfl

@[simp] theorem relationships_append (d e : Extraction) :
    (d ++ e).relationships = d.relationships ++ e.relationships := rfl

theorem ofAttachments_append (l m : List Attachment) :
    ofAttachments (l ++ m) = ofAttachments l ++ ofAttachments m := by
  show Extraction.mk _ _ = Extraction.mk _ _
  simp [ofAttachments]

end Extraction

end CodeGraph
