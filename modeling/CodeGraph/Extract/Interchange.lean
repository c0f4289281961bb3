import CodeGraph.Extract.Extraction
import CodeGraph.Extract.Stats
import CodeGraph.Graph.Journal

/-!
# Extractions as JSON
-/

namespace CodeGraph

open Json (Value)

/-- What matters of an extracted symbol. -/
def Symbol.brief (s : Symbol) : Value := .array [
  .string s.key, .string s.name, s.kind.toJson, .string s.qualifiedName, s.accessibility.toJson,
  .ofOption .ofNat s.startLine, .ofOption .string s.documentation]

/-- The members for an extraction, each symbol written by `write`. -/
def Extraction.members (e : Extraction) (write : Symbol → Value) : List (String × Value) := [
  ("symbols", .array (e.symbols.map write)),
  ("relationships", .array (e.relationships.map Relationship.triple))]

def ExtractionStats.members (s : ExtractionStats) : List (String × Value) := [
  ("handled", .array (s.handled.map fun (kind, n) => .array [.string kind, .ofNat n])),
  ("unhandled", .ofNat s.unhandled)]

end CodeGraph
