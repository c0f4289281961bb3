import CodeGraph.Extract.Extraction
import CodeGraph.Json.Parser

/-!
# Properties of JSON documents

Every member of an object becomes a symbol, at whatever depth, and its dotted path tells it apart.
-/

namespace CodeGraph.JsonDocument

open Json (Value)

/-- The path of a member of the object at `path`. -/
def memberPath (path name : String) : String := if path = "" then name else s!"{path}.{name}"

/-- The path of an item of the array at `path`. -/
def itemPath (path : String) (index : Nat) : String := s!"{path}[{index}]"

mutual

/-- Names and paths of the members at and below `path`, each before those below it. -/
def properties (path : String) : Value → List (String × String)
  | .object members => memberProperties path members
  | .array items => itemProperties path 0 items
  | _ => []

def memberProperties (path : String) : List (String × Value) → List (String × String)
  | [] => []
  | (name, v) :: rest =>
    (name, memberPath path name)
      :: (properties (memberPath path name) v ++ memberProperties path rest)

def itemProperties (path : String) (index : Nat) : List Value → List (String × String)
  | [] => []
  | v :: rest => properties (itemPath path index) v ++ itemProperties path (index + 1) rest

end

/-- A document that is malformed has no properties. -/
def extract (f : SourceFile) : Extraction :=
  match Json.parse? f.content with
  | none => .empty
  | some v => .ofAttachments ((properties "" v).map fun (name, path) =>
    let key := Key.element f.key SymbolKind.jsonProperty.name path none
    ⟨f.key, .contains, f.element key name .jsonProperty path none⟩)

end CodeGraph.JsonDocument
