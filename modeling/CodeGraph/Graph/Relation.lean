/-!
# Types of relationships

Four types are known, and others may be introduced by name. `RelType.ofText` brings a name into the
form that a statement may hold unquoted.
-/

namespace CodeGraph

inductive RelType where
  | contains
  | dependsOn
  | bindsTo
  | hasProperty
  | other (name : String)
deriving DecidableEq, Repr, Inhabited

namespace RelType

/-- The character as it stands in the name of a type: a capital letter, a digit or an underscore. -/
def typeChar (c : Char) : Char := if c.isAlpha || c.isDigit then c.toUpper else '_'

/-- The type with this name, in capital letters. A name without characters stands for a relation of
no particular type. -/
def ofText (name : String) : RelType :=
  let name := String.ofList (name.toList.map typeChar)
  if name = "CONTAINS" then contains
  else if name = "DEPENDS_ON" then dependsOn
  else if name = "BINDS_TO" then bindsTo
  else if name = "HAS_PROPERTY" then hasProperty
  else if name = "" then other "RELATED_TO"
  else other name

def text : RelType → String
  | contains => "CONTAINS"
  | dependsOn => "DEPENDS_ON"
  | bindsTo => "BINDS_TO"
  | hasProperty => "HAS_PROPERTY"
  | other name => name

/-- The known types come first, in the order of their declaration. -/
def rank : RelType → Nat
  | contains => 0
  | dependsOn => 1
  | bindsTo => 2
  | hasProperty => 3
  | other _ => 4

/-- The strict order: by rank, and by name among the others. -/
def before (a b : RelType) : Bool :=
  match a, b with
  | other m, other n => m < n
  | _, _ => a.rank < b.rank

end RelType

end CodeGraph
