import CodeGraph.Json.Token

/-!
# Parsing JSON

The tokens drive a stack of containers that are still open. `Building.step` says what each token
does in each place, and a text is a value if its tokens close every container they opened.
-/

namespace CodeGraph.Json

/-- A container that is still open, with what it holds so far, the latest first. -/
inductive Open where
  | array (items : List Value)
  | object (members : List (String × Value))
  /-- An object whose next member has this name. -/
  | member (members : List (String × Value)) (name : String)
deriving Repr

/-- What may come next inside the innermost open container. -/
inductive Place where
  /-- A value. -/
  | value
  /-- The first item of an array, or its end. -/
  | firstItem
  /-- The first name of an object, or its end. -/
  | firstName
  /-- A name after a comma. -/
  | name
  /-- The colon after a name. -/
  | colon
  /-- A comma, or the end of the container. -/
  | separator
  /-- Nothing, since the value is complete. -/
  | nothing (v : Value)
deriving Repr

/-- The open containers, the innermost first, and the place in it. -/
structure Building where
  stack : List Open
  place : Place
deriving Repr

namespace Building

/-- Containers nest at most this deep. -/
def maxDepth : Nat := 127

def start : Building := ⟨[], .value⟩

/-- Adds a complete value to the innermost container. -/
def add (v : Value) : List Open → Option Building
  | [] => some ⟨[], .nothing v⟩
  | .array items :: stack => some ⟨.array (v :: items) :: stack, .separator⟩
  | .member members name :: stack => some ⟨.object ((name, v) :: members) :: stack, .separator⟩
  | .object _ :: _ => none

def push (o : Open) (place : Place) (stack : List Open) : Option Building :=
  if stack.length < maxDepth then some ⟨o :: stack, place⟩ else none

/-- Closes the innermost container. -/
def close (isArray : Bool) : List Open → Option Building
  | .array items :: stack => if isArray then add (.array items.reverse) stack else none
  | .object members :: stack =>
    if isArray then none else add (Value.ofMembers members.reverse) stack
  | _ => none

def step (b : Building) (t : Token) : Option Building :=
  match b.place, t with
  | .value, .scalar v | .firstItem, .scalar v => add v b.stack
  | .value, .arrayOpen | .firstItem, .arrayOpen => push (.array []) .firstItem b.stack
  | .value, .objectOpen | .firstItem, .objectOpen => push (.object []) .firstName b.stack
  | .firstItem, .arrayClose => close true b.stack
  | .firstName, .objectClose => close false b.stack
  | .firstName, .scalar (.string s) | .name, .scalar (.string s) =>
    match b.stack with
    | .object members :: stack => some ⟨.member members s :: stack, .colon⟩
    | _ => none
  | .colon, .colon => some { b with place := .value }
  | .separator, .comma =>
    match b.stack with
    | .array _ :: _ => some { b with place := .value }
    | _ => some { b with place := .name }
  | .separator, .arrayClose => close true b.stack
  | .separator, .objectClose => close false b.stack
  | _, _ => none

def result? (b : Building) : Option Value :=
  match b.place with
  | .nothing v => some v
  | _ => none

end Building

/-- The value a text stands for, or `none` if it is malformed. -/
def parseChars? (l : List Char) : Option Value := do
  let ts ← Token.tokens? l
  (← ts.foldlM Building.step Building.start).result?

def parse? (s : String) : Option Value := parseChars? s.toList

end CodeGraph.Json
