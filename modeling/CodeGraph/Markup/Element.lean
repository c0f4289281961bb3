import CodeGraph.Markup.Tag
import CodeGraph.Text.Line

/-!
# Elements

The tree of a document. `parse` builds it from the tokens: an end tag closes the innermost open
element, which has to have its name, and the first element outside all others is the root. Text
outside the root does not count.
-/

namespace CodeGraph.Markup

/-- An element with its attributes and the text directly inside it. -/
structure Element where
  /-- The name without a namespace. -/
  name : String
  attributes : List (String × String)
  text : String
  /-- The line on which the tag starts. -/
  line : Nat
  children : List Element
deriving Repr, Inhabited

mutual

def Element.decEq : (e e' : Element) → Decidable (e = e')
  | ⟨name, attributes, text, line, children⟩, ⟨name', attributes', text', line', children'⟩ =>
    have := Element.listDecEq children children'
    decidable_of_iff (name = name' ∧ attributes = attributes' ∧ text = text' ∧ line = line' ∧
      children = children') (by rw [Element.mk.injEq])

def Element.listDecEq : (l l' : List Element) → Decidable (l = l')
  | [], [] => isTrue rfl
  | [], _ :: _ => isFalse nofun
  | _ :: _, [] => isFalse nofun
  | e :: rest, e' :: rest' =>
    have := e.decEq e'
    have := Element.listDecEq rest rest'
    decidable_of_iff (e = e' ∧ rest = rest') (by rw [List.cons.injEq])

end

instance : DecidableEq Element := Element.decEq

inductive Error where
  /-- A tag or reference is malformed, or an end tag matches no start tag. -/
  | malformed
  /-- An element is not closed. -/
  | unbalanced
  /-- There is no root. -/
  | empty
deriving DecidableEq, Repr

/-- What to say about a document whose elements do not make a tree. The text for a malformed one is
up to the reader. -/
def Error.message? : Error → Option String
  | malformed => none
  | unbalanced => some "Unbalanced element nesting"
  | empty => some "Document has no root element"

namespace Element

/-- The value of the attribute with this name. -/
def attribute? (e : Element) (name : String) : Option String := e.attributes.lookup name

/-- The children with this name. -/
def childrenNamed (e : Element) (name : String) : List Element :=
  e.children.filter fun c => c.name == name

mutual

/-- The element and all elements inside it, in document order. -/
def family : Element → List Element
  | ⟨name, attributes, text, line, children⟩ =>
    ⟨name, attributes, text, line, children⟩ :: families children

def families : List Element → List Element
  | [] => []
  | e :: rest => family e ++ families rest

end

theorem family_eq (e : Element) : e.family = e :: families e.children := by
  cases e
  rw [family]

theorem families_append (es es' : List Element) :
    families (es ++ es') = families es ++ families es' := by
  induction es with
  | nil => rfl
  | cons e es ih => simp [families, ih]

/-- Takes the elements off a stack, the next one first. One that is taken off leaves its children on
the stack, the first of them on top. -/
def unstack : List Element → List Element
  | [] => []
  | e :: stack => e :: unstack (e.children ++ stack)
termination_by stack => (families stack).length
decreasing_by
  simp only [families_append, families, family_eq, List.length_append, List.length_cons]
  omega

/-- All elements inside this one. -/
def descendants (e : Element) : List Element := unstack e.children

/-- The stack gives the elements in document order. -/
theorem unstack_eq (stack : List Element) : unstack stack = families stack := by
  fun_induction unstack stack with
  | case1 => rfl
  | case2 e stack ih => rw [ih, families_append, families, family_eq, List.cons_append]

theorem descendants_eq (e : Element) : e.descendants = families e.children := unstack_eq _

end Element

/-- An element that is still open, its children the latest first. -/
structure Frame where
  tagName : List Char
  attributes : List (String × String)
  text : List Char
  line : Nat
  children : List Element
deriving Repr

namespace Frame

def close (f : Frame) : Element where
  name := String.ofList (Tag.localName f.tagName)
  attributes := f.attributes
  text := String.ofList f.text
  line := f.line
  children := f.children.reverse

end Frame

/-- The open elements, the innermost first, and the root once it is closed. -/
structure Building where
  stack : List Frame
  root : Option Element
deriving Repr

namespace Building

def start : Building := ⟨[], none⟩

/-- The line of the last angle bracket before byte `stop` of the document. -/
def tagLine (document : List Char) (stop : Nat) : Nat :=
  let front := match Text.splitAtByte? document stop with
    | some (front, _) => front
    | none => document
  Text.lineAfter ((front.reverse.dropWhile (· ≠ '<')).tail)

/-- The frame of an element whose tag has this text. -/
def frame? (document : List Char) (body : List Char) (stop : Nat) : Option Frame := do
  let tag ← Tag.ofBody? body
  return {
    tagName := tag.name
    attributes := tag.attributes
    text := []
    line := tagLine document stop
    children := [] }

/-- Adds a complete element. -/
def add (b : Building) (e : Element) : Building :=
  match b.stack with
  | f :: stack => { b with stack := { f with children := e :: f.children } :: stack }
  | [] => { b with root := b.root.or (some e) }

/-- Adds text to the innermost element. -/
def addText (b : Building) (text : List Char) : Building :=
  match b.stack with
  | f :: stack => { b with stack := { f with text := f.text ++ text } :: stack }
  | [] => b

def step (document : List Char) (b : Building) : Token → Option Building
  | .opening body stop => (frame? document body stop).map fun f => { b with stack := f :: b.stack }
  | .empty body stop => (frame? document body stop).map fun f => b.add f.close
  | .closing name =>
    match b.stack with
    | f :: stack => if f.tagName = name then some ({ b with stack }.add f.close) else none
    | [] => none
  | .text raw => if b.stack.isEmpty then some b else (unescape? raw).map b.addText
  | .literal text => some (b.addText text)

def result (b : Building) : Except Error Element :=
  match b.stack, b.root with
  | _ :: _, _ => .error .unbalanced
  | [], none => .error .empty
  | [], some root => .ok root

end Building

/-- The document without a byte order mark. -/
def dropMark (document : List Char) : List Char :=
  match document with
  | '\uFEFF' :: rest => rest
  | l => l

def parseChars (document : List Char) : Except Error Element :=
  match Token.tokens? 0 (dropMark document) with
  | none => .error .malformed
  | some tokens =>
    match tokens.foldlM (Building.step document) Building.start with
    | none => .error .malformed
    | some b => b.result

/-- The root element of a document. -/
def parse (document : String) : Except Error Element := parseChars document.toList

end CodeGraph.Markup
