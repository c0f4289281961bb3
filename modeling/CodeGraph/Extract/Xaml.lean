import CodeGraph.Extract.Extraction
import CodeGraph.Markup.Element
import CodeGraph.Text.Split

/-!
# XAML views

Every element becomes a symbol, told apart by its name in the code where it has one. An attribute
that names an event binds the element to the handler it gives.
-/

namespace CodeGraph.Xaml

open Markup (Element)

/-- Endings of the names of events. -/
def eventEndings : List String := ["Click", "Changed", "Loaded", "Pressed", "Released"]

/-- Whether an attribute gives the handler of an event. -/
def isEvent (qualifiedName : String) : Bool :=
  let name := Text.afterLast ':' qualifiedName
  name == "Command" || eventEndings.any fun e => e.toList.isSuffixOf name.toList

/-- The name of an element in the code. -/
def identity? (attributes : List (String × String)) : Option String :=
  ((attributes.lookup "x:Name").or (attributes.lookup "Name")).or (attributes.lookup "x:Key")

/-- The symbol of an element. -/
def elementSymbol (f : SourceFile) (name : String) (attributes : List (String × String))
    (line : Nat) : Symbol :=
  let identity := identity? attributes
  let qualified := match identity with
    | some id => s!"{name}:{id}"
    | none => name
  f.element s!"{f.key}:{qualified}:{line}" (identity.getD name) .xamlElement qualified (some line)

/-- The symbol of an event handler. Elements that share a handler share its key. -/
def handlerSymbol (f : SourceFile) (handler : String) (line : Nat) : Symbol :=
  { f.element (Key.element f.key "EventHandler" handler none) handler .xamlEventHandler handler
      (some line) with accessibility := .priv }

mutual

/-- The symbols of an element, of its handlers and of the elements inside it, in document order. -/
def attachments (f : SourceFile) (parent : String) : Element → List Attachment
  | ⟨name, attributes, _, line, children⟩ =>
    let s := elementSymbol f name attributes line
    let handlers := attributes.filter fun (a, value) => isEvent a && value != ""
    ⟨parent, .contains, s⟩
      :: (handlers.map fun (_, value) => ⟨s.key, .bindsTo, handlerSymbol f value line⟩)
      ++ childAttachments f s.key children

def childAttachments (f : SourceFile) (parent : String) : List Element → List Attachment
  | [] => []
  | e :: rest => attachments f parent e ++ childAttachments f parent rest

end

/-- A document that is malformed has no symbols. -/
def extract (f : SourceFile) : Extraction :=
  match Markup.parse f.content with
  | .ok root => .ofAttachments (attachments f f.key root)
  | .error _ => .empty

end CodeGraph.Xaml
