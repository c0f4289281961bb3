import CodeGraph.Graph.Accessibility
import CodeGraph.Graph.SymbolKind
import CodeGraph.Text.Utf8
import CodeGraph.Text.Word

/-!
# Modifiers of a declaration

A language server does not report accessibility, so it is read off the line of the declaration: the
words before the name, from the last bracket or semicolon on. Where no such word is written, the
default of the place holds.
-/

namespace CodeGraph.LanguageServer

/-- Whether the character ends whatever stands before a declaration on its line. -/
def endsClause (c : Char) : Bool := c == '{' || c == '}' || c == ';' || c == ']'

/-- The accessibility that modifiers denote together. -/
def accessibilityOf? (modifiers : List (List Char)) : Option Accessibility :=
  let has (m : String) := modifiers.contains m.toList
  if has "public" then some .pub
  else if has "protected" then
    if has "internal" then some .protectedOrInternal
    else if has "private" then some .protectedAndInternal
    else some .prot
  else if has "internal" then some .internal
  else if has "private" then some .priv
  else none

/-- The text before the name on its line, the nearest character first. The name is looked for from
byte `column` on, and from the start of the line if it is not found there. -/
def beforeName? (line : List Char) (column : Nat) (name : List Char) : Option (List Char) :=
  let fromStart := (Text.findWord name [] line).map (·.1)
  match Text.splitAtByte? line column with
  | some (before, rest) => ((Text.findWord name before.reverse rest).map (·.1)).or fromStart
  | none => fromStart

/-- The accessibility written on a line for the declaration with this name. -/
def declaredAccessibility? (line : List Char) (column : Nat) (name : List Char) :
    Option Accessibility := do
  let before ← beforeName? line column name
  accessibilityOf? (Text.words (before.takeWhile (!endsClause ·)).reverse)

/-- The accessibility of a declaration without a modifier, inside a declaration of kind `parent`. -/
def defaultAccessibility (kind : SymbolKind) (parent : Option SymbolKind) : Accessibility :=
  match parent with
  | some .interfaceDecl | some .enumDecl => .pub
  | _ =>
    if kind = .enumMember then .pub
    else match parent with
      | none | some .namespaceDecl => .internal
      | _ => .priv

end CodeGraph.LanguageServer
