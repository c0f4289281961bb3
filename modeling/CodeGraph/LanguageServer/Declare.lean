import CodeGraph.Bits
import CodeGraph.Declaration
import CodeGraph.LanguageServer.Modifier
import CodeGraph.LanguageServer.Symbol
import CodeGraph.Text.Line

/-!
# Declarations of an outline

Turns the symbols a language server reports into declarations. The content of the file supplies what
the server leaves out: modifiers and documentation comments. Symbols that declare nothing are left
out with all that is below them.
-/

namespace CodeGraph.LanguageServer

/-- The kind of declaration that a reported kind stands for, if any. -/
def ReportedKind.declared? : ReportedKind → Option SymbolKind
  | namespaceDecl | module | package => some .namespaceDecl
  | classDecl | object => some .classDecl
  | structDecl => some .structDecl
  | interfaceDecl => some .interfaceDecl
  | enumDecl => some .enumDecl
  | enumMember => some .enumMember
  | method | operator => some .method
  | constructor => some .constructor
  | property => some .property
  | field => some .field
  | event => some .event
  | function => some .function
  | constant => some .constant
  | variableDecl => some .variableDecl
  | file | string | number | boolean | array | key | null | typeParameter => none

/-- Takes `Name(int, string)` apart into name and parameters. The parameters reach from the first
opening to the last closing parenthesis, and the name is the last word before them. -/
def splitParameters (text : List Char) : List Char × Option (List Char) :=
  let head := text.takeWhile (· ≠ '(')
  let rest := text.dropWhile (· ≠ '(')
  if rest.contains ')' then
    let name := ((Text.trimChars head).reverse.takeWhile (!Text.isBlank ·)).reverse
    (name, some (rest.reverse.dropWhile (· ≠ ')')).reverse)
  else (Text.trimChars text, none)

/-- Whether declarations of this kind have parameters. -/
def isCallable (kind : SymbolKind) : Bool :=
  kind == .method || kind == .constructor || kind == .function || kind == .delegate

/-- The name inside a scope. -/
def qualify (scope name : String) : String := if scope = "" then name else s!"{scope}.{name}"

/-- The parameters of a symbol, from its name or else from its detail. -/
def parametersOf (s : ReportedSymbol) : String :=
  let inDetail := s.detail.bind fun d => (splitParameters d.toList).2
  match (splitParameters s.name.toList).2.or inDetail with
  | some parameters => String.ofList parameters
  | none => "()"

/-- The documentation comment above a line: the lines in `///` directly above it, between which
attributes may stand. -/
def documentationAbove (lines : List (List Char)) (line : Nat) : Option String :=
  let above := (lines.take line).reverse.map Text.trimChars
  let block := above.takeWhile fun l => "///".toList.isPrefixOf l || l.head? == some '['
  let texts := block.filterMap fun l => (Text.after? "///".toList l).map Text.trimChars
  if texts.isEmpty then none
  else some ("\n".intercalate (texts.reverse.map String.ofList))

/-- The line after this one, if 32 bits hold its number. -/
def nextLine? (line : Nat) : Option Nat :=
  if line + 1 < Bits.limit32 then some (line + 1) else none

def accessibilityAt (lines : List (List Char)) (s : ReportedSymbol) (name : List Char)
    (kind : SymbolKind) (parent : Option SymbolKind) : Accessibility :=
  (declaredAccessibility? (lines.getD s.startLine []) s.startColumn name).getD
    (defaultAccessibility kind parent)

mutual

/-- The declaration that a symbol makes, in a list with at most one item. There is no answer if the
number of a line does not fit. -/
def declare (lines : List (List Char)) (scope : String) (parent : Option SymbolKind) :
    ReportedSymbol → Option (List Declaration)
  | ⟨reported, kind, detail, container, startLine, endLine, startColumn, children⟩ =>
    match kind.declared? with
    | none => some []
    | some declared => do
      let s : ReportedSymbol :=
        ⟨reported, kind, detail, container, startLine, endLine, startColumn, []⟩
      let name := (splitParameters reported.toList).1
      let qualifiedName := qualify scope (String.ofList name)
      let children ← declareAll lines qualifiedName (some declared) children
      return [{
        name := String.ofList name
        kind := declared
        qualifiedName
        signature := if isCallable declared then qualifiedName ++ parametersOf s else qualifiedName
        accessibility := accessibilityAt lines s name declared parent
        startLine := ← nextLine? startLine
        endLine := ← nextLine? endLine
        documentation := documentationAbove lines startLine
        children }]

def declareAll (lines : List (List Char)) (scope : String) (parent : Option SymbolKind) :
    List ReportedSymbol → Option (List Declaration)
  | [] => some []
  | s :: rest => do
    return (← declare lines scope parent s) ++ (← declareAll lines scope parent rest)

end

/-- The declarations of an outline, the scope of each being the container it names. -/
def toDeclarations (symbols : List ReportedSymbol) (content : String) :
    Option (List Declaration) := do
  let lines := Text.splitLines content
  let found ← symbols.mapM fun s => declare lines (s.containerName.getD "") none s
  return found.flatten

end CodeGraph.LanguageServer
