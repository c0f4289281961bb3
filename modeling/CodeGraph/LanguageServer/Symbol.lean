import CodeGraph.Graph.SymbolKind

/-!
# Symbols as a language server reports them

The kinds are those of the protocol, which numbers them from one. `ReportedKind.declared?` says
which kind of declaration they stand for, if any.
-/

namespace CodeGraph.LanguageServer

inductive ReportedKind where
  | file
  | module
  | namespaceDecl
  | package
  | classDecl
  | method
  | property
  | field
  | constructor
  | enumDecl
  | interfaceDecl
  | function
  | variableDecl
  | constant
  | string
  | number
  | boolean
  | array
  | object
  | key
  | null
  | enumMember
  | structDecl
  | event
  | operator
  | typeParameter
deriving DecidableEq, Repr, Inhabited

namespace ReportedKind

/-- The kinds in the order of their numbers. -/
def all : List ReportedKind :=
  [file, module, namespaceDecl, package, classDecl, method, property, field, constructor, enumDecl,
    interfaceDecl, function, variableDecl, constant, string, number, boolean, array, object, key,
    null, enumMember, structDecl, event, operator, typeParameter]

def name : ReportedKind → String
  | file => "file"
  | module => "module"
  | namespaceDecl => "namespace"
  | package => "package"
  | classDecl => "class"
  | method => "method"
  | property => "property"
  | field => "field"
  | constructor => "constructor"
  | enumDecl => "enum"
  | interfaceDecl => "interface"
  | function => "function"
  | variableDecl => "variable"
  | constant => "constant"
  | string => "string"
  | number => "number"
  | boolean => "boolean"
  | array => "array"
  | object => "object"
  | key => "key"
  | null => "null"
  | enumMember => "enum_member"
  | structDecl => "struct"
  | event => "event"
  | operator => "operator"
  | typeParameter => "type_parameter"

def ofName? (s : String) : Option ReportedKind := all.find? fun k => k.name == s

end ReportedKind

/-- A symbol in the outline of a file. Lines and columns are counted from zero and fit in 32 bits.
-/
structure ReportedSymbol where
  name : String
  kind : ReportedKind
  /-- A signature or a type, if the server gives one. -/
  detail : Option String
  /-- What the symbol is declared in, in outlines that are not nested. -/
  containerName : Option String
  /-- The line of the symbol's name. -/
  startLine : Nat
  /-- The last line of the declaration. -/
  endLine : Nat
  /-- The column of the symbol's name. -/
  startColumn : Nat
  children : List ReportedSymbol
deriving Repr, Inhabited

end CodeGraph.LanguageServer
