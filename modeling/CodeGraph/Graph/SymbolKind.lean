/-!
# Kinds of symbols

What a symbol is: a declaration of a compiled language, or an element of a markup, style, script or
configuration file.
-/

namespace CodeGraph

inductive SymbolKind where
  | namespaceDecl
  | classDecl
  | structDecl
  | interfaceDecl
  | enumDecl
  | enumMember
  | method
  | constructor
  | property
  | field
  | event
  | delegate
  | function
  | constant
  | variableDecl
  | jsonProperty
  | xmlElement
  | xamlElement
  | xamlEventHandler
  | projectProperty
  | packageReference
  | projectReference
  | cssSelector
  | javaScriptFunction
  | javaScriptImport
  | htmlScriptReference
  | htmlElementId
  | usingDirective
  | injectDirective
  | modelDirective
  | inheritsDirective
deriving DecidableEq, Repr, Inhabited

namespace SymbolKind

def all : List SymbolKind :=
  [namespaceDecl, classDecl, structDecl, interfaceDecl, enumDecl, enumMember, method, constructor,
    property, field, event, delegate, function, constant, variableDecl, jsonProperty, xmlElement,
    xamlElement, xamlEventHandler, projectProperty, packageReference, projectReference,
    cssSelector, javaScriptFunction, javaScriptImport, htmlScriptReference, htmlElementId,
    usingDirective, injectDirective, modelDirective, inheritsDirective]

def name : SymbolKind → String
  | namespaceDecl => "Namespace"
  | classDecl => "Class"
  | structDecl => "Struct"
  | interfaceDecl => "Interface"
  | enumDecl => "Enum"
  | enumMember => "EnumMember"
  | method => "Method"
  | constructor => "Constructor"
  | property => "Property"
  | field => "Field"
  | event => "Event"
  | delegate => "Delegate"
  | function => "Function"
  | constant => "Constant"
  | variableDecl => "Variable"
  | jsonProperty => "JsonProperty"
  | xmlElement => "XmlElement"
  | xamlElement => "XamlElement"
  | xamlEventHandler => "XamlEventHandler"
  | projectProperty => "ProjectProperty"
  | packageReference => "PackageReference"
  | projectReference => "ProjectReference"
  | cssSelector => "CssSelector"
  | javaScriptFunction => "JavaScriptFunction"
  | javaScriptImport => "JavaScriptImport"
  | htmlScriptReference => "HtmlScriptReference"
  | htmlElementId => "HtmlElementId"
  | usingDirective => "UsingDirective"
  | injectDirective => "InjectDirective"
  | modelDirective => "ModelDirective"
  | inheritsDirective => "InheritsDirective"

def ofName? (s : String) : Option SymbolKind := all.find? fun k => k.name == s

/-- A namespace scopes names and becomes no node of the graph. -/
def isNamespace (k : SymbolKind) : Bool := k == namespaceDecl

end SymbolKind

end CodeGraph
