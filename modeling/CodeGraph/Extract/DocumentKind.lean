import CodeGraph.Extract.Filter
import CodeGraph.Extract.Json
import CodeGraph.Extract.Page
import CodeGraph.Extract.ProjectFile
import CodeGraph.Extract.Razor
import CodeGraph.Extract.Script
import CodeGraph.Extract.Source
import CodeGraph.Extract.Stylesheet
import CodeGraph.Extract.Xaml
import CodeGraph.Extract.Xml
import CodeGraph.Path.Extension

/-!
# Kinds of documents

The extension of a file decides how it is read. Whatever is found passes the accessibility filter.
-/

namespace CodeGraph

inductive DocumentKind where
  | source
  | razor
  | xaml
  | project
  | xml
  | json
  | css
  | javaScript
  | html
deriving DecidableEq, Repr

namespace DocumentKind

/-- The kinds in the order in which they are tried. -/
def all : List DocumentKind :=
  [source, razor, xaml, project, xml, json, css, javaScript, html]

theorem mem_all (k : DocumentKind) : k ∈ all := by cases k <;> decide

def name : DocumentKind → String
  | source => "source"
  | razor => "razor"
  | xaml => "xaml"
  | project => "project"
  | xml => "xml"
  | json => "json"
  | css => "css"
  | javaScript => "javascript"
  | html => "html"

def extensions : DocumentKind → List String
  | source => [".cs"]
  | razor => [".razor", ".cshtml"]
  | xaml => [".xaml"]
  | project => [".csproj"]
  | xml => [".xml", ".config", ".props", ".targets"]
  | json => [".json"]
  | css => [".css"]
  | javaScript => [".js"]
  | html => [".html", ".htm"]

/-- Whether a file at this path is of the kind. -/
def accepts (k : DocumentKind) (path : String) : Bool := Path.hasExtension path k.extensions

/-- The kind of the file at this path. -/
def ofPath? (path : String) : Option DocumentKind := all.find? (·.accepts path)

/-- What a file of this kind holds. Only sources look at the minimum and at the declarations. -/
def extract (k : DocumentKind) (f : SourceFile) (minimum : Accessibility)
    (facts : Except FactError (List Declaration)) : Extraction :=
  match k with
  | source => Source.extract f minimum facts
  | razor => Razor.extract f
  | xaml => Xaml.extract f
  | project => ProjectFile.extract f
  | xml => Xml.extract f
  | json => JsonDocument.extract f
  | css => Stylesheet.extract f
  | javaScript => Script.extract f
  | html => Page.extract f

end DocumentKind

/-- What the file holds under the minimum. A file of no known kind holds nothing. -/
def SourceFile.extract (f : SourceFile) (minimum : Accessibility)
    (facts : Except FactError (List Declaration)) : Extraction :=
  match DocumentKind.ofPath? f.path with
  | some k => (k.extract f minimum facts).restrict minimum
  | none => .empty

end CodeGraph
