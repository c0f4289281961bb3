import CodeGraph.Extract.Extraction
import CodeGraph.Markup.Element

/-!
# Project files

A project file sets properties and refers to packages and to other projects. `packageReferences`
lists the packages alone, for the dependencies of a project.
-/

namespace CodeGraph.ProjectFile

open Markup (Element)

/-- The version a reference asks for, in an attribute or in an element inside it. -/
def version? (e : Element) : Option String :=
  ((e.attribute? "Version").or
      ((e.childrenNamed "Version").head?.map fun v => Text.trim v.text)).filter (· != "")

/-- What a reference refers to. -/
def include? (e : Element) : Option String :=
  ((e.attribute? "Include").map Text.trim).filter (· != "")

/-- The packages a project refers to, with the versions it asks for. -/
def packageReferences (content : String) : List (String × Option String) :=
  match Markup.parse content with
  | .error _ => []
  | .ok root =>
    (root.descendants.filter fun e => e.name == "PackageReference").filterMap fun e =>
      (include? e).map fun name => (name, version? e)

/-- The symbol of a property that is set to a value. -/
def property? (f : SourceFile) (e : Element) : Option Attachment :=
  let value := Text.trim e.text
  if e.name == "" || value == "" then none
  else
    let key := Key.element f.key SymbolKind.projectProperty.name e.name (some e.line)
    let s := f.element key e.name .projectProperty s!"{e.name}: {value}" (some e.line)
    some ⟨f.key, .hasProperty, { s with documentation := some value }⟩

def properties (f : SourceFile) (root : Element) : List Attachment :=
  ((root.childrenNamed "PropertyGroup").flatMap (·.children)).filterMap (property? f)

/-- The kind of reference that an element with this name makes. -/
def referenceKind? (name : String) : Option SymbolKind :=
  if name = "PackageReference" then some .packageReference
  else if name = "ProjectReference" then some .projectReference
  else none

/-- The symbol of a reference. That of a package tells its version. -/
def reference? (f : SourceFile) (e : Element) : Option Attachment := do
  let kind ← referenceKind? e.name
  let name ← include? e
  let s := f.named kind name (some e.line) (some e.line)
  if kind = .packageReference then
    let version := version? e
    let shown := version.getD "*"
    let qualifiedName := s!"{name} ({shown})"
    return ⟨f.key, .dependsOn, { s with qualifiedName, documentation := version }⟩
  else return ⟨f.key, .dependsOn, s⟩

def references (f : SourceFile) (root : Element) : List Attachment :=
  root.descendants.filterMap (reference? f)

/-- A file that is malformed has no symbols. -/
def extract (f : SourceFile) : Extraction :=
  match Markup.parse f.content with
  | .ok root => .ofAttachments (properties f root ++ references f root)
  | .error _ => .empty

end CodeGraph.ProjectFile
