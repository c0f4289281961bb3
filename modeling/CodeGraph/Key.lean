import CodeGraph.Text.Blank

/-!
# Keys of graph nodes

Every node is merged by its key, so a thing has the same key in every run. A key starts with the key
of the repository, apart from the keys of packages, which repositories share.
-/

namespace CodeGraph.Key

/-- The key of a declaration with this signature. -/
def symbol (repo signature : String) : String := s!"{repo}:{signature}"

/-- The key of the file at this path. Slashes at the front of the path do not count. -/
def file (repo path : String) : String :=
  repo ++ ":" ++ Text.dropStartWhile '/' path

/-- The key of an element inside a file, told apart by its line where the name alone is ambiguous.
-/
def element (fileKey kind name : String) (line : Option Nat) : String :=
  match line with
  | some line => s!"{fileKey}:{kind}:{name}:{line}"
  | none => s!"{fileKey}:{kind}:{name}"

/-- The key of one version of a package. -/
def dependency (name version : String) : String := s!"pkg:{name}:{version}"

end CodeGraph.Key
