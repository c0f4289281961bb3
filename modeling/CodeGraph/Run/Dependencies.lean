import CodeGraph.Extract.ProjectFile
import CodeGraph.Path.Discovery

/-!
# Dependencies

The packages that the project files refer to, in ascending order of their keys, each key once.
-/

namespace CodeGraph.Run

open CodeGraph.Path (DiscoveredFile)

/-- The version of a package that no version is asked of. -/
def anyVersion : String := "*"

/-- The dependency that a package reference stands for. -/
def dependencyOf (reference : String × Option String) : Dependency :=
  let version := reference.2.getD anyVersion
  ⟨Key.dependency reference.1 version, reference.1, version⟩

/-- Puts a dependency in its place, unless there is one with its key. -/
def insertDependency (d : Dependency) : List Dependency → List Dependency
  | [] => [d]
  | e :: es =>
    if d.key < e.key then d :: e :: es
    else if d.key = e.key then e :: es
    else e :: insertDependency d es

/-- The package references of a project file. A file that is not well-formed UTF-8 has none. -/
def referencesIn (bytes : Option (List UInt8)) : List (String × Option String) :=
  ((bytes.bind Text.decode?).map ProjectFile.packageReferences).getD []

/-- The dependencies of the project files among those discovered. -/
def dependencies (read : String → Option (List UInt8)) (discovered : List DiscoveredFile) :
    List Dependency :=
  let projects := discovered.filter fun f => Path.hasExtension f.path [".csproj"]
  ((projects.flatMap fun f => referencesIn (read f.path)).map dependencyOf).foldl
    (fun acc d => insertDependency d acc) []

end CodeGraph.Run
