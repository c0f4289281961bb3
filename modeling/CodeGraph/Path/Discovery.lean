import CodeGraph.Path.Extension

/-!
# Discovered files

A file that a scan finds, by its normalized path and by its path from the source root on. A scan
looks for certain extensions and leaves certain directories out.
-/

namespace CodeGraph.Path

/-- The extensions a scan looks for unless it is told otherwise. -/
def scannedExtensions : List String :=
  [".cs", ".razor", ".xaml", ".js", ".html", ".xml", ".json", ".css", ".csproj"]

/-- Directories that hold nothing written by hand, in small letters. -/
def excludedDirectories : List String := ["bin", "obj", ".git", ".idea", "node_modules"]

def isExcluded (directory : String) : Bool :=
  excludedDirectories.any fun e => Text.eqIgnoringAsciiCase directory e

/-- Files are ordered by their normalized paths. -/
structure DiscoveredFile where
  path : String
  relativePath : String
deriving DecidableEq, Repr, Inhabited

/-- The file at `path` below `root`. -/
def DiscoveredFile.of? (cwd root path : String) : Option DiscoveredFile :=
  (relative? cwd root path).map fun relativePath => ⟨normalize cwd path, relativePath⟩

end CodeGraph.Path
