import CodeGraph.Graph.Accessibility
import CodeGraph.Path.Discovery

/-!
# Options of a run
-/

namespace CodeGraph.Run

def defaultBatchSize : Nat := 500

structure Options where
  /-- The source root. Keys of files are relative to it. -/
  root : String
  repoKey : String
  /-- The revision that an incremental run starts from. -/
  base : Option String := none
  /-- Whether every file is taken although there is a base. -/
  force : Bool := false
  batchSize : Nat := defaultBatchSize
  minimum : Accessibility := .priv
  extensions : List String := Path.scannedExtensions
  skipDependencies : Bool := false
deriving DecidableEq, Repr

/-- The name of the source root, or the key of the repository if the root has none. -/
def Options.projectName (o : Options) : String :=
  ((Path.fileName? o.root.toList).map String.ofList).getD o.repoKey

end CodeGraph.Run
