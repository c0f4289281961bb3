import CodeGraph.Extract.Stats
import CodeGraph.Run.Buffer
import CodeGraph.Run.Mode

/-!
# Reports

What a run has done, in numbers and in a line of text, and the names of the phases it goes through.
-/

namespace CodeGraph.Run

inductive Phase where
  | idle
  | versionVerified
  | schemaEnsured
  | projectUpserted
  | processing
  | finalFlush
  | done
deriving DecidableEq, Repr

namespace Phase

/-- The phases in the order in which a run goes through them. -/
def all : List Phase :=
  [idle, versionVerified, schemaEnsured, projectUpserted, processing, finalFlush, done]

def name : Phase → String
  | idle => "idle"
  | versionVerified => "version verified"
  | schemaEnsured => "schema ensured"
  | projectUpserted => "project upserted"
  | processing => "processing"
  | finalFlush => "final flush"
  | done => "done"

end Phase

structure Report where
  mode : Mode
  /-- Files found below the source root. -/
  filesDiscovered : Nat := 0
  /-- Files that the change set selects. -/
  filesSelected : Nat := 0
  filesProcessed : Nat := 0
  /-- Files that could not be read. -/
  filesFailed : Nat := 0
  filesDeleted : Nat := 0
  commits : Nat := 0
  dependencies : Nat := 0
  written : FlushTotals := {}
  extraction : ExtractionStats := .empty
deriving DecidableEq, Repr, Inhabited

namespace Report

/-- The counts by kind of document. -/
def countsByKind (r : Report) : String :=
  let kinds := r.extraction.handled.map fun (kind, n) => s!"{kind}={n}"
  let rest := if r.extraction.unhandled = 0 then [] else [s!"unhandled={r.extraction.unhandled}"]
  ", ".intercalate (kinds ++ rest)

def summary (r : Report) : String :=
  s!"{r.mode.name} sync: {r.filesProcessed}/{r.filesSelected} files processed "
    ++ s!"({r.filesFailed} failed, {r.filesDeleted} deleted), "
    ++ s!"{r.written.symbols} symbols, {r.written.relationships} relationships "
    ++ s!"({r.written.dangling} dangling) in {r.written.flushes} flushes"

end Report

end CodeGraph.Run
