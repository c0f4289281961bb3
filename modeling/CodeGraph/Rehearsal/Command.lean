import CodeGraph.Command.Progress
import CodeGraph.Json.Parser
import CodeGraph.Json.Printer
import CodeGraph.Rehearsal.Stage

/-!
# A command line for rehearsals

Carries out a command line on files that are given as a JSON object of texts by absolute paths. What
comes back are the lines to print: one for each file, then the requests that the store got, and the
summary.
-/

namespace CodeGraph.Rehearsal

open Json (Value)

/-- What a program prints and how it ends. -/
structure Printout where
  lines : List String := []
  complaints : List String := []
  exitCode : UInt8 := 0
deriving DecidableEq, Repr

/-- The variables that the command line depends on. -/
def watchedVariables : List String := ["NEO4J_PASSWORD", "GITHUB_ACTIONS", "TF_BUILD"]

/-- The tree with these files, if each of them has a text. -/
def treeOf? (input : String) : Option Files.Tree :=
  match Json.parse? input with
  | some (.object files) => files.foldlM (fun t (path, content) =>
      content.string?.map fun text => t.write (Files.namesOfText path) (Text.encode text)) {}
  | _ => none

/-- The requests that the store of a stage got, each in a line. -/
def journalLines (s : Stage) : List String :=
  s.store.takeJournal.1.map fun c => c.toJson.render

/-- Rehearses a synchronization. -/
def printout (platform : Command.Platform) (a : Command.Arguments) (tree : Files.Tree) :
    Printout :=
  let store := Store.requests.within (·.store) fun (s : Stage) store => { s with store }
  let (result, s) := (Stage.environment "/" fun _ => store).carryOut a { workspace := { tree } }
  let lines := s.announced.reverse.map platform.line ++ journalLines s
  match result with
  | .ok report => { lines := lines ++ [report.summary] }
  | .error e => { lines, complaints := [s!"Error: {e.message}"], exitCode := 1 }

/-- Carries out a command line. `environment` looks up variables, and `input` is the files. -/
def perform (environment : String → Option String) (arguments : List String) (input : String) :
    Printout :=
  match Command.parse (environment "NEO4J_PASSWORD") arguments with
  | .error e =>
    if e.isFailure then { complaints := [s!"error: {e.message}"], exitCode := 2 }
    else { lines := [e.message] }
  | .ok c =>
    match treeOf? input with
    | none => { complaints := ["Error: the input is no object of texts"], exitCode := 1 }
    | some tree =>
      printout (Command.Platform.detect fun n => (environment n).isSome) c.arguments tree

end CodeGraph.Rehearsal
