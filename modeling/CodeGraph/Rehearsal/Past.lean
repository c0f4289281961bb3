import CodeGraph.History.Basic
import CodeGraph.Json.Record

/-!
# A past for rehearsals

A history that gives answers known beforehand and keeps what it is asked.
-/

namespace CodeGraph.Rehearsal

open Json (Value)

/-- What a history is asked about the difference to a base. -/
inductive Question where
  | commitsSince (base : String)
  | changedFiles (base sourceRoot : String) (extensions : List String)
deriving DecidableEq, Repr

def Question.toJson : Question → Value
  | commitsSince base => .ofMembers [("vcs", .string "commits_since"), ("base", .string base)]
  | changedFiles base sourceRoot extensions => .ofMembers [
      ("vcs", .string "changed_files"), ("base", .string base),
      ("source_root", .string sourceRoot), ("extensions", .ofStrings extensions)]

/-- The answers. -/
structure Past where
  root : String
  commits : Except HistoryError (List CommitInfo)
  changed : Except HistoryError ChangedFiles
  /-- The past of files by their paths. Of some the query breaks off, and others have none. -/
  files : List (String × Option FileHistory) := []

namespace Past

/-- The history with these answers. It adds the questions to a list, the latest first. -/
def history (p : Past) : History (List Question) where
  root := p.root
  commitsSince base asked := (p.commits, .commitsSince base :: asked)
  changedFiles base sourceRoot extensions asked :=
    (p.changed, .changedFiles base sourceRoot extensions :: asked)
  fileHistory path asked := ((p.files.lookup path).getD (some {}), asked)

end Past

end CodeGraph.Rehearsal
