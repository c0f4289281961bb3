import CodeGraph.History.Basic
import CodeGraph.Path.Discovery
import CodeGraph.Run.Mode
import CodeGraph.Text.Ascending

/-!
# Change sets

What a run has to do: `ChangeSet.resolve` asks the history, `worklist` selects among the files of a
scan, and `tombstones` are the files to mark as deleted.
-/

namespace CodeGraph.Run

open CodeGraph.Path (DiscoveredFile)

structure ChangeSet where
  mode : Mode
  /-- Normalized paths in ascending order. -/
  modified : List String
  deleted : List String
  /-- The latest commit comes first. -/
  commits : List CommitInfo
deriving DecidableEq, Repr, Inhabited

namespace ChangeSet

/-- Every file, and nothing of the past. -/
def full : ChangeSet := ⟨.full, [], [], []⟩

variable {ω : Type}

/-- The changes since a base. Only a run that is not forced asks for changed files, and it takes
each of them once. -/
def since (history : History ω) (base : String) (force : Bool) (sourceRoot : String)
    (extensions : List String) (w : ω) : Except HistoryError ChangeSet × ω :=
  match history.commitsSince base w with
  | (.error e, w) => (.error e, w)
  | (.ok commits, w) =>
    if force then (.ok ⟨.forced, [], [], commits⟩, w)
    else
      match history.changedFiles base sourceRoot extensions w with
      | (.error e, w) => (.error e, w)
      | (.ok changed, w) =>
        let modified := Text.ascending changed.modified
        let deleted := Text.ascending changed.deleted
        (.ok ⟨.incremental, modified, deleted, commits⟩, w)

/-- The change set of a run. With a base, there has to be a repository around the source root. -/
def resolve (cwd : String) (history : Option (History ω)) (base : Option String) (force : Bool)
    (sourceRoot : String) (extensions : List String) (w : ω) :
    Except HistoryError ChangeSet × ω :=
  match base, history with
  | none, _ => (.ok full, w)
  | some _, none => (.error .unavailable, w)
  | some base, some history =>
    if Path.isWithin cwd history.root sourceRoot then
      since history base force sourceRoot extensions w
    else (.error (.outsideRepository sourceRoot history.root), w)

/-- The files to process, in the order of the scan. -/
def worklist (c : ChangeSet) (discovered : List DiscoveredFile) : List DiscoveredFile :=
  if c.mode = .incremental then discovered.filter fun f => c.modified.contains f.path
  else discovered

/-- The paths of files to mark as deleted. -/
def tombstones (c : ChangeSet) : List String :=
  if c.mode = .incremental then c.deleted else []

end ChangeSet

end CodeGraph.Run
