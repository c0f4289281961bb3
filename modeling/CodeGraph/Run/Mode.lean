/-!
# Modes of a run

A run takes every file, or the files that changed since a base, or every file together with the
commits since a base.
-/

namespace CodeGraph.Run

inductive Mode where
  | full
  /-- Files that changed since the base. Deleted files are marked as such. -/
  | incremental
  /-- Every file, although there is a base. -/
  | forced
deriving DecidableEq, Repr, Inhabited

namespace Mode

def ofBase (base : Option String) (force : Bool) : Mode :=
  match base with
  | none => full
  | some _ => if force then forced else incremental

/-- Whether the history is asked for commits. -/
def usesHistory (m : Mode) : Bool := m ≠ full

def name : Mode → String
  | full => "full"
  | incremental => "incremental"
  | forced => "forced"

end Mode

end CodeGraph.Run
