import CodeGraph.Git.Delta
import CodeGraph.Git.Revision
import CodeGraph.Git.Walk
import CodeGraph.History.Touch
import CodeGraph.Path.Extension

/-!
# The history of a repository

A repository answers what is asked of a version history. What it knows about single files comes from
an index over all commits that can be reached, which is made when it is asked for the first time and
then kept.
-/

namespace CodeGraph.Git

/-- The touches with the paths they touched, the latest first. -/
abbrev Index := List (String × Touch)

/-- The time of a commit. Times beyond the calendar count as the beginning of 1970. -/
def Commit.instant (c : Commit) : Time.Instant :=
  (Time.Instant.ofSeconds? c.time).getD Time.Instant.epoch

/-- The changed files that deltas come to, of the paths to keep. -/
def changedBy (absolute : Files.Location → String) (keep : String → Bool) (l : List Delta) :
    ChangedFiles where
  modified := Text.ascending (((l.filterMap Delta.newPath?).map absolute).filter keep)
  deleted := Text.ascending (((l.filterMap Delta.oldPath?).map absolute).filter keep)

section Selection

variable (cwd : String)

/-- The normalized path of what is at a location in the working directory at `root`. -/
def absolutePath (root : String) (p : Files.Location) : String :=
  Path.normalize cwd s!"{root}/{pathText p}"

/-- Whether a path lies below the source root and ends in one of the extensions. -/
def isSource (sourceRoot : String) (extensions : List String) (path : String) : Bool :=
  (Path.relative? cwd sourceRoot path).isSome && Path.endsInOneOf path extensions

end Selection

namespace Repository

variable (r : Repository)

/-- The names of the tags on a commit. -/
def tagsOn (c : Commit) : List String :=
  (r.tags.filter fun t => (r.commit? t.2).any (·.hash == c.hash)).map (·.1)

def touch (c : Commit) : Touch := ⟨c.hash, c.authorName, c.instant, r.tagsOn c⟩

/-- The commits that can be reached from the one that is checked out, in the order of a walk. Before
the first commit there are none. -/
def past : List Commit :=
  match r.headCommit? with
  | none => []
  | some head => r.walk head

/-- The touches of some commits, in their order. -/
def touchesOf (l : List Commit) : Index :=
  l.flatMap fun c => (r.touchedPaths c).map fun p => (p, r.touch c)

/-- All touches of the commits that can be reached. -/
def index : Index := r.touchesOf r.past

/-- The base that an expression names, and the commit that is checked out. -/
def ends (base : String) : Except HistoryError (Commit × Commit) :=
  match r.resolve? base, r.headCommit? with
  | some b, some head => .ok (b, head)
  | none, _ => .error (.unknownRevision base)
  | some _, none => .error .unbornHead

variable (cwd root : String)

/-- What the commits since a base say of themselves. -/
def commitsSince (base : String) : Except HistoryError (List CommitInfo) := do
  let (b, head) ← r.ends base
  return (r.walkSince b head).map fun c => {
    hash := c.hash
    authorName := c.authorName
    authorEmail := c.authorEmail
    date := c.instant
    message := Text.trim c.message
    changedFiles := (r.touchedPaths c).map fun p => Path.normalize cwd s!"{root}/{p}" }

/-- The files that differ from the last commit in common with the base. What tells the two snapshots
apart is up to `compare`, which may also pair files that were deleted with files that were added. -/
def changedFiles (compare : Snapshot → Snapshot → List Delta) (base sourceRoot : String)
    (extensions : List String) : Except HistoryError ChangedFiles := do
  let (b, head) ← r.ends base
  match r.mergeBase? b head with
  | none => throw .unrelated
  | some common =>
    return changedBy (absolutePath cwd root) (isSource cwd sourceRoot extensions)
      (compare common.snapshot head.snapshot)

end Repository

/-- A repository with its index, once it has been made. -/
structure OpenRepository where
  repository : Repository
  index : Option Index := none
deriving Inhabited

namespace OpenRepository

variable (r : OpenRepository)

/-- Makes the index unless it is there. -/
def indexed : Index × OpenRepository :=
  let index := r.index.getD r.repository.index
  (index, { r with index := some index })

/-- The past of the file at a path from the working directory on. -/
def fileHistory (index : Index) (relativePath : String) : FileHistory :=
  .ofTouches ((index.filter (·.1 == relativePath)).map (·.2))

/-- The history of a repository with its working directory at `root`. -/
def history (cwd root : String) : History OpenRepository where
  root
  commitsSince base r := (r.repository.commitsSince cwd root base, r)
  changedFiles base sourceRoot extensions r :=
    (r.repository.changedFiles cwd root deltas base sourceRoot extensions, r)
  fileHistory path r :=
    match Path.relative? cwd root path with
    | none => (some {}, r)
    | some relativePath =>
      let (index, r) := r.indexed
      (some (fileHistory index relativePath), r)

end OpenRepository

end CodeGraph.Git
