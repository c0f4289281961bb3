import CodeGraph.Graph.Node

/-!
# Version history

What a version control system is asked for: the commits since a base, the files that differ from it,
and the history of single files. All paths are normalized, so they compare equal to those of a scan.
-/

namespace CodeGraph

/-- The files that differ between a base and the present, each list in ascending order. -/
structure ChangedFiles where
  modified : List String := []
  deleted : List String := []
deriving DecidableEq, Repr, Inhabited

structure CommitInfo where
  hash : String
  authorName : String
  authorEmail : String
  date : Time.Instant
  message : String
  /-- The paths the commit touched. -/
  changedFiles : List String
deriving DecidableEq, Repr, Inhabited

/-- What is known of the past of a file. Nothing, if all fields are empty. -/
structure FileHistory where
  created : Option Time.Instant := none
  lastModified : Option Time.Instant := none
  authors : List AuthorStats := []
  /-- The latest commit comes first. -/
  commitHashes : List String := []
  tags : List String := []
deriving DecidableEq, Repr, Inhabited

inductive HistoryError where
  | notARepository (path : String)
  /-- The repository has no working directory. -/
  | bareRepository (path : String)
  | unknownRevision (expression : String)
  /-- Nothing has been committed yet. -/
  | unbornHead
  /-- The base and the present have no commit in common. -/
  | unrelated
  /-- A failure that the system reports in its own words. -/
  | reported (text : String)
  /-- A base was given, but there is no repository. -/
  | unavailable
  | outsideRepository (root repository : String)
  /-- The query broke off without an answer. -/
  | interrupted
deriving DecidableEq, Repr

def HistoryError.message : HistoryError → String
  | notARepository path => s!"No git repository found at or above {path}"
  | bareRepository path => s!"Repository at {path} has no working directory"
  | unknownRevision expression => s!"Git error: unknown revision {expression}"
  | unbornHead => "Git error: HEAD has no commit"
  | unrelated => "Git error: no merge base"
  | reported text => s!"Git error: {text}"
  | unavailable => "A diff base was given but no git repository is available"
  | outsideRepository root repository =>
    s!"Source root {root} is outside repository {repository}"
  | interrupted => "The history query broke off"

/-- A version control system whose queries change a state of type `ω`. -/
structure History (ω : Type) where
  /-- The normalized path of the working directory. -/
  root : String
  /-- The commits that the present has and the base has not, the latest first. -/
  commitsSince : (base : String) → ω → Except HistoryError (List CommitInfo) × ω
  /-- The files below `sourceRoot` with one of the extensions that differ from the last commit which
  the base and the present have in common. -/
  changedFiles : (base sourceRoot : String) → (extensions : List String) → ω →
    Except HistoryError ChangedFiles × ω
  /-- The history of the file at a path, unless the query breaks off. -/
  fileHistory : (path : String) → ω → Option FileHistory × ω

/-- The history as a part of something larger. -/
def History.within {σ ω : Type} (h : History σ) (part : ω → σ) (replace : ω → σ → ω) :
    History ω where
  root := h.root
  commitsSince base w :=
    let (r, s) := h.commitsSince base (part w)
    (r, replace w s)
  changedFiles base sourceRoot extensions w :=
    let (r, s) := h.changedFiles base sourceRoot extensions (part w)
    (r, replace w s)
  fileHistory path w :=
    let (r, s) := h.fileHistory path (part w)
    (r, replace w s)

end CodeGraph
