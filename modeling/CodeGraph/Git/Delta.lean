import CodeGraph.Git.Repository
import CodeGraph.Text.Utf8

/-!
# Deltas

What tells two snapshots apart, path by path in the order of the bytes. A file that takes the place
of a link is one that was added where another was deleted. A file that was deleted and one that was
added may be paired as a file that was renamed; which are paired does not matter here, since both
paths count all the same.
-/

namespace CodeGraph.Git

open Files (Location)

inductive Delta where
  | added (path : Location)
  | modified (path : Location)
  | deleted (path : Location)
  | renamed (before after : Location)
deriving DecidableEq, Repr

namespace Delta

/-- The path at which there is something new. -/
def newPath? : Delta → Option Location
  | added p | modified p | renamed _ p => some p
  | deleted _ => none

/-- The path at which there is nothing any more. -/
def oldPath? : Delta → Option Location
  | deleted p | renamed p _ => some p
  | added _ | modified _ => none

/-- The path by which the delta is known. -/
def path : Delta → Location
  | added p | modified p | deleted p | renamed _ p => p

end Delta

namespace Content

/-- Whether both are files, or both links. -/
def sameKind : Content → Content → Bool
  | file _, file _ | link _, link _ => true
  | _, _ => false

end Content

/-- What there is to say about a path. -/
def deltasAt (before after : Snapshot) (path : Location) : List Delta :=
  match before.lookup path, after.lookup path with
  | none, none => []
  | none, some _ => [.added path]
  | some _, none => [.deleted path]
  | some a, some b =>
    if a = b then [] else if a.sameKind b then [.modified path] else [.deleted path, .added path]

/-- Whether a path comes before another, by the bytes of the whole paths. -/
def pathPrecedes (p q : Location) : Bool := decide (Files.bytesOf p < Files.bytesOf q)

def insertPath (p : Location) : List Location → List Location
  | [] => [p]
  | q :: rest =>
    if pathPrecedes p q then p :: q :: rest else if p = q then q :: rest else q :: insertPath p rest

/-- All paths of two snapshots in order, each once. -/
def allPaths (before after : Snapshot) : List Location :=
  (before.map (·.1) ++ after.map (·.1)).foldl (fun acc p => insertPath p acc) []

/-- The deltas between two snapshots. -/
def deltas (before after : Snapshot) : List Delta :=
  (allPaths before after).flatMap (deltasAt before after)

/-- A path in a repository as text, with slashes between the names. -/
def pathText (p : Location) : String := Text.decodeLossy ((Files.bytesOf p).drop 1)

/-- A path in a repository as text with forward slashes. -/
def touchText (p : Location) : String := (pathText p).map fun x => if x = '\\' then '/' else x

namespace Repository

variable (r : Repository)

/-- What a commit starts from: what its parent holds, and nothing if it is the first. -/
def before (c : Commit) : Snapshot := ((r.parents c).head?.map (·.snapshot)).getD []

/-- The paths that a commit touches. A merge touches nothing, since the commits it merges have
touched the files. -/
def touchedPaths (c : Commit) : List String :=
  match c.parents with
  | _ :: _ :: _ => []
  | _ => (deltas (r.before c) c.snapshot).map fun d => touchText d.path

end Repository

end CodeGraph.Git
