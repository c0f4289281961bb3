import CodeGraph.Git.History
import CodeGraph.Ignore.Lookup

/-!
# Workspaces

A file tree with repositories in it. A repository has its working directory where it starts, or none
at all if it is bare. A commit takes in what is there, apart from what is ignored and not tracked
already, and a checkout puts back what a commit has taken in.
-/

namespace CodeGraph.Git

open Files (Location Tree)

structure Workspace where
  tree : Tree := {}
  /-- The repositories by the directories where they start. -/
  repositories : List (Location × Repository) := []
deriving Inhabited

/-- Who commits, when, and why. -/
structure Signature where
  name : String
  email : String
  time : Int
  message : String
deriving DecidableEq, Repr

/-- Characters that a name neither starts nor ends with. -/
def isCrud (c : Char) : Bool := c.toNat ≤ 0x20 || ".,:;<>\"\\".toList.contains c || c == '\''

/-- A name without the characters at its ends that do not count. -/
def cleaned (name : String) : String :=
  String.ofList ((name.toList.dropWhile isCrud).reverse.dropWhile isCrud).reverse

/-- The contents that are under version control in a directory: what is tracked, and whatever is not
ignored. Repositories inside of it keep to themselves. -/
def contentsIn (t : Tree) (directory : Location) (tracked : List Location) : Snapshot :=
  let isApart (l : Location) (isDirectory : Bool) : Bool :=
    l.getLast? == some Ignore.gitName || (isDirectory && Ignore.startsRepository t l)
  let isClosed (l : Location) (isDirectory : Bool) : Bool :=
    isApart l isDirectory || Ignore.repositoryVerdict t l isDirectory == some true
  (t.below directory).filterMap fun (path, e) =>
    let closed := if tracked.contains path then isApart else isClosed
    let content? : Option Content := match e with
      | .file bytes => some (.file bytes)
      | .link target => some (.link target)
      | .directory => none
    if Ignore.isOpen t closed directory (directory ++ path) then content?.map fun c => (path, c)
    else none

namespace Workspace

variable (w : Workspace)

/-- Whether there is a repository to be found in the directory. -/
def holds (directory : Location) (r : Repository) : Bool :=
  if r.isBare then w.tree.isDirectory directory else Ignore.startsRepository w.tree directory

def repository? (directory : Location) : Option Repository :=
  (w.repositories.lookup directory).filter (w.holds directory)

def setRepository (directory : Location) (r : Repository) : Workspace :=
  { w with repositories := (directory, r) :: w.repositories.filter (·.1 != directory) }

/-- Makes a directory the start of a repository, unless it is one. -/
def createRepository (directory : Location) (isBare : Bool) : Workspace :=
  if (w.repository? directory).isSome then w
  else
    let tree := w.tree.makeDirectories
      (if isBare then directory else directory ++ [Ignore.gitName, Text.encode "info"])
    { w with tree }.setRepository directory { isBare }

/-- The directory of the innermost repository at or above a path that is there. -/
def enclosing? (names : List Files.Name) : Option (Location × Repository) := do
  let l ← w.tree.resolve? names
  (l :: Ignore.directoriesAbove l).findSome? fun d => (w.repository? d).map fun r => (d, r)

/-- The directory of the repository around a path. A bare repository will not do. -/
def discover (path : String) : Except HistoryError Location :=
  match w.enclosing? (Files.namesOfText path) with
  | none => .error (.notARepository path)
  | some (directory, r) =>
    if r.isBare then
      .error (.bareRepository (if directory.isEmpty then "/" else Files.textOf directory ++ "/"))
    else .ok directory

/-- Commits what is in the directory of a repository. The commit comes after the one checked out, or
after the given parents, and is checked out by itself then. -/
def commit (directory : Location) (hash : String) (s : Signature) (parents : Option (List String)) :
    Workspace :=
  match w.repository? directory with
  | none => w
  | some r =>
    let c : Commit := {
      hash
      parents := parents.getD (r.headCommit?.map (·.hash)).toList
      snapshot := contentsIn w.tree directory r.tracked
      authorName := cleaned s.name
      authorEmail := cleaned s.email
      time := s.time
      message := s.message }
    let r := if parents.isSome then { r with head := .commit hash } else r
    w.setRepository directory (r.addCommit c)

/-- Makes the files in the directory of a repository those of a commit, which is checked out by
itself. -/
def checkout (directory : Location) (c : Commit) : Workspace :=
  match w.repository? directory with
  | none => w
  | some r =>
    let old := (contentsIn w.tree directory r.tracked).map (·.1)
    let cleared := old.foldl (fun t p => t.remove (directory ++ p)) w.tree
    let restored := c.snapshot.foldl (fun t (p, content) =>
      let l := directory ++ p
      (t.makeDirectories l.dropLast).put l (match content with
        | .file bytes => .file bytes
        | .link target => .link target)) cleared
    { w with tree := restored }.setRepository directory (r.detach c)

end Workspace

end CodeGraph.Git
