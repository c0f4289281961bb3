import CodeGraph.Files.Tree

/-!
# Repositories

Commits with the files they hold, and the names that lead to them. Of files only the contents are
kept, and of links where they lead.
-/

namespace CodeGraph.Git

open Files (Location)

/-- What a commit holds at a path. -/
inductive Content where
  | file (bytes : List UInt8)
  | link (target : List UInt8)
deriving DecidableEq, Repr, Inhabited

/-- The contents of a commit by their paths from the working directory on. -/
abbrev Snapshot := List (Location × Content)

structure Commit where
  hash : String
  /-- The hashes of the commits it comes from. A merge has more than one. -/
  parents : List String
  snapshot : Snapshot
  authorName : String
  authorEmail : String
  /-- Seconds since 1970. -/
  time : Int
  message : String
deriving DecidableEq, Repr, Inhabited

/-- What is checked out. -/
inductive Head where
  | branch (name : String)
  | commit (hash : String)
deriving DecidableEq, Repr, Inhabited

structure Repository where
  /-- Whether there is no working directory. -/
  isBare : Bool := false
  commits : List Commit := []
  head : Head := .branch "master"
  /-- The commits at the tips of the branches. -/
  branches : List (String × String) := []
  tags : List (String × String) := []
  /-- The paths under version control. -/
  tracked : List Location := []
deriving Inhabited

namespace Repository

variable (r : Repository)

def commit? (hash : String) : Option Commit := r.commits.find? (·.hash == hash)

/-- The commit that is checked out, unless nothing has been committed on the branch. -/
def headCommit? : Option Commit :=
  match r.head with
  | .branch name => r.branches.lookup name >>= r.commit?
  | .commit hash => r.commit? hash

/-- The parents of a commit in order. -/
def parents (c : Commit) : List Commit := c.parents.filterMap r.commit?

/-- Puts a name in its place, or replaces it. -/
def setName (names : List (String × String)) (name hash : String) : List (String × String) :=
  (name, hash) :: names.filter (·.1 != name)

/-- Lets a branch end at a commit. -/
def setBranch (name hash : String) : Repository :=
  { r with branches := setName r.branches name hash }

def setTag (name hash : String) : Repository := { r with tags := setName r.tags name hash }

/-- Adds a commit after the one that is checked out, and checks it out. -/
def addCommit (c : Commit) : Repository :=
  let r' := { r with commits := c :: r.commits, tracked := c.snapshot.map Prod.fst }
  match r.head with
  | .branch name => r'.setBranch name c.hash
  | .commit _ => { r' with head := .commit c.hash }

/-- Checks out a commit by itself. -/
def detach (c : Commit) : Repository :=
  { r with head := .commit c.hash, tracked := c.snapshot.map Prod.fst }

end Repository

end CodeGraph.Git
