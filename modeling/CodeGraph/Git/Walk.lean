import CodeGraph.Git.Heap
import CodeGraph.Git.Repository

/-!
# Walks

The commits that can be reached from one, the latest first. They are collected by date from the
start on, each once, and then put in order by a heap, so a commit that claims to be older than its
parent comes after it.
-/

namespace CodeGraph.Git.Repository

variable (r : Repository)

/-- Puts a commit in front of the first that is older. -/
def insertByDate (c : Commit) : List Commit → List Commit
  | [] => [c]
  | d :: rest => if d.time < c.time then c :: d :: rest else d :: insertByDate c rest

/-- Adds a commit to those that are to be visited, unless it has been seen. -/
def see (acc : List Commit × List String) (c : Commit) : List Commit × List String :=
  if acc.2.contains c.hash then acc else (insertByDate c acc.1, c.hash :: acc.2)

/-- Visits up to `n` commits, those in `pending` first and then their ancestors that have not been
seen. -/
def visit : (n : Nat) → (pending : List Commit) → (seen : List String) → List Commit
  | 0, _, _ => []
  | _, [], _ => []
  | n + 1, c :: pending, seen =>
    let (pending, seen) := (r.parents c).foldl see (pending, seen)
    c :: visit n pending seen

/-- The commits that can be reached from `c`, which is one of them. Each is visited once, so there
are no more visits than commits. -/
def reachable (c : Commit) : List Commit := visit r r.commits.length [c] [c.hash]

/-- Whether a commit can be reached from another. -/
def reaches (c d : Commit) : Bool := (r.reachable c).any (·.hash == d.hash)

def isLater (c d : Commit) : Bool := d.time < c.time

/-- The commits in the order of a walk. -/
def inOrder (l : List Commit) : List Commit := Heap.drain isLater l

/-- The commits that can be reached from `c`, the latest first. -/
def walk (c : Commit) : List Commit := inOrder (r.reachable c)

/-- The commits that can be reached from `c` and not from `base`, the latest first. -/
def walkSince (base c : Commit) : List Commit :=
  let hidden := (r.reachable base).map (·.hash)
  inOrder ((r.reachable c).filter fun d => !hidden.contains d.hash)

/-- The latest of the commits from which both can be reached no other of them can be reached. -/
def mergeBase? (c d : Commit) : Option Commit :=
  let common := (r.reachable c).filter fun e => r.reaches d e
  let best := common.filter fun e => !common.any fun f => f.hash != e.hash && r.reaches f e
  (inOrder best).head?

end CodeGraph.Git.Repository
