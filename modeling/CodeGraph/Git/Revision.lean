import CodeGraph.Bits
import CodeGraph.Git.Repository
import CodeGraph.Text.Natural

/-!
# Revisions

An expression that names a commit: a name or a hash, and then steps to its ancestors. `~n` goes back
`n` times to the first parent, `^n` goes to the parent with this number, and braces ask for the kind
of object, which has to be a commit.
-/

namespace CodeGraph.Git

inductive Step where
  /-- Back to the first parent that many times. -/
  | back (n : Nat)
  /-- To the parent with this number, counted from one. Zero is the commit itself. -/
  | parent (n : Nat)
deriving DecidableEq, Repr

structure Revision where
  name : String
  steps : List Step
deriving DecidableEq, Repr

namespace Revision

def isMark (c : Char) : Bool := c == '~' || c == '^'

/-- The number at the front, one if there is none. -/
def count? (l : List Char) : Option Nat :=
  let digits := l.takeWhile Char.isDigit
  if digits.isEmpty then some 1 else Text.natural? Bits.limit31 digits

/-- The steps that the rest of an expression stands for. -/
def steps? : List Char → Option (List Step)
  | [] => some []
  | c :: rest =>
    if c = '~' then do
      let n ← count? rest
      return .back n :: (← steps? (rest.dropWhile Char.isDigit))
    else if c = '^' then
      match rest with
      | '{' :: object =>
        let kind := String.ofList (object.takeWhile (· ≠ '}'))
        match _ : object.dropWhile (· ≠ '}') with
        | _ :: rest => if kind = "" || kind = "commit" then steps? rest else none
        | [] => none
      | rest => do
        let n ← count? rest
        return .parent n :: (← steps? (rest.dropWhile Char.isDigit))
    else none
termination_by l => l.length
decreasing_by
  all_goals simp only [List.length_cons]
  · have := (List.dropWhile_suffix (l := rest) Char.isDigit).length_le
    omega
  · have := (List.dropWhile_suffix (l := object) (· ≠ '}')).length_le
    simp_all only [List.length_cons]
    omega
  · have := (List.dropWhile_suffix (l := rest) Char.isDigit).length_le
    omega

def ofString? (s : String) : Option Revision :=
  let l := s.toList
  let name := String.ofList (l.takeWhile (!isMark ·))
  if name = "" then none else (steps? (l.dropWhile (!isMark ·))).map fun steps => ⟨name, steps⟩

end Revision

namespace Repository

variable (r : Repository)

/-- The hash that a full or a short name leads to. A tag goes before a branch. -/
def hashNamed? (name : String) : Option String :=
  let after (front : String) (names : List (String × String)) : Option String :=
    if front.toList.isPrefixOf name.toList then
      names.lookup (String.ofList (name.toList.drop front.length))
    else none
  ((after "refs/tags/" r.tags).or (after "refs/heads/" r.branches)).or
    (((after "tags/" r.tags).or (after "heads/" r.branches)).or
      ((r.tags.lookup name).or (r.branches.lookup name)))

/-- The commit with a hash or a name. -/
def named? (name : String) : Option Commit :=
  if name = "HEAD" || name = "@" then r.headCommit?
  else (r.commit? name).or (r.hashNamed? name >>= r.commit?)

/-- The ancestor that many first parents back. -/
def back? (c : Commit) : Nat → Option Commit
  | 0 => some c
  | n + 1 => (r.parents c).head? >>= fun p => back? p n

def follow? (c : Commit) : Step → Option Commit
  | .back n => r.back? c n
  | .parent 0 => some c
  | .parent (n + 1) => (r.parents c)[n]?

/-- The commit that an expression names. -/
def resolve? (expression : String) : Option Commit := do
  let revision ← Revision.ofString? expression
  revision.steps.foldlM r.follow? (← r.named? revision.name)

end Repository

end CodeGraph.Git
