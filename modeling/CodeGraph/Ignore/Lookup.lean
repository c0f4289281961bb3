import CodeGraph.Files.Tree
import CodeGraph.Ignore.Rule

/-!
# Where rules are looked up

An entry is judged by the rules of the directories above it, the innermost first, and the first file
with a rule that fits decides. Files named `.ignore` count everywhere. What belongs to a repository,
that is files named `.gitignore` and the `info/exclude` of the repository, counts inside of a
repository only, up to the directory where the repository starts.
-/

namespace CodeGraph.Ignore

open Files (Location Tree)

/-- The directories above a location, the innermost first and the root last. -/
def directoriesAbove (l : Location) : List Location := (Files.onTheWay l).dropLast.reverse

def gitName : Files.Name := Text.encode ".git"

/-- Whether a repository starts in the directory. -/
def startsRepository (t : Tree) (directory : Location) : Bool :=
  (t.entry? (directory ++ [gitName])).isSome

/-- The rules of a file that lies at `path` from the directory on. -/
def rulesIn (t : Tree) (path : List Files.Name) (directory : Location) : List Rule :=
  ((t.read? (directory ++ path)).map rulesOf).getD []

/-- The names between slashes, without one in front. -/
def bytesBetween (l : Location) : List UInt8 := (Files.bytesOf l).drop 1

/-- What the rules of the first directory with a rule that fits say about an entry. -/
def search (rules : Location → List Rule) (directories : List Location) (l : Location)
    (isDirectory : Bool) : Option Bool :=
  directories.findSome? fun d =>
    verdict (rules d) (bytesAsChars (bytesBetween (l.drop d.length))) isDirectory

/-- The directories up to the first in which a repository starts. There are none outside of one. -/
def upToRepository (t : Tree) : List Location → List Location
  | [] => []
  | d :: rest =>
    if startsRepository t d then [d]
    else
      match upToRepository t rest with
      | [] => []
      | more => d :: more

/-- What a repository says about an entry. -/
def repositoryVerdict (t : Tree) (l : Location) (isDirectory : Bool) : Option Bool :=
  let directories := upToRepository t (directoriesAbove l)
  (search (rulesIn t [Text.encode ".gitignore"]) directories l isDirectory).or
    (search (rulesIn t [gitName, Text.encode "info", Text.encode "exclude"]) directories l
      isDirectory)

/-- What all rules together say about an entry. -/
def overallVerdict (t : Tree) (l : Location) (isDirectory : Bool) : Option Bool :=
  (search (rulesIn t [Text.encode ".ignore"]) (directoriesAbove l) l isDirectory).or
    (repositoryVerdict t l isDirectory)

/-- Whether an entry below `top` can be reached: neither it nor a directory on the way from `top`
may be closed. -/
def isOpen (t : Tree) (closed : Location → (isDirectory : Bool) → Bool) (top l : Location) : Bool :=
  (Files.onTheWay l).all fun m => m.length ≤ top.length || !closed m (t.isDirectory m)

end CodeGraph.Ignore
