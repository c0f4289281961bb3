import CodeGraph.Text.Utf8

/-!
# File trees

Files, links and directories below a root. Names are bytes, since a file system does not ask whether
they are text. A path from the root is a list of names; the root itself has none.
-/

namespace CodeGraph.Files

/-- The name of an entry in its directory. -/
abbrev Name := List UInt8

/-- A path from the root of a tree. -/
abbrev Location := List Name

inductive Entry where
  | file (bytes : List UInt8)
  /-- A link, with the path it leads to. -/
  | link (target : List UInt8)
  | directory
deriving DecidableEq, Repr, Inhabited

namespace Entry

def isDirectory : Entry → Bool
  | directory => true
  | _ => false

end Entry

def slash : UInt8 := 0x2f

/-- The names between the slashes of a path. Those that name nothing are left out. -/
def namesOf (path : List UInt8) : List Name :=
  let step := fun (acc : Name × List Name) (b : UInt8) =>
    if b = slash then ([], acc.1 :: acc.2) else (acc.1 ++ [b], acc.2)
  let (last, earlier) := path.foldl step ([], [])
  (last :: earlier).reverse.filter fun n => n ≠ [] && n ≠ [0x2e]

/-- The names of a path that is a text. -/
def namesOfText (path : String) : List Name := namesOf (Text.encode path)

/-- The names with slashes in front. -/
def bytesOf (l : Location) : List UInt8 := l.flatMap fun n => slash :: n

/-- The absolute path as text. What is no UTF-8 is replaced. -/
def textOf (l : Location) : String :=
  if l.isEmpty then "/" else Text.decodeLossy (bytesOf l)

/-- The directories on the way to a location from the root on, and the location itself. -/
def onTheWay (l : Location) : List Location := (List.range (l.length + 1)).map l.take

def parentName : Name := [0x2e, 0x2e]

/-- A tree. Every entry but those in the root lies in a directory of the tree. -/
structure Tree where
  entries : List (Location × Entry) := []
deriving DecidableEq, Repr, Inhabited

namespace Tree

def entry? (t : Tree) (l : Location) : Option Entry :=
  if l.isEmpty then some .directory else t.entries.lookup l

def isDirectory (t : Tree) (l : Location) : Bool := (t.entry? l).any Entry.isDirectory

/-- How many links are followed on the way to a file. -/
def maxLinks : Nat := 40

/-- Enters the names one after the other, from a location that is there. Links are followed, `..`
goes back, and there is no way on from a file. -/
def walk (t : Tree) (links : Nat) (here : Location) (names : List Name) : Option Location :=
  match names with
  | [] => some here
  | n :: rest =>
    if n = parentName then walk t links here.dropLast rest
    else
      match t.entry? (here ++ [n]), links with
      | some .directory, links => walk t links (here ++ [n]) rest
      | some (.file _), _ => if rest.isEmpty then some (here ++ [n]) else none
      | some (.link target), links + 1 =>
        walk t links (if target.head? = some slash then [] else here) (namesOf target ++ rest)
      | _, _ => none
termination_by (links, names.length)

/-- Where the absolute path with these names leads. -/
def resolve? (t : Tree) (names : List Name) : Option Location := t.walk maxLinks [] names

/-- The absolute path without links that a path leads to, or the system's words for why there is
none. -/
def canonicalize (t : Tree) (cwd path : String) : Except String String :=
  let names := namesOfText (if path.toList.head? == some '/' then path else s!"{cwd}/{path}")
  let isFile (l : Location) := (t.entry? l).any fun e => !e.isDirectory
  match t.resolve? names with
  | some l => .ok (textOf l)
  | none =>
    let onTheWay := (List.range names.length).filterMap fun n => t.resolve? (names.take n)
    if onTheWay.any isFile then .error "Not a directory (os error 20)"
    else .error "No such file or directory (os error 2)"

/-- The bytes of the file that the path with these names leads to. -/
def read? (t : Tree) (names : List Name) : Option (List UInt8) :=
  match (t.resolve? names).bind t.entry? with
  | some (.file bytes) => some bytes
  | _ => none

/-- Puts an entry in a place whose directory is there. -/
def put (t : Tree) (l : Location) (e : Entry) : Tree :=
  ⟨(l, e) :: t.entries.filter (·.1 ≠ l)⟩

/-- Makes the directories on the way to a location, and the location itself one. -/
def makeDirectories (t : Tree) (l : Location) : Tree :=
  (onTheWay l).foldl (fun t l => if (t.entry? l).isSome then t else t.put l .directory) t

/-- Where an entry goes that is made at the path with these names. -/
def placeOf (t : Tree) (names : List Name) : Location :=
  (t.resolve? names).getD
    ((t.resolve? names.dropLast).getD names.dropLast ++ names.getLast?.toList)

/-- Writes a file, with the directories on the way. -/
def write (t : Tree) (names : List Name) (bytes : List UInt8) : Tree :=
  let t := t.makeDirectories names.dropLast
  t.put (t.placeOf names) (.file bytes)

/-- Makes a link, with the directories on the way. -/
def link (t : Tree) (names : List Name) (target : List UInt8) : Tree :=
  (t.makeDirectories names.dropLast).put names (.link target)

/-- Whether `l` is `below` or lies below it. -/
def isAtOrBelow (below l : Location) : Bool := below.isPrefixOf l

/-- Removes an entry and all below it. -/
def remove (t : Tree) (l : Location) : Tree := ⟨t.entries.filter fun e => !isAtOrBelow l e.1⟩

/-- The entries below a location, by their paths from it. -/
def below (t : Tree) (l : Location) : List (Location × Entry) :=
  t.entries.filterMap fun (m, e) =>
    if l.isPrefixOf m && m.length ≠ l.length then some (m.drop l.length, e) else none

end Tree

end CodeGraph.Files
