import CodeGraph.Path.Basic
import CodeGraph.Text.Letter

/-!
# File name extensions

Two tests meet here. A scan compares the end of the whole path with the extensions, and a reader
compares the last extension of the file name.
-/

namespace CodeGraph.Path

/-- The extensions with a dot in front, in small ASCII letters, without blanks and empty ones. -/
def normalizeExtensions (extensions : List String) : List String :=
  extensions.filterMap fun e =>
    let e := Text.asciiLower (Text.trim e)
    if e == "" || e == "." then none
    else if e.toList.head? == some '.' then some e
    else some s!".{e}"

/-- Whether the path ends in one of the extensions, up to the case of its ASCII letters. -/
def endsInOneOf (path : String) (extensions : List String) : Bool :=
  let path := (Text.asciiLower path).toList
  extensions.any fun e => e.toList.isSuffixOf path

/-- The last name of a path, unless the path ends in the root or in `..`. -/
def fileName? (path : List Char) : Option (List Char) :=
  match (names path).getLast? with
  | some n => if n = ['.', '.'] then none else some n
  | none => none

/-- The part of a file name after its last dot. A dot that starts the name does not count. -/
def extension? (path : List Char) : Option (List Char) := do
  let name ← fileName? path
  let before := (name.reverse.dropWhile (· ≠ '.')).tail
  if before.isEmpty then none else some (name.reverse.takeWhile (· ≠ '.')).reverse

/-- Whether the path's extension is one of those wanted, whatever the letter case. -/
def hasExtension (path : String) (wanted : List String) : Bool :=
  match extension? path.toList with
  | none => false
  | some e =>
    let e := Text.lower (String.ofList e)
    wanted.any fun w => Text.eqIgnoringAsciiCase (Text.dropStartWhile '.' w) e

end CodeGraph.Path
