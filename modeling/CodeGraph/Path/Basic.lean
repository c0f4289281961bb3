import CodeGraph.Text.Blank
import CodeGraph.Text.Front
import CodeGraph.Text.Split

/-!
# Paths

Paths are resolved lexically, without a look at the file system: against the working directory,
with `.` dropped and `..` taking back the name before it. A normalized path uses forward slashes, so
that keys made from it are the same on every platform.
-/

namespace CodeGraph.Path

/-- The names of a path between its slashes. Empty names and `.` name nothing. -/
def names (path : List Char) : List (List Char) :=
  (Text.pieces '/' path).filter fun n => n ≠ [] && n ≠ ['.']

/-- Enters the names one after the other from the directory `stack`, the innermost name first. A
`..` leaves a directory, and the root has none above it. -/
def enter (stack : List (List Char)) : List (List Char) → List (List Char)
  | [] => stack
  | n :: ns => if n = ['.', '.'] then enter stack.tail ns else enter (n :: stack) ns

/-- The absolute path with these names. -/
def ofNames (ns : List (List Char)) : List Char := '/' :: ['/'].intercalate ns

def isAbsolute (path : List Char) : Bool := path.head? == some '/'

/-- The names of the absolute path that `path` stands for in the directory `cwd`. -/
def resolve (cwd path : List Char) : List (List Char) :=
  (enter [] (names (if isAbsolute path then path else cwd ++ '/' :: path))).reverse

/-- Slashes at the end say nothing, unless they are the whole path. -/
def trimSlashes (path : List Char) : List Char :=
  if path.length ≤ 1 then path else (path.reverse.dropWhile (· == '/')).reverse

def normalizeChars (cwd path : List Char) : List Char :=
  trimSlashes ((ofNames (resolve cwd path)).map fun c => if c = '\\' then '/' else c)

/-- The normalized form of a path: absolute, resolved, with forward slashes. Backslashes turn into
slashes last, so they separate no names while the path is resolved. -/
def normalize (cwd path : String) : String :=
  String.ofList (normalizeChars cwd.toList path.toList)

def relativeChars? (cwd root path : List Char) : Option (List Char) := do
  let root := normalizeChars cwd root
  let path := normalizeChars cwd path
  let rest ← Text.after? (root.reverse.dropWhile (· == '/')).reverse path
  let rest ← Text.after? ['/'] rest
  if rest.isEmpty then none else some rest

/-- The path of a file below `root`, from `root` on, or `none` for the root itself and for anything
outside it. -/
def relative? (cwd root path : String) : Option String :=
  (relativeChars? cwd.toList root.toList path.toList).map String.ofList

/-- Whether `path` is `root` or lies below it. -/
def isWithin (cwd root path : String) : Bool :=
  normalize cwd root == normalize cwd path || (relative? cwd root path).isSome

end CodeGraph.Path
