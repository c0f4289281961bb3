import CodeGraph.Ignore.Glob
import CodeGraph.Text.Line

/-!
# Ignore rules

The rules of an ignore file, one a line. A rule without a slash fits at any depth, and one with a
slash fits from the directory of its file on. The last rule that fits decides.
-/

namespace CodeGraph.Ignore

open Text (Pattern)

structure Rule where
  /-- Whether the rule takes back that something is ignored. -/
  isWhitelist : Bool
  /-- Whether the rule is for directories only. -/
  isForDirectories : Bool
  patterns : List Pattern

/-- A line without the blanks at its end, unless a backslash keeps the last of them. -/
def trimLine (line : List Char) : List Char :=
  if ['\\', ' '].isSuffixOf line then line else Text.trimEndChars line

/-- A line without the signs in front: what remains, whether it is a whitelist, and whether it fits
from the directory of the file on. -/
def withoutSigns (line : List Char) : List Char × Bool × Bool :=
  match line with
  | '\\' :: '!' :: _ | '\\' :: '#' :: _ => (line.drop 1, false, false)
  | '!' :: '/' :: rest => (rest, true, true)
  | '!' :: rest => (rest, true, false)
  | '/' :: rest => (rest, false, true)
  | line => (line, false, false)

/-- A line without the slash at its end, and whether there was one. A backslash before it goes, too.
-/
def withoutSlash (line : List Char) : List Char × Bool :=
  match line.reverse with
  | '/' :: '\\' :: rest => (rest.reverse, true)
  | '/' :: rest => (rest.reverse, true)
  | _ => (line, false)

/-- The glob that a rule stands for. -/
def ruleGlob (isAnchored : Bool) (glob : List Char) : List Char :=
  let isDeep := glob = ['*', '*'] || ['*', '*', '/'].isPrefixOf glob
  let glob :=
    if isAnchored || glob.contains '/' || isDeep then glob else "**/".toList ++ glob
  if "/**".toList.isSuffixOf glob then glob ++ "/*".toList else glob

/-- The rule of a line, unless the line is empty, a comment or malformed. -/
def Rule.ofLine? (line : List Char) : Option Rule := do
  if line.head? == some '#' then none
  else
    let line := trimLine line
    if line.isEmpty then none
    else
      let (line, isWhitelist, isAnchored) := withoutSigns line
      let (glob, isForDirectories) := withoutSlash line
      return ⟨isWhitelist, isForDirectories, ← globPatterns? (ruleGlob isAnchored glob)⟩

/-- The rules of a file. Nothing counts from the first line on that is no UTF-8. -/
def rulesOf (bytes : List UInt8) : List Rule :=
  let lines := (Text.splitLines (Text.decodeLossy bytes)).takeWhile fun l => !l.contains '\uFFFD'
  let lines := match lines with
    | ('\uFEFF' :: first) :: rest => first :: rest
    | lines => lines
  lines.filterMap Rule.ofLine?

/-- Whether the rules ignore the entry at a path below the directory of their file, if a rule fits.
-/
def verdict (rules : List Rule) (path : List Char) (isDirectory : Bool) : Option Bool :=
  (rules.reverse.find? fun r =>
    (isDirectory || !r.isForDirectories) && r.patterns.any (fits · path)).map (!·.isWhitelist)

end CodeGraph.Ignore
