import CodeGraph.Ignore.Lookup
import CodeGraph.Path.Discovery

/-!
# Scans

The files below a directory that have one of the extensions. Some directories are left out by their
names, and whatever is ignored; links are not followed.
-/

namespace CodeGraph.Files

open CodeGraph.Path (DiscoveredFile)

/-- Whether a scan leaves out an entry. -/
def isLeftOut (t : Tree) (l : Location) (isDirectory : Bool) : Bool :=
  (isDirectory && Path.isExcluded (Text.decodeLossy (l.getLast?.getD [])))
    || Ignore.overallVerdict t l isDirectory == some true

namespace Tree

/-- The files that a scan of a directory reaches, by their paths from it. -/
def reached (t : Tree) (directory : Location) : List Location :=
  (t.below directory).filterMap fun (rest, e) =>
    match e with
    | .file _ =>
      if Ignore.isOpen t (isLeftOut t) directory (directory ++ rest) then some rest else none
    | _ => none

/-- Puts a file in its place by path. -/
def insertByPath (f : DiscoveredFile) : List DiscoveredFile → List DiscoveredFile
  | [] => [f]
  | g :: rest =>
    if f.path < g.path || (f.path = g.path && f.relativePath < g.relativePath) then f :: g :: rest
    else if f = g then g :: rest
    else g :: insertByPath f rest

/-- The files below `root` with one of the extensions, in the order of their paths, each once. -/
def scan (t : Tree) (cwd root : String) (extensions : List String) : List DiscoveredFile :=
  let absolute := if Path.isAbsolute root.toList then root else s!"{cwd}/{root}"
  match t.resolve? (namesOfText absolute) with
  | none => []
  | some directory =>
    if t.isDirectory directory then
      let paths := (t.reached directory).map fun l => root ++ Text.decodeLossy (bytesOf l)
      let found := (paths.filter fun p => Path.endsInOneOf p extensions).filterMap
        (DiscoveredFile.of? cwd root)
      found.foldl (fun acc f => insertByPath f acc) []
    else []

end Tree

end CodeGraph.Files
