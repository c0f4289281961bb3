import CodeGraph.History.Basic
import CodeGraph.Text.Ascending

/-!
# Touches

The past of a file follows from the commits that touched it: when it was created and changed last,
what each author did to it, and which tags are on it.
-/

namespace CodeGraph

/-- A commit that touched a file. -/
structure Touch where
  hash : String
  author : String
  time : Time.Instant
  /-- The tags on the commit. -/
  tags : List String
deriving DecidableEq, Repr, Inhabited

/-- The earliest of the times, `first` among them. -/
def earliest (first : Time.Instant) (rest : List Time.Instant) : Time.Instant :=
  rest.foldl Time.Instant.min first

/-- The latest of the times, `first` among them. -/
def latest (first : Time.Instant) (rest : List Time.Instant) : Time.Instant :=
  rest.foldl Time.Instant.max first

/-- What an author did, if there are touches of that author. -/
def AuthorStats.ofTouches? (touches : List Touch) (author : String) : Option AuthorStats :=
  match touches.filter (·.author = author) with
  | [] => none
  | t :: rest => some {
      name := author
      firstCommit := earliest t.time (rest.map (·.time))
      lastCommit := latest t.time (rest.map (·.time))
      commitCount := rest.length + 1 }

/-- The past of a file that these commits touched, the latest first. Authors and tags are in
ascending order. -/
def FileHistory.ofTouches (touches : List Touch) : FileHistory where
  created := touches.head?.map fun t => earliest t.time (touches.map (·.time))
  lastModified := touches.head?.map fun t => latest t.time (touches.map (·.time))
  authors := (Text.ascending (touches.map (·.author))).filterMap (AuthorStats.ofTouches? touches)
  commitHashes := touches.map (·.hash)
  tags := Text.ascending (touches.flatMap (·.tags))

end CodeGraph
