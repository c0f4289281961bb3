import CodeGraph.Graph.Accessibility
import CodeGraph.Graph.Relation
import CodeGraph.Graph.SymbolKind
import CodeGraph.Time.Instant

/-!
# Nodes and relationships

What a synchronization writes to the graph. Nodes have keys, and a relationship joins two nodes by
their keys. Lines are numbers of at most 32 bits and start at one.
-/

namespace CodeGraph

structure Symbol where
  key : String
  name : String
  kind : SymbolKind
  qualifiedName : String
  accessibility : Accessibility
  /-- The key of the file that declares the symbol. -/
  fileKey : String
  /-- The normalized path of that file. -/
  filePath : String
  startLine : Option Nat
  endLine : Option Nat
  documentation : Option String
  comments : Option String
deriving DecidableEq, Repr, Inhabited

structure Relationship where
  source : String
  target : String
  type : RelType
deriving DecidableEq, Repr, Inhabited

/-- What one author did to a file. -/
structure AuthorStats where
  name : String
  firstCommit : Time.Instant
  lastCommit : Time.Instant
  commitCount : Nat
deriving DecidableEq, Repr, Inhabited

/-- A file with what the history says about it. -/
structure FileNode where
  key : String
  /-- The normalized absolute path. -/
  path : String
  /-- The path from the source root on. -/
  relativePath : String
  contentHash : String
  created : Option Time.Instant
  lastModified : Option Time.Instant
  authors : List AuthorStats
  commitHashes : List String
  tags : List String
deriving DecidableEq, Repr, Inhabited

/-- The node that all others belong to. -/
structure Project where
  repoKey : String
  name : String
deriving DecidableEq, Repr, Inhabited

/-- A version of a package that the project depends on. -/
structure Dependency where
  key : String
  name : String
  version : String
deriving DecidableEq, Repr, Inhabited

/-- A commit, with the keys of the files it touched. -/
structure CommitNode where
  hash : String
  authorName : String
  authorEmail : String
  date : Time.Instant
  message : String
  changedFileKeys : List String
deriving DecidableEq, Repr, Inhabited

end CodeGraph
