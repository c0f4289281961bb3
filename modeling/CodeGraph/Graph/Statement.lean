import CodeGraph.Graph.Node

/-!
# Statements

The statements that write to the graph database, and the parameters they carry. Nodes travel as
rows, maps from names to plain values. `flushStatements` writes a batch: the symbols first, and then
the relationships, one statement for each type, since a type is part of the text of its statement.
-/

namespace CodeGraph

inductive Scalar where
  | text (s : String)
  | integer (n : Int)
  | texts (l : List String)
deriving DecidableEq, Repr

abbrev Row := List (String × Scalar)

inductive Parameter where
  | scalar (s : Scalar)
  | rows (l : List Row)
deriving DecidableEq, Repr

structure Statement where
  text : String
  parameters : List (String × Parameter)
deriving DecidableEq, Repr

/-! ## Rows -/

/-- What stands for a missing line. -/
def noLine : Int := -1

def lineScalar (line : Option Nat) : Scalar := .integer (line.elim noLine Int.ofNat)

/-- A missing instant becomes an empty text. -/
def instantText (i : Option Time.Instant) : String := (i.map (·.offsetText)).getD ""

def Symbol.toRow (s : Symbol) : Row := [
  ("key", .text s.key),
  ("name", .text s.name),
  ("kind", .text s.kind.name),
  ("fqn", .text s.qualifiedName),
  ("accessibility", .text s.accessibility.name),
  ("fileKey", .text s.fileKey),
  ("filePath", .text s.filePath),
  ("startLine", lineScalar s.startLine),
  ("endLine", lineScalar s.endLine),
  ("documentation", .text (s.documentation.getD "")),
  ("comments", .text (s.comments.getD ""))]

def Relationship.toRow (r : Relationship) : Row :=
  [("fromKey", .text r.source), ("toKey", .text r.target)]

def AuthorStats.toRow (a : AuthorStats) : Row := [
  ("name", .text a.name),
  ("firstCommit", .text a.firstCommit.offsetText),
  ("lastCommit", .text a.lastCommit.offsetText),
  ("commitCount", .integer a.commitCount)]

def CommitNode.toRow (c : CommitNode) : Row := [
  ("hash", .text c.hash),
  ("authorName", .text c.authorName),
  ("authorEmail", .text c.authorEmail),
  ("date", .text c.date.offsetText),
  ("message", .text c.message),
  ("changedFiles", .texts c.changedFileKeys)]

def Dependency.toRow (d : Dependency) : Row :=
  [("key", .text d.key), ("name", .text d.name), ("version", .text d.version)]

namespace Statement

/-- A parameter that is a text. -/
def textOf (s : String) : Parameter := .scalar (.text s)

def plain (text : String) : Statement := ⟨text, []⟩

/-! ## Version and schema -/

/-- Asks for the version of the server. -/
def version : Statement := plain
  ("CALL dbms.components() YIELD name, versions WHERE name = 'Neo4j Kernel' "
    ++ "RETURN versions[0] AS version")

/-- The constraints and indexes that the other statements count on. -/
def schema : List Statement := [
  plain "CREATE CONSTRAINT project_key IF NOT EXISTS FOR (p:Project) REQUIRE p.key IS UNIQUE",
  plain "CREATE CONSTRAINT file_key IF NOT EXISTS FOR (f:File) REQUIRE f.key IS UNIQUE",
  plain "CREATE CONSTRAINT symbol_key IF NOT EXISTS FOR (s:Symbol) REQUIRE s.key IS UNIQUE",
  plain "CREATE CONSTRAINT commit_hash IF NOT EXISTS FOR (c:Commit) REQUIRE c.hash IS UNIQUE",
  plain "CREATE CONSTRAINT dependency_key IF NOT EXISTS FOR (d:Dependency) REQUIRE d.key IS UNIQUE",
  plain "CREATE INDEX symbol_name IF NOT EXISTS FOR (s:Symbol) ON (s.name)",
  plain "CREATE INDEX symbol_kind IF NOT EXISTS FOR (s:Symbol) ON (s.kind)",
  plain "CREATE INDEX symbol_fqn IF NOT EXISTS FOR (s:Symbol) ON (s.fqn)",
  plain "CREATE INDEX symbol_file_key IF NOT EXISTS FOR (s:Symbol) ON (s.fileKey)"]

/-! ## Single nodes -/

def mergeProject (p : Project) : Statement where
  text := "MERGE (p:Project \x7bkey: $key\x7d) SET p.name = $name, p.updatedAt = datetime()"
  parameters := [("key", textOf p.repoKey), ("name", textOf p.name)]

/-- Merges a file with its history, and takes back that it was deleted. -/
def mergeFile (repoKey : String) (f : FileNode) : Statement where
  text := "MERGE (f:File \x7bkey: $fileKey\x7d) "
    ++ "SET f.path = $path, f.relativePath = $relativePath, f.hash = $hash, f.created = $created, "
    ++ "f.lastModified = $lastModified, f.commits = $commits, f.tags = $tags, f.deleted = false "
    ++ "REMOVE f.deletedAt WITH f MATCH (p:Project \x7bkey: $repoKey\x7d) "
    ++ "MERGE (p)-[:CONTAINS]->(f) "
    ++ "WITH f UNWIND $authors AS author MERGE (a:Author \x7bname: author.name\x7d) "
    ++ "MERGE (a)-[r:AUTHORED]->(f) SET r.firstCommit = author.firstCommit, "
    ++ "r.lastCommit = author.lastCommit, r.commitCount = author.commitCount"
  parameters := [
    ("fileKey", textOf f.key),
    ("path", textOf f.path),
    ("relativePath", textOf f.relativePath),
    ("hash", textOf f.contentHash),
    ("created", textOf (instantText f.created)),
    ("lastModified", textOf (instantText f.lastModified)),
    ("commits", .scalar (.texts f.commitHashes)),
    ("tags", .scalar (.texts f.tags)),
    ("authors", .rows (f.authors.map AuthorStats.toRow)),
    ("repoKey", textOf repoKey)]

def mergeDependencies (repoKey : String) (l : List Dependency) : Statement where
  text := "MATCH (p:Project \x7bkey: $repoKey\x7d) UNWIND $dependencies AS dep "
    ++ "MERGE (d:Dependency \x7bkey: dep.key\x7d) SET d.name = dep.name, d.version = dep.version "
    ++ "MERGE (p)-[:DEPENDS_ON]->(d)"
  parameters := [("repoKey", textOf repoKey), ("dependencies", .rows (l.map Dependency.toRow))]

def mergeCommits (repoKey : String) (l : List CommitNode) : Statement where
  text := "MATCH (p:Project \x7bkey: $repoKey\x7d) UNWIND $commits AS commit "
    ++ "MERGE (c:Commit \x7bhash: commit.hash\x7d) SET c.authorName = commit.authorName, "
    ++ "c.authorEmail = commit.authorEmail, c.date = commit.date, c.message = commit.message "
    ++ "MERGE (p)-[:HAS_COMMIT]->(c) WITH c, commit UNWIND commit.changedFiles AS fileKey "
    ++ "MERGE (f:File \x7bkey: fileKey\x7d) MERGE (c)-[:MODIFIED]->(f)"
  parameters := [("repoKey", textOf repoKey), ("commits", .rows (l.map CommitNode.toRow))]

/-- Removes the symbols of a file with their relationships. -/
def deleteSymbols (fileKey : String) : Statement where
  text := "MATCH (s:Symbol \x7bfileKey: $fileKey\x7d) DETACH DELETE s"
  parameters := [("fileKey", textOf fileKey)]

/-- Marks a file and its symbols as deleted. -/
def tombstone (fileKey : String) : Statement where
  text := "MATCH (f:File \x7bkey: $fileKey\x7d) SET f.deleted = true, f.deletedAt = datetime() "
    ++ "WITH f OPTIONAL MATCH (s:Symbol \x7bfileKey: $fileKey\x7d) SET s.deleted = true"
  parameters := [("fileKey", textOf fileKey)]

/-! ## Batches -/

def mergeSymbols (l : List Symbol) : Statement where
  text := "UNWIND $symbols AS sym MERGE (s:Symbol \x7bkey: sym.key\x7d) SET s.name = sym.name, "
    ++ "s.kind = sym.kind, s.fqn = sym.fqn, s.accessibility = sym.accessibility, "
    ++ "s.fileKey = sym.fileKey, s.filePath = sym.filePath, s.startLine = sym.startLine, "
    ++ "s.endLine = sym.endLine, s.documentation = sym.documentation, s.comments = sym.comments, "
    ++ "s.deleted = false WITH s, sym MATCH (f:File \x7bkey: sym.fileKey\x7d) "
    ++ "MERGE (s)-[:DEFINED_IN]->(f)"
  parameters := [("symbols", .rows (l.map Symbol.toRow))]

/-- Merges relationships of one type. A key is looked up among the symbols first and then among the
files, and a relationship without both its ends is left out. The statement answers with the number
of those that were merged. -/
def mergeRelationships (type : RelType) (l : List Relationship) : Statement where
  text := "UNWIND $rels AS rel OPTIONAL MATCH (fromSymbol:Symbol \x7bkey: rel.fromKey\x7d) "
    ++ "OPTIONAL MATCH (fromFile:File \x7bkey: rel.fromKey\x7d) "
    ++ "OPTIONAL MATCH (toSymbol:Symbol \x7bkey: rel.toKey\x7d) "
    ++ "OPTIONAL MATCH (toFile:File \x7bkey: rel.toKey\x7d) "
    ++ "WITH coalesce(fromSymbol, fromFile) AS source, coalesce(toSymbol, toFile) AS target "
    ++ "WHERE source IS NOT NULL AND target IS NOT NULL MERGE (source)-[:"
    ++ (RelType.ofText type.text).text ++ "]->(target) RETURN count(*) AS merged"
  parameters := [("rels", .rows (l.map Relationship.toRow))]

/-- Puts a type in its place among the types, unless it is there. -/
def insertType (t : RelType) : List RelType → List RelType
  | [] => [t]
  | u :: us => if t = u then u :: us else if t.before u then t :: u :: us else u :: insertType t us

/-- The types of the relationships in ascending order, each once. -/
def typesOf (l : List Relationship) : List RelType :=
  l.foldl (fun types r => insertType r.type types) []

/-- The relationships of each type, in the order given. -/
def byType (l : List Relationship) : List (RelType × List Relationship) :=
  (typesOf l).map fun t => (t, l.filter fun r => r.type = t)

def flushStatements (symbols : List Symbol) (relationships : List Relationship) :
    List Statement :=
  (if symbols.isEmpty then [] else [mergeSymbols symbols])
    ++ (byType relationships).map fun (t, l) => mergeRelationships t l

end Statement

end CodeGraph
