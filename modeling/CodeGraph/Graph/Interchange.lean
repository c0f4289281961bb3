import CodeGraph.Graph.Node
import CodeGraph.Json.Record

/-!
# Graph records as JSON

The interchange form of the records that a synchronization writes: objects of their fields, variants
by name, instants in UTC. What is written is read back as the same record.
-/

namespace CodeGraph

open Json (Record Value)

namespace Time.Instant

def ofJson? (v : Value) : Option Instant := v.string?.bind ofText?

def toJson (i : Instant) : Value := .string i.zuluText

end Time.Instant

namespace Accessibility

def ofJson? (v : Value) : Option Accessibility := v.plainVariant?.bind ofName?

def toJson (a : Accessibility) : Value := .string a.name

end Accessibility

namespace SymbolKind

def ofJson? (v : Value) : Option SymbolKind := v.plainVariant?.bind ofName?

def toJson (k : SymbolKind) : Value := .string k.name

end SymbolKind

namespace RelType

def ofJson? (v : Value) : Option RelType :=
  match v.plainVariant?, v.variant? with
  | some "Contains", _ => some contains
  | some "DependsOn", _ => some dependsOn
  | some "BindsTo", _ => some bindsTo
  | some "HasProperty", _ => some hasProperty
  | _, some ("Other", some (.string name)) => some (other name)
  | _, _ => none

def toJson : RelType → Value
  | contains => .string "Contains"
  | dependsOn => .string "DependsOn"
  | bindsTo => .string "BindsTo"
  | hasProperty => .string "HasProperty"
  | other name => .ofMembers [("Other", .string name)]

end RelType

namespace Symbol

def fields : List String :=
  ["key", "name", "kind", "fully_qualified_name", "accessibility", "file_key", "file_path",
    "start_line", "end_line", "documentation", "comments"]

def ofJson? (v : Value) : Option Symbol := do
  let r ← Record.ofValue? fields v
  return {
    key := ← r.required "key" Value.string?
    name := ← r.required "name" Value.string?
    kind := ← r.required "kind" SymbolKind.ofJson?
    qualifiedName := ← r.required "fully_qualified_name" Value.string?
    accessibility := ← r.required "accessibility" Accessibility.ofJson?
    fileKey := ← r.required "file_key" Value.string?
    filePath := ← r.required "file_path" Value.string?
    startLine := ← r.optional "start_line" Value.uint32?
    endLine := ← r.optional "end_line" Value.uint32?
    documentation := ← r.optional "documentation" Value.string?
    comments := ← r.optional "comments" Value.string? }

def toJson (s : Symbol) : Value := .ofMembers [
  ("key", .string s.key),
  ("name", .string s.name),
  ("kind", s.kind.toJson),
  ("fully_qualified_name", .string s.qualifiedName),
  ("accessibility", s.accessibility.toJson),
  ("file_key", .string s.fileKey),
  ("file_path", .string s.filePath),
  ("start_line", .ofOption .ofNat s.startLine),
  ("end_line", .ofOption .ofNat s.endLine),
  ("documentation", .ofOption .string s.documentation),
  ("comments", .ofOption .string s.comments)]

end Symbol

namespace Relationship

def ofJson? (v : Value) : Option Relationship := do
  let r ← Record.ofValue? ["from_key", "to_key", "rel_type"] v
  return {
    source := ← r.required "from_key" Value.string?
    target := ← r.required "to_key" Value.string?
    type := ← r.required "rel_type" RelType.ofJson? }

def toJson (r : Relationship) : Value := .ofMembers [
  ("from_key", .string r.source),
  ("to_key", .string r.target),
  ("rel_type", r.type.toJson)]

end Relationship

namespace AuthorStats

def ofJson? (v : Value) : Option AuthorStats := do
  let r ← Record.ofValue? ["name", "first_commit", "last_commit", "commit_count"] v
  return {
    name := ← r.required "name" Value.string?
    firstCommit := ← r.required "first_commit" Time.Instant.ofJson?
    lastCommit := ← r.required "last_commit" Time.Instant.ofJson?
    commitCount := ← r.required "commit_count" Value.uint32? }

def toJson (a : AuthorStats) : Value := .ofMembers [
  ("name", .string a.name),
  ("first_commit", a.firstCommit.toJson),
  ("last_commit", a.lastCommit.toJson),
  ("commit_count", .ofNat a.commitCount)]

end AuthorStats

namespace FileNode

def fields : List String :=
  ["file_key", "path", "relative_path", "content_hash", "created", "last_modified", "authors",
    "commit_hashes", "tags"]

def ofJson? (v : Value) : Option FileNode := do
  let r ← Record.ofValue? fields v
  return {
    key := ← r.required "file_key" Value.string?
    path := ← r.required "path" Value.string?
    relativePath := ← r.required "relative_path" Value.string?
    contentHash := ← r.required "content_hash" Value.string?
    created := ← r.optional "created" Time.Instant.ofJson?
    lastModified := ← r.optional "last_modified" Time.Instant.ofJson?
    authors := ← r.required "authors" (Value.listOf? AuthorStats.ofJson?)
    commitHashes := ← r.required "commit_hashes" Value.strings?
    tags := ← r.required "tags" Value.strings? }

def toJson (f : FileNode) : Value := .ofMembers [
  ("file_key", .string f.key),
  ("path", .string f.path),
  ("relative_path", .string f.relativePath),
  ("content_hash", .string f.contentHash),
  ("created", .ofOption Time.Instant.toJson f.created),
  ("last_modified", .ofOption Time.Instant.toJson f.lastModified),
  ("authors", .array (f.authors.map AuthorStats.toJson)),
  ("commit_hashes", .ofStrings f.commitHashes),
  ("tags", .ofStrings f.tags)]

end FileNode

namespace Project

def ofJson? (v : Value) : Option Project := do
  let r ← Record.ofValue? ["repo_key", "name"] v
  return {
    repoKey := ← r.required "repo_key" Value.string?
    name := ← r.required "name" Value.string? }

def toJson (p : Project) : Value :=
  .ofMembers [("repo_key", .string p.repoKey), ("name", .string p.name)]

end Project

namespace Dependency

def ofJson? (v : Value) : Option Dependency := do
  let r ← Record.ofValue? ["key", "name", "version"] v
  return {
    key := ← r.required "key" Value.string?
    name := ← r.required "name" Value.string?
    version := ← r.required "version" Value.string? }

def toJson (d : Dependency) : Value :=
  .ofMembers [("key", .string d.key), ("name", .string d.name), ("version", .string d.version)]

end Dependency

namespace CommitNode

def fields : List String :=
  ["hash", "author_name", "author_email", "date", "message", "changed_file_keys"]

def ofJson? (v : Value) : Option CommitNode := do
  let r ← Record.ofValue? fields v
  return {
    hash := ← r.required "hash" Value.string?
    authorName := ← r.required "author_name" Value.string?
    authorEmail := ← r.required "author_email" Value.string?
    date := ← r.required "date" Time.Instant.ofJson?
    message := ← r.required "message" Value.string?
    changedFileKeys := ← r.required "changed_file_keys" Value.strings? }

def toJson (c : CommitNode) : Value := .ofMembers [
  ("hash", .string c.hash),
  ("author_name", .string c.authorName),
  ("author_email", .string c.authorEmail),
  ("date", c.date.toJson),
  ("message", .string c.message),
  ("changed_file_keys", .ofStrings c.changedFileKeys)]

end CommitNode

end CodeGraph
