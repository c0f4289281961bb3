import CodeGraph.Graph.Interchange
import CodeGraph.History.Basic

/-!
# The past as JSON
-/

namespace CodeGraph

open Json (Value)

def CommitInfo.toJson (c : CommitInfo) : Value := .ofMembers [
  ("hash", .string c.hash),
  ("author_name", .string c.authorName),
  ("author_email", .string c.authorEmail),
  ("date", .string c.date.offsetText),
  ("message", .string c.message),
  ("changed_files", .ofStrings c.changedFiles)]

def ChangedFiles.toJson (c : ChangedFiles) : Value := .ofMembers [
  ("modified", .ofStrings c.modified),
  ("deleted", .ofStrings c.deleted)]

def FileHistory.toJson (h : FileHistory) : Value := .ofMembers [
  ("created", .ofOption Time.Instant.toJson h.created),
  ("last_modified", .ofOption Time.Instant.toJson h.lastModified),
  ("authors", .array (h.authors.map AuthorStats.toJson)),
  ("commit_hashes", .ofStrings h.commitHashes),
  ("tags", .ofStrings h.tags)]

end CodeGraph
