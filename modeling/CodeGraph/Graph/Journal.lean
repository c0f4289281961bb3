import CodeGraph.Graph.Interchange
import CodeGraph.Graph.Statement
import CodeGraph.Graph.Store

/-!
# Journals

The requests to a store as JSON, one object for each, as they are kept in a journal. Of the symbols
in a batch only the essentials are noted.
-/

namespace CodeGraph

open Json (Value)

/-- The relationship as a triple of its ends and its name. -/
def Relationship.triple (r : Relationship) : Value :=
  .ofStrings [r.source, r.target, r.type.text]

namespace Scalar

def toJson : Scalar → Value
  | text s => .string s
  | integer n => .number (.integer n)
  | texts l => .ofStrings l

end Scalar

def Row.toJson (r : Row) : Value := .ofMembers (r.map fun (k, v) => (k, v.toJson))

namespace StoreCall

def name : StoreCall → String
  | serverVersion => "server_version"
  | ensureSchema => "ensure_schema"
  | upsertProject _ => "upsert_project"
  | upsertFile .. => "upsert_file"
  | upsertDependencies .. => "upsert_dependencies"
  | upsertCommits .. => "upsert_commits"
  | deletePriorSymbols _ => "delete_prior_symbols"
  | markFileAsDeleted _ => "mark_file_as_deleted"
  | flush .. => "flush"

/-- What is noted of a symbol: key, kind, accessibility and first line. -/
def noteOf (s : Symbol) : Value :=
  .array [.string s.key, s.kind.toJson, s.accessibility.toJson, .ofOption .ofNat s.startLine]

def arguments : StoreCall → List (String × Value)
  | serverVersion | ensureSchema => []
  | upsertProject p => [("project", p.toJson)]
  | upsertFile repoKey f => [("repo_key", .string repoKey), ("file", f.toJson)]
  | upsertDependencies repoKey l =>
    [("repo_key", .string repoKey), ("dependencies", .array (l.map Dependency.toJson))]
  | upsertCommits repoKey l =>
    [("repo_key", .string repoKey), ("commits", .array (l.map CommitNode.toJson))]
  | deletePriorSymbols key | markFileAsDeleted key => [("file_key", .string key)]
  | flush symbols relationships => [("symbols", .array (symbols.map noteOf)),
      ("relationships", .array (relationships.map Relationship.triple))]

def toJson (c : StoreCall) : Value := .ofMembers (("call", .string c.name) :: c.arguments)

/-- A reply as JSON. -/
def replyToJson : (c : StoreCall) → c.Reply → Value
  | serverVersion, version => .string version
  | flush _ _, o => .ofMembers [("symbols_written", .ofNat o.symbolsWritten),
      ("relationships_merged", .ofNat o.relationshipsMerged)]
  | _, _ => .null

end StoreCall

end CodeGraph
