import CodeGraph.Graph.Interchange
import CodeGraph.History.Interchange
import CodeGraph.Run.Basic

/-!
# Runs as JSON

The options of a run, its change set and its report as objects.
-/

namespace CodeGraph.Run

open Json (Value)

def Options.toJson (o : Options) : Value := .ofMembers [
  ("root", .string o.root),
  ("repo_key", .string o.repoKey),
  ("diff_base", .ofOption .string o.base),
  ("force", .bool o.force),
  ("batch_size", .ofNat o.batchSize),
  ("min_accessibility", o.minimum.toJson),
  ("extensions", .ofStrings o.extensions),
  ("skip_dependencies", .bool o.skipDependencies),
  ("project_name", .string o.projectName)]

def ChangeSet.toJson (c : ChangeSet) : Value := .ofMembers [
  ("mode", .string c.mode.name),
  ("modified", .ofStrings c.modified),
  ("deleted", .ofStrings c.deleted),
  ("commits", .array (c.commits.map CommitInfo.toJson))]

def FlushTotals.toJson (t : FlushTotals) : Value := .ofMembers [
  ("flushes", .ofNat t.flushes),
  ("symbols", .ofNat t.symbols),
  ("relationships", .ofNat t.relationships),
  ("dangling", .ofNat t.dangling)]

def Report.toJson (r : Report) : Value := .ofMembers [
  ("mode", .string r.mode.name),
  ("files_discovered", .ofNat r.filesDiscovered),
  ("files_selected", .ofNat r.filesSelected),
  ("files_processed", .ofNat r.filesProcessed),
  ("files_failed", .ofNat r.filesFailed),
  ("files_deleted", .ofNat r.filesDeleted),
  ("commits", .ofNat r.commits),
  ("dependencies", .ofNat r.dependencies),
  ("flushes", .ofNat r.written.flushes),
  ("symbols", .ofNat r.written.symbols),
  ("relationships", .ofNat r.written.relationships),
  ("dangling_relationships", .ofNat r.written.dangling),
  ("display", .string r.summary),
  ("handlers", .string r.countsByKind)]

def Announcement.toJson (a : Announcement) : Value :=
  .array [.ofNat a.current, .ofNat a.total, .string a.relativePath]

end CodeGraph.Run
