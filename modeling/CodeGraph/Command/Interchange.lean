import CodeGraph.Command.Arguments
import CodeGraph.Graph.Interchange

/-!
# Arguments as JSON
-/

namespace CodeGraph.Command

open Json (Value)

/-- The members for the arguments, by the names of their options. -/
def Arguments.members (a : Arguments) : List (String × Value) := [
  ("path", .string a.path),
  ("uri", .string a.uri),
  ("user", .string a.user),
  ("password", .string a.password),
  ("database", .string a.database),
  ("repo_key", .ofOption .string a.repoKey),
  ("diff_base", .ofOption .string a.base),
  ("batch_size", .ofNat a.batchSize),
  ("min_accessibility", a.minimum.toJson),
  ("include", .ofStrings a.extensions),
  ("force", .bool a.force),
  ("skip_dependencies", .bool a.skipDependencies),
  ("language_server", .string a.languageServer),
  ("max_retries", .ofNat a.maxRetries)]

end CodeGraph.Command
