import CodeGraph.Graph.Gateway
import CodeGraph.Json.Record

/-!
# Connection settings as JSON

A duration is written as a pair of seconds and nanoseconds.
-/

namespace CodeGraph

open Json (Value)

namespace Retry

def durationToJson (d : Nat) : Value :=
  .array [.ofNat (d / 1000000000), .ofNat (d % 1000000000)]

def Policy.toJson (p : Policy) : Value := .ofMembers [
  ("max_retries", .ofNat p.maxRetries),
  ("base", durationToJson p.baseDelay),
  ("max", durationToJson p.maxDelay),
  ("jitter", .bool p.jitter)]

end Retry

def Connection.toJson (c : Connection) : Value := .ofMembers [
  ("uri", .string c.uri),
  ("user", .string c.user),
  ("password", .string c.password),
  ("database", .ofOption .string c.database),
  ("retry", c.retry.toJson)]

end CodeGraph
