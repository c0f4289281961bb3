import CodeGraph.Graph.Memory
import CodeGraph.Graph.Journal

/-!
# A store for rehearsals

A store in memory that keeps a journal of its requests and fails when it is told to. A request that
fails is noted and changes nothing.
-/

namespace CodeGraph.Rehearsal

/-- A failure to come: that of the request with this number among those of one name. -/
structure Mishap where
  call : String
  number : Nat
  error : GraphError

structure Store where
  graph : MemoryGraph := {}
  version : String := "5.26.0"
  /-- The relationships that each batch claims to have merged, whatever it has. -/
  merged : Option Nat := none
  mishaps : List Mishap := []
  /-- How many requests there were of each name since the mishaps were planned. -/
  counts : List (String × Nat) := []
  /-- The requests, the latest first. -/
  journal : List StoreCall := []

namespace Store

/-- Replaces what is planned. What the store knows stays. -/
def plan (s : Store) (version : String) (merged : Option Nat) (mishaps : List Mishap) : Store :=
  { s with version, merged, mishaps, counts := [] }

/-- Takes the journal out. -/
def takeJournal (s : Store) : List StoreCall × Store :=
  (s.journal.reverse, { s with journal := [] })

/-- A reply that claims another number of relationships. -/
def claim (merged : Option Nat) : (c : StoreCall) → c.Reply → c.Reply
  | .flush _ _, o => { o with relationshipsMerged := merged.getD o.relationshipsMerged }
  | _, r => r

/-- The store as a part of a run. -/
def requests : GraphStore Store where
  request c := fun s =>
    let n := (s.counts.lookup c.name).getD 0 + 1
    let s := { s with
      counts := (c.name, n) :: s.counts.filter (·.1 != c.name)
      journal := c :: s.journal }
    match s.mishaps.find? fun m => m.call == c.name && m.number == n with
    | some m => (.error m.error, s)
    | none =>
      let (r, graph) := (MemoryGraph.store s.version).request c s.graph
      (r.map (claim s.merged c), { s with graph })

end Store

end CodeGraph.Rehearsal
