import CodeGraph.Graph.Node
import CodeGraph.Graph.Version

/-!
# Graph stores

What a synchronization asks of the place it writes to. Every request may fail, and a store goes from
state to state with the requests.
-/

namespace CodeGraph

/-- What a batch has written. -/
structure FlushOutcome where
  symbolsWritten : Nat
  /-- The relationships both of whose ends were found. -/
  relationshipsMerged : Nat
deriving DecidableEq, Repr, Inhabited

inductive StoreCall where
  | serverVersion
  | ensureSchema
  | upsertProject (project : Project)
  | upsertFile (repoKey : String) (file : FileNode)
  | upsertDependencies (repoKey : String) (dependencies : List Dependency)
  | upsertCommits (repoKey : String) (commits : List CommitNode)
  /-- Removes the symbols of a file. -/
  | deletePriorSymbols (fileKey : String)
  | markFileAsDeleted (fileKey : String)
  /-- Writes symbols, and relationships between nodes that are there. -/
  | flush (symbols : List Symbol) (relationships : List Relationship)
deriving DecidableEq, Repr

/-- What a request is answered with if it succeeds. -/
def StoreCall.Reply : StoreCall → Type
  | serverVersion => String
  | flush _ _ => FlushOutcome
  | _ => Unit

/-- A store with states of type `σ`. -/
structure GraphStore (σ : Type) where
  request : (c : StoreCall) → σ → Except GraphError c.Reply × σ

namespace GraphStore

variable {σ : Type}

/-- Asks for the version and checks it. -/
def verifyVersion (store : GraphStore σ) (s : σ) : Except GraphError Unit × σ :=
  match store.request .serverVersion s with
  | (.ok version, s) => (checkVersion version, s)
  | (.error e, s) => (.error e, s)

/-- The store as a part of something larger. -/
def within {ω : Type} (store : GraphStore σ) (part : ω → σ) (replace : ω → σ → ω) :
    GraphStore ω where
  request c := fun w =>
    let (r, s) := store.request c (part w)
    (r, replace w s)

/-- The store that keeps its requests besides, the latest first. -/
def logged (store : GraphStore σ) : GraphStore (σ × List StoreCall) where
  request c := fun (s, log) =>
    let (r, s) := store.request c s
    (r, s, c :: log)

end GraphStore

end CodeGraph
