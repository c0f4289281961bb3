import CodeGraph.Bits
import CodeGraph.Graph.Statement
import CodeGraph.Graph.Store
import CodeGraph.Json.Value
import CodeGraph.Retry

/-!
# The gateway to a graph database

A store whose requests become statements for a server. The statements of a request are one
transaction, apart from those of the schema, which are one each. A transaction that fails for a
passing reason is tried again from its start, and one that has failed is never committed.
-/

namespace CodeGraph

/-- A server with states of type `σ`. Each step of a transaction may fail. -/
structure Server (σ : Type) where
  /-- Opens a transaction. -/
  begin : σ → Except Failure Unit × σ
  execute : Statement → σ → Except Failure Unit × σ
  /-- Answers with the rows of the statement that was executed last. -/
  fetch : σ → Except Failure (List Json.Value) × σ
  commit : σ → Except Failure Unit × σ

namespace Server

/-- The server that no connection leads to. -/
def unreachable (text : String) : Server Unit where
  begin s := (.error (.io text), s)
  execute _ s := (.error (.io text), s)
  fetch s := (.error (.io text), s)
  commit s := (.error (.io text), s)

variable {σ : Type}

/-- Executes a statement and fetches its rows. -/
def query (server : Server σ) (statement : Statement) (s : σ) :
    Except Failure (List Json.Value) × σ :=
  match server.execute statement s with
  | (.error e, s) => (.error e, s)
  | (.ok (), s) => server.fetch s

/-- Executes the statements in turn up to the first that fails. -/
def queries (server : Server σ) : List Statement → σ → Except Failure (List (List Json.Value)) × σ
  | [], s => (.ok [], s)
  | statement :: rest, s =>
    match server.query statement s with
    | (.error e, s) => (.error e, s)
    | (.ok rows, s) =>
      match server.queries rest s with
      | (.error e, s) => (.error e, s)
      | (.ok results, s) => (.ok (rows :: results), s)

/-- Executes the statements as one transaction. -/
def attempt (server : Server σ) (statements : List Statement) (s : σ) :
    Except GraphError (List (List Json.Value)) × σ :=
  match server.begin s with
  | (.error e, s) => (.error (.exchange e), s)
  | (.ok (), s) =>
    match server.queries statements s with
    | (.error e, s) => (.error (.exchange e), s)
    | (.ok results, s) =>
      match server.commit s with
      | (.error e, s) => (.error (.exchange e), s)
      | (.ok (), s) => (.ok results, s)

end Server

/-- How a client talks to its server. -/
structure Gateway where
  retry : Retry.Policy
  /-- Draws of 64 bits for the jitter of the retries. -/
  draw : Nat → Nat := fun _ => 0

namespace Gateway

variable {σ : Type}

/-- The rows of the statements of one transaction, which is retried. -/
def transact (g : Gateway) (server : Server σ) (statements : List Statement) (s : σ) :
    Except GraphError (List (List Json.Value)) × σ :=
  let r := g.retry.run GraphError.isTransient g.draw (server.attempt statements) s
  match r.ending with
  | .ok results => (.ok results, r.state)
  | .failed e => (.error e, r.state)
  | .overflow => (.error .delayOverflow, r.state)

/-- Executes a statement for its effect. -/
def perform (g : Gateway) (server : Server σ) (statement : Statement) (s : σ) :
    Except GraphError Unit × σ :=
  match g.transact server [statement] s with
  | (.ok _, s) => (.ok (), s)
  | (.error e, s) => (.error e, s)

/-- Executes statements in transactions of their own, up to the first that fails. -/
def performAll (g : Gateway) (server : Server σ) : List Statement → σ → Except GraphError Unit × σ
  | [], s => (.ok (), s)
  | statement :: rest, s =>
    match g.perform server statement s with
    | (.ok (), s) => g.performAll server rest s
    | (.error e, s) => (.error e, s)

/-- The version in the first row, which has to be a text that is not blank. -/
def versionOf (rows : List Json.Value) : Except GraphError String :=
  match rows.head?.bind Json.Value.string? with
  | some version => if Text.trim version = "" then .error .unknownVersion else .ok version
  | none => .error .unknownVersion

def fetchVersion (g : Gateway) (server : Server σ) (s : σ) : Except GraphError String × σ :=
  match g.transact server [Statement.version] s with
  | (.ok results, s) => (versionOf (results.getLast?.getD []), s)
  | (.error e, s) => (.error e, s)

/-- The count in the first row, or zero if it holds none. -/
def mergedCount (rows : List Json.Value) : Nat :=
  ((rows.head?.bind fun v => v.int? 0 (Bits.limit63 - 1)).map Int.toNat).getD 0

/-- The outcome of a batch from the rows of its statements. -/
def outcomeOf (symbols : List Symbol) (results : List (List Json.Value)) : FlushOutcome where
  symbolsWritten := symbols.length
  relationshipsMerged :=
    (results.drop (if symbols.isEmpty then 0 else 1)).foldr (fun rows n => mergedCount rows + n) 0

/-- Writes a batch, and counts without a bound. An empty batch takes no transaction. -/
def flush (g : Gateway) (server : Server σ) (symbols : List Symbol)
    (relationships : List Relationship) (s : σ) : Except GraphError FlushOutcome × σ :=
  if symbols.isEmpty && relationships.isEmpty then (.ok ⟨0, 0⟩, s)
  else
    match g.transact server (Statement.flushStatements symbols relationships) s with
    | (.ok results, s) => (.ok (outcomeOf symbols results), s)
    | (.error e, s) => (.error e, s)

/-- Writes a batch, and counts in a word of 64 bits. If it does not hold the count, the program
stops, though the batch has been committed. -/
def checkedFlush (g : Gateway) (server : Server σ) (symbols : List Symbol)
    (relationships : List Relationship) (s : σ) : Except GraphError FlushOutcome × σ :=
  match g.flush server symbols relationships s with
  | (.ok outcome, s) =>
    (if outcome.relationshipsMerged < Bits.limit64 then .ok outcome else .error .countOverflow, s)
  | (.error e, s) => (.error e, s)

/-- The store behind the server. -/
def store (g : Gateway) (server : Server σ) : GraphStore σ where
  request
    | .serverVersion => g.fetchVersion server
    | .ensureSchema => g.performAll server Statement.schema
    | .upsertProject p => g.perform server (Statement.mergeProject p)
    | .upsertFile repoKey f => g.perform server (Statement.mergeFile repoKey f)
    | .upsertDependencies repoKey l => fun s =>
      if l.isEmpty then (.ok (), s) else g.perform server (Statement.mergeDependencies repoKey l) s
    | .upsertCommits repoKey l => fun s =>
      if l.isEmpty then (.ok (), s) else g.perform server (Statement.mergeCommits repoKey l) s
    | .deletePriorSymbols fileKey => g.perform server (Statement.deleteSymbols fileKey)
    | .markFileAsDeleted fileKey => g.perform server (Statement.tombstone fileKey)
    | .flush symbols relationships => g.checkedFlush server symbols relationships

end Gateway

/-- Where the server is and how to log in. -/
structure Connection where
  uri : String
  user : String
  password : String
  database : Option String := none
  retry : Retry.Policy := {}
deriving DecidableEq, Repr

end CodeGraph
