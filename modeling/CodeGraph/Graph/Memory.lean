import CodeGraph.Graph.Store

/-!
# A store in memory

A store that merges by key and never fails. It keeps files, symbols and relationships; of what else
is written to it, it takes no notice.
-/

namespace CodeGraph

/-- Puts a value in the place of the one with its key, or at the end. -/
def upsertBy {α : Type} (key : α → String) (a : α) : List α → List α
  | [] => [a]
  | b :: bs => if key b = key a then a :: bs else b :: upsertBy key a bs

theorem mem_map_upsertBy {α : Type} {key : α → String} {a : α} {l : List α} {k : String} :
    k ∈ (upsertBy key a l).map key ↔ k = key a ∨ k ∈ l.map key := by
  induction l with
  | nil => simp [upsertBy]
  | cons b bs ih =>
    simp only [upsertBy]
    split
    · rename_i h
      simp [h]
    · simp only [List.map_cons, List.mem_cons, ih]
      exact or_left_comm

/-- What the store holds. No two files and no two symbols have one key. -/
structure MemoryGraph where
  files : List FileNode := []
  /-- The keys of the files that are marked as deleted. -/
  deleted : List String := []
  symbols : List Symbol := []
  relationships : List Relationship := []
deriving DecidableEq, Repr, Inhabited

namespace MemoryGraph

def hasFile (g : MemoryGraph) (key : String) : Bool := g.files.any (·.key == key)

def hasSymbol (g : MemoryGraph) (key : String) : Bool := g.symbols.any (·.key == key)

/-- Whether there is a node with the key. -/
def hasNode (g : MemoryGraph) (key : String) : Bool := g.hasSymbol key || g.hasFile key

/-- Whether both ends of the relationship are there. -/
def joins (g : MemoryGraph) (r : Relationship) : Bool := g.hasNode r.source && g.hasNode r.target

/-- Writes a file, which is not deleted then. -/
def upsertFile (g : MemoryGraph) (f : FileNode) : MemoryGraph :=
  { g with
    files := upsertBy (·.key) f g.files
    deleted := g.deleted.filter (· != f.key) }

/-- Removes the symbols of a file with their relationships. -/
def deleteSymbols (g : MemoryGraph) (fileKey : String) : MemoryGraph :=
  let gone := (g.symbols.filter (·.fileKey == fileKey)).map (·.key)
  { g with
    symbols := g.symbols.filter (·.fileKey != fileKey)
    relationships := g.relationships.filter fun r =>
      !gone.contains r.source && !gone.contains r.target }

/-- Marks a file that is there as deleted. -/
def markDeleted (g : MemoryGraph) (fileKey : String) : MemoryGraph :=
  if g.hasFile fileKey && !g.deleted.contains fileKey then
    { g with deleted := g.deleted ++ [fileKey] }
  else g

def upsertSymbols (g : MemoryGraph) (l : List Symbol) : MemoryGraph :=
  { g with symbols := l.foldl (fun symbols s => upsertBy (·.key) s symbols) g.symbols }

/-- Adds a relationship, unless it is there. -/
def addRelationship (g : MemoryGraph) (r : Relationship) : MemoryGraph :=
  if g.relationships.contains r then g
  else { g with relationships := g.relationships ++ [r] }

/-- Writes symbols, and then the relationships that have both their ends. -/
def flush (g : MemoryGraph) (symbols : List Symbol) (relationships : List Relationship) :
    FlushOutcome × MemoryGraph :=
  let g := g.upsertSymbols symbols
  let merged := relationships.filter g.joins
  (⟨symbols.length, merged.length⟩, merged.foldl addRelationship g)

/-- The store of a server with this version. -/
def store (version : String) : GraphStore MemoryGraph where
  request
    | .serverVersion => fun g => (.ok version, g)
    | .upsertFile _ f => fun g => (.ok (), g.upsertFile f)
    | .deletePriorSymbols fileKey => fun g => (.ok (), g.deleteSymbols fileKey)
    | .markFileAsDeleted fileKey => fun g => (.ok (), g.markDeleted fileKey)
    | .flush symbols relationships => fun g =>
      let (outcome, g) := g.flush symbols relationships
      (.ok outcome, g)
    | .ensureSchema => fun g => (.ok (), g)
    | .upsertProject _ => fun g => (.ok (), g)
    | .upsertDependencies _ _ => fun g => (.ok (), g)
    | .upsertCommits _ _ => fun g => (.ok (), g)

end MemoryGraph

end CodeGraph
