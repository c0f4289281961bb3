import CodeGraph.Digest
import CodeGraph.Extract.DocumentKind
import CodeGraph.Facts
import CodeGraph.Run.ChangeSet
import CodeGraph.Run.Dependencies
import CodeGraph.Run.Options
import CodeGraph.Run.Report

/-!
# Runs

A run checks the store, resolves its change set, writes the project, its dependencies, the
tombstones and the commits, and then goes through the worklist file by file. For each file it writes
the file, deletes the symbols the file had before, and offers what it extracts to the writer.
Between two files it looks whether it is to stop; if so, it writes what is pending and ends.

All that a run deals with, the store included, acts on one world, of type `ω`. A part of a run is a
`Step`, which keeps the world and what the run has come to even if it fails.
-/

namespace CodeGraph

namespace Run

open CodeGraph.Path (DiscoveredFile)

inductive Error where
  | graph (e : GraphError)
  | history (e : HistoryError)
  /-- The run was told to stop. -/
  | cancelled (processed total : Nat)
deriving DecidableEq, Repr

def Error.message : Error → String
  | graph e => e.message
  | history e => e.message
  | cancelled processed total => s!"Sync cancelled after {processed} of {total} files"

/-- The file of a worklist that comes next. -/
structure Announcement where
  /-- Its position in the worklist, counted from one. -/
  current : Nat
  total : Nat
  relativePath : String
deriving DecidableEq, Repr

/-- What a run deals with apart from the store. -/
structure Surroundings (ω : Type) where
  cwd : String := "/"
  /-- The files below a directory with one of the extensions. -/
  scan : (root : String) → (extensions : List String) → ω → List DiscoveredFile
  /-- The bytes of the file at a path, if it can be read. -/
  read : (path : String) → ω → Option (List UInt8)
  facts : FactSource ω
  history : Option (History ω)
  announce : Announcement → ω → ω
  isCancelled : ω → Bool

/-- What a run has come to. -/
structure State (ω : Type) where
  world : ω
  writer : Writer
  extraction : ExtractionStats
  processed : Nat
  failed : Nat

variable {ω : Type}

def State.start (w : ω) (batchSize : Nat) : State ω := ⟨w, .new batchSize, .empty, 0, 0⟩

/-- A part of a run. -/
abbrev Step (ω α : Type) := ExceptT Error (StateM (State ω)) α

namespace Step

/-- Asks or changes the world. -/
def onWorld {α : Type} (f : ω → α × ω) : Step ω α := fun s =>
  match f s.world with
  | (a, world) => (.ok a, { s with world })

/-- Sends a request to the store. -/
def request (store : GraphStore ω) (c : StoreCall) : Step ω c.Reply := fun s =>
  match store.request c s.world with
  | (.ok r, world) => (.ok r, { s with world })
  | (.error e, world) => (.error (.graph e), { s with world })

/-- Works on the writer. -/
def write (f : Writer → ω → Except GraphError Unit × Writer × ω) : Step ω Unit := fun s =>
  match f s.writer s.world with
  | (.ok (), writer, world) => (.ok (), { s with writer, world })
  | (.error e, writer, world) => (.error (.graph e), { s with writer, world })

def countProcessed : Step ω Unit := modify fun s => { s with processed := s.processed + 1 }

/-- Counts a file that could not be read. -/
def countFailed : Step ω Unit := modify fun s => { s with failed := s.failed + 1 }

def countKind (kind : Option DocumentKind) : Step ω Unit :=
  modify fun s => { s with extraction := s.extraction.record (kind.map (·.name)) }

end Step

/-- The node of a file with these bytes. -/
def fileNode (o : Options) (file : DiscoveredFile) (bytes : List UInt8) (h : FileHistory) :
    FileNode where
  key := Key.file o.repoKey file.relativePath
  path := file.path
  relativePath := file.relativePath
  contentHash := Digest.sha256 bytes
  created := h.created
  lastModified := h.lastModified
  authors := h.authors
  commitHashes := h.commitHashes
  tags := h.tags

/-- The key of the file at a path, if it lies below the source root. -/
def keyOf? (cwd : String) (o : Options) (path : String) : Option String :=
  (Path.relative? cwd o.root path).map fun relative => Key.file o.repoKey relative

/-- The keys of the deleted files. -/
def tombstoneKeys (cwd : String) (o : Options) (c : ChangeSet) : List String :=
  c.tombstones.filterMap (keyOf? cwd o)

/-- The node of a commit. Files outside the source root do not count. -/
def commitNode (cwd : String) (o : Options) (c : CommitInfo) : CommitNode where
  hash := c.hash
  authorName := c.authorName
  authorEmail := c.authorEmail
  date := c.date
  message := c.message
  changedFileKeys := c.changedFiles.filterMap (keyOf? cwd o)

/-- The nodes of the commits that a run writes. -/
def commitNodes (cwd : String) (o : Options) (c : ChangeSet) : List CommitNode :=
  if c.mode.usesHistory then c.commits.map (commitNode cwd o) else []

/-- What the history says about the file at a path, if there is a history. -/
def historyOf (s : Surroundings ω) (path : String) (w : ω) : FileHistory × ω :=
  match s.history with
  | none => ({}, w)
  | some h =>
    let (found, w) := h.fileHistory path w
    (found.getD {}, w)

/-- The declarations in the file. Only compiled sources have any. -/
def declarationsOf (s : Surroundings ω) (kind : Option DocumentKind) (f : SourceFile) (w : ω) :
    Except FactError (List Declaration) × ω :=
  if kind = some .source then s.facts.declarations f.path f.content w else (.ok [], w)

/-- Processes a file that has been read. -/
def processFile (store : GraphStore ω) (s : Surroundings ω) (o : Options) (file : DiscoveredFile)
    (bytes : List UInt8) : Step ω Unit := do
  let past ← Step.onWorld (historyOf s file.path)
  let node := fileNode o file bytes past
  Step.request store (.upsertFile o.repoKey node)
  Step.request store (.deletePriorSymbols node.key)
  let source : SourceFile := ⟨o.repoKey, node.key, file.path, Text.decodeLossy bytes⟩
  let kind := DocumentKind.ofPath? file.path
  let found ← Step.onWorld (declarationsOf s kind source)
  Step.countKind kind
  Step.write fun w => w.offer store (source.extract o.minimum found)
  Step.countProcessed

/-- Goes through the worklist, of which `index` files are done. -/
def processFrom (store : GraphStore ω) (s : Surroundings ω) (o : Options) (total : Nat) :
    (index : Nat) → List DiscoveredFile → Step ω Unit
  | _, [] => pure ()
  | index, file :: rest => do
    if s.isCancelled (← get).world then
      Step.write (Writer.flush store)
      throw (.cancelled index total)
    Step.onWorld fun w => ((), s.announce ⟨index + 1, total, file.relativePath⟩ w)
    match s.read file.path (← get).world with
    | some bytes => processFile store s o file bytes
    | none => Step.countFailed
    processFrom store s o total (index + 1) rest

/-- Asks the history for the change set. -/
def resolveChanges (s : Surroundings ω) (o : Options) (extensions : List String) :
    Step ω ChangeSet := do
  let resolved ← Step.onWorld (ChangeSet.resolve s.cwd s.history o.base o.force o.root extensions)
  match resolved with
  | .ok changes => return changes
  | .error e => throw (.history e)

/-- Checks the version of the store. -/
def passGate (store : GraphStore ω) : Step ω Unit := do
  let version ← Step.request store .serverVersion
  match checkVersion version with
  | .ok () => return
  | .error e => throw (.graph e)

/-- Writes what does not depend on the contents of single files: the project, its dependencies, the
tombstones and the commits. -/
def writeFrame (store : GraphStore ω) (o : Options) (dependencies : List Dependency)
    (deleted : List String) (commits : List CommitNode) : Step ω Unit := do
  Step.request store (.upsertProject ⟨o.repoKey, o.projectName⟩)
  unless dependencies.isEmpty do
    Step.request store (.upsertDependencies o.repoKey dependencies)
  deleted.forM fun key => Step.request store (.markFileAsDeleted key)
  unless commits.isEmpty do
    Step.request store (.upsertCommits o.repoKey commits)

/-- The steps of a run whose store has passed. -/
def work (store : GraphStore ω) (s : Surroundings ω) (o : Options) : Step ω Report := do
  Step.request store .ensureSchema
  let extensions := Path.normalizeExtensions o.extensions
  let discovered := s.scan o.root extensions (← get).world
  let changes ← resolveChanges s o extensions
  let now := (← get).world
  let found :=
    if o.skipDependencies then [] else dependencies (fun path => s.read path now) discovered
  let deleted := tombstoneKeys s.cwd o changes
  let commits := commitNodes s.cwd o changes
  writeFrame store o found deleted commits
  let worklist := changes.worklist discovered
  processFrom store s o worklist.length 0 worklist
  Step.write (Writer.flush store)
  let state ← get
  return {
    mode := changes.mode
    filesDiscovered := discovered.length
    filesSelected := worklist.length
    filesProcessed := state.processed
    filesFailed := state.failed
    filesDeleted := deleted.length
    commits := commits.length
    dependencies := found.length
    written := state.writer.totals
    extraction := state.extraction }

/-- The steps of a run. -/
def steps (store : GraphStore ω) (s : Surroundings ω) (o : Options) : Step ω Report := do
  passGate store
  work store s o

end Run

/-- Runs a synchronization. It ends with a report or an error, and with the world it leaves behind.
-/
def synchronize {ω : Type} (store : GraphStore ω) (s : Run.Surroundings ω) (o : Run.Options)
    (w : ω) : Except Run.Error Run.Report × ω :=
  match (Run.steps store s o).run (.start w o.batchSize) with
  | (result, state) => (result, state.world)

/-- Runs a synchronization with totals in words. There is no result if a total grows out of its
word, which stops the program. Totals do not shrink, so it is enough to look at the last. -/
def synchronize? {ω : Type} (store : GraphStore ω) (s : Run.Surroundings ω) (o : Run.Options)
    (w : ω) : Option (Except Run.Error Run.Report × ω) :=
  match (Run.steps store s o).run (.start w o.batchSize) with
  | (result, state) => if state.writer.totals.fits then some (result, state.world) else none

end CodeGraph
