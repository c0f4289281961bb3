import CodeGraph.Command.Synchronize
import CodeGraph.Files.Scan
import CodeGraph.Git.Workspace
import CodeGraph.Rehearsal.Past
import CodeGraph.Rehearsal.Store

/-!
# The stage of a rehearsal

A world held in memory in which runs can be rehearsed: files and repositories, a store, a source of
facts, and what is to happen during a run.
-/

namespace CodeGraph.Rehearsal

/-- Where a run gets its history from. -/
inductive HistorySource where
  | nothing
  /-- The repository that was discovered last. -/
  | repository
  | past (p : Past)

/-- A repository that has been discovered, with the index made since. -/
structure Discovery where
  directory : Files.Location
  index : Option Git.Index := none

/-- What is to happen during a run, and whether the run tells how it gets on. -/
structure Course where
  /-- The run is told to stop when the file with this number is announced. -/
  cancelAt : Option Nat := none
  /-- The file with this path is removed when it is announced. -/
  removeAt : Option String := none
  isAnnounced : Bool := true

structure Stage where
  workspace : Git.Workspace := {}
  /-- The repository that was discovered last. -/
  discovery : Option Discovery := none
  store : Store := {}
  source : HistorySource := .nothing
  /-- The declarations of files by their paths. -/
  facts : List (String × Except FactError (List Declaration)) := []
  course : Course := {}
  isCancelled : Bool := false
  /-- What has been announced, the latest first. -/
  announced : List Run.Announcement := []
  /-- What the past has been asked, the latest question first. -/
  asked : List Question := []

namespace Stage

/-- The repository that was discovered last. -/
def openRepository (s : Stage) : Git.OpenRepository :=
  match s.discovery with
  | none => ⟨{}, none⟩
  | some d => ⟨(s.workspace.repository? d.directory).getD {}, d.index⟩

/-- Keeps the index of the repository that was discovered last. -/
def keepIndex (s : Stage) (r : Git.OpenRepository) : Stage :=
  { s with discovery := s.discovery.map fun d => { d with index := r.index } }

/-- Looks for the repository around a path. -/
def discover (path : String) (s : Stage) : Except HistoryError String × Stage :=
  match s.workspace.discover path with
  | .ok directory =>
    (.ok (Files.textOf directory), { s with discovery := some { directory } })
  | .error e => (.error e, s)

/-- The history of the repository that was discovered last. -/
def repositoryHistory (cwd : String) (s : Stage) : Option (History Stage) :=
  s.discovery.map fun d =>
    (Git.OpenRepository.history cwd (Files.textOf d.directory)).within openRepository keepIndex

/-- The history for the next run. -/
def history (cwd : String) (s : Stage) : Option (History Stage) :=
  match s.source with
  | .nothing => none
  | .repository => s.repositoryHistory cwd
  | .past p => some (p.history.within (·.asked) fun s asked => { s with asked })

def factSource : FactSource Stage where
  declarations path _ s := ((s.facts.lookup path).getD (.ok []), s)
  diagnostics _ _ := []

/-- Announces a file, which lets happen what is to happen then. -/
def announce (root : String) (a : Run.Announcement) (s : Stage) : Stage :=
  if s.course.isAnnounced then
    let s := { s with announced := a :: s.announced }
    let s := if s.course.cancelAt = some a.current then { s with isCancelled := true } else s
    if s.course.removeAt = some a.relativePath then
      let names := Files.namesOfText s!"{root}/{a.relativePath}"
      { s with workspace := { s.workspace with tree := s.workspace.tree.remove names } }
    else s
  else s

def surroundings (cwd root : String) (s : Stage) : Run.Surroundings Stage where
  cwd := cwd
  scan root extensions s := s.workspace.tree.scan cwd root extensions
  read path s := s.workspace.tree.read? (Files.namesOfText path)
  facts := factSource
  history := s.history cwd
  announce := announce root
  isCancelled s := s.isCancelled

/-- Rehearses a run. -/
def run? (cwd : String) (o : Run.Options) (course : Course) (isCancelled : Bool) (s : Stage) :
    Option (Except Run.Error Run.Report × Stage) :=
  let s := { s with course, isCancelled, announced := [], asked := [] }
  let store := Store.requests.within (·.store) fun (s : Stage) store => { s with store }
  synchronize? store (s.surroundings cwd o.root) o s

/-- What the command deals with on a stage, if it connects to `store` and there is no language
server. -/
def environment (cwd : String) (store : Connection → GraphStore Stage) :
    Command.Environment Stage where
  cwd := cwd
  canonicalize path s := s.workspace.tree.canonicalize cwd path
  connect c s := (.ok (store c), s)
  discover path s :=
    match s.discover path with
    | (.ok _, s) => ((s.repositoryHistory cwd).elim (.error .unavailable) .ok, s)
    | (.error e, s) => (.error e, s)
  startServer _ _ s := (none, s)
  scan root extensions s := s.workspace.tree.scan cwd root extensions
  read path s := s.workspace.tree.read? (Files.namesOfText path)
  announce a s := { s with announced := a :: s.announced }
  isCancelled s := s.isCancelled

end Stage

end CodeGraph.Rehearsal
