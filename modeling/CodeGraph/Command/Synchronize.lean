import CodeGraph.Command.Arguments
import CodeGraph.LanguageServer.Message
import CodeGraph.Run.Basic

/-!
# The command

A synchronization from the command line. The store is checked first, and only then is a repository
looked for and a language server started. A repository has to be there only if a base is given, and
without a language server compiled sources have no declarations. A server that was started is shut
down after the run, whatever the run came to.
-/

namespace CodeGraph.Command

/-- A language server that has been started. -/
structure RunningServer (ω : Type) where
  facts : FactSource ω
  /-- Asks the server to shut down. -/
  shutdown : ω → Except LanguageServer.ServerError Unit × ω

/-- What the command deals with. All of it acts on one world. -/
structure Environment (ω : Type) where
  cwd : String := "/"
  /-- The absolute path without links that a path leads to, or why there is none. -/
  canonicalize : (path : String) → ω → Except String String
  connect : Connection → ω → Except GraphError (GraphStore ω) × ω
  /-- The repository around a directory. -/
  discover : (directory : String) → ω → Except HistoryError (History ω) × ω
  /-- Starts a language server for a directory, if it can be started. -/
  startServer : (command directory : String) → ω → Option (RunningServer ω) × ω
  scan : (root : String) → (extensions : List String) → ω → List Path.DiscoveredFile
  read : (path : String) → ω → Option (List UInt8)
  announce : Run.Announcement → ω → ω
  isCancelled : ω → Bool

/-- Why the command fails. -/
inductive Failure where
  | noRoot (path reason : String)
  | notConnected (uri : String) (e : GraphError)
  /-- The check of the store failed. -/
  | unfitStore (uri : String) (e : GraphError)
  | noRepository (e : HistoryError)
  | run (e : Run.Error)
deriving DecidableEq, Repr

/-- The messages of an error of a run and of its causes. -/
def causesOf : Run.Error → List String
  | .graph e => e.causes
  | e => [e.message]

/-- The failure with its causes in one line. -/
def Failure.message (f : Failure) : String :=
  ": ".intercalate <| match f with
    | noRoot path reason => [s!"Source root {path} does not exist", reason]
    | notConnected uri e => s!"Failed to connect to Neo4j at {uri}" :: e.causes
    | unfitStore uri e => s!"Neo4j pre-flight failed at {uri}" :: e.causes
    | noRepository e => [e.message]
    | run e => causesOf e

namespace Environment

variable {ω : Type} (env : Environment ω)

/-- The surroundings of a run with this history and these facts. -/
def surroundings (history : Option (History ω)) (facts : FactSource ω) : Run.Surroundings ω where
  cwd := env.cwd
  scan := env.scan
  read := env.read
  facts := facts
  history := history
  announce := env.announce
  isCancelled := env.isCancelled

/-- Connects to the store and checks it. -/
def openStore (a : Arguments) (w : ω) : Except Failure (GraphStore ω) × ω :=
  match env.connect a.connection w with
  | (.error e, w) => (.error (.notConnected a.uri e), w)
  | (.ok store, w) =>
    match store.verifyVersion w with
    | (.error e, w) => (.error (.unfitStore a.uri e), w)
    | (.ok (), w) => (.ok store, w)

/-- Looks for a repository, which has to be there only if it is `required`. -/
def openHistory (required : Bool) (root : String) (w : ω) :
    Except Failure (Option (History ω)) × ω :=
  match env.discover root w with
  | (.ok history, w) => (.ok (some history), w)
  | (.error e, w) => if required then (.error (.noRepository e), w) else (.ok none, w)

/-- Runs a synchronization with a language server if there is one to start, and shuts the server
down. It is of no account whether the server agrees. -/
def runWithServer (store : GraphStore ω) (history : Option (History ω)) (command : String)
    (o : Run.Options) (w : ω) : Except Run.Error Run.Report × ω :=
  match env.startServer command o.root w with
  | (none, w) => synchronize store (env.surroundings history .none) o w
  | (some server, w) =>
    let (result, w) := synchronize store (env.surroundings history server.facts) o w
    let (_, w) := server.shutdown w
    (result, w)

/-- Carries out a synchronization from the command line. -/
def carryOut (a : Arguments) (w : ω) : Except Failure Run.Report × ω :=
  match env.canonicalize a.path w with
  | .error reason => (.error (.noRoot a.path reason), w)
  | .ok root =>
    let o := a.options (fun path => (env.canonicalize path w).toOption) root
    match env.openStore a w with
    | (.error e, w) => (.error e, w)
    | (.ok store, w) =>
      match env.openHistory a.base.isSome root w with
      | (.error e, w) => (.error e, w)
      | (.ok history, w) =>
        match env.runWithServer store history a.languageServer o w with
        | (.error e, w) => (.error (.run e), w)
        | (.ok report, w) => (.ok report, w)

end Environment

end CodeGraph.Command
