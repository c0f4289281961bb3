import CodeGraph.Command.Draft
import CodeGraph.Graph.Gateway
import CodeGraph.Run.Options

/-!
# Command lines

The arguments of the program: switches, a command, and what belongs to the command. `help` is a
command as well.
-/

namespace CodeGraph.Command

/-- The arguments of a synchronization. -/
structure Arguments where
  /-- The source root. -/
  path : String
  uri : String := "bolt://localhost:7687"
  user : String := "neo4j"
  password : String
  database : String := "neo4j"
  repoKey : Option String := none
  base : Option String := none
  batchSize : Nat := Run.defaultBatchSize
  minimum : Accessibility := .priv
  extensions : List String := Path.scannedExtensions
  force : Bool := false
  skipDependencies : Bool := false
  languageServer : String := "csharp-ls"
  maxRetries : Nat := 5
deriving DecidableEq, Repr

/-- A command line that can be carried out. -/
structure Invocation where
  verbose : Bool
  arguments : Arguments
deriving DecidableEq, Repr

/-- Fills in what a draft leaves open. There has to be a path and a password. -/
def Draft.finish (d : Draft) : Except UsageError Arguments :=
  match d.path, d.password with
  | some path, some password =>
    let a : Arguments := { path, password }
    .ok {
      path, password
      uri := d.uri.getD a.uri
      user := d.user.getD a.user
      database := d.database.getD a.database
      repoKey := d.repoKey
      base := d.base
      batchSize := d.batchSize.getD a.batchSize
      minimum := d.minimum.getD a.minimum
      extensions := if d.extensions.isEmpty then a.extensions else d.extensions
      force := d.force
      skipDependencies := d.skipDependencies
      languageServer := d.languageServer.getD a.languageServer
      maxRetries := d.maxRetries.getD a.maxRetries }
  | _, _ => .error .missingArgument

/-- Reads what follows the command. The password may come from the environment. -/
def parseSync (verbose : Bool) (password : Option String) (l : List String) :
    Except UsageError Invocation := do
  let d ← (l.foldlM Draft.take {}) >>= Draft.settle
  let arguments ← { d with password := d.password.or password }.finish
  return ⟨verbose || d.verbose, arguments⟩

def commands : List String := ["sync", "help"]

/-- Reads what follows `help`. -/
def parseHelp : List String → UsageError
  | [] => .help
  | [name] => if commands.contains name then .help else .unknownCommand
  | first :: rest =>
    if first = "help" && rest.all commands.contains then .help else .unknownCommand

/-- Reads what follows `--` in front of the command. -/
def parseEscaped (verbose : Bool) : List String → UsageError
  | [] => if verbose then .missingCommand else .nothingGiven
  | name :: _ => if commands.contains name then .unknownArgument else .unknownCommand

/-- Reads the arguments after the switches in `d`. -/
def parseFrom (password : Option String) (d : Draft) : List String → Except UsageError Invocation
  | [] => .error (if d.verbose then .missingCommand else .nothingGiven)
  | argument :: rest =>
    if argument = "sync" then parseSync d.verbose password rest
    else if argument = "help" then .error (parseHelp rest)
    else if argument = "--" then .error (parseEscaped d.verbose rest)
    else
      match longOption? argument.toList, shortOptions? argument.toList with
      | some (name, value), _ => do
        parseFrom password (← d.takeLong Switch.general [] name value) rest
      | none, some letters => do
        parseFrom password (← letters.foldlM (Draft.takeShort Switch.general) d) rest
      | none, none => .error .unknownCommand

/-- Reads the arguments of the program. -/
def parse (password : Option String) (l : List String) : Except UsageError Invocation :=
  parseFrom password {} l

namespace Arguments

/-- The key of the repository: the one given, or the name of the source root. The root is looked up
among the directories that there are, and taken as it is if there is none. -/
def resolvedRepoKey (a : Arguments) (canonicalize : String → Option String) : String :=
  match a.repoKey with
  | some key => key
  | none =>
    let path := (canonicalize a.path).getD a.path
    ((Path.fileName? path.toList).map String.ofList).getD "repo"

/-- The options of the run with this source root. -/
def options (a : Arguments) (canonicalize : String → Option String) (root : String) :
    Run.Options where
  root := root
  repoKey := a.resolvedRepoKey canonicalize
  base := a.base
  force := a.force
  batchSize := a.batchSize
  minimum := a.minimum
  extensions := a.extensions
  skipDependencies := a.skipDependencies

def connection (a : Arguments) : Connection where
  uri := a.uri
  user := a.user
  password := a.password
  database := some a.database
  retry := { maxRetries := a.maxRetries }

end Arguments

end CodeGraph.Command
