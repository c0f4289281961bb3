/-!
# Options of the command line

The options by their names, and what can be wrong with a command line.
-/

namespace CodeGraph.Command

/-- Why a command line is not carried out. -/
inductive UsageError where
  /-- Help is asked for. -/
  | help
  /-- The version is asked for. -/
  | version
  /-- There is nothing on the command line, which is answered with help. -/
  | nothingGiven
  | missingCommand
  | unknownCommand
  | unknownArgument
  /-- A value is given to an option that takes none. -/
  | unexpectedValue
  /-- An option lacks its value, or the value may not be empty. -/
  | missingValue
  | malformedValue
  /-- An option is given twice. -/
  | repeated
  | missingArgument
deriving DecidableEq, Repr

namespace UsageError

/-- Whether something is wrong, rather than asked for. -/
def isFailure (e : UsageError) : Bool := e != help && e != version

def message : UsageError → String
  | help => "usage: codegraph [--verbose] sync PATH --password PASSWORD [OPTIONS]"
  | version => "codegraph 0.1.0"
  | nothingGiven => "a command is required"
  | missingCommand => "a command is required"
  | unknownCommand => "there is no such command"
  | unknownArgument => "there is no such argument"
  | unexpectedValue => "a value is given to an option that takes none"
  | missingValue => "an option lacks its value"
  | malformedValue => "a value is malformed"
  | repeated => "an option is given twice"
  | missingArgument => "the path or the password is missing"

end UsageError

/-- Options that take a value. -/
inductive Setting where
  | uri
  | user
  | password
  | database
  | repoKey
  | base
  | batchSize
  | minimum
  | extensions
  | languageServer
  | maxRetries
deriving DecidableEq, Repr

namespace Setting

def all : List Setting :=
  [uri, user, password, database, repoKey, base, batchSize, minimum, extensions, languageServer,
    maxRetries]

def name : Setting → String
  | uri => "uri"
  | user => "user"
  | password => "password"
  | database => "database"
  | repoKey => "repo-key"
  | base => "diff-base"
  | batchSize => "batch-size"
  | minimum => "min-accessibility"
  | extensions => "include"
  | languageServer => "language-server"
  | maxRetries => "max-retries"

/-- Whether the option takes any number of values and may be given again. -/
def isList (s : Setting) : Bool := s == extensions

end Setting

/-- Options without a value. -/
inductive Switch where
  | verbose
  | force
  | skipDependencies
  | help
  | version
deriving DecidableEq, Repr

namespace Switch

/-- The switches before the command. -/
def general : List Switch := [verbose, help, version]

/-- The switches of a synchronization. -/
def ofSync : List Switch := [verbose, force, skipDependencies, help]

def name : Switch → String
  | verbose => "verbose"
  | force => "force"
  | skipDependencies => "skip-dependencies"
  | help => "help"
  | version => "version"

def letter? : Switch → Option Char
  | verbose => some 'v'
  | help => some 'h'
  | version => some 'V'
  | force | skipDependencies => none

end Switch

/-- An argument that starts with two hyphens: the name of an option, and a value after an equals
sign. -/
def longOption? (argument : List Char) : Option (String × Option String) :=
  match argument with
  | '-' :: '-' :: c :: rest =>
    let name := String.ofList ((c :: rest).takeWhile (· ≠ '='))
    match (c :: rest).dropWhile (· ≠ '=') with
    | _ :: value => some (name, some (String.ofList value))
    | [] => some (name, none)
  | _ => none

/-- The letters of an argument that starts with one hyphen. -/
def shortOptions? (argument : List Char) : Option (List Char) :=
  match argument with
  | '-' :: c :: rest => if c = '-' then none else some (c :: rest)
  | _ => none

end CodeGraph.Command
