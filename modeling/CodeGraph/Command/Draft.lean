import CodeGraph.Bits
import CodeGraph.Command.Option
import CodeGraph.Graph.Accessibility
import CodeGraph.Text.Natural

/-!
# Drafts of a synchronization

What has been read of a command line so far. Arguments are taken in turn, and the first that cannot
be taken decides the error. The value of an option, and the path, are pending until the next option
or the end settles them; only then are they looked at.
-/

namespace CodeGraph.Command

/-- What has been read and not looked at. -/
inductive Pending where
  | setting (s : Setting) (values : List String)
  | path (p : String)
deriving DecidableEq, Repr

structure Draft where
  path : Option String := none
  uri : Option String := none
  user : Option String := none
  password : Option String := none
  database : Option String := none
  repoKey : Option String := none
  base : Option String := none
  batchSize : Option Nat := none
  minimum : Option Accessibility := none
  extensions : List String := []
  languageServer : Option String := none
  maxRetries : Option Nat := none
  verbose : Bool := false
  force : Bool := false
  skipDependencies : Bool := false
  pending : Option Pending := none
  /-- Whether there is a path, pending or not. -/
  hasPath : Bool := false
  /-- Whether options are over. -/
  isTrailing : Bool := false
deriving DecidableEq, Repr

namespace Draft

/-- The value of an option that has none yet. -/
def once {α : Type} (old new : Option α) : Except UsageError (Option α) :=
  match old, new with
  | some _, _ => .error .repeated
  | none, none => .error .malformedValue
  | none, some a => .ok (some a)

/-- A number of retries may have a sign, but only zero a minus. -/
def retries? (s : String) : Option Nat :=
  match s.toList with
  | '-' :: rest => if rest.head? == some '+' then none else Text.natural? 1 rest
  | l => Text.natural? Bits.limit32 l

/-- Gives an option its values, of which there is one unless the option is a list. -/
def assign (d : Draft) (s : Setting) (values : List String) : Except UsageError Draft :=
  match values with
  | [] => .error .missingValue
  | value :: _ =>
    match s with
    | .uri => (once d.uri value).map fun uri => { d with uri }
    | .user => (once d.user value).map fun user => { d with user }
    | .password => (once d.password value).map fun password => { d with password }
    | .database => (once d.database value).map fun database => { d with database }
    | .repoKey => (once d.repoKey value).map fun repoKey => { d with repoKey }
    | .base => (once d.base value).map fun base => { d with base }
    | .batchSize =>
      (once d.batchSize (Text.natural? Bits.limit64 value.toList)).map fun batchSize =>
        { d with batchSize }
    | .minimum =>
      (once d.minimum (Accessibility.parse? value)).map fun minimum => { d with minimum }
    | .extensions => .ok { d with extensions := d.extensions ++ values }
    | .languageServer =>
      (once d.languageServer value).map fun languageServer => { d with languageServer }
    | .maxRetries =>
      (once d.maxRetries (retries? value)).map fun maxRetries => { d with maxRetries }

/-- Looks at what is pending. -/
def settle (d : Draft) : Except UsageError Draft :=
  match d.pending with
  | none => .ok d
  | some (.setting s values) => { d with pending := none }.assign s values
  | some (.path p) =>
    if p = "" then .error .missingValue else .ok { d with pending := none, path := some p }

/-- The pending option that takes another value, with the values it has. -/
def awaiting? (d : Draft) : Option (Setting × List String) :=
  match d.pending with
  | some (.setting s values) => if s.isList || values.isEmpty then some (s, values) else none
  | _ => none

def flip (d : Draft) (s : Switch) : Except UsageError Draft := do
  let d ← d.settle
  match s with
  | .verbose => if d.verbose then .error .repeated else .ok { d with verbose := true }
  | .force => if d.force then .error .repeated else .ok { d with force := true }
  | .skipDependencies =>
    if d.skipDependencies then .error .repeated else .ok { d with skipDependencies := true }
  | .help => .error .help
  | .version => .error .version

/-- Takes an option by its name, and the value that is attached to it. -/
def takeLong (d : Draft) (switches : List Switch) (settings : List Setting) (name : String)
    (value : Option String) : Except UsageError Draft :=
  match switches.find? (·.name == name), settings.find? (·.name == name) with
  | some s, _ => if value.isSome then .error .unexpectedValue else d.flip s
  | none, some s => do
    let d ← d.settle
    match value with
    | some value => d.assign s [value]
    | none => .ok { d with pending := some (.setting s []) }
  | none, none => .error .unknownArgument

def takeShort (switches : List Switch) (d : Draft) (c : Char) : Except UsageError Draft :=
  match switches.find? (·.letter? == some c) with
  | some s => d.flip s
  | none => .error .unknownArgument

/-- Takes an argument that is no option. Only the path is none. -/
def takePlain (d : Draft) (argument : String) : Except UsageError Draft :=
  if d.hasPath then .error .unknownArgument
  else d.settle.map fun d => { d with pending := some (.path argument), hasPath := true }

/-- Takes the next argument of a synchronization. -/
def take (d : Draft) (argument : String) : Except UsageError Draft :=
  if d.isTrailing then d.takePlain argument
  else if argument = "--" then .ok { d with isTrailing := true }
  else
    match longOption? argument.toList, shortOptions? argument.toList, d.awaiting? with
    | some (name, value), _, _ => d.takeLong Switch.ofSync Setting.all name value
    | none, some letters, _ => letters.foldlM (takeShort Switch.ofSync) d
    | none, none, some (s, values) =>
      .ok { d with pending := some (.setting s (values ++ [argument])) }
    | none, none, none => d.takePlain argument

end Draft

end CodeGraph.Command
