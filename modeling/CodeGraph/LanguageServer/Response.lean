import CodeGraph.Json.Record
import CodeGraph.LanguageServer.Nesting
import CodeGraph.Text.Blank
import CodeGraph.Text.Letter

/-!
# Outline responses

A language server answers with an outline that is nested or not. A response is taken to be not
nested if all its items can be read that way.
-/

namespace CodeGraph.LanguageServer

open Json (Record Value)

/-- The kind with this number. A number that stands for nothing counts as a variable. -/
def ReportedKind.ofCode (code : Int) : ReportedKind :=
  if 1 ≤ code then (all[(code - 1).toNat]?).getD .variableDecl else .variableDecl

/-- Whether a text is an absolute URI: a scheme, a colon, and a host where the scheme needs one. -/
def isUri (s : String) : Bool :=
  let l := Text.trimChars s.toList
  let scheme := l.takeWhile (· ≠ ':')
  let rest := (l.dropWhile (· ≠ ':')).tail
  let needsHost := ["http", "https", "ws", "wss", "ftp"].contains
    (Text.asciiLower (String.ofList scheme))
  match scheme with
  | [] => false
  | c :: _ =>
    l.contains ':' && c.isAlpha
      && scheme.all (fun c => Text.isAsciiWord c || c == '+' || c == '-' || c == '.')
      && (!needsHost || !(rest.dropWhile fun c => c == '/' || c == '\\').isEmpty)

/-- Line and column. -/
def position? (v : Value) : Option (Nat × Nat) := do
  let r ← Record.ofValue? ["line", "character"] v
  return (← r.required "line" Value.uint32?, ← r.required "character" Value.uint32?)

/-- Start and end. -/
def range? (v : Value) : Option ((Nat × Nat) × (Nat × Nat)) := do
  let r ← Record.ofValue? ["start", "end"] v
  return (← r.required "start" position?, ← r.required "end" position?)

def location? (v : Value) : Option ((Nat × Nat) × (Nat × Nat)) := do
  let r ← Record.ofValue? ["uri", "range"] v
  let uri ← r.required "uri" Value.string?
  if isUri uri then r.required "range" range? else none

def flatFields : List String := ["name", "kind", "tags", "deprecated", "location", "containerName"]

/-- A symbol of an outline that is not nested. -/
def flatSymbol? (v : Value) : Option ReportedSymbol := do
  let r ← Record.ofValue? flatFields v
  let name ← r.required "name" Value.string?
  let code ← r.required "kind" Value.int32?
  let _ ← r.optional "tags" (Value.listOf? Value.int32?)
  let _ ← r.optional "deprecated" Value.bool?
  let (start, stop) ← r.required "location" location?
  let containerName ← r.optional "containerName" Value.string?
  return {
    name, kind := .ofCode code, detail := none, containerName
    startLine := start.1, endLine := stop.1, startColumn := start.2, children := [] }

def nestedFields : List String :=
  ["name", "detail", "kind", "tags", "deprecated", "range", "selectionRange", "children"]

/-- A symbol of a nested outline. -/
def nestedSymbol? (v : Value) : Option ReportedSymbol :=
  match _ : Record.ofValue? nestedFields v with
  | none => none
  | some r => do
    let name ← r.required "name" Value.string?
    let detail ← r.optional "detail" Value.string?
    let code ← r.required "kind" Value.int32?
    let _ ← r.optional "tags" (Value.listOf? Value.int32?)
    let _ ← r.optional "deprecated" Value.bool?
    let (_, stop) ← r.required "range" range?
    let (start, _) ← r.required "selectionRange" range?
    let children ← match _ : r.lookup "children" with
      | none | some .null => some []
      | some (.array items) => items.attach.mapM fun w => nestedSymbol? w.1
      | some _ => none
    return {
      name, kind := .ofCode code, detail, containerName := none
      startLine := start.1, endLine := stop.1, startColumn := start.2, children }
termination_by sizeOf v
decreasing_by
  have h := Record.sizeOf_lt_of_field ‹_› ‹r.lookup "children" = some _›
  have hw := List.sizeOf_lt_of_mem w.2
  simp only [Value.array.sizeOf_spec] at h
  omega

/-- The symbols of a response, or `none` if it is no outline. -/
def outline? (response : Value) : Option (List ReportedSymbol) :=
  match response with
  | .null => some []
  | .array items =>
    match items.mapM flatSymbol? with
    | some flat => some (nest flat)
    | none => items.mapM nestedSymbol?
  | _ => none

end CodeGraph.LanguageServer
