import CodeGraph.LanguageServer.Session

/-!
# A language server for rehearsals

A language server that replies as it is told and keeps what it receives. In front of a reply it may
send messages of its own, which the client answers if they are questions.
-/

namespace CodeGraph.Rehearsal

open Json (Value)
open LanguageServer (ClientMessage Notice Server ServerError)

/-- A message that the server sends of its own accord. It is a question if it has a number. -/
structure ServerMessage where
  number : Option Value
  method : String
  params : Value

/-- What the server does when it is asked. -/
inductive Reaction where
  | result (v : Value)
  | refusal (code : Int) (text : String)
  /-- The server ends without a reply. -/
  | collapse

structure Cue where
  before : List ServerMessage := []
  reaction : Reaction

/-- What the server is told to do. -/
structure ServerScript where
  greeting : Cue := { reaction := .result (.ofMembers [("capabilities", .ofMembers [])]) }
  /-- What it sends when the client is ready. -/
  remarks : List ServerMessage := []
  /-- The replies to questions about symbols, one after the other. -/
  outlines : List Cue := []
  farewell : Cue := { reaction := .result .null }

structure ScriptedServer where
  script : ServerScript := {}
  isGone : Bool := false
  /-- What has been received, the latest first. -/
  received : List Value := []

namespace ScriptedServer

/-- The message as it is kept. The number of the client's process is of no account. -/
def noteOf (m : ClientMessage) : Value :=
  let params := match m.params with
    | .object ms => .object (ms.map fun (k, v) => (k, if k = "processId" then .string "PID" else v))
    | v => v
  .ofMembers [("method", .string m.method), ("params", params)]

/-- The client's answer to a question as it is kept. -/
def noteOfAnswer (number : Value) (answer : Except Int Value) : Value :=
  let (result, code) := match answer with
    | .ok result => (result, Value.null)
    | .error code => (.null, .number (.integer code))
  .ofMembers [("response", number), ("result", result), ("error_code", code)]

/-- Sends messages up to the first that the client cannot read. What comes back are the notices
among them, and the answers to the questions. -/
def deliver : List ServerMessage → List (Option Notice) × List Value
  | [] => ([], [])
  | m :: rest =>
    match m.number, Notice.ofJson? m.method m.params with
    | none, none => ([none], [])
    | none, some n =>
      let (notices, answers) := deliver rest
      (some n :: notices, answers)
    | some number, _ =>
      let (notices, answers) := deliver rest
      (notices, noteOfAnswer number (LanguageServer.answer m.method m.params) :: answers)

/-- What the server does with a message. -/
def cueFor (s : ServerScript) : ClientMessage → Cue
  | .greet .. => s.greeting
  | .ready => ⟨s.remarks, .result .null⟩
  | .documentSymbol _ => s.outlines.headD { reaction := .result .null }
  | .shutdown => s.farewell
  | .didOpen .. | .exit => { reaction := .result .null }

def isExit : ClientMessage → Bool
  | .exit => true
  | _ => false

/-- What is left of the script after a message. -/
def after (s : ServerScript) : ClientMessage → ServerScript
  | .documentSymbol _ => { s with outlines := s.outlines.drop 1 }
  | _ => s

/-- The server as the client meets it. -/
def server : Server ScriptedServer where
  send m := fun s =>
    if s.isGone then (.error .stopped, [], s)
    else
      let cue := cueFor s.script m
      let (notices, answers) := deliver cue.before
      let notes := if isExit m then [] else [noteOf m]
      let s := { s with
        script := after s.script m
        received := answers.reverse ++ notes ++ s.received }
      match cue.reaction with
      | .result v => (.ok v, notices, { s with isGone := isExit m })
      | .refusal code text => (.error (.refused code text), notices, s)
      | .collapse => (.error .stopped, notices, { s with isGone := true })

end ScriptedServer

end CodeGraph.Rehearsal
