import CodeGraph.LanguageServer.DocumentUri
import CodeGraph.LanguageServer.Response

/-!
# Messages

What client and server tell each other: a method and its parameters as JSON. The client asks for the
symbols of a document, which it opens before. The server reports on its progress and complains about
documents, and may ask something itself.
-/

namespace CodeGraph.LanguageServer

open Json (Record Value)

/-- What the client sends. -/
inductive ClientMessage where
  /-- The first message, a request. -/
  | greet (processId : Nat) (rootUri : String) (options : Option Value)
  /-- The second message, once the server has answered the first. -/
  | ready
  | didOpen (uri languageId text : String)
  | documentSymbol (uri : String)
  | shutdown
  | exit

namespace ClientMessage

def method : ClientMessage → String
  | greet .. => "initialize"
  | ready => "initialized"
  | didOpen .. => "textDocument/didOpen"
  | documentSymbol _ => "textDocument/documentSymbol"
  | shutdown => "shutdown"
  | exit => "exit"

/-- The client understands nested symbols and progress reports. -/
def capabilities : Value :=
  let symbols : Value := .ofMembers [("hierarchicalDocumentSymbolSupport", .bool true)]
  .ofMembers [
    ("textDocument", .ofMembers [("documentSymbol", symbols)]),
    ("window", .ofMembers [("workDoneProgress", .bool true)])]

def params : ClientMessage → Value
  | greet processId rootUri options =>
    let folder : Value := .ofMembers [("name", .string "root"), ("uri", .string rootUri)]
    .ofMembers ([
      ("capabilities", capabilities), ("processId", .ofNat processId),
      ("rootUri", .string rootUri), ("workspaceFolders", .array [folder])]
      ++ (options.map fun o => ("initializationOptions", o)).toList)
  | ready => .ofMembers []
  | didOpen uri languageId text =>
    .ofMembers [("textDocument", .ofMembers [
      ("uri", .string uri), ("languageId", .string languageId), ("text", .string text),
      ("version", .ofNat 1)])]
  | documentSymbol uri => .ofMembers [("textDocument", .ofMembers [("uri", .string uri)])]
  | shutdown | exit => .null

end ClientMessage

/-- Why a message comes to nothing. -/
inductive ServerError where
  /-- The server answers with an error. -/
  | refused (code : Int) (text : String)
  /-- The server, or the connection to it, is gone. -/
  | stopped
  /-- The answer is not of the form asked for. -/
  | malformed
deriving DecidableEq, Repr

def ServerError.message : ServerError → String
  | refused code text => s!"{text} (jsonrpc error {code})"
  | stopped => "service stopped"
  | malformed => "deserialization failed"

/-- What names a piece of work that is reported on. -/
inductive Token where
  | text (s : String)
  | number (n : Int)
deriving DecidableEq, Repr

def Token.ofJson? (v : Value) : Option Token :=
  (v.string?.map Token.text).or (v.int32?.map Token.number)

/-- What the server says without being asked. -/
inductive Notice where
  /-- A piece of work has ended. -/
  | workEnded (token : Token)
  /-- All there is to complain about in a document. -/
  | published (uri : String) (complaints : List String)
  /-- What the client has no use for. -/
  | remark
deriving DecidableEq, Repr

namespace Notice

/-- The notice of a report on the progress of work. -/
def progress? (params : Value) : Option Notice := do
  let r ← Record.ofValue? ["token", "value"] params
  let token ← r.required "token" Token.ofJson?
  match ← r.required "value" some with
  | .object report =>
    let report : Record := report
    let _ ← report.optional "message" Value.string?
    match ← report.required "kind" Value.string? with
    | "end" => some (workEnded token)
    | "report" =>
      let _ ← report.optional "cancellable" Value.bool?
      let _ ← report.optional "percentage" Value.uint32?
      some remark
    | "begin" =>
      let _ ← report.required "title" Value.string?
      let _ ← report.optional "cancellable" Value.bool?
      let _ ← report.optional "percentage" Value.uint32?
      some remark
    | _ => none
  | _ => none

/-- A URI that may be followed. -/
def link? (v : Value) : Option Unit := do
  let r ← Record.ofValue? ["href"] v
  let uri ← r.required "href" Value.string?
  if isUri uri then some () else none

/-- Something said elsewhere that explains a complaint. -/
def related? (v : Value) : Option Unit := do
  let r ← Record.ofValue? ["location", "message"] v
  let _ ← r.required "location" location?
  let _ ← r.required "message" Value.string?
  some ()

def complaintFields : List String :=
  ["range", "severity", "code", "codeDescription", "source", "message", "relatedInformation",
    "tags", "data"]

/-- A complaint as text, with its code in front if it has one. -/
def complaint? (v : Value) : Option String := do
  let r ← Record.ofValue? complaintFields v
  let _ ← r.required "range" range?
  let _ ← r.optional "severity" Value.int32?
  let code ← r.optional "code" Token.ofJson?
  let _ ← r.optional "codeDescription" link?
  let _ ← r.optional "source" Value.string?
  let text ← r.required "message" Value.string?
  let _ ← r.optional "relatedInformation" (Value.listOf? related?)
  let _ ← r.optional "tags" (Value.listOf? Value.int32?)
  match code with
  | some (.text code) => some s!"{code}: {text}"
  | some (.number code) => some s!"{code}: {text}"
  | none => some text

/-- The notice with the complaints about a document. -/
def published? (params : Value) : Option Notice := do
  let r ← Record.ofValue? ["uri", "diagnostics", "version"] params
  let uri ← r.required "uri" Value.string?
  let complaints ← r.required "diagnostics" (Value.listOf? complaint?)
  let _ ← r.optional "version" Value.int32?
  if isUri uri then some (published (DocumentUri.canonical uri) complaints) else none

/-- A message to show or to log. -/
def shown? (params : Value) : Option Notice := do
  let r ← Record.ofValue? ["type", "message"] params
  let _ ← r.required "type" Value.int32?
  let _ ← r.required "message" Value.string?
  some remark

/-- The notice with this method. Methods that start with a dollar sign may be ignored, and others
that are unknown may not. -/
def ofJson? (method : String) (params : Value) : Option Notice :=
  match method with
  | "$/progress" => progress? params
  | "textDocument/publishDiagnostics" => published? params
  | "window/showMessage" | "window/logMessage" => shown? params
  | method => if "$/".toList.isPrefixOf method.toList then some remark else none

end Notice

def methodNotFound : Int := -32601
def invalidParams : Int := -32602

/-- How the client answers what the server asks: with a result, or with the code of an error. It
lets the server announce work, and nothing else. -/
def answer (method : String) (params : Value) : Except Int Value :=
  if method = "window/workDoneProgress/create" then
    match Record.ofValue? ["token"] params >>= fun r => r.required "token" Token.ofJson? with
    | some _ => .ok .null
    | none => .error invalidParams
  else .error methodNotFound

/-- Whether a result says what the server can do. -/
def isGreeting (result : Value) : Bool :=
  match result.member? "capabilities" with
  | some (.object _) => true
  | _ => false

end CodeGraph.LanguageServer
