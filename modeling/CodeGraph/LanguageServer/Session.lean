import CodeGraph.Facts
import CodeGraph.LanguageServer.Declare
import CodeGraph.LanguageServer.Message

/-!
# Sessions

A session with a language server, from the handshake to the shutdown. Each document is opened once,
before the first question about it. Of what the server publishes about a document the latest counts.
Indexing is over when the first work ends whose token is among those waited for, or the first work
at all if none is named.

The server may say something at any time. Here it does so in front of its reply to a message of the
client, and a notice that makes no sense ends the session.
-/

namespace CodeGraph.LanguageServer

open Json (Value)

/-- A server with states of type `ω`. It may give notices before it replies, `none` standing for one
that cannot be read. What is no request is replied to with `null` if it arrives. -/
structure Server (ω : Type) where
  send : ClientMessage → ω → Except ServerError Value × List (Option Notice) × ω

structure Settings where
  /-- The absolute path of the directory to work on. -/
  root : String
  languageId : String := "csharp"
  processId : Nat := 0
  options : Option Value := none
  /-- The work whose end means that indexing is over. Any work will do if there is none. -/
  indexingTokens : List String := []

/-- What the client keeps of a session. -/
structure Session where
  settings : Settings
  /-- The URIs of open documents, the latest first. -/
  opened : List String := []
  /-- The complaints by document. -/
  published : List (String × List String) := []
  isIndexed : Bool := false
  /-- Whether a notice could not be read. -/
  isBroken : Bool := false

namespace Session

/-- Whether the end of this work means that indexing is over. -/
def awaits (s : Session) (token : Token) : Bool :=
  match token with
  | .text t => s.settings.indexingTokens.isEmpty || s.settings.indexingTokens.contains t
  | .number _ => s.settings.indexingTokens.isEmpty

/-- Takes a notice, unless the session is broken. -/
def receive (s : Session) (n : Option Notice) : Session :=
  if s.isBroken then s
  else
    match n with
    | none => { s with isBroken := true }
    | some .remark => s
    | some (.workEnded token) => { s with isIndexed := s.isIndexed || s.awaits token }
    | some (.published uri complaints) =>
      { s with published := (uri, complaints) :: s.published.filter (·.1 != uri) }

/-- The complaints about the document with this URI. -/
def complaintsAbout (s : Session) (uri : String) : List String :=
  (s.published.lookup uri).getD []

/-- The complaints about the file at a path. -/
def diagnostics (s : Session) (path : String) : List String :=
  match DocumentUri.ofPath? path with
  | some uri => s.complaintsAbout uri
  | none => []

variable {ω : Type} (server : Server ω)

/-- Sends a message, takes the notices that come, and returns the reply. Nothing gets through once
the session is broken. -/
def send (m : ClientMessage) : Session × ω → Except ServerError Value × (Session × ω)
  | (s, w) =>
    if s.isBroken then (.error .stopped, (s, w))
    else
      let (reply, notices, w) := server.send m w
      let s := notices.foldl receive s
      (if s.isBroken then .error .stopped else reply, (s, w))

/-- Makes sure that a document is open. -/
def openOnce (uri content : String) : Session × ω → Except ServerError Unit × (Session × ω)
  | (s, w) =>
    if s.opened.contains uri then (.ok (), (s, w))
    else
      match send server (.didOpen uri s.settings.languageId content) (s, w) with
      | (.ok _, (s, w)) => (.ok (), ({ s with opened := uri :: s.opened }, w))
      | (.error e, sw) => (.error e, sw)

/-- Asks for the symbols of an open document. -/
def outline (uri : String) (sw : Session × ω) :
    Except ServerError (List ReportedSymbol) × (Session × ω) :=
  match send server (.documentSymbol uri) sw with
  | (.ok result, sw) =>
    match outline? result with
    | some symbols => (.ok symbols, sw)
    | none => (.error .malformed, sw)
  | (.error e, sw) => (.error e, sw)

/-- Asks for the declarations in the file at a path. -/
def declarations (path content : String) (sw : Session × ω) :
    Except FactError (List Declaration) × (Session × ω) :=
  match DocumentUri.ofPath? path with
  | none => (.error (.server s!"Not an absolute path: {path}"), sw)
  | some uri =>
    match openOnce server uri content sw with
    | (.error e, sw) => (.error (.server e.message), sw)
    | (.ok (), sw) =>
      match outline server uri sw with
      | (.ok symbols, sw) =>
        match toDeclarations symbols content with
        | some found => (.ok found, sw)
        | none => (.error .lineOverflow, sw)
      | (.error e, sw) => (.error (.server e.message), sw)

/-- The session as a source of facts. -/
def facts : FactSource (Session × ω) where
  declarations := declarations server
  diagnostics path := fun (s, _) => s.diagnostics path

/-- Begins a session. Either it stands, or the text says why it does not. -/
def start (settings : Settings) (w : ω) : Except String Unit × (Session × ω) :=
  let s : Session := { settings }
  match DocumentUri.ofDirectory? settings.root with
  | none => (.error s!"Root is not absolute: {settings.root}", (s, w))
  | some uri =>
    match send server (.greet settings.processId uri settings.options) (s, w) with
    | (.error e, sw) => (.error e.message, sw)
    | (.ok result, sw) =>
      if isGreeting result then
        match send server .ready sw with
        | (.ok _, sw) => (.ok (), sw)
        | (.error e, sw) => (.error e.message, sw)
      else (.error ServerError.malformed.message, sw)

/-- Ends a session. The server is told to exit only after it has agreed to shut down. -/
def shutdown (sw : Session × ω) : Except ServerError Unit × (Session × ω) :=
  match send server .shutdown sw with
  | (.ok .null, sw) =>
    match send server .exit sw with
    | (.ok _, sw) => (.ok (), sw)
    | (.error e, sw) => (.error e, sw)
  | (.ok _, sw) => (.error .malformed, sw)
  | (.error e, sw) => (.error e, sw)

end Session

end CodeGraph.LanguageServer
