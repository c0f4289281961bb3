import CodeGraph.Text.Split

/-!
# Errors of the graph store

What can go wrong between a synchronization and the server of the graph database, the wording of
each error, and whether trying again may help. A server names a failure by a code of several words;
`ServerFailure.class` sorts the codes.
-/

namespace CodeGraph

/-- Why a server takes no orders from this client. -/
inductive SecurityIssue where
  | authentication
  | authorizationExpired
  | tokenExpired
  | other
  | unknown
deriving DecidableEq, Repr

/-- Failures that are up to the client. -/
inductive ClientIssue where
  | security (issue : SecurityIssue)
  | fatalDiscovery
  | transactionTerminated
  | protocolViolation
  | sessionExpired
  | other
  | unknown
deriving DecidableEq, Repr

inductive FailureClass where
  | client (issue : ClientIssue)
  | transient
  | database
  | unknown
deriving DecidableEq, Repr

namespace FailureClass

def securityName : SecurityIssue → String
  | .authentication => "Authentication"
  | .authorizationExpired => "AuthorizationExpired"
  | .tokenExpired => "TokenExpired"
  | .other => "Other"
  | .unknown => "Unknown"

def clientName : ClientIssue → String
  | .security issue => s!"Security({securityName issue})"
  | .fatalDiscovery => "FatalDiscovery"
  | .transactionTerminated => "TransactionTerminated"
  | .protocolViolation => "ProtocolViolation"
  | .sessionExpired => "SessionExpired"
  | .other => "Other"
  | .unknown => "Unknown"

def name : FailureClass → String
  | client issue => s!"Client({clientName issue})"
  | transient => "Transient"
  | database => "Database"
  | unknown => "Unknown"

/-- Whether a failure of this class passes. A new leader or a new login ends the session of a
client, which the next attempt opens anew. -/
def isTransient (c : FailureClass) : Bool :=
  c == transient || c == client .sessionExpired || c == client (.security .authorizationExpired)

end FailureClass

/-- Two codes that are called transient but are up to the client get the name they should have. -/
def currentCode (code : String) : String :=
  if code = "Neo.TransientError.Transaction.Terminated" then
    "Neo.ClientError.Transaction.Terminated"
  else if code = "Neo.TransientError.Transaction.LockClientStopped" then
    "Neo.ClientError.Transaction.LockClientStopped"
  else code

def securityIssue : Option String → SecurityIssue
  | some "Unauthorized" => .authentication
  | some "AuthorizationExpired" => .authorizationExpired
  | some "TokenExpired" => .tokenExpired
  | some _ => .other
  | none => .unknown

/-- The issue behind the words of a code after its class. -/
def clientIssue (area issue : Option String) : ClientIssue :=
  match area, issue with
  | none, _ => .unknown
  | some "Security", issue => .security (securityIssue issue)
  | some "Database", some "DatabaseNotFound" => .fatalDiscovery
  | some "Transaction", some "Terminated" => .transactionTerminated
  | some "Request", _ => .protocolViolation
  | some "Cluster", some "NotALeader" => .sessionExpired
  | some "General", some "ForbiddenOnReadOnlyDatabase" => .sessionExpired
  | some _, _ => .other

/-- The class of a failure with this code. -/
def classOfCode (code : String) : FailureClass :=
  let words := Text.splitAt '.' (currentCode code)
  match words[1]? with
  | none => .unknown
  | some "TransientError" => .transient
  | some "ClientError" => .client (clientIssue words[2]? words[3]?)
  | some _ => .database

/-- How an exchange with the server fails. -/
inductive Failure where
  /-- The server answers with a failure. -/
  | server (code message : String)
  /-- The server refuses the client. -/
  | authentication (message : String)
  | connection
  /-- The connection breaks. -/
  | io (text : String)
  | conversion
  /-- The server answers out of turn. -/
  | unexpectedMessage
  /-- The client is not set up for the server. -/
  | other
deriving DecidableEq, Repr

inductive GraphError where
  | connection (text : String)
  | query (text : String)
  | unsupportedVersion (version : String)
  | unknownVersion
  | exchange (f : Failure)
  /-- The delay before a retry does not fit its word, which stops the program. -/
  | delayOverflow
  /-- The count of what was merged does not fit its word, which stops the program. -/
  | countOverflow
deriving DecidableEq, Repr

def Failure.message : Failure → String
  | server code text => s!"Neo4j error `{currentCode code}`: {text}"
  | authentication text => text
  | connection => "connection error"
  | io text => s!"an IO error occurred: {text}"
  | conversion => "conversion error"
  | unexpectedMessage => "unexpected response"
  | other => "invalid configuration"

namespace GraphError

def message : GraphError → String
  | connection text => s!"Connection error: {text}"
  | query text => s!"Query error: {text}"
  | exchange f => s!"Neo4j error: {f.message}"
  | unsupportedVersion version =>
    s!"Neo4j version {version} is not supported. Minimum required version is 5.0."
  | unknownVersion => "Could not determine the Neo4j server version"
  | delayOverflow => "The delay before a retry is too long"
  | countOverflow => "attempt to add with overflow"

/-- The message, and then the messages of what caused the error, the deepest cause last. -/
def causes (e : GraphError) : List String :=
  match e with
  | exchange (.io text) => [e.message, (Failure.io text).message, text]
  | exchange f => [e.message, f.message]
  | e => [e.message]

/-- Whether the same request may succeed later. -/
def isTransient : GraphError → Bool
  | exchange (.io _) | exchange .connection => true
  | exchange (.server code _) => (classOfCode code).isTransient
  | _ => false

end GraphError

end CodeGraph
