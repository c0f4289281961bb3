import CodeGraph.Bits
import CodeGraph.Run.Basic

/-!
# Progress lines

One line is printed for each file. A system that runs builds gets the line in a form it understands.
-/

namespace CodeGraph.Command

/-- Where the program runs. -/
inductive Platform where
  | gitHubActions
  | azureDevOps
  | console
deriving DecidableEq, Repr

namespace Platform

/-- The platform, by the names of the environment variables that are set. -/
def detect (isSet : String → Bool) : Platform :=
  if isSet "GITHUB_ACTIONS" then gitHubActions
  else if isSet "TF_BUILD" then azureDevOps
  else console

def name : Platform → String
  | gitHubActions => "GitHubActions"
  | azureDevOps => "AzureDevOps"
  | console => "Console"

/-- The share of files announced, in percent. A hundredfold count stays within 64 bits. -/
def percent (current total : Nat) : Nat :=
  if total = 0 then 100 else min (current * 100) (Bits.limit64 - 1) / total

/-- The line for a file. -/
def line (p : Platform) (a : Run.Announcement) : String :=
  let place := s!"{a.current}/{a.total}"
  match p with
  | console => s!"[{place}] {a.relativePath}"
  | gitHubActions => s!"::notice::Processing file {place}: {a.relativePath}"
  | azureDevOps =>
    s!"##vso[task.setprogress value={percent a.current a.total};]"
      ++ s!"Processing file {place}: {a.relativePath}"

end Platform

/-- The least urgent messages that are logged. -/
def logLevel (verbose : Bool) : String := if verbose then "debug" else "info"

end CodeGraph.Command
