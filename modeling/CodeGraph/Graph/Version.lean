import CodeGraph.Bits
import CodeGraph.Graph.Error
import CodeGraph.Text.Blank
import CodeGraph.Text.Natural

/-!
# Server versions

The statements need a server of a certain version, which is checked before anything is written.
-/

namespace CodeGraph

def minimumMajorVersion : Nat := 5

/-- The first number of a version. What follows a hyphen, such as an edition, does not count. -/
def majorVersion? (version : String) : Option Nat :=
  Text.natural? Bits.limit32
    ((Text.trimChars version.toList).takeWhile fun c => c != '-' && c != '.')

/-- Passes versions from the minimum on. -/
def checkVersion (version : String) : Except GraphError Unit :=
  match majorVersion? version with
  | none => .error .unknownVersion
  | some major =>
    if major < minimumMajorVersion then .error (.unsupportedVersion (Text.trim version)) else .ok ()

end CodeGraph
