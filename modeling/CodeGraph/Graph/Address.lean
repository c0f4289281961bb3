import CodeGraph.Bits
import CodeGraph.Text.Front
import CodeGraph.Text.Natural

/-!
# Server addresses

The addresses that a client can be set up for. An address without a scheme, or without a host after
the scheme, is read as what follows the default scheme.
-/

namespace CodeGraph.Address

/-- The schemes of the protocols the server speaks. -/
def schemes : List String := ["bolt", "bolt+s", "bolt+ssc", "neo4j", "neo4j+s", "neo4j+ssc"]

/-- Schemes whose addresses have a host in any case. -/
def webSchemes : List String := ["http", "https", "ws", "wss", "ftp"]

def isSchemeChar (c : Char) : Bool := c.isAlphanum || c == '+' || c == '-' || c == '.'

/-- The scheme, in small letters, and what follows the colon. -/
def scheme? (l : List Char) : Option (String × List Char) :=
  match l.takeWhile isSchemeChar, l.dropWhile isSchemeChar with
  | c :: name, ':' :: rest =>
    if c.isAlpha then some (String.ofList ((c :: name).map Char.toLower), rest) else none
  | _, _ => none

/-- Characters that end the authority. -/
def endsAuthority (c : Char) : Bool := c == '/' || c == '?' || c == '#'

/-- What may not occur in the name of a host. -/
def isForbiddenInHost (c : Char) : Bool :=
  c.toNat == 0 || "\t\n\r #/:<>?@[\\]^|".toList.contains c

def isHostName (l : List Char) : Bool :=
  match l with
  | '[' :: rest =>
    rest.getLast? == some ']' && rest.dropLast.all fun c =>
      c.isDigit || c == ':' || c == '.' || ('a' ≤ c.toLower && c.toLower ≤ 'f')
  | l => !l.any isForbiddenInHost

/-- A port is empty or a number of 16 bits. -/
def isPort (l : List Char) : Bool :=
  l.isEmpty || (l.all Char.isDigit && (Text.natural? Bits.limit16 l).isSome)

/-- The host and the port of an authority, without the user before them. -/
def hostAndPort (authority : List Char) : List Char × Option (List Char) :=
  let l := (authority.reverse.takeWhile (· ≠ '@')).reverse
  match l with
  | '[' :: _ =>
    let host := (l.reverse.dropWhile (· ≠ ']')).reverse
    match l.drop host.length with
    | ':' :: port => (host, some port)
    | [] => (host, none)
    | rest => (host ++ rest, none)
  | l =>
    match l.dropWhile (· ≠ ':') with
    | _ :: port => (l.takeWhile (· ≠ ':'), some port)
    | [] => (l, none)

/-- Whether an authority is well-formed. It may be empty as a whole. -/
def isAuthority (authority : List Char) : Bool :=
  let (host, port) := hostAndPort authority
  authority.isEmpty || (!host.isEmpty && isHostName host && isPort (port.getD []))

/-- The characters that count: none at the ends that are blank, and no tabs or line ends. -/
def significant (l : List Char) : List Char :=
  let trimmed := ((l.dropWhile fun c => c.toNat ≤ 0x20).reverse.dropWhile fun c =>
    c.toNat ≤ 0x20).reverse
  trimmed.filter fun c => c ≠ '\t' && c ≠ '\n' && c ≠ '\r'

/-- Whether the default scheme makes an address of the text. -/
def isBare (l : List Char) : Bool :=
  isAuthority ((significant ("bolt://".toList ++ l)).drop 7 |>.takeWhile fun c => !endsAuthority c)

/-- Whether a client can be set up for the server at this address. -/
def isSupported (address : String) : Bool :=
  let l := address.toList
  match scheme? (significant l) with
  | none => isBare l
  | some (scheme, rest) =>
    if webSchemes.contains scheme then false
    else
      let authority := ((Text.after? ['/', '/'] rest).getD []).takeWhile fun c => !endsAuthority c
      if authority.isEmpty then isBare l
      else schemes.contains scheme && isAuthority authority

end CodeGraph.Address
