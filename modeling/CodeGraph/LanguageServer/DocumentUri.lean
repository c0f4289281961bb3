import CodeGraph.Path.Basic
import CodeGraph.Text.Letter
import CodeGraph.Text.Utf8

/-!
# Document URIs

Client and server name a document by a URI. The client makes it from an absolute path, each name of
which is written with percent signs for the bytes that may not stand in a URI. `..` stays, since the
path may lead through a link.

A server may write the same document in another way: with the characters themselves, or with `..` to
be resolved. `DocumentUri.canonical` is the one way that counts.
-/

namespace CodeGraph.LanguageServer.DocumentUri

/-- Bytes that stand for themselves in the path of a URI. -/
def isPlain (b : UInt8) : Bool :=
  0x21 ≤ b && b ≤ 0x7e && !(Text.encode "\"#<>?`\x7b\x7d").contains b

/-- Bytes that stand for themselves in a name. A percent sign does not, or it would be taken for an
encoded byte, and nothing may be taken for the end of the name. -/
def isPlainInName (b : UInt8) : Bool := isPlain b && !(Text.encode "%/\\").contains b

def hexDigit (n : Nat) : Char := "0123456789ABCDEF".toList.getD n '0'

/-- The bytes of a text, with a percent sign and two digits for each that is not plain. -/
def percentEncode (isPlain : UInt8 → Bool) (text : List Char) : List Char :=
  (Text.encode (String.ofList text)).flatMap fun b =>
    if isPlain b then [Char.ofNat b.toNat]
    else ['%', hexDigit (b.toNat / 16), hexDigit (b.toNat % 16)]

/-- The URI of the path with these names. -/
def ofSegments (names : List (List Char)) : String :=
  "file:///" ++ String.ofList (['/'].intercalate names)

/-- The URI of the file at an absolute path. -/
def ofPath? (path : String) : Option String :=
  if Path.isAbsolute path.toList then
    some (ofSegments ((Path.names path.toList).map (percentEncode isPlainInName)))
  else none

/-- The URI of the directory at an absolute path. It ends in a slash. -/
def ofDirectory? (path : String) : Option String :=
  (ofPath? path).map fun uri => if uri.toList.getLast? == some '/' then uri else uri ++ "/"

/-- The text without the characters that count for nothing in a URI. -/
def stripped (uri : List Char) : List Char :=
  let isControl := fun c : Char => c.toNat ≤ 0x20
  let inside := ((uri.dropWhile isControl).reverse.dropWhile isControl).reverse
  inside.filter fun c => c != '\t' && c != '\n' && c != '\r'

/-- The name with its dots, which may be written with percent signs. -/
def dots : List Char → List Char
  | '%' :: '2' :: c :: rest =>
    if c = 'e' || c = 'E' then '.' :: dots rest else '%' :: '2' :: c :: dots rest
  | c :: rest => c :: dots rest
  | [] => []

/-- Enters names one after the other, the innermost first in `stack`. A dot at the end names the
directory, whose last name is then empty. -/
def resolve (stack : List (List Char)) : List (List Char) → List (List Char)
  | [] => stack.reverse
  | n :: rest =>
    let back := dots n = ['.', '.']
    let stays := back || dots n = ['.']
    let stack := if back then stack.tail else stack
    if stays then resolve (if rest.isEmpty then [] :: stack else stack) rest
    else resolve (n :: stack) rest

/-- The URI of a document as the client writes it, for any way to write the URI of a file without a
host. Other URIs are kept. -/
def canonical (uri : String) : String :=
  let l := stripped uri.toList
  let scheme := l.takeWhile (· ≠ ':')
  if Text.asciiLower (String.ofList scheme) = "file" then
    let rest := ((l.dropWhile (· ≠ ':')).drop 1).map fun c => if c = '\\' then '/' else c
    let location := rest.takeWhile fun c => c != '?' && c != '#'
    let mark := rest.drop location.length
    match location with
    | '/' :: '/' :: host =>
      match host.dropWhile (· ≠ '/') with
      | [] => uri
      | path =>
        let name := host.take (host.length - path.length)
        if name.isEmpty || Text.asciiLower (String.ofList name) = "localhost" then
          finish path mark
        else uri
    | path => finish path mark
  else uri
where
  /-- The URI of a path, and what follows the path. -/
  finish (path mark : List Char) : String :=
    let names := Text.pieces '/' (if path.head? == some '/' then path.drop 1 else path)
    ofSegments (resolve [] (names.map (percentEncode isPlain)))
      ++ String.ofList (percentEncode isPlain mark)

end CodeGraph.LanguageServer.DocumentUri
