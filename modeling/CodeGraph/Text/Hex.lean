/-!
# Bytes in hexadecimal digits
-/

namespace CodeGraph.Text

def hexValue (c : Char) : Nat :=
  if c.isDigit then c.toNat - '0'.toNat else c.toLower.toNat - 'a'.toNat + 10

/-- The bytes that pairs of digits stand for. -/
def bytesOfHex : List Char → List UInt8
  | a :: b :: rest => UInt8.ofNat (hexValue a * 16 + hexValue b) :: bytesOfHex rest
  | _ => []

end CodeGraph.Text
