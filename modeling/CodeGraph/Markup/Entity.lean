import CodeGraph.Bits
import CodeGraph.Text.Front

/-!
# Character references

`unescape?` replaces the references in a text by the characters they stand for: the five named ones
and numbers in decimal or hexadecimal digits. An ampersand that starts no reference makes the text
malformed.
-/

namespace CodeGraph.Markup

def named? (name : List Char) : Option Char :=
  if name = "lt".toList then some '<'
  else if name = "gt".toList then some '>'
  else if name = "amp".toList then some '&'
  else if name = "apos".toList then some '\''
  else if name = "quot".toList then some '"'
  else none

/-- The value of a digit up to `f`. -/
def digit? (c : Char) : Option Nat :=
  if c.isDigit then some (c.toNat - '0'.toNat)
  else if 'a' ≤ c.toLower ∧ c.toLower ≤ 'f' then some (c.toLower.toNat - 'a'.toNat + 10)
  else none

/-- The number that the digits stand for in this base, within 32 bits. -/
def number? (base : Nat) (digits : List Char) : Option Nat := do
  if digits.isEmpty then none
  let ds ← digits.mapM digit?
  let n := ds.foldl (fun n d => n * base + d) 0
  if ds.all (· < base) && n < Bits.limit32 then some n else none

/-- The character with this number. Zero and the halves of pairs are no characters. -/
def character? (n : Nat) : Option Char :=
  if h : n.isValidChar then (if n = 0 then none else some (Char.ofNatAux n h)) else none

/-- The character that a reference stands for, given what is between `&` and `;`. -/
def resolve? : List Char → Option Char
  | '#' :: 'x' :: digits => number? 16 digits >>= character?
  | '#' :: digits => number? 10 digits >>= character?
  | name => named? name

/-- Takes a reference up to its semicolon, given what has been read of it, the latest first. The
result is the rest of the text with the reference replaced. -/
def unescapeFrom (reference : Option (List Char)) : List Char → Option (List Char)
  | [] => if reference.isNone then some [] else none
  | c :: l =>
    match reference with
    | none =>
      if c = '&' then unescapeFrom (some []) l else (unescapeFrom none l).map (c :: ·)
    | some name =>
      if c = '&' then none
      else if c = ';' then do
        let x ← resolve? name.reverse
        return x :: (← unescapeFrom none l)
      else unescapeFrom (some (c :: name)) l

/-- The text that the characters stand for. -/
def unescape? (l : List Char) : Option (List Char) := unescapeFrom none l

end CodeGraph.Markup
