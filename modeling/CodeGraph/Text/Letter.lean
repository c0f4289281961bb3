import CodeGraph.Text.Unicode.Alphanumeric
import CodeGraph.Text.Unicode.Cased
import CodeGraph.Text.Unicode.Lower

/-!
# Letters

Letter case in ASCII and in Unicode, and the characters of identifiers. A capital sigma that ends a
word is lowered to the final form of the small letter.
-/

namespace CodeGraph.Text

/-- Whether a code point lies in one of the ranges. -/
def inRanges (ranges : List (Nat × Nat)) (n : Nat) : Bool :=
  ranges.any fun (lo, hi) => lo ≤ n && n ≤ hi

/-- Whether the character is an ASCII letter or digit. -/
def isAsciiWord (c : Char) : Bool := c.isAlpha || c.isDigit

/-- Whether Unicode counts the character as alphabetic or numeric. -/
def isAlphanumeric (c : Char) : Bool :=
  if c.toNat < 0x80 then isAsciiWord c else inRanges alphanumericRanges c.toNat

/-- The text with the ASCII capitals made small. -/
def asciiLower (s : String) : String := s.map Char.toLower

/-- Equality up to the case of ASCII letters. -/
def eqIgnoringAsciiCase (s t : String) : Bool := asciiLower s == asciiLower t

/-- The small form of a character, in most cases one character. -/
def lowerChar (c : Char) : List Char :=
  let n := c.toNat
  -- The dotted capital I is the one character that becomes two.
  if n == 0x130 then ['i', Char.ofNat 0x307]
  else match lowerRuns.find? fun (lo, hi, step, _) => lo ≤ n && n ≤ hi && (n - lo) % step == 0 with
    | some (_, _, _, shift) => [Char.ofNat (n + shift).toNat]
    | none => [c]

/-- Whether the first character that is not case-ignorable is cased. -/
def startsCased (l : List Char) : Bool :=
  match l.dropWhile fun c => inRanges caseIgnorableRanges c.toNat with
  | [] => false
  | c :: _ => inRanges casedRanges c.toNat

/-- Lowers `l`, where `before` holds the characters before it, the nearest first. -/
def lowerFrom (before : List Char) : List Char → List Char
  | [] => []
  | c :: l =>
    let small :=
      if c = 'Σ' then (if startsCased before && !startsCased l then ['ς'] else ['σ'])
      else lowerChar c
    small ++ lowerFrom (c :: before) l

/-- The text in small letters. -/
def lower (s : String) : String := String.ofList (lowerFrom [] s.toList)

/-- Whether `c` is the small ASCII letter `letter` up to case. Unicode folds the long s to `s` and
the Kelvin sign to `k`. -/
def foldsTo (letter c : Char) : Bool :=
  c.toLower == letter || (letter == 's' && c == 'ſ') || (letter == 'k' && c.toNat == 0x212a)

end CodeGraph.Text
