/-!
# Blank characters

The characters that Unicode calls white space, and trimming them off a text. `trim` works on
`String`; the same operation on characters is `trimChars`, which proofs use.
-/

namespace CodeGraph.Text

/-- Whether Unicode gives `c` the property White_Space. -/
def isBlank (c : Char) : Bool :=
  let n := c.toNat
  (0x09 ≤ n && n ≤ 0x0d) || n == 0x20 || n == 0x85 || n == 0xa0 || n == 0x1680
    || (0x2000 ≤ n && n ≤ 0x200a) || n == 0x2028 || n == 0x2029 || n == 0x202f || n == 0x205f
    || n == 0x3000

def trimStartChars (l : List Char) : List Char := l.dropWhile isBlank

def trimEndChars (l : List Char) : List Char := (l.reverse.dropWhile isBlank).reverse

def trimChars (l : List Char) : List Char := trimEndChars (trimStartChars l)

/-- The text without the blanks at either end. -/
def trim (s : String) : String := String.ofList (trimChars s.toList)

/-- The text without every `c` at its start. -/
def dropStartWhile (c : Char) (s : String) : String :=
  String.ofList (s.toList.dropWhile (· == c))

end CodeGraph.Text
