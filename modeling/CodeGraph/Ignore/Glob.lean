import CodeGraph.Text.Pattern
import CodeGraph.Text.Utf8

/-!
# Globs

Patterns for paths: `?` stands for a byte and `*` for any number of bytes other than slashes, `**`
between slashes for any number of directories, brackets for a class of bytes, and braces for
alternatives. A backslash takes the meaning off the character after it. Paths are matched byte by
byte, each byte as the character with its number.
-/

namespace CodeGraph.Ignore

open Text (Pattern)
open Text.Pattern

/-- The bytes of a path as characters. -/
def bytesAsChars (l : List UInt8) : List Char := l.map fun b => Char.ofNat b.toNat

def charAsBytes (c : Char) : List Char := bytesAsChars (Text.encode (String.singleton c))

/-! ## Alternatives -/

/-- Braces that are open: the alternatives before the last comma, and the texts that the characters
since then stand for. -/
structure Braces where
  closed : List (List Char)
  current : List (List Char)

/-- How much of a bracket has been read. -/
inductive BracketPart where
  | opened
  | negated
  | filled
deriving DecidableEq, Repr

/-- What has been read: the open braces, the innermost first, the texts outside them, whether a
backslash stands before the next character, and the bracket that is open. -/
structure Expansion where
  braces : List Braces
  texts : List (List Char)
  isEscaped : Bool := false
  bracket : Option BracketPart := none

namespace Expansion

/-- Adds characters to each of the texts that are being read. -/
def add (e : Expansion) (l : List Char) : Expansion :=
  match e.braces with
  | [] => { e with texts := e.texts.map (· ++ l) }
  | b :: outer => { e with braces := { b with current := b.current.map (· ++ l) } :: outer }

/-- Adds each of the alternatives to each of the texts that are being read. -/
def branch (e : Expansion) (alternatives : List (List Char)) : Expansion :=
  let each := fun texts : List (List Char) =>
    texts.flatMap fun t => alternatives.map fun a => t ++ a
  match e.braces with
  | [] => { e with texts := each e.texts }
  | b :: outer => { e with braces := { b with current := each b.current } :: outer }

/-- The bracket after the next character. A closing bracket that comes first stands for itself. -/
def advance (part : BracketPart) (c : Char) : Option BracketPart :=
  match part with
  | .opened => some (if c = '!' || c = '^' then .negated else .filled)
  | .negated => some .filled
  | .filled => if c = ']' then none else some .filled

/-- Takes the next character. A brace that closes nothing is an error. -/
def take (e : Expansion) (c : Char) : Option Expansion :=
  match e.isEscaped, e.bracket with
  | true, _ => some { e.add ['\\', c] with isEscaped := false }
  | false, some part => some { e.add [c] with bracket := advance part c }
  | false, none =>
    if c = '\\' then some { e with isEscaped := true }
    else if c = '[' then some { e.add [c] with bracket := some .opened }
    else if c = '{' then some { e with braces := ⟨[], [[]]⟩ :: e.braces }
    else
      match c, e.braces with
      | '}', [] => none
      | '}', b :: outer =>
        let found := (b.closed ++ b.current).filter (!·.isEmpty)
        some ({ e with braces := outer }.branch (if found.isEmpty then [[]] else found))
      | ',', b :: outer => some { e with braces := ⟨b.closed ++ b.current, [[]]⟩ :: outer }
      | c, _ => some (e.add [c])

end Expansion

/-- The globs without braces that a glob stands for, unless its braces or its last backslash are
left open. -/
def expand (glob : List Char) : Option (List (List Char)) := do
  let e ← glob.foldlM Expansion.take ⟨[], [[]], false, none⟩
  if e.braces.isEmpty && !e.isEscaped then some e.texts else none

/-! ## Tokens -/

inductive Token where
  | byte (c : Char)
  /-- A byte that is no slash. -/
  | any
  /-- Any number of bytes that are no slashes. -/
  | star
  /-- A byte from certain ranges, or from none of them. -/
  | oneOf (negated : Bool) (ranges : List (Char × Char))
  /-- Any number of directories, at the start. -/
  | anywhere
  /-- Whatever is inside a directory, at the end. -/
  | inside
  /-- Any number of directories between two slashes. -/
  | between
deriving DecidableEq, Repr

/-- A bracket that is being read: its ranges, the latest first, and whether a hyphen stands before
the next character. -/
structure Bracket where
  negated : Bool
  isFirst : Bool
  ranges : List (Char × Char)
  isRange : Bool

namespace Bracket

/-- The ranges of a character that stands for itself. -/
def single (c : Char) : List (Char × Char) := (charAsBytes c).map fun b => (b, b)

/-- Takes a character that does not close the bracket. A range may not run backwards. -/
def take (b : Bracket) (c : Char) : Option Bracket :=
  match b.isRange, b.ranges with
  | true, (lo, _) :: rest =>
    if lo ≤ c then some { b with ranges := (lo, c) :: rest, isRange := false } else none
  | _, ranges =>
    if c = '-' && !b.isFirst && !ranges.isEmpty then some { b with isRange := true }
    else some { b with isFirst := false, ranges := single c ++ ranges }

/-- The token of a closed bracket. A hyphen at its end stands for itself. -/
def token (b : Bracket) : Token :=
  .oneOf b.negated (if b.isRange then single '-' ++ b.ranges else b.ranges)

end Bracket

/-- What has been read of a glob: its tokens, the latest first, whether a backslash stands before
the next character, and the bracket that is open. -/
structure Scan where
  tokens : List Token := []
  isEscaped : Bool := false
  bracket : Option Bracket := none

namespace Scan

def byteTokens (c : Char) : List Token := (charAsBytes c).map .byte

/-- Takes the next character. -/
def take (s : Scan) (c : Char) : Option Scan :=
  match s.isEscaped, s.bracket with
  | true, _ => some { s with tokens := (byteTokens c).reverse ++ s.tokens, isEscaped := false }
  | false, some b =>
    if b.isFirst && b.ranges.isEmpty && !b.negated && (c = '!' || c = '^') then
      some { s with bracket := some { b with negated := true } }
    else if c = ']' && !b.isFirst then
      some { s with tokens := b.token :: s.tokens, bracket := none }
    else (b.take c).map fun b => { s with bracket := some b }
  | false, none =>
    match c with
    | '\\' => some { s with isEscaped := true }
    | '[' => some { s with bracket := some ⟨false, true, [], false⟩ }
    | '?' => some { s with tokens := .any :: s.tokens }
    | '*' => some { s with tokens := .star :: s.tokens }
    | c => some { s with tokens := (byteTokens c).reverse ++ s.tokens }

end Scan

/-- The tokens of a glob without braces, each star for itself. -/
def tokens? (glob : List Char) : Option (List Token) := do
  let s ← glob.foldlM Scan.take {}
  if s.bracket.isSome || s.isEscaped then none else some s.tokens.reverse

/-- Joins two stars between slashes into one token, which takes up the slashes. The tokens before
are given with the latest first; `afterSlash` tells whether the latest character was a slash. -/
def joinStars (before : List Token) (afterSlash : Bool) : List Token → List Token
  | [] => before.reverse
  | [.star, .star] =>
    match before, afterSlash with
    | [], _ => [.anywhere]
    | .anywhere :: before, true => (.anywhere :: before).reverse
    | _ :: before, true => (.inside :: before).reverse
    | before, false => (.star :: .star :: before).reverse
  | .star :: .star :: .byte '/' :: rest =>
    match before, afterSlash with
    | [], _ => joinStars [.anywhere] true rest
    | .anywhere :: before, true => joinStars (.anywhere :: before) true rest
    | _ :: before, true => joinStars (.between :: before) true rest
    | before, false => joinStars (.byte '/' :: .star :: .star :: before) true rest
  | .byte c :: rest => joinStars (.byte c :: before) (c == '/') rest
  | t :: rest => joinStars (t :: before) false rest

/-! ## Patterns -/

def isSlash (c : Char) : Bool := c == '/'

def inRanges (ranges : List (Char × Char)) (c : Char) : Bool :=
  ranges.any fun (lo, hi) => lo ≤ c && c ≤ hi

/-- Any bytes and a slash. -/
def directories : Pattern := seq (many fun _ => true) (one isSlash)

def Token.pattern : Token → Pattern
  | byte c => one (· == c)
  | any => one fun c => !isSlash c
  | star => many fun c => !isSlash c
  | oneOf negated ranges => one fun c => inRanges ranges c != negated
  | anywhere => choice (maybe (one isSlash)) directories
  | inside => seq (one isSlash) (many fun _ => true)
  | between => choice (one isSlash) (seq (one isSlash) directories)

/-- The pattern of a glob without braces. -/
def globPattern? (glob : List Char) : Option Pattern := do
  match joinStars [] false (← tokens? glob) with
  | [.anywhere] => some (many fun _ => true)
  | tokens => some (inOrder (tokens.map Token.pattern))

/-! ## Brackets that stay open -/

/-- The rest of a bracket, up to what closes it, and what follows. -/
def closing? (part : BracketPart) : List Char → Option (List Char × List Char)
  | [] => none
  | c :: l =>
    match Expansion.advance part c with
    | none => some ([c], l)
    | some part => (closing? part l).map fun (inside, rest) => (c :: inside, rest)

theorem length_closing?_lt {part : BracketPart} {l inside rest : List Char}
    (h : closing? part l = some (inside, rest)) : rest.length < l.length := by
  induction l generalizing part inside with
  | nil => simp [closing?] at h
  | cons c l ih =>
    simp only [closing?] at h
    split at h
    · simp only [Option.some.injEq, Prod.mk.injEq] at h
      simp [h.2]
    · obtain ⟨⟨i, r⟩, hr, he⟩ := Option.map_eq_some_iff.1 h
      simp only [Prod.mk.injEq] at he
      obtain ⟨-, rfl⟩ := he
      have := ih hr
      simp only [List.length_cons]
      omega

/-- The glob with a backslash before the brackets that nothing closes, since they stand for
themselves. A range that runs backwards is an error even after such a bracket. -/
def quoteOpen (glob : List Char) : Option (List Char) :=
  match glob with
  | [] => some []
  | '\\' :: c :: l => do return '\\' :: c :: (← quoteOpen l)
  | '[' :: l =>
    match _ : closing? .opened l with
    | some (inside, rest) => do return '[' :: inside ++ (← quoteOpen rest)
    | none => do
      let _ ← ('[' :: l).foldlM Scan.take {}
      return '\\' :: '[' :: (← quoteOpen l)
  | c :: l => do return c :: (← quoteOpen l)
termination_by glob.length
decreasing_by
  all_goals simp only [List.length_cons]
  · omega
  · have := length_closing?_lt ‹_›
    omega
  · omega
  · omega

/-- The patterns a glob stands for, if it is well-formed. -/
def globPatterns? (glob : List Char) : Option (List Pattern) := do
  (← expand (← quoteOpen glob)).mapM globPattern?

/-- Whether the pattern matches the whole path. -/
def fits (p : Pattern) (path : List Char) : Bool :=
  (p.run (fun rest _ => if rest.isEmpty then some () else none) path none).isSome

end CodeGraph.Ignore
