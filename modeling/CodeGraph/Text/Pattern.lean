import CodeGraph.Text.Blank
import CodeGraph.Text.Front
import CodeGraph.Text.Letter

/-!
# Patterns

Patterns for texts that are not worth a grammar. A pattern is tried at one place after the other,
and at each place its choices are tried in order, a repetition with as many characters as fit or, if
it is reluctant, with as few. `Pattern.all` lists the matches, which do not overlap. A place in a
text is given by what follows it.
-/

namespace CodeGraph.Text

inductive Pattern where
  | empty
  /-- One character of a class. -/
  | one (p : Char → Bool)
  /-- Any number of characters of a class, as many as fit first. -/
  | many (p : Char → Bool)
  /-- Any number of characters of a class, as few as possible first. -/
  | few (p : Char → Bool)
  | seq (a b : Pattern)
  /-- The first pattern, or else the second. -/
  | choice (a b : Pattern)
  /-- A pattern whose text is wanted. -/
  | capture (a : Pattern)

namespace Pattern

/-- The text that a match is made for: what follows its start, and what follows its end. -/
structure Captured where
  onward : List Char
  rest : List Char
deriving DecidableEq, Repr

def Captured.text (c : Captured) : List Char := c.onward.take (c.onward.length - c.rest.length)

/-- Takes characters of the class as long as `next` does not succeed without them, last resort
first. -/
def runMany {α : Type} (p : Char → Bool) (next : List Char → Option α) : List Char → Option α
  | [] => next []
  | c :: l => if p c then (runMany p next l).or (next (c :: l)) else next (c :: l)

def runFew {α : Type} (p : Char → Bool) (next : List Char → Option α) : List Char → Option α
  | [] => next []
  | c :: l => (next (c :: l)).or (if p c then runFew p next l else none)

/-- Matches at the front of a text and goes on with `next`, which is given what follows and the
latest text captured. -/
def run {α : Type} : Pattern → (List Char → Option Captured → Option α) → List Char →
    Option Captured → Option α
  | empty, next, l, found => next l found
  | one _, _, [], _ => none
  | one p, next, c :: l, found => if p c then next l found else none
  | many p, next, l, found => runMany p (fun l => next l found) l
  | few p, next, l, found => runFew p (fun l => next l found) l
  | seq a b, next, l, found => a.run (fun l found => b.run next l found) l found
  | choice a b, next, l, found => (a.run next l found).or (b.run next l found)
  | capture a, next, l, found => a.run (fun rest _ => next rest (some ⟨l, rest⟩)) l found

/-- A match: what follows its start, and the text captured in it. -/
structure Match where
  onward : List Char
  captured : Captured
deriving DecidableEq, Repr

/-- The matches in a text. After a match the search goes on behind it. -/
def all (p : Pattern) (l : List Char) : List Match :=
  match p.run (fun rest found => found.map fun c => (c, rest)) l none with
  | some (captured, rest) =>
    if rest.length < l.length then ⟨l, captured⟩ :: all p rest
    else match l with
      | [] => []
      | _ :: l => all p l
  | none =>
    match l with
    | [] => []
    | _ :: l => all p l
termination_by l.length

/-! ## Building patterns -/

/-- The patterns one after the other. -/
def inOrder : List Pattern → Pattern
  | [] => empty
  | [a] => a
  | a :: rest => seq a (inOrder rest)

/-- The first of the patterns that leads to a match. -/
def firstOf : List Pattern → Pattern
  | [] => one fun _ => false
  | [a] => a
  | a :: rest => choice a (firstOf rest)

def maybe (a : Pattern) : Pattern := choice a empty

/-- At least one character of a class. -/
def several (p : Char → Bool) : Pattern := seq (one p) (many p)

def char (c : Char) : Pattern := one (· == c)

/-- This very text. -/
def word (s : String) : Pattern := inOrder (s.toList.map char)

/-- This text, given in small letters, in whatever letter case. -/
def anyCase (s : String) : Pattern := inOrder (s.toList.map fun c => one (foldsTo c))

/-- Any number of blanks. -/
def blanks : Pattern := many isBlank

/-- At least one blank. -/
def gap : Pattern := several isBlank

def isQuote (c : Char) : Bool := c == '\'' || c == '"'

/-- A text in quotes, which is captured. Either kind of quote ends it. -/
def quoted : Pattern :=
  inOrder [one isQuote, capture (several fun c => !isQuote c), one isQuote]

end Pattern

end CodeGraph.Text
