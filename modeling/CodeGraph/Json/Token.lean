import CodeGraph.Json.Number

/-!
# JSON tokens

Takes a text apart into brackets, separators and scalars. A token is read off the front of the text,
and what is left is shorter, which is why `tokens?` ends.
-/

namespace CodeGraph.Json

inductive Token where
  | arrayOpen
  | arrayClose
  | objectOpen
  | objectClose
  | colon
  | comma
  | scalar (v : Value)
deriving Repr

namespace Token

def isBlank (c : Char) : Bool := c == ' ' || c == '\n' || c == '\t' || c == '\r'

def hexDigit? (c : Char) : Option Nat :=
  if c.isDigit then some (c.toNat - '0'.toNat)
  else if 'a' ≤ c ∧ c ≤ 'f' then some (c.toNat - 'a'.toNat + 10)
  else if 'A' ≤ c ∧ c ≤ 'F' then some (c.toNat - 'A'.toNat + 10)
  else none

/-- The unit that four hexadecimal digits stand for. -/
def unit? (a b c d : Char) : Option Nat := do
  return (← hexDigit? a) * 4096 + (← hexDigit? b) * 256 + (← hexDigit? c) * 16 + (← hexDigit? d)

/-- The character of a pair of units, the first of the higher and the second of the lower half. -/
def ofPair? (high low : Nat) : Option Char :=
  if 0xd800 ≤ high ∧ high ≤ 0xdbff ∧ 0xdc00 ≤ low ∧ low ≤ 0xdfff then
    some (Char.ofNat (0x10000 + (high - 0xd800) * 0x400 + (low - 0xdc00)))
  else none

/-- The character of a unit that is no half of a pair. -/
def ofUnit? (u : Nat) : Option Char :=
  if 0xd800 ≤ u ∧ u ≤ 0xdfff then none else some (Char.ofNat u)

/-- The character that a backslash and `c` stand for. -/
def escaped? (c : Char) : Option Char :=
  match c with
  | '"' => some '"'
  | '\\' => some '\\'
  | '/' => some '/'
  | 'b' => some '\x08'
  | 'f' => some '\x0c'
  | 'n' => some '\n'
  | 'r' => some '\r'
  | 't' => some '\t'
  | _ => none

/-- The characters of a string up to its closing quote, and the text after the quote. -/
def stringBody? : List Char → Option (List Char × List Char)
  | '"' :: rest => some ([], rest)
  | '\\' :: 'u' :: a :: b :: c :: d :: '\\' :: 'u' :: e :: f :: g :: h :: rest => do
    let u ← unit? a b c d
    match ofUnit? u with
    | some x =>
      let (cs, rest) ← stringBody? ('\\' :: 'u' :: e :: f :: g :: h :: rest)
      return (x :: cs, rest)
    | none =>
      let x ← ofPair? u (← unit? e f g h)
      let (cs, rest) ← stringBody? rest
      return (x :: cs, rest)
  | '\\' :: 'u' :: a :: b :: c :: d :: rest => do
    let x ← ofUnit? (← unit? a b c d)
    let (cs, rest) ← stringBody? rest
    return (x :: cs, rest)
  | '\\' :: c :: rest => do
    let x ← escaped? c
    let (cs, rest) ← stringBody? rest
    return (x :: cs, rest)
  | c :: rest =>
    if c.toNat < 0x20 || c == '\\' then none
    else (stringBody? rest).map fun (cs, rest) => (c :: cs, rest)
  | [] => none

/-- The digits at the front of the text, and the text after them. -/
def digits (l : List Char) : List Nat × List Char :=
  ((l.takeWhile Char.isDigit).map fun c => c.toNat - '0'.toNat, l.dropWhile Char.isDigit)

/-- The digits after a decimal point, of which there is at least one, or none without a point. -/
def fraction? : List Char → Option (List Nat × List Char)
  | '.' :: rest =>
    let (ds, rest) := digits rest
    if ds.isEmpty then none else some (ds, rest)
  | l => some ([], l)

/-- The digits of an exponent after its sign. -/
def exponentDigits? (negative : Bool) (l : List Char) :
    Option (Option (Bool × List Nat) × List Char) :=
  let (ds, rest) := digits l
  if ds.isEmpty then none else some (some (negative, ds), rest)

/-- The sign and digits of an exponent, if the text starts with one. -/
def exponent? : List Char → Option (Option (Bool × List Nat) × List Char)
  | c :: rest =>
    if c == 'e' || c == 'E' then
      match rest with
      | '+' :: rest => exponentDigits? false rest
      | '-' :: rest => exponentDigits? true rest
      | rest => exponentDigits? false rest
    else some (none, c :: rest)
  | [] => some (none, [])

/-- A numeral after its sign. Only zero itself starts with a zero. -/
def number? (negative : Bool) (l : List Char) : Option (Number × List Char) := do
  let (whole, rest) := digits l
  if whole.isEmpty || (whole.length > 1 && whole.head? == some 0) then none
  let (fraction, rest) ← fraction? rest
  let (exponent, rest) ← exponent? rest
  let n ← Number.ofDigits negative whole fraction exponent
  return (n, rest)

/-- The token that starts with `c`, and the text after it. -/
def next? (c : Char) (rest : List Char) : Option (Token × List Char) :=
  match c with
  | '[' => some (.arrayOpen, rest)
  | ']' => some (.arrayClose, rest)
  | '{' => some (.objectOpen, rest)
  | '}' => some (.objectClose, rest)
  | ':' => some (.colon, rest)
  | ',' => some (.comma, rest)
  | '"' => (stringBody? rest).map fun (cs, rest) => (.scalar (.string (String.ofList cs)), rest)
  | '-' => (number? true rest).map fun (n, rest) => (.scalar (.number n), rest)
  | 't' => match rest with
    | 'r' :: 'u' :: 'e' :: rest => some (.scalar (.bool true), rest)
    | _ => none
  | 'f' => match rest with
    | 'a' :: 'l' :: 's' :: 'e' :: rest => some (.scalar (.bool false), rest)
    | _ => none
  | 'n' => match rest with
    | 'u' :: 'l' :: 'l' :: rest => some (.scalar .null, rest)
    | _ => none
  | c => (number? false (c :: rest)).map fun (n, rest) => (.scalar (.number n), rest)

/-- What is left after a string is shorter than the text. -/
theorem length_stringBody?_lt {l rest cs : List Char} (h : stringBody? l = some (cs, rest)) :
    rest.length < l.length := by
  fun_induction stringBody? l generalizing cs rest <;>
    simp only [Option.bind_eq_bind, Option.bind_eq_some_iff, Option.pure_def, Option.some.injEq,
      Prod.mk.injEq, Prod.exists, Option.map_eq_some_iff, reduceCtorEq] at h
  case case2 ih₂ ih₁ =>
    obtain ⟨u, -, h⟩ := h
    split at h <;>
      simp only [Option.bind_eq_some_iff, Option.some.injEq, Prod.mk.injEq, Prod.exists] at h
    · obtain ⟨cs, r, hr, -, rfl⟩ := h
      have := ih₂ hr
      simp only [List.length_cons] at this ⊢
      omega
    · obtain ⟨-, -, -, -, cs, r, hr, -, rfl⟩ := h
      have := ih₁ hr
      simp only [List.length_cons]
      omega
  all_goals grind

theorem length_digits_add (l : List Char) :
    (digits l).1.length + (digits l).2.length = l.length := by
  simp only [digits, List.length_map]
  rw [← List.length_append, List.takeWhile_append_dropWhile]

theorem length_fraction?_le {l rest : List Char} {ds : List Nat}
    (h : fraction? l = some (ds, rest)) : rest.length ≤ l.length := by
  unfold fraction? at h
  split at h
  · rename_i t
    have := length_digits_add t
    grind
  · grind

theorem length_exponentDigits?_le {negative : Bool} {l rest : List Char}
    {e : Option (Bool × List Nat)} (h : exponentDigits? negative l = some (e, rest)) :
    rest.length ≤ l.length := by
  have := length_digits_add l
  grind [exponentDigits?]

theorem length_exponent?_le {l rest : List Char} {e : Option (Bool × List Nat)}
    (h : exponent? l = some (e, rest)) : rest.length ≤ l.length := by
  unfold exponent? at h
  split at h
  · split at h
    · split at h <;> have := length_exponentDigits?_le h <;> grind
    · grind
  · grind

/-- What is left after a numeral is shorter than the text, since a numeral has a digit. -/
theorem length_number?_lt {negative : Bool} {l rest : List Char} {n : Number}
    (h : number? negative l = some (n, rest)) : rest.length < l.length := by
  have hl := length_digits_add l
  simp only [number?] at h
  split at h
  · simp at h
  · simp only [Option.bind_eq_bind, Option.bind_eq_some_iff, Option.pure_def, Option.some.injEq,
      Prod.mk.injEq, Prod.exists] at h
    obtain ⟨ds, after, hf, e, after', he, n', hn, rfl, rfl⟩ := h
    have := length_fraction?_le hf
    have := length_exponent?_le he
    have : (digits l).1 ≠ [] := by grind
    have := List.length_pos_iff.mpr this
    omega

/-- What is left after a token is no longer than the text after its first character. -/
theorem length_next?_le {c : Char} {l rest : List Char} {t : Token}
    (h : next? c l = some (t, rest)) : rest.length ≤ l.length := by
  unfold next? at h
  split at h
  case h_7 =>
    obtain ⟨⟨cs, r⟩, hr, h⟩ := Option.map_eq_some_iff.mp h
    have := length_stringBody?_lt hr
    grind
  case h_8 =>
    obtain ⟨⟨n, r⟩, hr, h⟩ := Option.map_eq_some_iff.mp h
    have := length_number?_lt hr
    grind
  case h_12 =>
    obtain ⟨⟨n, r⟩, hr, h⟩ := Option.map_eq_some_iff.mp h
    have := length_number?_lt hr
    grind
  all_goals grind

/-- The tokens of a text. -/
def tokens? (l : List Char) : Option (List Token) :=
  match l with
  | [] => some []
  | c :: rest =>
    if isBlank c then tokens? rest
    else match _h : next? c rest with
      | none => none
      | some (t, rest') => (tokens? rest').map (t :: ·)
termination_by l.length
decreasing_by
  · simp
  · have := length_next?_le _h
    simp only [List.length_cons]
    omega

end Token

end CodeGraph.Json
