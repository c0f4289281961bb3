import CodeGraph.Markup.Entity
import CodeGraph.Markup.Token

/-!
# Tags

Reads the name and the attributes of a tag. The value of an attribute stands in quotes, and no two
attributes of a tag have the same name.
-/

namespace CodeGraph.Markup

structure Tag where
  name : List Char
  attributes : List (String × String)
deriving DecidableEq, Repr

namespace Tag

/-- Drops blanks at the front. -/
def skip (l : List Char) : List Char := l.dropWhile Token.isBlank

theorem length_skip_le (l : List Char) : (skip l).length ≤ l.length :=
  (List.dropWhile_sublist _).length_le

/-- Whether the character ends the name of an attribute. -/
def endsName (c : Char) : Bool := c == '=' || Token.isBlank c

/-- The value after an equals sign, and the text after its closing quote. -/
def value? (l : List Char) : Option (List Char × List Char) :=
  match skip l with
  | [] => none
  | q :: l =>
    if q = '"' ∨ q = '\'' then
      match l.dropWhile (· ≠ q) with
      | [] => none
      | _ :: rest => some (l.takeWhile (· ≠ q), rest)
    else none

theorem length_value?_lt {l v rest : List Char} (h : value? l = some (v, rest)) :
    rest.length < l.length := by
  unfold value? at h
  split at h
  · simp at h
  · rename_i q l' hs
    have h1 := length_skip_le l
    rw [hs] at h1
    split at h
    · split at h
      · simp at h
      · rename_i x r hd
        have h2 := (List.dropWhile_sublist (· ≠ q) (l := l')).length_le
        rw [hd] at h2
        simp only [Option.some.injEq, Prod.mk.injEq] at h
        obtain ⟨-, rfl⟩ := h
        simp only [List.length_cons] at h1 h2
        omega
    · simp at h

/-- The attributes of a text, where `seen` are the names of earlier ones. The first character of a
name may be any. -/
def attributes? (seen : List (List Char)) (l : List Char) : Option (List (String × String)) :=
  match _ : skip l with
  | [] => some []
  | c :: l' =>
    let name := c :: l'.takeWhile (!endsName ·)
    match _ : skip (l'.dropWhile (!endsName ·)) with
    | '=' :: l'' =>
      if seen.contains name then none
      else match _ : value? l'' with
        | none => none
        | some (raw, rest) => do
          let value ← unescape? raw
          let others ← attributes? (name :: seen) rest
          return (String.ofList name, String.ofList value) :: others
    | _ => none
termination_by l.length
decreasing_by
  have h1 := length_skip_le l
  have h2 := length_skip_le (l'.dropWhile (!endsName ·))
  have h3 := (List.dropWhile_sublist (!endsName ·) (l := l')).length_le
  have h4 := length_value?_lt ‹value? l'' = some _›
  rw [‹skip l = _›] at h1
  rw [‹skip (l'.dropWhile _) = _›] at h2
  simp only [List.length_cons] at h1 h2
  omega

/-- The tag with this text between its brackets. -/
def ofBody? (body : List Char) : Option Tag := do
  let attributes ← attributes? [] (body.dropWhile (!Token.isBlank ·))
  return { name := body.takeWhile (!Token.isBlank ·), attributes }

/-- The name without the part before its first colon. -/
def localName (name : List Char) : List Char :=
  if name.contains ':' then (name.dropWhile (· ≠ ':')).tail else name

end Tag

end CodeGraph.Markup
