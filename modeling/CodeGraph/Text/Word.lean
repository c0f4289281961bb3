import CodeGraph.Text.Letter
import CodeGraph.Text.Split
import CodeGraph.Text.Blank
import CodeGraph.Text.Front

/-!
# Words

Words between blanks, and the search for a word that stands on its own. `findWord` reports an
occurrence by what stands before and after it; the text before it is kept with the nearest character
first. A match inside a longer identifier is passed over as a whole.
-/

namespace CodeGraph.Text

/-- The words between the blanks of a text. -/
def words (l : List Char) : List (List Char) :=
  (pieces ' ' (l.map fun c => if isBlank c then ' ' else c)).filter (!·.isEmpty)

/-- Whether the character may be part of an identifier. -/
def isIdentifier (c : Char) : Bool := isAlphanumeric c || c == '_'

theorem isIdentifier_of_isBlank {c : Char} (h : isBlank c = true) : isIdentifier c = false := by
  have hall : ∀ n ∈ [0x09, 0x0a, 0x0b, 0x0c, 0x0d, 0x20, 0x85, 0xa0, 0x1680, 0x2000, 0x2001, 0x2002,
      0x2003, 0x2004, 0x2005, 0x2006, 0x2007, 0x2008, 0x2009, 0x200a, 0x2028, 0x2029, 0x202f,
      0x205f, 0x3000], isIdentifier (Char.ofNat n) = false := by decide +kernel
  have hc : isIdentifier (Char.ofNat c.toNat) = false := by
    refine hall c.toNat ?_
    simp only [isBlank, Bool.or_eq_true, Bool.and_eq_true, decide_eq_true_eq, beq_iff_eq] at h
    simp only [List.mem_cons, List.not_mem_nil, or_false]
    omega
  rwa [Char.ofNat_toNat] at hc

/-- Whether a text given from its near end on stops short of an identifier. -/
def bordersWord (l : List Char) : Bool :=
  match l with
  | c :: _ => !isIdentifier c
  | [] => true

/-- The first occurrence of the word `w :: ws` in `rest` that no identifier touches, as the text
before it, the nearest character first, and the text after it. -/
def findWordFrom (w : Char) (ws before rest : List Char) : Option (List Char × List Char) :=
  match _ : after? (w :: ws) rest with
  | some after =>
    if bordersWord before && bordersWord after then some (before, after)
    else findWordFrom w ws ((w :: ws).reverse ++ before) after
  | none =>
    match rest with
    | [] => none
    | c :: rest => findWordFrom w ws (c :: before) rest
termination_by rest.length
decreasing_by
  · rw [after?_eq_some_iff.1 ‹after? (w :: ws) rest = some after›]
    simp only [List.cons_append, List.length_cons, List.length_append]
    omega
  · simp

section Search

variable {w c : Char} {ws rest after : List Char}

theorem findWordFrom_nil (before : List Char) : findWordFrom w ws before [] = none := by
  rw [findWordFrom]
  rfl

theorem findWordFrom_of_after? (h : after? (w :: ws) rest = some after) (before : List Char) :
    findWordFrom w ws before rest =
      if bordersWord before && bordersWord after then some (before, after)
      else findWordFrom w ws ((w :: ws).reverse ++ before) after := by
  rw [findWordFrom]
  split
  · rename_i after' h'
    rw [h, Option.some.injEq] at h'
    rw [h']
  · rename_i h'
    rw [h] at h'
    cases h'

theorem findWordFrom_cons (h : after? (w :: ws) (c :: rest) = none) (before : List Char) :
    findWordFrom w ws before (c :: rest) = findWordFrom w ws (c :: before) rest := by
  rw [findWordFrom]
  split
  · rename_i h'
    rw [h] at h'
    cases h'
  · rfl

end Search

def findWord (word before rest : List Char) : Option (List Char × List Char) :=
  match word with
  | [] => none
  | w :: ws => findWordFrom w ws before rest

theorem append_of_findWordFrom {w : Char} {ws before rest before' after' : List Char}
    (h : findWordFrom w ws before rest = some (before', after')) :
    before.reverse ++ rest = before'.reverse ++ (w :: ws ++ after') := by
  fun_induction findWordFrom w ws before rest with
  | case1 before rest after hafter hborders =>
    obtain ⟨rfl, rfl⟩ := Prod.mk.injEq .. ▸ Option.some.inj h
    rw [after?_eq_some_iff.1 hafter]
  | case2 before rest after hafter _ ih =>
    rw [← ih h, after?_eq_some_iff.1 hafter]
    simp
  | case3 => cases h
  | case4 before c rest _ ih =>
    rw [← ih h]
    simp

/-- A found word stands behind the text that is before it. -/
theorem append_of_findWord {word before rest before' after' : List Char}
    (h : findWord word before rest = some (before', after')) :
    before.reverse ++ rest = before'.reverse ++ (word ++ after') := by
  cases word with
  | nil => cases h
  | cons w ws => exact append_of_findWordFrom h

/-- The search goes no further than a word in front that stands on its own. -/
theorem findWord_append {word before rest : List Char} (hword : word ≠ [])
    (hbefore : bordersWord before = true) (hrest : bordersWord rest = true) :
    findWord word before (word ++ rest) = some (before, rest) := by
  obtain ⟨w, ws, rfl⟩ := List.exists_cons_of_ne_nil hword
  rw [findWord, findWordFrom_of_after? (after?_eq_some_iff.2 rfl),
    if_pos (by rw [hbefore, hrest]; rfl)]

end CodeGraph.Text
