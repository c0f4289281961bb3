import CodeGraph.Graph.Statement
import Mathlib.Tactic.SplitIfs

/-!
# Names of relationship types

A statement holds the name of a relationship type without quotes, so whatever text a type was made
of has to come out as capital letters, digits and underscores. It does, and a second rendering
changes nothing. A digit in front of the text stays in front, though, and such a name is none that
a statement may hold without quotes (`rendered_plain_iff`).
-/

namespace CodeGraph

namespace RelType

/-- Whether the name of a type may hold the character. -/
def isNameChar (c : Char) : Bool := c.isUpper || c.isDigit || c == '_'

/-- Whether the text starts with a digit. -/
def startsWithDigit (name : String) : Bool := name.toList.head?.any Char.isDigit

/-- A name that a statement may hold without quotes. -/
structure IsPlainName (name : String) : Prop where
  nonempty : name ≠ ""
  chars : ∀ c ∈ name.toList, isNameChar c = true
  first : startsWithDigit name = false

theorem typeChar_eq_underscore {c : Char} (h : 128 ≤ c.toNat) :
    typeChar c = '_' ∧ c.isDigit = false := by
  have hhigh (high : UInt32) (hbound : high.toNat < 128) : ¬ c.val ≤ high := by
    rw [UInt32.le_iff_toNat_le, Char.toNat_val]
    omega
  have hupper : c.isUpper = false :=
    decide_eq_false fun hrange => hhigh 'Z'.val (by decide) hrange.2
  have hlower : c.isLower = false :=
    Bool.and_eq_false_iff.2 (.inr (decide_eq_false (hhigh 'z'.val (by decide))))
  have hdigit : c.isDigit = false :=
    Bool.and_eq_false_iff.2 (.inr (decide_eq_false (hhigh '9'.val (by decide))))
  have halpha : c.isAlpha = false := Bool.or_eq_false_iff.2 ⟨hupper, hlower⟩
  simp [typeChar, halpha, hdigit]

/-- Of the characters in ASCII each is looked at, and all others become underscores. -/
theorem typeChar_spec (c : Char) : isNameChar (typeChar c) = true ∧
    typeChar (typeChar c) = typeChar c ∧ (typeChar c).isDigit = c.isDigit := by
  have hascii : ∀ n < 128, isNameChar (typeChar (Char.ofNat n)) = true ∧
      typeChar (typeChar (Char.ofNat n)) = typeChar (Char.ofNat n) ∧
      (typeChar (Char.ofNat n)).isDigit = (Char.ofNat n).isDigit := by decide +kernel
  by_cases h : c.toNat < 128
  · have hc := hascii c.toNat h
    rwa [Char.ofNat_toNat] at hc
  · obtain ⟨hc, hdigit⟩ := typeChar_eq_underscore (Nat.not_lt.1 h)
    rw [hc, hdigit]
    decide

/-! ## Rendering -/

/-- The name with each of its characters rendered. -/
def normalized (name : String) : String := String.ofList (name.toList.map typeChar)

theorem toList_normalized (name : String) :
    (normalized name).toList = name.toList.map typeChar := String.toList_ofList

theorem normalized_normalized (name : String) : normalized (normalized name) = normalized name := by
  rw [normalized, toList_normalized, List.map_map, normalized]
  exact congrArg String.ofList (List.map_congr_left fun c _ => (typeChar_spec c).2.1)

theorem normalized_eq_empty_iff {name : String} : normalized name = "" ↔ name = "" := by
  rw [← String.toList_inj, toList_normalized, ← String.toList_inj]
  exact List.map_eq_nil_iff

theorem startsWithDigit_normalized (name : String) :
    startsWithDigit (normalized name) = startsWithDigit name := by
  rw [startsWithDigit, startsWithDigit, toList_normalized, List.head?_map]
  cases name.toList.head? with
  | none => rfl
  | some c => exact (typeChar_spec c).2.2

theorem ofText_eq (name : String) : ofText name =
    if normalized name = "CONTAINS" then contains
    else if normalized name = "DEPENDS_ON" then dependsOn
    else if normalized name = "BINDS_TO" then bindsTo
    else if normalized name = "HAS_PROPERTY" then hasProperty
    else if normalized name = "" then other "RELATED_TO"
    else other (normalized name) := rfl

/-- The text of a type that was made of a name, whether it is a known type or not. -/
theorem text_ofText (name : String) :
    (ofText name).text = if name = "" then "RELATED_TO" else normalized name := by
  have hempty : normalized name = "" ↔ name = "" := normalized_eq_empty_iff
  rw [ofText_eq]
  split_ifs <;> simp_all [text]

theorem ofText_text_ofText (name : String) : ofText (ofText name).text = ofText name := by
  rw [text_ofText]
  split_ifs with h
  · subst h
    decide +kernel
  · rw [ofText_eq, ofText_eq, normalized_normalized]

theorem isNameChar_of_mem_text {name : String} {c : Char}
    (hc : c ∈ (ofText name).text.toList) : isNameChar c = true := by
  rw [text_ofText] at hc
  split_ifs at hc
  · exact List.all_eq_true.1 (by decide +kernel : "RELATED_TO".toList.all isNameChar = true) c hc
  · rw [toList_normalized] at hc
    obtain ⟨d, -, rfl⟩ := List.mem_map.1 hc
    exact (typeChar_spec d).1

theorem text_ofText_ne_empty (name : String) : (ofText name).text ≠ "" := by
  rw [text_ofText]
  split_ifs with h
  · decide
  · exact fun hempty => h (normalized_eq_empty_iff.1 hempty)

theorem startsWithDigit_text (name : String) :
    startsWithDigit (ofText name).text = startsWithDigit name := by
  rw [text_ofText]
  split_ifs with h
  · subst h
    decide +kernel
  · exact startsWithDigit_normalized name

/-- A statement holds what a type renders to between brackets, in the same text for all types. -/
theorem text_mergeRelationships : ∃ front back,
    "-[:".toList <:+ front.toList ∧ "]->".toList <+: back.toList ∧ ∀ (type : RelType) l,
      (Statement.mergeRelationships type l).text = front ++ (ofText type.text).text ++ back := by
  refine ⟨_, _, ?_, ?_, fun type l => rfl⟩
  · rw [String.toList_append]
    refine List.IsSuffix.trans ?_ (List.suffix_append _ _)
    decide +kernel
  · decide +kernel

/-- What a statement holds in place of a type, whatever text the type has, and what any name comes
to: capital letters, digits and underscores, and at least one of them. Another rendering changes
nothing. The result is a name that a statement may hold without quotes if and only if the text does
not start with a digit. -/
theorem rendered_plain_iff (type : RelType) :
    let rendered := (ofText type.text).text
    (∃ front back, "-[:".toList <:+ front.toList ∧ "]->".toList <+: back.toList ∧ ∀ l,
        (Statement.mergeRelationships type l).text = front ++ rendered ++ back) ∧
      rendered ≠ "" ∧ (∀ c ∈ rendered.toList, isNameChar c = true) ∧
      ofText rendered = ofText type.text ∧
      (IsPlainName rendered ↔ startsWithDigit type.text = false) := by
  intro rendered
  obtain ⟨front, back, hfront, hback, htext⟩ := text_mergeRelationships
  have hchars : ∀ c ∈ rendered.toList, isNameChar c = true := fun c hc => isNameChar_of_mem_text hc
  have hnonempty : rendered ≠ "" := text_ofText_ne_empty type.text
  refine ⟨⟨front, back, hfront, hback, htext type⟩, hnonempty, hchars,
    ofText_text_ofText type.text, fun h => ?_, fun h => ⟨hnonempty, hchars, ?_⟩⟩
  · rw [← startsWithDigit_text]
    exact h.first
  · rw [startsWithDigit_text]
    exact h

/-- A digit in front of a name is kept, so what it renders to needs quotes. -/
example : ofText "2nd" = other "2ND" ∧ startsWithDigit "2ND" = true := by decide +kernel

end RelType

end CodeGraph
