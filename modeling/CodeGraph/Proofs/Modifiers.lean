import CodeGraph.LanguageServer.Modifier
import Mathlib.Data.List.TakeWhile

/-!
# Modifiers on a line

A line that declares something has modifiers, a type and a name. Where the type has no brackets of
an array, the accessibility read off the line is what the access modifiers denote, in whatever order
they stand and whatever comes after the name. The closing bracket of an array is taken for the end
of an attribute, so nothing in front of it counts and no accessibility is found
(`accessibility_of_line`).
-/

namespace CodeGraph

namespace Text

/-! ## Runs of characters -/

/-- What stands between the separators of a text, where it is not empty. -/
def runs (sep : Char → Bool) (l : List Char) : List (List Char) :=
  (pieces ' ' (l.map fun c => if sep c then ' ' else c)).filter (!·.isEmpty)

theorem words_eq_runs (l : List Char) : words l = runs isBlank l := rfl

section Runs

variable {sep sep' : Char → Bool} {c : Char} {l m w : List Char}

theorem runs_nil : runs sep [] = [] := rfl

theorem runs_append_cons (hc : sep c = true) (l m : List Char) :
    runs sep (l ++ c :: m) = runs sep l ++ runs sep m := by
  simp only [runs, List.map_append, List.map_cons, hc, if_true, pieces_append_cons,
    List.filter_append]

theorem runs_append_of_sep (hl : l.all sep = true) (m : List Char) :
    runs sep (l ++ m) = runs sep m := by
  induction l with
  | nil => rfl
  | cons c l ih =>
    rw [List.all_cons, Bool.and_eq_true] at hl
    have h := runs_append_cons hl.1 [] (l ++ m)
    rwa [ih hl.2] at h

theorem runs_append_sep (l : List Char) (hm : m.all sep = true) :
    runs sep (l ++ m) = runs sep l := by
  cases m with
  | nil => rw [List.append_nil]
  | cons c m =>
    rw [List.all_cons, Bool.and_eq_true] at hm
    have hnone := runs_append_of_sep hm.2 []
    rw [List.append_nil, runs_nil] at hnone
    rw [runs_append_cons hm.1, hnone, List.append_nil]

theorem runs_of_none (hsep : sep ' ' = true) (hne : l ≠ []) (hl : l.any sep = false) :
    runs sep l = [l] := by
  rw [List.any_eq_false] at hl
  have hmap : (l.map fun c => if sep c then ' ' else c) = l := by
    rw [List.map_congr_left (g := id) fun c hc => by simp [hl c hc], List.map_id]
  have hnot : ' ' ∉ l := fun h => hl ' ' h hsep
  rw [runs, hmap, pieces_of_not_mem hnot]
  simp [hne]

theorem exists_first_sep (sep : Char → Bool) : ∀ l : List Char, l.any sep = false ∨
    ∃ u c m, l = u ++ c :: m ∧ u.any sep = false ∧ sep c = true
  | [] => .inl rfl
  | c :: l => by
    by_cases hc : sep c = true
    · exact .inr ⟨[], c, l, rfl, rfl, hc⟩
    · rw [Bool.not_eq_true] at hc
      rcases exists_first_sep sep l with hl | ⟨u, d, m, rfl, hu, hd⟩
      · exact .inl (by simp [hc, hl])
      · exact .inr ⟨c :: u, d, m, rfl, by simp [hc, hu], hd⟩

/-- A run between some separators is one between more separators if it has none of them. -/
theorem mem_runs_of_imp {l : List Char} (hsep : sep ' ' = true)
    (himp : ∀ c, sep c = true → sep' c = true) (hnone : w.any sep' = false)
    (hw : w ∈ runs sep l) : w ∈ runs sep' l := by
  have hfront : ∀ u : List Char, u.any sep = false → w ∈ runs sep u → w ∈ runs sep' u := by
    intro u hu hw
    by_cases hne : u = []
    · subst hne
      exact hw
    · rw [runs_of_none hsep hne hu, List.mem_singleton] at hw
      subst hw
      rw [runs_of_none (himp _ hsep) hne hnone]
      exact List.mem_singleton_self w
  -- The text up to the first separator holds one run at most, and the rest is shorter.
  rcases exists_first_sep sep l with hl | ⟨u, c, m, hl, hu, hc⟩
  · exact hfront l hl hw
  · rw [hl, runs_append_cons hc, List.mem_append] at hw
    rw [hl, runs_append_cons (himp c hc), List.mem_append]
    exact hw.imp (hfront u hu) (mem_runs_of_imp hsep himp hnone)
termination_by l.length
decreasing_by
  simp only [hl, List.length_append, List.length_cons]
  omega

theorem runs_intercalate (hc : sep c = true) : ∀ ls : List (List Char),
    runs sep ([c].intercalate ls) = ls.flatMap (runs sep)
  | [] => rfl
  | [l] => by simp [List.intercalate_singleton]
  | l :: l' :: ls => by
    rw [List.intercalate_cons_cons, List.append_assoc, List.singleton_append, runs_append_cons hc,
      runs_intercalate hc (l' :: ls)]
    rfl

theorem all_intercalate {p : Char → Bool} (hc : p c = true) : ∀ ls : List (List Char),
    ([c].intercalate ls).all p = ls.all fun l => l.all p
  | [] => rfl
  | [l] => by simp [List.intercalate_singleton]
  | l :: l' :: ls => by
    rw [List.intercalate_cons_cons, List.all_append, List.all_append, all_intercalate hc (l' :: ls)]
    simp [hc]

end Runs

end Text

namespace LanguageServer

open Text (isBlank isIdentifier runs words)

/-! ## Access modifiers -/

def accessWords : List (List Char) :=
  ["public", "protected", "internal", "private"].map String.toList

/-- The access modifiers of an accessibility. -/
def wordsOf : Accessibility → List (List Char)
  | .notApplicable => []
  | .priv => ["private".toList]
  | .protectedAndInternal => ["private".toList, "protected".toList]
  | .prot => ["protected".toList]
  | .internal => ["internal".toList]
  | .protectedOrInternal => ["protected".toList, "internal".toList]
  | .pub => ["public".toList]

theorem accessibilityOf?_congr {l m : List (List Char)} (h : ∀ w ∈ accessWords, w ∈ l ↔ w ∈ m) :
    accessibilityOf? l = accessibilityOf? m := by
  have hcontains : ∀ w ∈ accessWords, l.contains w = m.contains w := by
    intro w hw
    rw [Bool.eq_iff_iff, List.contains_iff_mem, List.contains_iff_mem]
    exact h w hw
  simp only [accessWords, List.map_cons, List.map_nil, List.forall_mem_cons] at hcontains
  obtain ⟨hpub, hprot, hint, hpriv, -⟩ := hcontains
  simp only [accessibilityOf?, hpub, hprot, hint, hpriv]

theorem accessibilityOf?_wordsOf {a : Accessibility} (h : a ≠ .notApplicable) :
    accessibilityOf? (wordsOf a) = some a := by
  cases a with
  | notApplicable => exact absurd rfl h
  | _ => decide

/-! ## Types -/

/-- Whether the character stands between the names in a type. -/
def isMark (c : Char) : Bool := endsClause c || ".,:<>?[".toList.contains c

def separates (c : Char) : Bool := isBlank c || isMark c

/-- The text of a type: a name, with blanks, qualified, with arguments, nullable or an array. -/
inductive IsType : List Char → Prop
  | name {w} : w ≠ [] → w ∉ accessWords → w.any separates = false → IsType w
  | spaced {b t b'} : b.all isBlank = true → IsType t → b'.all isBlank = true →
      IsType (b ++ (t ++ b'))
  | qualified {t u} : IsType t → IsType u → IsType (t ++ '.' :: u)
  | aliased {t u} : IsType t → IsType u → IsType (t ++ ':' :: ':' :: u)
  | generic {t args} : IsType t → (∀ u ∈ args, IsType u) →
      IsType (t ++ '<' :: ([','].intercalate args ++ ['>']))
  | nullable {t} : IsType t → IsType (t ++ ['?'])
  | array {t commas} : IsType t → commas.all (fun c => c == ',' || isBlank c) = true →
      IsType (t ++ '[' :: (commas ++ [']']))

theorem all_of_imp {p q : Char → Bool} (hpq : ∀ c, p c = true → q c = true) {l : List Char}
    (h : l.all p = true) : l.all q = true :=
  List.all_eq_true.2 fun c hc => hpq c (List.all_eq_true.1 h c hc)

theorem separates_of_isBlank (c : Char) (h : isBlank c = true) : separates c = true := by
  simp [separates, h]

theorem of_comma_or_isBlank {p : Char → Bool} (hcomma : p ',' = true)
    (hblank : ∀ c, isBlank c = true → p c = true) (c : Char) (h : (c == ',' || isBlank c) = true) :
    p c = true := by
  rcases Bool.or_eq_true_iff.1 h with hc | hc
  · rwa [beq_iff_eq.1 hc]
  · exact hblank c hc

/-- No name in a type is an access modifier. -/
theorem IsType.runs_not_access {t : List Char} (h : IsType t) :
    ∀ w ∈ runs separates t, w ∉ accessWords := by
  induction h with
  | name hne hnot hnone => rwa [Text.runs_of_none (by decide) hne hnone, List.forall_mem_singleton]
  | spaced hb _ hb' ih =>
    rwa [Text.runs_append_of_sep (all_of_imp separates_of_isBlank hb),
      Text.runs_append_sep _ (all_of_imp separates_of_isBlank hb')]
  | qualified _ _ iht ihu =>
    rw [Text.runs_append_cons (by decide)]
    exact List.forall_mem_append.2 ⟨iht, ihu⟩
  | @aliased t u _ _ iht ihu =>
    rw [Text.runs_append_cons (by decide)]
    refine List.forall_mem_append.2 ⟨iht, ?_⟩
    rwa [← List.singleton_append, Text.runs_append_of_sep (by decide)]
  | generic _ _ iht ihargs =>
    rw [Text.runs_append_cons (by decide), Text.runs_append_sep _ (by decide),
      Text.runs_intercalate (by decide)]
    refine List.forall_mem_append.2 ⟨iht, fun w hw => ?_⟩
    obtain ⟨u, hu, hw⟩ := List.mem_flatMap.1 hw
    exact ihargs u hu w hw
  | nullable _ ih => rwa [Text.runs_append_sep _ (by decide)]
  | @array t commas _ hcommas ih =>
    have hall : ('[' :: (commas ++ [']'])).all separates = true := by
      have hcommas := all_of_imp (of_comma_or_isBlank (by decide) separates_of_isBlank) hcommas
      rw [List.all_cons, List.all_append, hcommas]
      decide
    rwa [Text.runs_append_sep _ hall]

theorem separates_access {w : List Char} (hw : w ∈ accessWords) : w.any separates = false := by
  have hall : accessWords.all (fun w => !w.any separates) = true := by decide
  simpa using List.all_eq_true.1 hall w hw

/-- Nor is any word of a type, or of what is left of it behind the bracket of an array. -/
theorem IsType.words_not_access {t v : List Char} (h : IsType t)
    (hv : v = t ∨ ∃ u, t = u ++ ']' :: v) : ∀ w ∈ accessWords, w ∉ words v := by
  intro w hw hmem
  have hrun : w ∈ runs separates v :=
    Text.mem_runs_of_imp (by decide) separates_of_isBlank (separates_access hw) hmem
  refine h.runs_not_access w ?_ hw
  rcases hv with rfl | ⟨u, rfl⟩
  · exact hrun
  · rw [Text.runs_append_cons (by decide)]
    exact List.mem_append_right _ hrun

theorem not_endsClause_of_any {p : Char → Bool} (hp : "\x7b\x7d;]".toList.any p = false) (c : Char)
    (h : p c = true) : (!endsClause c) = true := by
  rw [Bool.not_eq_true', ← Bool.not_eq_true]
  intro hc
  have hmem : c ∈ "\x7b\x7d;]".toList := by simpa [endsClause, or_assoc] using hc
  exact List.any_eq_false.1 hp c hmem h

theorem not_endsClause_of_isBlank (c : Char) (h : isBlank c = true) : (!endsClause c) = true :=
  not_endsClause_of_any (by decide) c h

theorem not_endsClause_of_isIdentifier (c : Char) (h : isIdentifier c = true) :
    (!endsClause c) = true :=
  not_endsClause_of_any (by decide) c h

/-- Whether a type may have the character. -/
def staysInClause (c : Char) : Bool := !endsClause c || c == ']'

theorem staysInClause_of_not_separates (c : Char) (h : (!separates c) = true) :
    staysInClause c = true := by
  simp [separates, isMark] at h
  simp [staysInClause, h]

theorem staysInClause_of_isBlank (c : Char) (h : isBlank c = true) : staysInClause c = true := by
  simp only [staysInClause, not_endsClause_of_isBlank c h, Bool.true_or]

/-- Only the bracket of an array is taken for the end of a clause. -/
theorem IsType.all_staysInClause {t : List Char} (h : IsType t) : t.all staysInClause = true := by
  induction h with
  | name _ _ hnone => exact all_of_imp staysInClause_of_not_separates (by simpa using hnone)
  | spaced hb _ hb' ih =>
    rw [List.all_append, List.all_append, ih, all_of_imp staysInClause_of_isBlank hb,
      all_of_imp staysInClause_of_isBlank hb']
    rfl
  | qualified _ _ iht ihu =>
    rw [List.all_append, List.all_cons, iht, ihu]
    decide
  | aliased _ _ iht ihu =>
    rw [List.all_append, List.all_cons, List.all_cons, iht, ihu]
    decide
  | generic _ _ iht ihargs =>
    rw [List.all_append, List.all_cons, List.all_append, iht, Text.all_intercalate (by decide),
      List.all_eq_true.2 ihargs]
    decide
  | nullable _ ih =>
    rw [List.all_append, ih]
    decide
  | array _ hcommas ih =>
    have hcommas := all_of_imp (of_comma_or_isBlank (by decide) staysInClause_of_isBlank) hcommas
    rw [List.all_append, List.all_cons, List.all_append, ih, hcommas]
    decide

/-! ## Lines -/

/-- A modifier with the blanks after it. -/
structure WrittenModifier where
  word : List Char
  gap : List Char
  word_ne_nil : word ≠ []
  word_isIdentifier : word.all isIdentifier = true
  gap_ne_nil : gap ≠ []
  gap_isBlank : gap.all isBlank = true

/-- A line that declares a name with a type: the blanks in front, the modifiers, the type, the
blanks before the name, the name, and what comes after it. -/
structure DeclarationLine where
  indentation : List Char
  modifiers : List WrittenModifier
  type : List Char
  gap : List Char
  name : List Char
  rest : List Char
  indentation_isBlank : indentation.all isBlank = true
  type_isType : IsType type
  gap_ne_nil : gap ≠ []
  gap_isBlank : gap.all isBlank = true
  name_ne_nil : name ≠ []
  rest_bordersWord : Text.bordersWord rest = true

namespace DeclarationLine

/-- The text before the type. -/
def start (d : DeclarationLine) : List Char :=
  d.indentation ++ d.modifiers.flatMap fun m => m.word ++ m.gap

def front (d : DeclarationLine) : List Char := d.start ++ (d.type ++ d.gap)

def text (d : DeclarationLine) : List Char := d.front ++ (d.name ++ d.rest)

/-- The byte offset of the name. -/
def column (d : DeclarationLine) : Nat := Text.utf8Length d.front

/-- The access modifiers of the line are those of the accessibility, in any order. -/
def Denotes (d : DeclarationLine) (a : Accessibility) : Prop :=
  a ≠ .notApplicable ∧ ((d.modifiers.map (·.word)).filter accessWords.contains).Perm (wordsOf a)

end DeclarationLine

section Front

/-- What stands behind the last character that ends a clause. -/
def clause (l : List Char) : List Char := (l.reverse.takeWhile (!endsClause ·)).reverse

variable {c : Char} {m : List Char}

theorem clause_of_none (hm : m.all (!endsClause ·) = true) : clause m = m := by
  rw [← List.all_reverse, List.all_eq_true] at hm
  rw [clause, List.takeWhile_eq_self_iff.2 hm, List.reverse_reverse]

theorem clause_append_cons (hc : endsClause c = true) (hm : m.all (!endsClause ·) = true)
    (l : List Char) : clause (l ++ c :: m) = m := by
  rw [← List.all_reverse, List.all_eq_true] at hm
  rw [clause, List.reverse_append, List.reverse_cons, List.append_assoc,
    List.takeWhile_append_of_pos hm]
  simp [hc]

theorem not_isBlank_of_isIdentifier (c : Char) (h : isIdentifier c = true) :
    (!isBlank c) = true := by
  by_contra hc
  simp only [Bool.not_eq_true', Bool.not_eq_false] at hc
  simp [Text.isIdentifier_of_isBlank hc] at h

theorem words_flatMap (l : List Char) : ∀ ms : List WrittenModifier,
    words (ms.flatMap (fun m => m.word ++ m.gap) ++ l) = ms.map (·.word) ++ words l
  | [] => rfl
  | m :: ms => by
    obtain ⟨b, gap, hgap⟩ := List.exists_cons_of_ne_nil m.gap_ne_nil
    have hblank := m.gap_isBlank
    rw [hgap, List.all_cons, Bool.and_eq_true] at hblank
    have hnone := all_of_imp not_isBlank_of_isIdentifier m.word_isIdentifier
    have hword : runs isBlank m.word = [m.word] :=
      Text.runs_of_none (by decide) m.word_ne_nil (by simpa using hnone)
    rw [List.flatMap_cons, List.append_assoc, List.append_assoc, hgap, List.cons_append,
      Text.words_eq_runs, Text.runs_append_cons hblank.1, hword, Text.runs_append_of_sep hblank.2,
      ← Text.words_eq_runs, words_flatMap l ms]
    rfl

variable (d : DeclarationLine)

theorem bordersWord_front : Text.bordersWord d.front.reverse = true := by
  obtain ⟨gap, c, hgap⟩ := (List.eq_nil_or_concat d.gap).resolve_left d.gap_ne_nil
  have hc := List.all_eq_true.1 d.gap_isBlank c (by simp [hgap])
  simp [DeclarationLine.front, hgap, Text.bordersWord, Text.isIdentifier_of_isBlank hc]

theorem beforeName?_line : beforeName? d.text d.column d.name = some d.front.reverse := by
  unfold beforeName?
  rw [DeclarationLine.text, DeclarationLine.column, Text.splitAtByte?_append]
  simp only [Text.findWord_append d.name_ne_nil (bordersWord_front d) d.rest_bordersWord,
    Option.map_some, Option.some_or]

theorem declaredAccessibility?_line : declaredAccessibility? d.text d.column d.name =
    accessibilityOf? (words (clause d.front)) := by
  rw [declaredAccessibility?, beforeName?_line]
  rfl

theorem words_front : words d.front = d.modifiers.map (·.word) ++ words d.type := by
  rw [DeclarationLine.front, DeclarationLine.start, List.append_assoc, Text.words_eq_runs,
    Text.runs_append_of_sep d.indentation_isBlank, ← Text.words_eq_runs, words_flatMap,
    Text.words_eq_runs, Text.runs_append_sep _ d.gap_isBlank, Text.words_eq_runs]

theorem start_stays : d.start.all (!endsClause ·) = true := by
  rw [DeclarationLine.start, List.all_append,
    all_of_imp not_endsClause_of_isBlank d.indentation_isBlank, Bool.true_and, List.all_flatMap,
    List.all_eq_true]
  intro m _
  rw [List.all_append, all_of_imp not_endsClause_of_isIdentifier m.word_isIdentifier,
    all_of_imp not_endsClause_of_isBlank m.gap_isBlank]
  rfl

theorem gap_stays : d.gap.all (!endsClause ·) = true :=
  all_of_imp not_endsClause_of_isBlank d.gap_isBlank

/-- What has no bracket in a type has nothing that ends a clause. -/
theorem stays_of_subset {v : List Char} (hv : v ⊆ d.type) (hnot : ']' ∉ v) :
    v.all (!endsClause ·) = true := by
  refine List.all_eq_true.2 fun c hc => ?_
  have hstays := List.all_eq_true.1 d.type_isType.all_staysInClause c (hv hc)
  rcases Bool.or_eq_true_iff.1 hstays with hstays | hstays
  · exact hstays
  · rw [beq_iff_eq.1 hstays] at hc
    exact absurd hc hnot

theorem clause_front (h : ']' ∉ d.type) : clause d.front = d.front := by
  refine clause_of_none ?_
  rw [DeclarationLine.front, List.all_append, List.all_append, start_stays, gap_stays,
    stays_of_subset d (List.Subset.refl _) h]
  rfl

theorem exists_clause_front (h : ']' ∈ d.type) :
    ∃ u v, d.type = u ++ ']' :: v ∧ clause d.front = v ++ d.gap := by
  -- The last bracket is the first one from behind.
  obtain ⟨v, u, hrev, hnot⟩ := List.eq_append_cons_of_mem (List.mem_reverse.2 h)
  have htype : d.type = u.reverse ++ ']' :: v.reverse := by
    rw [← List.reverse_reverse d.type, hrev]
    simp
  have hstays : (v.reverse ++ d.gap).all (!endsClause ·) = true := by
    rw [List.all_append, gap_stays, stays_of_subset d _ (by simpa using hnot)]
    · rfl
    · rw [htype]
      exact fun c hc => List.mem_append_right _ (List.mem_cons_of_mem _ hc)
  refine ⟨u.reverse, v.reverse, htype, ?_⟩
  have hfront : d.front = (d.start ++ u.reverse) ++ ']' :: (v.reverse ++ d.gap) := by
    rw [DeclarationLine.front, htype]
    simp
  rw [hfront, clause_append_cons (by decide) hstays]

end Front

/-- On a line with modifiers, a type, a name and anything after it, the accessibility is the one
that the access modifiers denote, whatever their order and whatever the type, unless the type is or
has an array. The bracket of an array hides the modifiers. -/
theorem accessibility_of_line (d : DeclarationLine) {a : Accessibility} (h : d.Denotes a) :
    declaredAccessibility? d.text d.column d.name = if ']' ∈ d.type then none else some a := by
  rw [declaredAccessibility?_line]
  by_cases hbracket : ']' ∈ d.type
  · obtain ⟨u, v, htype, hclause⟩ := exists_clause_front d hbracket
    have hnone := d.type_isType.words_not_access (.inr ⟨u, htype⟩)
    rw [if_pos hbracket, hclause, Text.words_eq_runs, Text.runs_append_sep _ d.gap_isBlank,
      ← Text.words_eq_runs]
    exact accessibilityOf?_congr fun w hw => iff_of_false (hnone w hw) List.not_mem_nil
  · obtain ⟨hsome, hperm⟩ := h
    rw [if_neg hbracket, clause_front d hbracket, words_front, ← accessibilityOf?_wordsOf hsome]
    refine accessibilityOf?_congr fun w hw => ?_
    have hnot := d.type_isType.words_not_access (.inl rfl) w hw
    rw [← hperm.mem_iff, List.mem_filter, List.mem_append, or_iff_left hnot]
    simp [hw]

/-- An array that is public, and a table that is not one. -/
theorem accessibility_of_array_and_table :
    (∃ d : DeclarationLine, d.text = "public int[] items;".toList ∧ d.column = 13 ∧
      d.name = "items".toList ∧ d.Denotes .pub ∧
      declaredAccessibility? d.text d.column d.name = none) ∧
    ∃ d : DeclarationLine, d.text = "  internal static protected Map<string, int?> ages;".toList ∧
      d.column = 46 ∧ d.name = "ages".toList ∧ d.Denotes .protectedOrInternal ∧
      declaredAccessibility? d.text d.column d.name = some .protectedOrInternal := by
  let modifier (w : List Char) (hne : w ≠ []) (h : w.all isIdentifier = true) : WrittenModifier :=
    ⟨w, [' '], hne, h, by decide, by decide⟩
  let items : DeclarationLine :=
    { indentation := []
      modifiers := [modifier "public".toList (by decide) (by decide)]
      type := "int".toList ++ '[' :: ([] ++ [']'])
      gap := [' ']
      name := "items".toList
      rest := [';']
      indentation_isBlank := rfl
      type_isType := .array (.name (by decide) (by decide) (by decide)) rfl
      gap_ne_nil := by decide
      gap_isBlank := by decide
      name_ne_nil := by decide
      rest_bordersWord := by decide }
  let ages : DeclarationLine :=
    { indentation := "  ".toList
      modifiers := [modifier "internal".toList (by decide) (by decide),
        modifier "static".toList (by decide) (by decide),
        modifier "protected".toList (by decide) (by decide)]
      type := "Map".toList ++ '<' :: ([','].intercalate
        ["string".toList, [' '] ++ ("int".toList ++ ['?'] ++ [])] ++ ['>'])
      gap := [' ']
      name := "ages".toList
      rest := [';']
      indentation_isBlank := by decide
      type_isType := .generic (.name (by decide) (by decide) (by decide)) (List.forall_mem_cons.2
        ⟨.name (by decide) (by decide) (by decide), List.forall_mem_singleton.2 (.spaced rfl
          (.nullable (.name (by decide) (by decide) (by decide))) rfl)⟩)
      gap_ne_nil := by decide
      gap_isBlank := by decide
      name_ne_nil := by decide
      rest_bordersWord := by decide }
  have hitems : items.Denotes .pub := ⟨by decide, by decide⟩
  have hages : ages.Denotes .protectedOrInternal := ⟨by decide, by decide⟩
  refine ⟨⟨items, rfl, by decide, rfl, hitems, ?_⟩, ages, rfl, by decide, rfl, hages, ?_⟩
  · rw [accessibility_of_line items hitems]
    decide
  · rw [accessibility_of_line ages hages]
    decide

end LanguageServer

end CodeGraph
