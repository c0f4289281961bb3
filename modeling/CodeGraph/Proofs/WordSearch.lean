import CodeGraph.Proofs.Offsets
import Mathlib.Data.List.Basic
import Mathlib.Order.Bounds.Basic

/-!
# The search for a word

A word of identifier characters that stands on its own never begins inside another occurrence of the
word: the character before it would be one of the word (`exists_append_of_overlap`). So nothing is
missed when a match inside a longer identifier is passed over as a whole, and the search finds the
first place where the word stands on its own (`findWord_isLeast`).
-/

namespace CodeGraph.Text

/-- The word stands at this byte of the line. -/
def Occurs (word line : List Char) (n : Nat) : Prop :=
  ∃ before after, line = before ++ (word ++ after) ∧ utf8Length before = n

/-- The word stands at this byte of the line, and no identifier touches it. -/
def StandsAlone (word line : List Char) (n : Nat) : Prop :=
  ∃ before after, line = before ++ (word ++ after) ∧ utf8Length before = n ∧
    (∀ c ∈ before.getLast?, isIdentifier c = false) ∧ ∀ c ∈ after.head?, isIdentifier c = false

theorem bordersWord_iff {l : List Char} :
    bordersWord l = true ↔ ∀ c ∈ l.head?, isIdentifier c = false := by
  cases l <;> simp [bordersWord]

/-- What stands before an earlier byte is the beginning of what stands before a later one. -/
theorem exists_append_of_utf8Length_le {l l' m m' : List Char} (h : l ++ m = l' ++ m')
    (hle : utf8Length l ≤ utf8Length l') : ∃ x, l' = l ++ x ∧ m = x ++ m' := by
  rcases List.append_eq_append_iff.1 h with ⟨x, hl', hm⟩ | ⟨x, hl, hm'⟩
  · exact ⟨x, hl', hm⟩
  · have hx : utf8Length x = 0 := by
      rw [hl, utf8Length_append] at hle
      omega
    obtain rfl : x = [] := by
      cases x with
      | nil => rfl
      | cons c x =>
        have := c.utf8Size_pos
        rw [utf8Length_cons] at hx
        omega
    exact ⟨[], by simpa using hl.symm, by simpa using hm'.symm⟩

section Words

variable {word before rest after x a : List Char}

/-- Of two occurrences of the word the later one begins behind the earlier one, if no identifier is
in front of it. -/
theorem exists_append_of_overlap (hword : ∀ c ∈ word, isIdentifier c = true)
    (h : word ++ after = x ++ (word ++ a)) (hx : x ≠ [])
    (hborders : ∀ c ∈ x.getLast?, isIdentifier c = false) :
    ∃ y, x = word ++ y ∧ after = y ++ (word ++ a) := by
  rcases List.append_eq_append_iff.1 h with ⟨y, hy, hafter⟩ | ⟨y, hy, -⟩
  · exact ⟨y, hy, hafter⟩
  · -- the character before the later one is one of the word
    have hlast : x.getLast hx ∈ word := hy ▸ List.mem_append_left y (List.getLast_mem hx)
    have hnone := hborders _ (List.getLast?_eq_some_getLast hx)
    rw [hword _ hlast] at hnone
    cases hnone

/-- The search stops at an occurrence that stands on its own, or earlier. -/
theorem findWordFrom_le {w : Char} {ws : List Char}
    (hword : ∀ c ∈ w :: ws, isIdentifier c = true) (before rest : List Char) {x a : List Char}
    (hrest : rest = x ++ (w :: ws ++ a))
    (hbefore : ∀ c ∈ (before.reverse ++ x).getLast?, isIdentifier c = false)
    (hafter : ∀ c ∈ a.head?, isIdentifier c = false) :
    ∃ found, findWordFrom w ws before rest = some found ∧
      utf8Length found.1 ≤ utf8Length before + utf8Length x := by
  fun_induction findWordFrom w ws before rest generalizing x with
  | case1 before rest after h hborders => exact ⟨(before, after), rfl, Nat.le_add_right _ _⟩
  | case2 before rest after h hborders ih =>
    have hfront := after?_eq_some_iff.1 h
    have hx : x ≠ [] := by
      rintro rfl
      obtain rfl : after = a := List.append_cancel_left (hfront.symm.trans hrest)
      refine hborders (Bool.and_eq_true_iff.2 ⟨bordersWord_iff.2 ?_, bordersWord_iff.2 hafter⟩)
      rwa [List.append_nil, List.getLast?_reverse] at hbefore
    rw [List.getLast?_append_of_ne_nil _ hx] at hbefore
    obtain ⟨y, rfl, hy⟩ := exists_append_of_overlap hword (hfront.symm.trans hrest) hx hbefore
    obtain ⟨found, hfound, hle⟩ := ih hy (by
      rw [List.reverse_append, List.reverse_reverse, List.append_assoc,
        List.getLast?_append_of_ne_nil _ hx]
      exact hbefore)
    refine ⟨found, hfound, hle.trans (Nat.le_of_eq ?_)⟩
    simp only [utf8Length_append, utf8Length_reverse]
    omega
  | case3 before h => cases x <;> cases hrest
  | case4 before c rest h ih =>
    cases x with
    | nil =>
      have hhere : after? (w :: ws) (c :: rest) = some a := after?_eq_some_iff.2 hrest
      rw [h] at hhere
      cases hhere
    | cons d x =>
      obtain ⟨rfl, rfl⟩ := List.cons.inj hrest
      obtain ⟨found, hfound, hle⟩ := ih rfl (by simpa using hbefore)
      refine ⟨found, hfound, hle.trans (Nat.le_of_eq ?_)⟩
      simp only [utf8Length_cons]
      omega

theorem borders_of_findWordFrom {w : Char} {ws : List Char} {found : List Char × List Char}
    (h : findWordFrom w ws before rest = some found) :
    bordersWord found.1 = true ∧ bordersWord found.2 = true := by
  fun_induction findWordFrom w ws before rest with
  | case1 before rest after _ hborders =>
    obtain rfl := Option.some.inj h
    exact Bool.and_eq_true_iff.1 hborders
  | case2 before rest after _ _ ih => exact ih h
  | case3 => cases h
  | case4 before c rest _ ih => exact ih h

/-- The search goes on from where it starts. -/
theorem le_of_findWordFrom {w : Char} {ws : List Char} {found : List Char × List Char}
    (h : findWordFrom w ws before rest = some found) : utf8Length before ≤ utf8Length found.1 := by
  fun_induction findWordFrom w ws before rest with
  | case1 before rest after _ _ =>
    obtain rfl := Option.some.inj h
    exact Nat.le_refl _
  | case2 before rest after _ _ ih =>
    refine Nat.le_trans ?_ (ih h)
    rw [utf8Length_append]
    exact Nat.le_add_left _ _
  | case3 => cases h
  | case4 before c rest _ ih =>
    refine Nat.le_trans ?_ (ih h)
    rw [utf8Length_cons]
    exact Nat.le_add_left _ _

/-- What the search finds stands on its own, where the search starts or later. -/
theorem standsAlone_of_findWord {found : List Char × List Char}
    (h : findWord word before rest = some found) :
    utf8Length before ≤ utf8Length found.1 ∧
      StandsAlone word (before.reverse ++ rest) (utf8Length found.1) := by
  have hplace := append_of_findWord h
  cases word with
  | nil => cases h
  | cons w ws =>
    obtain ⟨hb, ha⟩ := borders_of_findWordFrom h
    rw [bordersWord_iff] at hb ha
    exact ⟨le_of_findWordFrom h, found.1.reverse, found.2, hplace, utf8Length_reverse _,
      by rwa [List.getLast?_reverse], ha⟩

theorem exists_findWord_le (hne : word ≠ []) (hword : ∀ c ∈ word, isIdentifier c = true) {n : Nat}
    (hle : utf8Length before ≤ n) (h : StandsAlone word (before.reverse ++ rest) n) :
    ∃ found, findWord word before rest = some found ∧ utf8Length found.1 ≤ n := by
  obtain ⟨w, ws, rfl⟩ := List.exists_cons_of_ne_nil hne
  obtain ⟨b, a, hb, rfl, hborders, hafter⟩ := h
  rw [← utf8Length_reverse] at hle
  obtain ⟨x, rfl, hx⟩ := exists_append_of_utf8Length_le hb hle
  obtain ⟨found, hfound, hfirst⟩ := findWordFrom_le hword before rest hx hborders hafter
  refine ⟨found, hfound, hfirst.trans (Nat.le_of_eq ?_)⟩
  rw [utf8Length_append, utf8Length_reverse]

/-- The word does not stand on its own at any byte inside an occurrence. -/
theorem StandsAlone.behind {line : List Char} {m n : Nat} (h : StandsAlone word line n)
    (hword : ∀ c ∈ word, isIdentifier c = true) (hm : Occurs word line m) (hlt : m < n) :
    m + utf8Length word ≤ n := by
  obtain ⟨b, a, hb, rfl⟩ := hm
  obtain ⟨b', a', hb', rfl, hborders, -⟩ := h
  obtain ⟨x, rfl, hx⟩ := exists_append_of_utf8Length_le (hb.symm.trans hb') (Nat.le_of_lt hlt)
  have hne : x ≠ [] := by
    rintro rfl
    rw [List.append_nil] at hlt
    exact Nat.lt_irrefl _ hlt
  rw [List.getLast?_append_of_ne_nil _ hne] at hborders
  obtain ⟨y, rfl, -⟩ := exists_append_of_overlap hword hx hne hborders
  simp only [utf8Length_append]
  omega

end Words

/-- The search for a word of identifier characters, from a byte between two characters of the line
on, cuts the line between characters only. It finds the first byte from there on at which the word
stands on its own, and nothing if there is no such byte. To pass over a match as a whole misses
nothing, since the word does not stand on its own at any byte inside of it. -/
theorem findWord_isLeast {word line before rest : List Char} {start : Nat} (hne : word ≠ [])
    (hword : ∀ c ∈ word, isIdentifier c = true)
    (hstart : splitAtByte? line start = some (before, rest)) :
    let found := (findWord word before.reverse rest).map fun x => utf8Length x.1
    findWordAt line word start = .ok found ∧
    (∀ n, found = some n ↔ IsLeast {n | start ≤ n ∧ StandsAlone word line n} n) ∧
    (found = none ↔ ∀ n, start ≤ n → ¬ StandsAlone word line n) ∧
    ∀ m n, Occurs word line m → StandsAlone word line n → m < n → m + utf8Length word ≤ n := by
  intro found
  obtain ⟨hline, hbefore⟩ := splitAtByte?_eq_some_iff.1 hstart
  rw [← List.reverse_reverse before] at hline
  rw [← utf8Length_reverse] at hbefore
  have hsound : ∀ n, found = some n → start ≤ n ∧ StandsAlone word line n := by
    intro n hn
    obtain ⟨x, hx, rfl⟩ := Option.map_eq_some_iff.1 hn
    rw [hbefore, hline]
    exact standsAlone_of_findWord hx
  have hfirst : ∀ n, start ≤ n → StandsAlone word line n → ∃ m, found = some m ∧ m ≤ n := by
    intro n hle halone
    rw [hbefore] at hle
    rw [hline] at halone
    obtain ⟨x, hx, hxn⟩ := exists_findWord_le hne hword hle halone
    exact ⟨_, Option.map_eq_some_iff.2 ⟨x, hx, rfl⟩, hxn⟩
  refine ⟨findWordAt_eq hstart _, fun n => ⟨fun hn => ⟨hsound n hn, ?_⟩, fun hn => ?_⟩,
    ⟨fun hnone n hle halone => ?_, fun hnone => ?_⟩,
    fun m n hm hn => hn.behind hword hm⟩
  · rintro k ⟨hle, halone⟩
    obtain ⟨m, hm, hmk⟩ := hfirst k hle halone
    rw [hn] at hm
    exact Option.some.inj hm ▸ hmk
  · obtain ⟨m, hm, hmn⟩ := hfirst n hn.1.1 hn.1.2
    rw [hm, Nat.le_antisymm hmn (hn.2 (hsound m hm))]
  · obtain ⟨m, hm, -⟩ := hfirst n hle halone
    rw [hnone] at hm
    cases hm
  · refine Option.eq_none_iff_forall_ne_some.2 fun n hn => ?_
    obtain ⟨hle, halone⟩ := hsound n hn
    exact hnone n hle halone

/-- Matches inside of longer words are passed over, also where two of them overlap. -/
theorem findWord_isLeast_of_overlap :
    let line := "(éxéxé) éxé;".toList
    "éxé".toList ≠ [] ∧ (∀ c ∈ "éxé".toList, isIdentifier c = true) ∧
    splitAtByte? line 1 = some (['('], "éxéxé) éxé;".toList) ∧
    findWordAt line "éxé".toList 1 = .ok (some 11) ∧
    IsLeast {n | 1 ≤ n ∧ StandsAlone "éxé".toList line n} 11 := by
  intro line
  have hne : "éxé".toList ≠ [] := by decide
  have hword : ∀ c ∈ "éxé".toList, isIdentifier c = true :=
    forall_mem_of_all (by decide)
  have hstart : splitAtByte? line 1 = some (['('], "éxéxé) éxé;".toList) := by rfl
  obtain ⟨hat, hleast, -⟩ := findWord_isLeast hne hword hstart
  have hfound : ((findWord "éxé".toList ['('] "éxéxé) éxé;".toList).map
      fun x => utf8Length x.1) = some 11 := by decide +kernel
  exact ⟨hne, hword, hstart, hat.trans (congrArg _ hfound), (hleast 11).1 hfound⟩

end CodeGraph.Text
