import CodeGraph.Text.Pattern
import Mathlib.Data.List.Infix

/-!
# Runs of patterns

What a pattern does at a place where the text tells how far a repetition can go: a greedy one takes
all that fit if the rest of the pattern cannot start inside of it (`runMany_append`), a reluctant
one passes over what the rest cannot start in (`runFew_append`), and so does the search for matches
(`all_append`). A match and what it captures start in the text (`suffix_of_mem_all`).
-/

namespace CodeGraph.Text.Pattern

variable {α : Type} {p : Char → Bool} {next : List Char → Option α} {b l x : List Char} {r : α}

/-! ## Repetitions -/

theorem runMany_append (hb : ∀ c ∈ b, p c = true) (hl : ∀ c ∈ l.head?, p c = false)
    (hnext : ∀ c l, p c = true → next (c :: l) = none) : runMany p next (b ++ l) = next l := by
  induction b with
  | nil =>
    cases l with
    | nil => rfl
    | cons c l => rw [List.nil_append, runMany, if_neg (by simp [hl c rfl])]
  | cons c b ih =>
    have hc := hb c List.mem_cons_self
    rw [List.cons_append, runMany, if_pos hc, hnext c _ hc, Option.or_none,
      ih fun d hd => hb d (List.mem_cons_of_mem c hd)]

/-- With as many characters as fit, the rest of the pattern succeeds. -/
theorem runMany_of_some (hb : ∀ c ∈ b, p c = true) (hl : ∀ c ∈ l.head?, p c = false)
    (h : next l = some r) : runMany p next (b ++ l) = some r := by
  induction b with
  | nil =>
    cases l with
    | nil => exact h
    | cons c l => rwa [List.nil_append, runMany, if_neg (by simp [hl c rfl])]
  | cons c b ih =>
    rw [List.cons_append, runMany, if_pos (hb c List.mem_cons_self),
      ih fun d hd => hb d (List.mem_cons_of_mem c hd), Option.some_or]

theorem exists_of_runMany (h : runMany p next l = some r) :
    ∃ b l', l = b ++ l' ∧ (∀ c ∈ b, p c = true) ∧ next l' = some r := by
  induction l with
  | nil => exact ⟨[], [], rfl, by simp, h⟩
  | cons c l ih =>
    rw [runMany] at h
    split at h
    · rename_i hc
      rcases Option.or_eq_some_iff.1 h with h | ⟨-, h⟩
      · obtain ⟨b, l', rfl, hb, hnext⟩ := ih h
        exact ⟨c :: b, l', rfl, by simpa [hc] using hb, hnext⟩
      · exact ⟨[], c :: l, rfl, by simp, h⟩
    · exact ⟨[], c :: l, rfl, by simp, h⟩

theorem exists_of_runFew (h : runFew p next l = some r) :
    ∃ b l', l = b ++ l' ∧ next l' = some r := by
  induction l with
  | nil => exact ⟨[], [], rfl, h⟩
  | cons c l ih =>
    rw [runFew] at h
    rcases Option.or_eq_some_iff.1 h with h | ⟨-, h⟩
    · exact ⟨[], c :: l, rfl, h⟩
    · split at h
      · obtain ⟨b, l', rfl, hnext⟩ := ih h
        exact ⟨c :: b, l', rfl, hnext⟩
      · cases h

theorem runFew_of_some (h : next l = some r) : runFew p next l = some r := by
  cases l with
  | nil => exact h
  | cons c l => rw [runFew, h, Option.some_or]

/-! ## Parts of patterns -/

variable {found : Option Captured} {go : List Char → Option Captured → Option α}

theorem run_inOrder_cons (a : Pattern) (rest : List Pattern) :
    (inOrder (a :: rest)).run go l found =
      a.run (fun l found => (inOrder rest).run go l found) l found := by
  cases rest with
  | nil => rfl
  | cons a' rest => rfl

theorem run_word (s : String) :
    (word s).run go l found = (after? s.toList l).bind fun rest => go rest found := by
  rw [word]
  induction s.toList generalizing l with
  | nil => rfl
  | cons c chars ih =>
    rw [List.map_cons, run_inOrder_cons]
    cases l with
    | nil => rfl
    | cons d l =>
      by_cases hd : d = c
      · simp [char, run, after?, hd, ih]
      · simp [char, run, after?, hd, Ne.symm hd]

theorem run_gap_append (hb : ∀ c ∈ b, isBlank c = true) (hne : b ≠ [])
    (hl : ∀ c ∈ l.head?, isBlank c = false)
    (hgo : ∀ c l, isBlank c = true → go (c :: l) found = none) :
    gap.run go (b ++ l) found = go l found := by
  obtain ⟨c, b, rfl⟩ := List.exists_cons_of_ne_nil hne
  have hc := hb c List.mem_cons_self
  simp only [gap, several, run, List.cons_append, hc, if_true]
  exact runMany_append (fun d hd => hb d (List.mem_cons_of_mem c hd)) hl hgo

theorem run_gap_of_some (hb : ∀ c ∈ b, isBlank c = true) (hne : b ≠ [])
    (hl : ∀ c ∈ l.head?, isBlank c = false) (h : go l found = some r) :
    gap.run go (b ++ l) found = some r := by
  obtain ⟨c, b, rfl⟩ := List.exists_cons_of_ne_nil hne
  simp only [gap, several, run, List.cons_append, hb c List.mem_cons_self, if_true]
  exact runMany_of_some (fun d hd => hb d (List.mem_cons_of_mem c hd)) hl h

theorem exists_of_run_gap (h : gap.run go l found = some r) :
    ∃ b l', l = b ++ l' ∧ b ≠ [] ∧ (∀ c ∈ b, isBlank c = true) ∧ go l' found = some r := by
  cases l with
  | nil => cases h
  | cons c l =>
    simp only [gap, several, run] at h
    split at h
    · rename_i hc
      obtain ⟨b, l', rfl, hb, hgo⟩ := exists_of_runMany h
      exact ⟨c :: b, l', rfl, List.cons_ne_nil c b, by simpa [hc] using hb, hgo⟩
    · cases h

theorem run_quoted {q q' : Char} {m rest : List Char} (hq : isQuote q = true)
    (hq' : isQuote q' = true) (hm : ∀ c ∈ m, isQuote c = false) (hne : m ≠ []) :
    quoted.run go (q :: m ++ q' :: rest) found =
      go rest (some ⟨m ++ q' :: rest, q' :: rest⟩) := by
  obtain ⟨c, m, rfl⟩ := List.exists_cons_of_ne_nil hne
  have hc := hm c List.mem_cons_self
  simp only [quoted, inOrder, several, run, List.cons_append, hq, hc, if_true, Bool.not_false]
  rw [runMany_append (fun d hd => by simp [hm d (List.mem_cons_of_mem c hd)]) (by simp [hq'])]
  · simp [run, hq']
  · intro d l hd
    have hd : isQuote d = false := by simpa using hd
    simp [run, hd]

theorem run_quoted_eq_none (h : ∀ c ∈ l.head?, isQuote c = false) :
    quoted.run go l found = none := by
  cases l with
  | nil => rfl
  | cons c l => simp [quoted, inOrder, run, h c rfl]

theorem exists_of_run_quoted (h : quoted.run go l found = some r) :
    ∃ q l', isQuote q = true ∧ l = q :: l' := by
  cases l with
  | nil => cases h
  | cons c l =>
    by_cases hc : isQuote c = true
    · exact ⟨c, l, hc, rfl⟩
    · rw [run_quoted_eq_none (by simpa using hc)] at h
      cases h

/-! ## The search -/

variable {a : Pattern} {y t : List Char} {c : Captured}

/-- The match at the front of a text: the text captured in it, and what follows it. -/
def front? (a : Pattern) (l : List Char) : Option (Captured × List Char) :=
  a.run (fun rest found => found.map fun c => (c, rest)) l none

/-- No match starts in `x` when `t` follows it. -/
def Silent (a : Pattern) (x t : List Char) : Prop :=
  ∀ z, z ≠ [] → z <:+ x → a.front? (z ++ t) = none

theorem Silent.nil (a : Pattern) (t : List Char) : a.Silent [] t :=
  fun _ hz hsuffix => absurd (List.suffix_nil.1 hsuffix) hz

theorem Silent.cons {d : Char} (h : a.front? (d :: (x ++ t)) = none) (hx : a.Silent x t) :
    a.Silent (d :: x) t := by
  intro z hz hsuffix
  rcases List.suffix_cons_iff.1 hsuffix with rfl | hsuffix
  · exact h
  · exact hx z hz hsuffix

theorem Silent.append (h : a.Silent x (y ++ t)) (h' : a.Silent y t) : a.Silent (x ++ y) t := by
  induction x with
  | nil => exact h'
  | cons d x ih =>
    refine .cons ?_ (ih fun z hz hsuffix => h z hz (hsuffix.trans (List.suffix_cons d x)))
    simpa using h (d :: x) (List.cons_ne_nil d x) (List.suffix_refl _)

theorem Silent.of_append (h : a.Silent (x ++ y) t) : a.Silent x (y ++ t) := by
  intro z hz hsuffix
  obtain ⟨front, rfl⟩ := hsuffix
  rw [← List.append_assoc]
  exact h (z ++ y) (by simp [hz]) ⟨front, by simp⟩

theorem Silent.of_suffix (h : a.Silent x t) (hy : y <:+ x) : a.Silent y t :=
  fun z hz hsuffix => h z hz (hsuffix.trans hy)

theorem all_of_front? {rest : List Char} (h : a.front? l = some (c, rest))
    (hrest : rest.length < l.length) : a.all l = ⟨l, c⟩ :: a.all rest := by
  rw [front?] at h
  rw [all.eq_def, h]
  simp only [hrest, if_true]

theorem all_cons_of_none {d : Char} (h : a.front? (d :: l) = none) : a.all (d :: l) = a.all l := by
  rw [front?] at h
  rw [all.eq_def, h]

/-- The search passes over places where there is no match. -/
theorem all_append (h : a.Silent x l) : a.all (x ++ l) = a.all l := by
  induction x with
  | nil => rfl
  | cons d x ih =>
    have hfirst := h (d :: x) (List.cons_ne_nil d x) (List.suffix_refl _)
    rw [List.cons_append] at hfirst ⊢
    rw [all_cons_of_none hfirst, ih (h.of_suffix (List.suffix_cons d x))]

/-- So does a reluctant repetition, as long as the characters fit. -/
theorem runFew_append (h : a.Silent x l) (hx : ∀ c ∈ x, p c = true) :
    runFew p a.front? (x ++ l) = runFew p a.front? l := by
  induction x with
  | nil => rfl
  | cons d x ih =>
    have hfirst := h (d :: x) (List.cons_ne_nil d x) (List.suffix_refl _)
    rw [List.cons_append] at hfirst ⊢
    rw [runFew, hfirst, Option.none_or, if_pos (hx d List.mem_cons_self)]
    exact ih (h.of_suffix (List.suffix_cons d x)) fun c hc => hx c (List.mem_cons_of_mem d hc)

/-- At a character that does not fit it gives up. -/
theorem runFew_eq_none (h : a.Silent x l) {d : Char} (hd : d ∈ x) (hp : p d = false) :
    runFew p a.front? (x ++ l) = none := by
  induction x with
  | nil => cases hd
  | cons e x ih =>
    have hfirst := h (e :: x) (List.cons_ne_nil e x) (List.suffix_refl _)
    rw [List.cons_append] at hfirst ⊢
    rw [runFew, hfirst, Option.none_or]
    rcases List.mem_cons.1 hd with rfl | hd
    · rw [hp]
      rfl
    · rw [ih (h.of_suffix (List.suffix_cons e x)) hd]
      split <;> rfl

/-! ## Where matches stand -/

/-- What is captured starts in this text. -/
def Within (l : List Char) (found : Option Captured) : Prop := ∀ c ∈ found, c.onward <:+ l

/-- A pattern goes on in the text, and captures what starts in it. -/
theorem exists_of_run {text : List Char} (a : Pattern)
    {go : List Char → Option Captured → Option α} {found : Option Captured} {l : List Char}
    (h : a.run go l found = some r) (hl : l <:+ text) (hfound : Within text found) :
    ∃ l' found', l' <:+ text ∧ Within text found' ∧ go l' found' = some r := by
  induction a generalizing go found l with
  | empty => exact ⟨l, found, hl, hfound, h⟩
  | one p =>
    cases l with
    | nil => cases h
    | cons c l =>
      rw [run] at h
      split at h
      · exact ⟨l, found, (List.suffix_cons c l).trans hl, hfound, h⟩
      · cases h
  | many p =>
    obtain ⟨b, l', rfl, -, hnext⟩ := exists_of_runMany h
    exact ⟨l', found, (List.suffix_append b l').trans hl, hfound, hnext⟩
  | few p =>
    obtain ⟨b, l', rfl, hnext⟩ := exists_of_runFew h
    exact ⟨l', found, (List.suffix_append b l').trans hl, hfound, hnext⟩
  | seq a b iha ihb =>
    obtain ⟨l', found', hl', hfound', hb⟩ := iha h hl hfound
    exact ihb hb hl' hfound'
  | choice a b iha ihb =>
    rcases Option.or_eq_some_iff.1 h with h | ⟨-, h⟩
    · exact iha h hl hfound
    · exact ihb h hl hfound
  | capture a iha =>
    obtain ⟨l', _, hl', -, hgo⟩ := iha h hl hfound
    refine ⟨l', _, hl', ?_, hgo⟩
    rintro c ⟨⟩
    exact hl

theorem suffix_of_front? {rest : List Char} (h : a.front? l = some (c, rest)) :
    c.onward <:+ l ∧ rest <:+ l := by
  obtain ⟨l', found, hl', hfound, h⟩ := exists_of_run a h (List.suffix_refl l) (by rintro c ⟨⟩)
  obtain ⟨c', rfl, heq⟩ := Option.map_eq_some_iff.1 h
  cases heq
  exact ⟨hfound _ rfl, hl'⟩

/-- A match starts in the text, and so does what it captures. -/
theorem suffix_of_mem_all {m : Match} (h : m ∈ a.all l) :
    m.onward <:+ l ∧ m.captured.onward <:+ l := by
  fun_induction all a l with
  | case1 l captured rest hrun hlt ih =>
    obtain ⟨hcaptured, hrest⟩ := suffix_of_front? hrun
    rcases List.mem_cons.1 h with rfl | h
    · exact ⟨List.suffix_refl l, hcaptured⟩
    · exact ⟨(ih h).1.trans hrest, (ih h).2.trans hrest⟩
  | case2 => cases h
  | case4 => cases h
  | case3 _ _ d l _ _ ih | case5 d l _ ih =>
    exact ⟨(ih h).1.trans (List.suffix_cons d l), (ih h).2.trans (List.suffix_cons d l)⟩

end CodeGraph.Text.Pattern
