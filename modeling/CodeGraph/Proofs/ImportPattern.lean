import CodeGraph.Extract.Script
import CodeGraph.Proofs.PatternRuns
import CodeGraph.Text.Front
import Mathlib.Tactic.SplitIfs

/-!
# Import statements

Scripts of import statements, and where the pattern for imports matches in them. An import for its
effects alone has no source, and no source starts in it (`silent_source_write`), but the pattern
passes over everything that is no semicolon. So from such an import it goes on to the next one that
binds names if nothing in between ends a statement (`runFew_writeAll`), and if something does, no
match starts in the line (`silent_import_write`).
-/

namespace CodeGraph.Script

open Text (Pattern isBlank lineFeeds forall_mem_of_all append_inj_of_head after?_eq_some_iff)
open Text.Pattern

/-! ## Scripts -/

abbrev Blanks := {l : List Char // ∀ c ∈ l, isBlank c = true}

/-- Blanks between two words. -/
structure Gap where
  chars : List Char
  isBlank : ∀ c ∈ chars, isBlank c = true
  ne_nil : chars ≠ []

abbrev Quote := {c : Char // isQuote c = true}

/-- No quotation mark is in the text. -/
def Unquoted (l : List Char) : Prop := ∀ c ∈ l, isQuote c = false

/-- Text in quotes, in which no match starts. It leaves out the names of modules that hold the word
`import` with a blank behind it, that end in `from` between blanks, or that end in `require(`, with
or without blanks behind it. -/
structure Quiet where
  chars : List Char
  unquoted : Unquoted chars
  word : ∀ g : Gap, ¬ "import".toList ++ g.chars <:+: chars
  source : ∀ g g' : Gap, ¬ g.chars ++ ("from".toList ++ g'.chars) <:+ chars
  call : ∀ b : Blanks, ¬ "require(".toList ++ b.1 <:+ chars

/-- The name of a module. -/
structure Module where
  chars : List Char
  unquoted : Unquoted chars
  ne_nil : chars ≠ []

/-- The names that an import binds. -/
structure Names where
  chars : List Char
  unquoted : Unquoted chars
  semicolon : ';' ∉ chars
  ne_nil : chars ≠ []
  start : ∀ c ∈ chars.head?, isBlank c = false
  stop : ∀ c ∈ chars.getLast?, isBlank c = false

inductive Statement where
  /-- An import for its effects alone. -/
  | plain (g : Gap) (q : Quote) (module : Quiet)
  | binding (g : Gap) (names : Names) (before after : Gap) (q : Quote) (module : Module)

/-- A statement with blanks around it, and a semicolon behind it or none. -/
structure Line where
  indent : Blanks
  statement : Statement
  semicolon : Option Blanks
  trail : Blanks

namespace Statement

/-- What follows the word `import` and the gap behind it. -/
def body : Statement → List Char
  | .plain _ q module => q.1 :: module.chars ++ [q.1]
  | .binding _ names before after q module =>
    names.chars ++ (before.chars ++ ("from".toList ++
      (after.chars ++ (q.1 :: module.chars ++ [q.1]))))

def gap : Statement → Gap
  | .plain g _ _ => g
  | .binding g _ _ _ _ _ => g

/-- The module of an import that binds names. -/
def module? : Statement → Option (List Char)
  | .plain _ _ _ => none
  | .binding _ _ _ _ _ module => some module.chars

end Statement

namespace Line

/-- What follows the statement. -/
def ending (l : Line) : List Char :=
  (match l.semicolon with
    | some b => b.1 ++ [';']
    | none => []) ++ l.trail.1

/-- The statement and what follows it on its line. -/
def rest (l : Line) : List Char :=
  "import".toList ++ (l.statement.gap.chars ++ (l.statement.body ++ l.ending))

/-- Stated apart, since unfolding the definition takes the word to its characters. -/
theorem rest_eq (l : Line) : l.rest =
    "import".toList ++ (l.statement.gap.chars ++ (l.statement.body ++ l.ending)) := rfl

def write (l : Line) : List Char := l.indent.1 ++ l.rest

/-- Whether no semicolon is in the line, so that a match can go on over it. -/
def isOpen (l : Line) : Bool := !l.write.contains ';'

end Line

def writeAll (lines : List Line) : List Char := lines.flatMap Line.write

/-- The import that a match goes on to from in front of the lines: its module, what follows its
statement, and the lines behind it. -/
def reached? : List Line → Option (List Char × Line × List Line)
  | [] => none
  | l :: lines =>
    match l.statement.module? with
    | some m => some (m, l, lines)
    | none => if l.isOpen then reached? lines else none

/-! ## The source of an import -/

/-- The part of the pattern behind the names. -/
def source : Pattern := inOrder [gap, word "from", gap, quoted]

variable {l x t : List Char} {r : Captured × List Char}

theorem exists_of_source (h : source.front? l = some r) :
    ∃ (g g' : Gap) (q : Quote) (t : List Char),
      l = g.chars ++ ("from".toList ++ (g'.chars ++ q.1 :: t)) := by
  rw [front?, source, run_inOrder_cons] at h
  obtain ⟨b, l₁, rfl, hne, hb, h₁⟩ := exists_of_run_gap h
  rw [run_inOrder_cons, run_word] at h₁
  obtain ⟨l₂, hword, h₂⟩ := Option.bind_eq_some_iff.1 h₁
  obtain rfl := after?_eq_some_iff.1 hword
  rw [run_inOrder_cons] at h₂
  obtain ⟨b', l₃, rfl, hne', hb', h₃⟩ := exists_of_run_gap h₂
  obtain ⟨q, t, hq, rfl⟩ := exists_of_run_quoted h₃
  exact ⟨⟨b, hb, hne⟩, ⟨b', hb', hne'⟩, ⟨q, hq⟩, t, rfl⟩

theorem not_isBlank_of_isQuote {c : Char} (h : isQuote c = true) : isBlank c = false := by
  simp only [isQuote, Bool.or_eq_true, beq_iff_eq] at h
  rcases h with rfl | rfl <;> decide

theorem Unquoted.append (h : Unquoted l) (h' : Unquoted x) : Unquoted (l ++ x) :=
  List.forall_mem_append.2 ⟨h, h'⟩

theorem unquoted_of_blank (h : ∀ c ∈ l, isBlank c = true) : Unquoted l := by
  intro c hc
  by_contra hq
  have hblank := h c hc
  rw [not_isBlank_of_isQuote (by simpa using hq)] at hblank
  cases hblank

theorem after?_eq_none_of_head {c d : Char} (h : c ≠ d) (word l : List Char) :
    Text.after? (c :: word) (d :: l) = none := by
  rw [Text.after?, if_neg h]

theorem ne_of_isBlank {c d : Char} (hc : isBlank c = true) (hd : isBlank d = false) : d ≠ c := by
  rintro rfl
  rw [hd] at hc
  cases hc

theorem front?_source (g g' : Gap) (q : Quote) (m : Module) (t : List Char) :
    source.front? (g.chars ++ ("from".toList ++ (g'.chars ++ (q.1 :: m.chars ++ q.1 :: t)))) =
      some (⟨m.chars ++ q.1 :: t, q.1 :: t⟩, t) := by
  have hfrom : ∀ c ∈ ("from".toList ++ (g'.chars ++ (q.1 :: m.chars ++ q.1 :: t))).head?,
      isBlank c = false := by
    rintro c ⟨⟩
    decide
  have hquote : ∀ c ∈ (q.1 :: m.chars ++ q.1 :: t).head?, isBlank c = false := by
    rintro c ⟨⟩
    exact not_isBlank_of_isQuote q.2
  rw [front?, source, run_inOrder_cons,
    run_gap_append g.isBlank g.ne_nil hfrom]
  · rw [run_inOrder_cons, run_word, after?_eq_some_iff.2 rfl,
      Option.bind_some, run_inOrder_cons,
      run_gap_append g'.isBlank g'.ne_nil hquote]
    · exact run_quoted q.2 q.2 m.unquoted m.ne_nil
    · intro c l hc
      refine run_quoted_eq_none ?_
      rintro d ⟨⟩
      exact unquoted_of_blank (List.forall_mem_singleton.2 hc) c List.mem_cons_self
  · intro c l hc
    rw [run_inOrder_cons, run_word]
    exact congrArg (Option.bind · _) (after?_eq_none_of_head (ne_of_isBlank hc (by decide)) _ l)

/-! ## Where no source starts -/

/-- Text that is no blank, and no part of it. -/
theorem silent_source_of_plain (h : ∀ c ∈ x, isBlank c = false) (t : List Char) :
    source.Silent x t := by
  intro z hz hsuffix
  obtain ⟨c, z, rfl⟩ := List.exists_cons_of_ne_nil hz
  rw [Option.eq_none_iff_forall_ne_some]
  intro r hr
  obtain ⟨g, g', q, t', heq⟩ := exists_of_source hr
  obtain ⟨d, b, hg⟩ := List.exists_cons_of_ne_nil g.ne_nil
  rw [hg] at heq
  obtain ⟨rfl, -⟩ := List.cons.inj heq
  have hblank := g.isBlank c (by simp [hg])
  rw [h c (hsuffix.subset List.mem_cons_self)] at hblank
  cases hblank

/-- Blanks in front of something else than the word of the pattern. -/
theorem silent_source_of_blanks (b : Blanks) (ht : ∀ c ∈ t.head?, isBlank c = false ∧ c ≠ 'f') :
    source.Silent b.1 t := by
  intro z hz hsuffix
  rw [Option.eq_none_iff_forall_ne_some]
  intro r hr
  obtain ⟨g, g', q, t', heq⟩ := exists_of_source hr
  obtain ⟨-, hrest⟩ := append_inj_of_head (fun c hc => b.2 c (hsuffix.subset hc)) g.isBlank
    (fun c hc => (ht c hc).1) (by rintro c ⟨⟩; decide) heq
  rw [hrest] at ht
  exact (ht 'f' rfl).2 rfl

theorem unquoted_source (g g' : Gap) : Unquoted (g.chars ++ ("from".toList ++ g'.chars)) :=
  have hword : Unquoted "from".toList := forall_mem_of_all (by decide)
  (unquoted_of_blank g.isBlank).append (hword.append (unquoted_of_blank g'.isBlank))

/-- The first quotation mark tells how far the word and its gaps go. -/
theorem append_inj_of_quotes {x y t t' : List Char} {q q' : Quote}
    (hx : Unquoted x) (hy : Unquoted y) (h : x ++ q.1 :: t = y ++ q'.1 :: t') : x = y :=
  (append_inj_of_head (p := (!isQuote ·)) (fun c hc => by simp [hx c hc])
    (fun c hc => by simp [hy c hc]) (by rintro c ⟨⟩; simp [q.2]) (by rintro c ⟨⟩; simp [q'.2]) h).1

theorem silent_source_of_quiet (m : Quiet) (q : Quote) (t : List Char) :
    source.Silent m.chars (q.1 :: t) := by
  intro z hz hsuffix
  rw [Option.eq_none_iff_forall_ne_some]
  intro r hr
  obtain ⟨g, g', q', t', heq⟩ := exists_of_source hr
  have hsame : z ++ q.1 :: t = (g.chars ++ ("from".toList ++ g'.chars)) ++ q'.1 :: t' := by
    simpa using heq
  have hz := append_inj_of_quotes (fun c hc => m.unquoted c (hsuffix.subset hc))
    (unquoted_source g g') hsame
  exact m.source g g' (hz ▸ hsuffix)

/-- Text in front of a source that does not end in a blank. -/
theorem silent_source_of_stop (hx : Unquoted x)
    (hstop : ∀ c ∈ x.getLast?, isBlank c = false) (g g' : Gap) (q : Quote) (t : List Char) :
    source.Silent x (g.chars ++ ("from".toList ++ (g'.chars ++ q.1 :: t))) := by
  intro z hz hsuffix
  rw [Option.eq_none_iff_forall_ne_some]
  intro r hr
  obtain ⟨k, k', q', t', heq⟩ := exists_of_source hr
  have hsame : z ++ (g.chars ++ ("from".toList ++ g'.chars)) ++ q.1 :: t =
      (k.chars ++ ("from".toList ++ k'.chars)) ++ q'.1 :: t' := by simpa using heq
  have hfront : z ++ (g.chars ++ ("from".toList ++ g'.chars)) =
      k.chars ++ ("from".toList ++ k'.chars) := by
    have hz : Unquoted z := fun c hc => hx c (hsuffix.subset hc)
    exact append_inj_of_quotes (hz.append (unquoted_source g g')) (unquoted_source k k') hsame
  -- read from the end, both gaps behind the word end at the word
  have hback := congrArg List.reverse hfront
  simp only [List.reverse_append, List.append_assoc] at hback
  obtain ⟨-, hword⟩ := append_inj_of_head (fun c hc => g'.isBlank c (List.mem_reverse.1 hc))
    (fun c hc => k'.isBlank c (List.mem_reverse.1 hc)) (by rintro c ⟨⟩; decide)
    (by rintro c ⟨⟩; decide) hback
  have hgap : g.chars.reverse ++ z.reverse = k.chars.reverse := List.append_cancel_left hword
  obtain ⟨c, y, hy⟩ := List.exists_cons_of_ne_nil (List.reverse_ne_nil_iff.2 hz)
  have hlast : c ∈ x.getLast? := by
    obtain ⟨front, rfl⟩ := hsuffix
    have hz : z = y.reverse ++ [c] := by rw [← List.reverse_reverse z, hy, List.reverse_cons]
    rw [hz, ← List.append_assoc, List.getLast?_concat]
    rfl
  have hblank : isBlank c = true :=
    k.isBlank c (List.mem_reverse.1 (hgap ▸ by simp [hy]))
  rw [hstop c hlast] at hblank
  cases hblank

/-! ### Lines -/

theorem silent_source_writeAll (b : Blanks) (lines : List Line) :
    source.Silent b.1 (writeAll lines) := by
  cases lines with
  | nil => exact silent_source_of_blanks b (by rintro c ⟨⟩)
  | cons l lines =>
    have hindent : ∀ c ∈ b.1 ++ l.indent.1, isBlank c = true :=
      List.forall_mem_append.2 ⟨b.2, l.indent.2⟩
    have hline : writeAll (l :: lines) = l.indent.1 ++ (l.rest ++ writeAll lines) := by
      simp [writeAll, Line.write]
    rw [hline]
    refine Silent.of_append (silent_source_of_blanks ⟨_, hindent⟩ ?_)
    rintro c ⟨⟩
    decide

theorem silent_source_ending (l : Line) (lines : List Line) :
    source.Silent l.ending (writeAll lines) := by
  have htrail := silent_source_writeAll l.trail lines
  rw [Line.ending]
  cases l.semicolon with
  | none => exact htrail
  | some b =>
    refine Silent.append (Silent.append ?_ ?_) htrail
    · exact silent_source_of_blanks b (by rintro c ⟨⟩; decide)
    · exact silent_source_of_plain (forall_mem_of_all (by decide)) _

theorem silent_source_quoted (m : Quiet) (q : Quote) (t : List Char) :
    source.Silent (q.1 :: m.chars ++ [q.1]) t := by
  have hquote (t : List Char) : source.Silent [q.1] t :=
    silent_source_of_plain (by simpa using not_isBlank_of_isQuote q.2) t
  exact ((hquote _).append (silent_source_of_quiet m q _)).append (hquote t)

/-- No source starts in a line without names. -/
theorem silent_source_write {l : Line} (h : l.statement.module? = none) (lines : List Line) :
    source.Silent l.write (writeAll lines) := by
  have hending := silent_source_ending l lines
  obtain ⟨indent, statement, semicolon, trail⟩ := l
  cases statement with
  | binding g names before after q module => cases h
  | plain g q m =>
    refine Silent.append ?_ (Silent.append ?_ (Silent.append ?_ (Silent.append ?_ hending)))
    · exact silent_source_of_blanks indent (by rintro c ⟨⟩; decide)
    · exact silent_source_of_plain (forall_mem_of_all (by decide)) _
    · refine silent_source_of_blanks ⟨g.chars, g.isBlank⟩ ?_
      rintro c ⟨⟩
      refine ⟨not_isBlank_of_isQuote q.2, fun heq => ?_⟩
      have hquote := q.2
      rw [heq] at hquote
      cases hquote
    · exact silent_source_quoted m q _

/-! ## What the pattern goes on to -/

/-- Whether the pattern passes over the character between its first word and its source. -/
def passes (c : Char) : Bool := c != ';'

theorem semicolon_mem_write_iff (l : Line) :
    ';' ∈ l.write ↔ ';' ∈ l.statement.body ++ l.ending := by
  have hindent : ';' ∉ l.indent.1 := fun h => absurd (l.indent.2 _ h) (by decide)
  have hgap : ';' ∉ l.statement.gap.chars :=
    fun h => absurd (l.statement.gap.isBlank _ h) (by decide)
  have hword : ';' ∉ "import".toList := by decide
  rw [Line.write, List.mem_append, or_iff_right hindent, Line.rest_eq, List.mem_append,
    or_iff_right hword, List.mem_append, or_iff_right hgap]

theorem isOpen_iff (l : Line) : l.isOpen = true ↔ ';' ∉ l.write := by
  simp [Line.isOpen]

theorem passes_of_not_mem (h : ';' ∉ x) : ∀ c ∈ x, passes c = true := by
  intro c hc
  simp only [passes, bne_iff_ne]
  rintro rfl
  exact h hc

theorem runFew_source (hx : Unquoted x) (hpasses : ';' ∉ x)
    (hstop : ∀ c ∈ x.getLast?, isBlank c = false) (g g' : Gap) (q : Quote) (m : Module)
    (t : List Char) :
    ∃ c : Captured, c.text = m.chars ∧
      runFew passes source.front? (x ++ (g.chars ++ ("from".toList ++
        (g'.chars ++ (q.1 :: m.chars ++ q.1 :: t))))) = some (c, t) := by
  refine ⟨⟨m.chars ++ q.1 :: t, q.1 :: t⟩, by simp [Captured.text], ?_⟩
  have hsilent := silent_source_of_stop hx hstop g g' q (m.chars ++ q.1 :: t)
  exact (runFew_append hsilent (passes_of_not_mem hpasses)).trans
    (runFew_of_some (front?_source g g' q m t))

/-- From in front of the lines the pattern goes on to the import that is reached. -/
theorem runFew_writeAll (lines : List Line) :
    match reached? lines with
    | none => runFew passes source.front? (writeAll lines) = none
    | some (m, l, rest) => ∃ c : Captured, c.text = m ∧
        runFew passes source.front? (writeAll lines) = some (c, l.ending ++ writeAll rest) := by
  induction lines with
  | nil => rfl
  | cons l lines ih =>
    have hwrite : writeAll (l :: lines) = l.write ++ writeAll lines := rfl
    rcases hmodule : l.statement.module? with _ | m
    · have hsilent := silent_source_write hmodule lines
      simp only [reached?, hmodule]
      split_ifs with hopen
      · rw [hwrite, runFew_append hsilent
          (passes_of_not_mem ((isOpen_iff l).1 hopen))]
        exact ih
      · rw [isOpen_iff, not_not] at hopen
        rw [hwrite]
        exact runFew_eq_none hsilent hopen rfl
    · simp only [reached?, hmodule]
      obtain ⟨indent, statement, semicolon, trail⟩ := l
      cases statement with
      | plain g q m => cases hmodule
      | binding g names before after q module =>
        obtain rfl := Option.some.inj hmodule
        let x := indent.1 ++ ("import".toList ++ (g.chars ++ names.chars))
        have hword : Unquoted "import".toList := forall_mem_of_all (by decide)
        have hquotes : Unquoted x := (unquoted_of_blank indent.2).append
          (hword.append ((unquoted_of_blank g.isBlank).append names.unquoted))
        have hpasses : ';' ∉ x := by
          simp only [x, List.mem_append, not_or]
          exact ⟨fun h => absurd (indent.2 _ h) (by decide), by decide,
            fun h => absurd (g.isBlank _ h) (by decide), names.semicolon⟩
        have hstop : ∀ c ∈ x.getLast?, isBlank c = false := by
          simpa only [x, ← List.append_assoc, List.getLast?_append_of_ne_nil _ names.ne_nil]
            using names.stop
        obtain ⟨c, hc, hrun⟩ := runFew_source hquotes hpasses hstop before after q module
          (Line.ending ⟨indent, .binding g names before after q module, semicolon, trail⟩ ++
            writeAll lines)
        refine ⟨c, hc, ?_⟩
        rw [← hrun, hwrite]
        simp [x, Line.write, Line.rest_eq, Statement.body, Statement.gap]

/-! ## Where no match starts -/

theorem exists_of_moduleImport (h : moduleImport.front? l = some r) :
    (∃ (g : Gap) (t : List Char), l = "import".toList ++ (g.chars ++ t) ∧
      runFew passes source.front? t = some r) ∨
    ∃ (b : Blanks) (q : Quote) (t : List Char), l = "require(".toList ++ (b.1 ++ q.1 :: t) := by
  rcases Option.or_eq_some_iff.1 h with h | ⟨-, h⟩
  · rw [run_inOrder_cons, run_word] at h
    obtain ⟨l₁, hword, h₁⟩ := Option.bind_eq_some_iff.1 h
    obtain rfl := after?_eq_some_iff.1 hword
    rw [run_inOrder_cons] at h₁
    obtain ⟨b, t, rfl, hne, hb, h₂⟩ := exists_of_run_gap h₁
    exact .inl ⟨⟨b, hb, hne⟩, t, rfl, h₂⟩
  · rw [firstOf, run_inOrder_cons, run_word] at h
    obtain ⟨l₁, hword, h₁⟩ := Option.bind_eq_some_iff.1 h
    obtain rfl := after?_eq_some_iff.1 hword
    rw [run_inOrder_cons] at h₁
    obtain ⟨b, l₂, rfl, hb, h₂⟩ := exists_of_runMany h₁
    obtain ⟨q, t, hq, rfl⟩ := exists_of_run_quoted h₂
    exact .inr ⟨⟨b, hb⟩, ⟨q, hq⟩, t, rfl⟩

theorem front?_moduleImport (g : Gap) (ht : ∀ c ∈ t.head?, isBlank c = false)
    (h : runFew passes source.front? t = some r) :
    moduleImport.front? ("import".toList ++ (g.chars ++ t)) = some r := by
  refine Option.or_eq_some_iff.2 (.inl ?_)
  rw [run_inOrder_cons, run_word, after?_eq_some_iff.2 rfl,
    Option.bind_some, run_inOrder_cons]
  exact run_gap_of_some g.isBlank g.ne_nil ht h

/-- Behind blanks a text starts at its own front, or within the blanks. -/
theorem exists_suffix_of_blanks {b b' t' : List Char} (hb' : ∀ c ∈ b', isBlank c = true)
    (ht : ∀ c ∈ t.head?, isBlank c = false) (h : b ++ t = b' ++ t') :
    ∃ z, z <:+ b ∧ t' = z ++ t := by
  rcases List.append_eq_append_iff.1 h with ⟨x, rfl, rfl⟩ | ⟨z, rfl, rfl⟩
  · cases x with
    | nil => exact ⟨[], List.nil_suffix, rfl⟩
    | cons c x =>
      have hblank := hb' c (by simp)
      rw [ht c rfl] at hblank
      cases hblank
  · exact ⟨z, List.suffix_append _ _, rfl⟩

theorem front?_moduleImport_eq_none (g : Gap) (ht : ∀ c ∈ t.head?, isBlank c = false)
    (hsilent : source.Silent g.chars t) (h : runFew passes source.front? t = none) :
    moduleImport.front? ("import".toList ++ (g.chars ++ t)) = none := by
  rw [Option.eq_none_iff_forall_ne_some]
  intro r hr
  rcases exists_of_moduleImport hr with ⟨g', t', heq, hrun⟩ | ⟨b, q, t', heq⟩
  · obtain ⟨z, hz, rfl⟩ := exists_suffix_of_blanks g'.isBlank ht (List.append_cancel_left heq)
    have hpasses : ∀ c ∈ z, passes c = true := by
      refine passes_of_not_mem fun hmem => ?_
      exact absurd (g.isBlank _ (hz.subset hmem)) (by decide)
    rw [runFew_append (hsilent.of_suffix hz) hpasses, h] at hrun
    cases hrun
  · cases heq

/-- A match starts with one of two letters. -/
theorem silent_import_of_letters (h : ∀ c ∈ x, c ≠ 'i' ∧ c ≠ 'r') (t : List Char) :
    moduleImport.Silent x t := by
  intro z hz hsuffix
  obtain ⟨c, z, rfl⟩ := List.exists_cons_of_ne_nil hz
  have hc := h c (hsuffix.subset List.mem_cons_self)
  rw [Option.eq_none_iff_forall_ne_some]
  intro r hr
  rcases exists_of_moduleImport hr with ⟨g, t', heq, -⟩ | ⟨b, q, t', heq⟩
  · exact hc.1 (List.cons.inj heq).1
  · exact hc.2 (List.cons.inj heq).1

theorem silent_import_of_blanks (b : Blanks) (t : List Char) : moduleImport.Silent b.1 t := by
  refine silent_import_of_letters (fun c hc => ?_) t
  have hblank := b.2 c hc
  constructor
  · rintro rfl
    exact absurd hblank (by decide)
  · rintro rfl
    exact absurd hblank (by decide)

/-- What has no quotation mark in it stands before the first one. -/
theorem prefix_of_quotes {y t' : List Char} {q : Quote} (hy : Unquoted y)
    (h : x ++ q.1 :: t = y ++ t') : y <+: x := by
  rcases List.append_eq_append_iff.1 h with ⟨z, rfl, hz⟩ | ⟨z, rfl, -⟩
  · cases z with
    | nil => simp
    | cons c z =>
      obtain ⟨hc, -⟩ := List.cons.inj hz
      have hquote := hy c (by simp)
      rw [← hc, q.2] at hquote
      cases hquote
  · exact List.prefix_append _ _

theorem silent_import_of_quiet (m : Quiet) (q : Quote) (t : List Char) :
    moduleImport.Silent m.chars (q.1 :: t) := by
  intro z hz hsuffix
  rw [Option.eq_none_iff_forall_ne_some]
  intro r hr
  rcases exists_of_moduleImport hr with ⟨g, t', heq, -⟩ | ⟨b, q', t', heq⟩
  · have hword : Unquoted "import".toList := forall_mem_of_all (by decide)
    rw [← List.append_assoc] at heq
    have hfront := prefix_of_quotes (hword.append (unquoted_of_blank g.isBlank)) heq
    exact m.word g (hfront.isInfix.trans hsuffix.isInfix)
  · have hword : Unquoted "require(".toList := forall_mem_of_all (by decide)
    rw [← List.append_assoc] at heq
    have hz := append_inj_of_quotes (fun c hc => m.unquoted c (hsuffix.subset hc))
      (hword.append (unquoted_of_blank b.2)) heq
    exact m.call b (hz ▸ hsuffix)

theorem silent_import_ending (l : Line) (t : List Char) : moduleImport.Silent l.ending t := by
  refine Silent.append ?_ (silent_import_of_blanks l.trail t)
  cases l.semicolon with
  | none => exact .nil _ _
  | some b =>
    exact (silent_import_of_blanks b _).append
      (silent_import_of_letters (forall_mem_of_all (by decide)) _)

theorem silent_import_of_quote (q : Quote) (t : List Char) : moduleImport.Silent [q.1] t := by
  refine silent_import_of_letters (fun c hc => ?_) t
  obtain rfl := List.mem_singleton.1 hc
  have hquote := q.2
  constructor <;> intro heq <;> rw [heq] at hquote <;> cases hquote

/-- No match starts behind the first letter of an import. -/
theorem silent_import_of_word (h : moduleImport.front? ("import".toList ++ t) = none) :
    moduleImport.Silent "import".toList t := by
  have hlast : moduleImport.Silent ['t'] t :=
    silent_import_of_letters (forall_mem_of_all (by decide)) t
  have hback : moduleImport.front? ('r' :: 't' :: t) = none := by
    rw [Option.eq_none_iff_forall_ne_some]
    intro r hr
    rcases exists_of_moduleImport hr with ⟨g, t', heq, -⟩ | ⟨b, q, t', heq⟩
    · cases heq
    · cases heq
  have hfront : moduleImport.Silent "mpo".toList ("rt".toList ++ t) :=
    silent_import_of_letters (forall_mem_of_all (by decide)) _
  exact .cons h (hfront.append (.cons hback hlast))

theorem silent_import_body {s : Statement} (h : s.module? = none) (t : List Char) :
    moduleImport.Silent s.body t := by
  cases s with
  | binding g names before after q module => cases h
  | plain g q m =>
    exact ((silent_import_of_quote q _).append (silent_import_of_quiet m q _)).append
      (silent_import_of_quote q t)

theorem head?_body (s : Statement) (t : List Char) :
    ∀ c ∈ (s.body ++ t).head?, isBlank c = false := by
  cases s with
  | plain g q m =>
    rintro c ⟨⟩
    exact not_isBlank_of_isQuote q.2
  | binding g names before after q module =>
    intro c hc
    obtain ⟨d, l, hnames⟩ := List.exists_cons_of_ne_nil names.ne_nil
    simp only [Statement.body, hnames, List.cons_append, List.head?_cons] at hc
    exact names.start c (by rwa [hnames])

/-- No match starts in a line without names from which the pattern reaches no import. -/
theorem silent_import_write {l : Line} {lines : List Line} (h : l.statement.module? = none)
    (hrun : runFew passes source.front? (l.statement.body ++ (l.ending ++ writeAll lines)) = none) :
    moduleImport.Silent l.write (writeAll lines) := by
  have hbehind : l.statement.gap.chars ++ (l.statement.body ++ l.ending) <:+ l.write :=
    ⟨l.indent.1 ++ "import".toList, by simp [Line.write, Line.rest_eq]⟩
  have hgap : source.Silent l.statement.gap.chars
      (l.statement.body ++ (l.ending ++ writeAll lines)) := by
    rw [← List.append_assoc]
    exact ((silent_source_write h lines).of_suffix hbehind).of_append
  have hfirst := front?_moduleImport_eq_none l.statement.gap (head?_body l.statement _) hgap hrun
  refine (silent_import_of_blanks l.indent _).append (Silent.append ?_
    ((silent_import_of_blanks ⟨_, l.statement.gap.isBlank⟩ _).append
      ((silent_import_body h _).append (silent_import_ending l _))))
  simpa using silent_import_of_word hfirst

end CodeGraph.Script
