import CodeGraph.Extract.Stylesheet
import CodeGraph.Text.Front
import Mathlib.Data.List.Infix

/-!
# The rules of a stylesheet

A stylesheet is written as comments, statements and blocks that start with an at-sign, and rules
(`Item`). A statement ends at its semicolon, but what is taken for a selector goes back to the brace
before it, so a rule is passed over when a statement stands between that brace and the rule. These
are the only ones: every other rule yields its selector, placed on the line of its first
character, and nothing else yields one (`rules_of_sheet`).
-/

namespace CodeGraph.Stylesheet

open Text (isBlank lineFeeds)

/-- Text in which no brace stands and no comment starts. -/
def IsPlain (l : List Char) : Prop := '{' ∉ l ∧ '}' ∉ l ∧ ¬ "/*".toList <:+: l

instance : DecidablePred IsPlain := fun _ => inferInstanceAs (Decidable (_ ∧ _ ∧ _))

abbrev Plain := {l : List Char // IsPlain l}

abbrev Blanks := {l : List Char // ∀ c ∈ l, isBlank c = true}

/-- The text of a comment, which ends at the first `*/`. -/
abbrev CommentText := {l : List Char // ¬ "*/".toList <:+: l}

/-- The text in front of the declarations of a rule. -/
structure Selector where
  chars : List Char
  plain : IsPlain chars
  ne_nil : chars ≠ []
  start : ∀ c ∈ chars.head?, isBlank c = false ∧ c ≠ '@'
  stop : ∀ c ∈ chars.getLast?, isBlank c = false

inductive Item where
  | blanks (b : Blanks)
  | comment (body : CommentText)
  /-- An at-sign, a text and a semicolon. -/
  | statement (text : Plain)
  /-- An at-sign, a text and more items in braces. -/
  | block (prelude : Plain) (items : List Item)
  | rule (selector : Selector) (gap : Blanks) (declarations : Plain)

namespace Item

mutual

def write : Item → List Char
  | .blanks b => b.1
  | .comment body => "/*".toList ++ body.1 ++ "*/".toList
  | .statement text => '@' :: text.1 ++ [';']
  | .block prelude items => '@' :: prelude.1 ++ ['{'] ++ writeAll items ++ ['}']
  | .rule selector gap declarations => selector.chars ++ gap.1 ++ ['{'] ++ declarations.1 ++ ['}']

def writeAll : List Item → List Char
  | [] => []
  | i :: items => i.write ++ writeAll items

end

end Item

/-- A rule of a sheet. -/
structure Rule where
  /-- The text of the sheet before the rule. -/
  before : List Char
  selector : List Char
  /-- Whether a statement stands between the rule and the brace before it. -/
  behind : Bool

namespace Item

/-- Whether a statement stands between the end of an item and the brace before it. -/
def leaves (behind : Bool) : Item → Bool
  | .blanks _ | .comment _ => behind
  | .statement _ => true
  | .block _ _ | .rule _ _ _ => false

mutual

/-- The rules of an item that stands behind `before`, in the order of the text. -/
def rules (before : List Char) (behind : Bool) : Item → List Rule
  | .block prelude items => rulesAll (before ++ ('@' :: prelude.1 ++ ['{'])) false items
  | .rule selector _ _ => [⟨before, selector.chars, behind⟩]
  | _ => []

def rulesAll (before : List Char) (behind : Bool) : List Item → List Rule
  | [] => []
  | i :: items => i.rules before behind ++ rulesAll (before ++ i.write) (i.leaves behind) items

end

end Item

/-! ## Comments -/

/-- The two characters of a mark do not stand next to each other where it is not in the text. -/
theorem head?_ne_of_not_infix {c d : Char} {l : List Char} (h : ¬ [c, d] <:+: c :: l) :
    l.head? ≠ some d := by
  intro hd
  obtain ⟨l, rfl⟩ := List.head?_eq_some_iff.1 hd
  exact h ⟨[], l, rfl⟩

theorem comment?_cons {c : Char} {l : List Char} (h : c ≠ '*' ∨ l.head? ≠ some '/') :
    comment? (c :: l) = (comment? l).map fun (body, rest) => (c :: body, rest) := by
  rw [comment?]
  rintro r rfl rfl
  simp at h

theorem comment?_append {body : List Char} (h : ¬ "*/".toList <:+: body) (rest : List Char) :
    comment? (body ++ '*' :: '/' :: rest) = some (body, rest) := by
  induction body with
  | nil => rfl
  | cons c body ih =>
    have hbody : ¬ "*/".toList <:+: body :=
      fun hin => h (hin.trans (List.suffix_cons c body).isInfix)
    have hends : c ≠ '*' ∨ (body ++ '*' :: '/' :: rest).head? ≠ some '/' := by
      rw [or_iff_not_imp_left, not_not]
      rintro rfl
      cases body with
      | nil => simp
      | cons d body => simpa using head?_ne_of_not_infix (c := '*') (d := '/') h
    rw [List.cons_append, comment?_cons hends, ih hbody, Option.map_some]

theorem blankComments_comment (body : CommentText) (rest : List Char) :
    blankComments ((Item.comment body).write ++ rest) = blank body.1 ++ blankComments rest := by
  have hread := comment?_append body.2 rest
  have hwrite : (Item.comment body).write ++ rest =
      '/' :: '*' :: (body.1 ++ '*' :: '/' :: rest) := by simp [Item.write]
  rw [hwrite, blankComments]
  split
  · rename_i heq
    rw [hread] at heq
    cases heq
    rfl
  · rename_i heq
    rw [hread] at heq
    cases heq

/-- A character that starts no comment. -/
theorem blankComments_cons {c : Char} {l : List Char} (h : c ≠ '/' ∨ l.head? ≠ some '*') :
    blankComments (c :: l) = c :: blankComments l := by
  rw [blankComments]
  rintro r rfl rfl
  simp at h

theorem blankComments_append {l rest : List Char} (hl : ¬ "/*".toList <:+: l)
    (hrest : rest.head? ≠ some '*') : blankComments (l ++ rest) = l ++ blankComments rest := by
  induction l with
  | nil => rfl
  | cons c l ih =>
    have htail : ¬ "/*".toList <:+: l := fun hin => hl (hin.trans (List.suffix_cons c l).isInfix)
    have hstart : c ≠ '/' ∨ (l ++ rest).head? ≠ some '*' := by
      rw [or_iff_not_imp_left, not_not]
      rintro rfl
      cases l with
      | nil => exact hrest
      | cons e l => simpa using head?_ne_of_not_infix (c := '/') (d := '*') hl
    rw [List.cons_append, blankComments_cons hstart, ih htail, List.cons_append]

theorem blankComments_blanks (b : Blanks) (rest : List Char) :
    blankComments (b.1 ++ rest) = b.1 ++ blankComments rest := by
  obtain ⟨b, hb⟩ := b
  induction b with
  | nil => rfl
  | cons c b ih =>
    have hc : c ≠ '/' := by
      rintro rfl
      exact absurd (hb '/' List.mem_cons_self) (by decide)
    rw [List.cons_append, blankComments_cons (.inl hc),
      ih fun d hd => hb d (List.mem_cons_of_mem c hd), List.cons_append]

theorem isBlank_of_mem_blank {body : List Char} {c : Char} (h : c ∈ blank body) :
    isBlank c = true := by
  simp only [blank, List.mem_append, List.mem_cons, List.mem_map, List.not_mem_nil, or_false] at h
  rcases h with (rfl | rfl | ⟨d, -, rfl⟩) | rfl | rfl
  · decide
  · decide
  · split <;> decide
  · decide
  · decide

theorem lineFeeds_blank (body : CommentText) :
    lineFeeds (blank body.1) = lineFeeds (Item.comment body).write := by
  have hbody (l : List Char) :
      lineFeeds (l.map fun c => if c = '\n' then '\n' else ' ') = lineFeeds l := by
    induction l with
    | nil => rfl
    | cons c l ih =>
      simp only [lineFeeds, List.map_cons, List.count_cons] at ih ⊢
      rw [ih]
      by_cases hc : c = '\n' <;> simp [hc]
  show lineFeeds ([' ', ' '] ++ _ ++ [' ', ' ']) = lineFeeds ("/*".toList ++ body.1 ++ "*/".toList)
  rw [Text.lineFeeds_append, Text.lineFeeds_append, hbody, Text.lineFeeds_append,
    Text.lineFeeds_append]
  rfl

/-! ## Openings -/

theorem openings_append {l : List Char} (h : '{' ∉ l) (h' : '}' ∉ l)
    (before run rest : List Char) :
    openings before run (l ++ rest) = openings before (l.reverse ++ run) rest := by
  induction l generalizing run with
  | nil => rfl
  | cons c l ih =>
    rw [List.mem_cons, not_or] at h h'
    rw [List.cons_append, openings, if_neg (Ne.symm h.1), if_neg (Ne.symm h'.1), ih h.2 h'.2]
    simp

theorem openings_open (before run rest : List Char) :
    openings before run ('{' :: rest) = (if run.isEmpty then [] else [(before, run.reverse)]) ++
      openings ('{' :: (run ++ before)) [] rest := by
  rw [openings, if_pos rfl]
  split_ifs <;> rfl

theorem openings_close (before run rest : List Char) :
    openings before run ('}' :: rest) = openings ('}' :: (run ++ before)) [] rest := by
  rw [openings, if_neg (by decide), if_pos rfl]

/-! ## Selectors -/

theorem head?_trimEndChars {c : Char} (hc : isBlank c = false) (l : List Char) :
    (Text.trimEndChars (c :: l)).head? = some c := by
  rw [Text.trimEndChars, List.reverse_cons, List.dropWhile_append]
  split_ifs
  · simp [hc]
  · simp

/-- What stands behind the last brace, the latest first: blanks, or a statement behind blanks. -/
def Behind : Bool → List Char → Prop
  | false, run => ∀ c ∈ run, isBlank c = true
  | true, run => ∃ (b : Blanks) (l : List Char), run = l ++ '@' :: b.1

variable {behind : Bool} {before run : List Char}

theorem Behind.blanks (h : Behind behind run) (b : Blanks) :
    Behind behind (b.1.reverse ++ run) := by
  cases behind with
  | false =>
    intro c hc
    rcases List.mem_append.1 hc with hc | hc
    · exact b.2 c (List.mem_reverse.1 hc)
    · exact h c hc
  | true =>
    obtain ⟨b', l, rfl⟩ := h
    exact ⟨b', b.1.reverse ++ l, by simp⟩

theorem Behind.more (h : Behind true run) (l : List Char) : Behind true (l ++ run) := by
  obtain ⟨b, l', rfl⟩ := h
  exact ⟨b, l ++ l', by simp⟩

theorem Behind.statement (h : Behind behind run) (l : List Char) :
    Behind true (l ++ '@' :: run) := by
  cases behind with
  | false => exact ⟨⟨run, h⟩, l, rfl⟩
  | true =>
    obtain ⟨b, l', rfl⟩ := h
    exact ⟨b, l ++ '@' :: l', by simp⟩

/-- What starts with an at-sign is no selector. -/
theorem selector?_of_behind (h : Behind true run) : selector? (before, run.reverse) = none := by
  obtain ⟨b, l, rfl⟩ := h
  have htrim : (Text.trimChars (l ++ '@' :: b.1).reverse).head? = some '@' := by
    have hrun : (l ++ '@' :: b.1).reverse = b.1.reverse ++ '@' :: l.reverse := by simp
    have hstart : Text.trimStartChars (b.1.reverse ++ '@' :: l.reverse) = '@' :: l.reverse :=
      Text.dropWhile_append_of_head (fun c hc => b.2 c (List.mem_reverse.1 hc))
        (by rintro c ⟨⟩; decide)
    rw [hrun, Text.trimChars, hstart, head?_trimEndChars (by decide)]
  simp only [selector?, htrim, beq_self_eq_true, Bool.or_true, if_true]

theorem selector?_of_selector (h : ∀ c ∈ run, isBlank c = true) (s : Selector) (gap : Blanks) :
    selector? (before, (gap.1.reverse ++ (s.chars.reverse ++ run)).reverse) =
      some (String.ofList s.chars, Text.lineAfter (run ++ before)) := by
  obtain ⟨c, l, hs⟩ := List.exists_cons_of_ne_nil s.ne_nil
  have hc := s.start c (by simp [hs])
  have hrun : (gap.1.reverse ++ (s.chars.reverse ++ run)).reverse =
      run.reverse ++ (s.chars ++ gap.1) := by simp
  have hblank : ∀ d ∈ run.reverse, isBlank d = true := fun d hd => h d (List.mem_reverse.1 hd)
  have hstart : ∀ d ∈ (s.chars ++ gap.1).head?, isBlank d = false := by
    rintro d hd
    rw [hs] at hd
    obtain rfl := Option.some.inj hd
    exact hc.1
  have hstop : ∀ d ∈ s.chars.reverse.head?, isBlank d = false := by
    simpa using s.stop
  have htrim : Text.trimChars (run.reverse ++ (s.chars ++ gap.1)) = s.chars := by
    rw [Text.trimChars, Text.trimStartChars, Text.dropWhile_append_of_head hblank hstart,
      Text.trimEndChars, List.reverse_append, Text.dropWhile_append_of_head
        (fun d hd => gap.2 d (List.mem_reverse.1 hd)) hstop, List.reverse_reverse]
  have hat : (s.chars.isEmpty || s.chars.head? == some '@') = false := by
    simp [hs, hc.2]
  have hline : Text.lineAfter (before ++ run.reverse) = Text.lineAfter (run ++ before) := by
    simp only [Text.lineAfter, lineFeeds, List.count_append, List.count_reverse, Nat.add_comm]
  rw [hrun]
  simp only [selector?, htrim, hat, Text.takeWhile_append_of_head hblank hstart, hline]
  rfl

/-! ## Items -/

/-- The selectors of the rules that no statement stands in front of. -/
def entries (rules : List Rule) : List (String × Nat) :=
  (rules.filter (!·.behind)).map fun r => (String.ofList r.selector, Text.lineAfter r.before)

/-- The text `l`, which stands behind `before`, yields the selectors of these rules. -/
def Yields (before l : List Char) (behind behind' : Bool) (rules : List Rule) : Prop :=
  ∀ read run rest, lineFeeds (run ++ read) = lineFeeds before → Behind behind run →
    ∃ read' run', lineFeeds (run' ++ read') = lineFeeds (before ++ l) ∧ Behind behind' run' ∧
      (openings read run (blankComments (l ++ rest))).filterMap selector? =
        entries rules ++ (openings read' run' (blankComments rest)).filterMap selector?

theorem Yields.nil (before : List Char) (behind : Bool) : Yields before [] behind behind [] :=
  fun read run _ hlines hrun => ⟨read, run, by simpa using hlines, hrun, rfl⟩

variable {l m : List Char} {behind' behind'' : Bool} {rules rules' : List Rule}

theorem Yields.append (h : Yields before l behind behind' rules)
    (h' : Yields (before ++ l) m behind' behind'' rules') :
    Yields before (l ++ m) behind behind'' (rules ++ rules') := by
  intro read run rest hlines hrun
  obtain ⟨read', run', hlines', hrun', hread⟩ := h read run (m ++ rest) hlines hrun
  obtain ⟨read'', run'', hlines'', hrun'', hread'⟩ := h' read' run' rest hlines' hrun'
  refine ⟨read'', run'', by rw [hlines'', List.append_assoc], hrun'', ?_⟩
  rw [List.append_assoc, hread, hread', entries, entries, entries, List.filter_append,
    List.map_append, List.append_assoc]

theorem lineFeeds_reverse (l : List Char) : lineFeeds l.reverse = lineFeeds l := List.count_reverse

/-- Text without braces is added to what stands behind the last one. -/
theorem yields_of_run {read : List Char}
    (hread : ∀ rest, blankComments (l ++ rest) = read ++ blankComments rest)
    (hbraces : '{' ∉ read ∧ '}' ∉ read) (hlines : lineFeeds read = lineFeeds l)
    (hbehind : ∀ run, Behind behind run → Behind behind' (read.reverse ++ run)) :
    Yields before l behind behind' [] := by
  intro earlier run rest hearlier hrun
  refine ⟨earlier, read.reverse ++ run, ?_, hbehind run hrun, ?_⟩
  · rw [List.append_assoc, Text.lineFeeds_append, hearlier, Text.lineFeeds_append,
      lineFeeds_reverse, hlines, Nat.add_comm]
  · rw [hread, openings_append hbraces.1 hbraces.2]
    rfl

theorem not_mem_braces_of_blank (h : ∀ c ∈ l, isBlank c = true) : '{' ∉ l ∧ '}' ∉ l :=
  ⟨fun hmem => absurd (h _ hmem) (by decide), fun hmem => absurd (h _ hmem) (by decide)⟩

theorem yields_blanks (b : Blanks) (before : List Char) (behind : Bool) :
    Yields before b.1 behind behind [] :=
  yields_of_run (blankComments_blanks b) (not_mem_braces_of_blank b.2) rfl fun _ h => h.blanks b

theorem yields_comment (body : CommentText) (before : List Char) (behind : Bool) :
    Yields before (Item.comment body).write behind behind [] := by
  have hblank : ∀ c ∈ blank body.1, isBlank c = true := fun c => isBlank_of_mem_blank
  exact yields_of_run (blankComments_comment body) (not_mem_braces_of_blank hblank)
    (lineFeeds_blank body) fun _ h => h.blanks ⟨blank body.1, hblank⟩

theorem yields_statement (text : Plain) (before : List Char) (behind : Bool) :
    Yields before (Item.statement text).write behind true [] := by
  have hread (rest : List Char) : blankComments ((Item.statement text).write ++ rest) =
      ('@' :: text.1 ++ [';']) ++ blankComments rest := by
    rw [Item.write, List.cons_append, List.cons_append, blankComments_cons (.inl (by decide)),
      List.append_assoc, blankComments_append text.2.2.2 (by simp), List.singleton_append,
      blankComments_cons (.inl (by decide))]
    simp
  have hbraces : '{' ∉ '@' :: text.1 ++ [';'] ∧ '}' ∉ '@' :: text.1 ++ [';'] := by
    simp [text.2.1, text.2.2.1]
  exact yields_of_run hread hbraces rfl fun run h => by
    simpa using h.statement (';' :: text.1.reverse)

theorem lineFeeds_brace {c : Char} (hc : c ≠ '\n') (l : List Char) :
    lineFeeds (c :: l) = lineFeeds l := by
  simp [lineFeeds, hc]

/-- A brace opens a rule or a block, whose selector, if it has one, is what stands behind the last
brace. -/
theorem yields_open
    (hread : ∀ rest, blankComments (l ++ '{' :: rest) = l ++ blankComments ('{' :: rest))
    (hbraces : '{' ∉ l ∧ '}' ∉ l) (hl : l ≠ [])
    (hrules : ∀ read run, lineFeeds (run ++ read) = lineFeeds before → Behind behind run →
      (selector? (read, (l.reverse ++ run).reverse)).toList = entries rules) :
    Yields before (l ++ ['{']) behind false rules := by
  intro read run rest hlines hrun
  refine ⟨'{' :: (l.reverse ++ run ++ read), [], ?_, by simp [Behind], ?_⟩
  · rw [List.nil_append, lineFeeds_brace (by decide), List.append_assoc, Text.lineFeeds_append,
      hlines, lineFeeds_reverse, Text.lineFeeds_append, Text.lineFeeds_append,
      lineFeeds_brace (by decide), Nat.add_comm]
    rfl
  · have hempty : (l.reverse ++ run).isEmpty = false := by simp [hl]
    have hopen : blankComments (l ++ ['{'] ++ rest) = l ++ '{' :: blankComments rest := by
      rw [List.append_assoc, List.singleton_append, hread, blankComments_cons (.inl (by decide))]
    have hselector : (([(read, (l.reverse ++ run).reverse)]).filterMap selector?) =
        entries rules := by
      rw [← hrules read run hlines hrun]
      rcases h : selector? (read, (l.reverse ++ run).reverse) with _ | entry <;>
        simp only [List.filterMap_cons, List.filterMap_nil, h, Option.toList]
    rw [hopen, openings_append hbraces.1 hbraces.2, openings_open, hempty, List.filterMap_append]
    simp only [Bool.false_eq_true, if_false]
    rw [hselector]

theorem yields_close (text : Plain) (before : List Char) (behind : Bool) :
    Yields before (text.1 ++ ['}']) behind false [] := by
  intro read run rest hlines hrun
  refine ⟨'}' :: (text.1.reverse ++ run ++ read), [], ?_, by simp [Behind], ?_⟩
  · rw [List.nil_append, lineFeeds_brace (by decide), List.append_assoc, Text.lineFeeds_append,
      hlines, lineFeeds_reverse, Text.lineFeeds_append, Text.lineFeeds_append,
      lineFeeds_brace (by decide), Nat.add_comm]
    rfl
  · have hclose : blankComments (text.1 ++ ['}'] ++ rest) =
        text.1 ++ '}' :: blankComments rest := by
      rw [List.append_assoc, List.singleton_append, blankComments_append text.2.2.2 (by simp),
        blankComments_cons (.inl (by decide))]
    rw [hclose, openings_append text.2.1 text.2.2.1, openings_close]
    rfl

theorem yields_prelude (prelude : Plain) (before : List Char) (behind : Bool) :
    Yields before ('@' :: prelude.1 ++ ['{']) behind false [] := by
  refine yields_open (fun rest => ?_) (by simp [prelude.2.1, prelude.2.2.1]) (by simp)
    fun read run _ hrun => ?_
  · rw [List.cons_append, blankComments_cons (.inl (by decide)),
      blankComments_append prelude.2.2.2 (by simp), List.cons_append]
  · have hbehind : Behind true (prelude.1.reverse ++ '@' :: run) := hrun.statement _
    rw [List.reverse_cons, List.append_assoc, List.singleton_append, selector?_of_behind hbehind]
    rfl

theorem yields_selector (s : Selector) (gap : Blanks) (before : List Char) (behind : Bool) :
    Yields before (s.chars ++ gap.1 ++ ['{']) behind false [⟨before, s.chars, behind⟩] := by
  have hgap := not_mem_braces_of_blank gap.2
  refine yields_open (fun rest => ?_) (by simp [s.plain.1, s.plain.2.1, hgap]) (by simp [s.ne_nil])
    fun read run hlines hrun => ?_
  · have hhead : (gap.1 ++ '{' :: rest).head? ≠ some '*' := by
      intro hstar
      rcases hcons : gap.1 with _ | ⟨c, b⟩
      · simp [hcons] at hstar
      · have hc := gap.2 c (by simp [hcons])
        rw [hcons] at hstar
        obtain rfl := Option.some.inj hstar
        exact absurd hc (by decide)
    rw [List.append_assoc, blankComments_append s.plain.2.2 hhead, blankComments_blanks,
      List.append_assoc]
  · have hback : (s.chars ++ gap.1).reverse ++ run = gap.1.reverse ++ (s.chars.reverse ++ run) := by
      rw [List.reverse_append, List.append_assoc]
    rw [hback]
    cases behind with
    | false =>
      rw [selector?_of_selector hrun, Text.lineAfter, hlines]
      rfl
    | true =>
      rw [selector?_of_behind ((hrun.more _).more _)]
      rfl

namespace Item

mutual

theorem yields_write (before : List Char) (behind : Bool) : ∀ i : Item,
    Yields before i.write behind (i.leaves behind) (i.rules before behind)
  | .blanks b => yields_blanks b before behind
  | .comment body => yields_comment body before behind
  | .statement text => yields_statement text before behind
  | .block prelude items => by
    obtain ⟨behind', hitems⟩ := yields_writeAll (before ++ ('@' :: prelude.1 ++ ['{'])) false items
    have hopen := yields_prelude prelude before behind
    have hclose := yields_close ⟨[], by decide⟩
      (before ++ ('@' :: prelude.1 ++ ['{'] ++ writeAll items)) behind'
    have hblock := (hopen.append hitems).append hclose
    rwa [List.nil_append, List.append_nil] at hblock
  | .rule selector gap declarations => by
    have hopen := yields_selector selector gap before behind
    have hclose := yields_close declarations (before ++ (selector.chars ++ gap.1 ++ ['{'])) false
    have hrule := hopen.append hclose
    rwa [List.append_nil, ← List.append_assoc] at hrule

theorem yields_writeAll (before : List Char) (behind : Bool) : ∀ items : List Item,
    ∃ behind', Yields before (writeAll items) behind behind' (rulesAll before behind items)
  | [] => ⟨behind, .nil before behind⟩
  | i :: items => by
    obtain ⟨behind', hitems⟩ := yields_writeAll (before ++ i.write) (i.leaves behind) items
    exact ⟨behind', (yields_write before behind i).append hitems⟩

end

mutual

theorem prefix_of_mem_rules {before : List Char} {behind : Bool} {r : Rule} : ∀ {i : Item},
    r ∈ i.rules before behind → r.before ++ r.selector <+: before ++ i.write
  | .blanks _, h => absurd h List.not_mem_nil
  | .comment _, h => absurd h List.not_mem_nil
  | .statement _, h => absurd h List.not_mem_nil
  | .block prelude items, h => by
    have hitems := prefix_of_mem_rulesAll h
    rw [write, List.append_assoc _ (writeAll items), ← List.append_assoc before]
    refine hitems.trans ?_
    rw [← List.append_assoc _ (writeAll items)]
    exact List.prefix_append _ _
  | .rule selector gap declarations, h => by
    obtain rfl := List.mem_singleton.1 h
    rw [write]
    simp only [List.append_assoc]
    exact List.prefix_append_right_inj _ |>.2 (List.prefix_append _ _)

theorem prefix_of_mem_rulesAll {before : List Char} {behind : Bool} {r : Rule} :
    ∀ {items : List Item}, r ∈ rulesAll before behind items →
      r.before ++ r.selector <+: before ++ writeAll items
  | [], h => absurd h List.not_mem_nil
  | i :: items, h => by
    rw [writeAll, ← List.append_assoc]
    rcases List.mem_append.1 h with h | h
    · exact (prefix_of_mem_rules h).trans (List.prefix_append _ _)
    · exact prefix_of_mem_rulesAll h

end

end Item

/-! ## Sheets -/

theorem selectors_writeAll (items : List Item) :
    selectors (String.ofList (Item.writeAll items)) = entries (Item.rulesAll [] false items) := by
  obtain ⟨behind', hitems⟩ := Item.yields_writeAll [] false items
  obtain ⟨read, run, -, -, h⟩ := hitems [] [] [] rfl (by simp [Behind])
  have hnil : blankComments [] = [] := by rw [blankComments]
  rw [List.append_nil, hnil, openings, List.filterMap_nil, List.append_nil] at h
  rw [selectors, String.toList_ofList, h]

/-- The symbol of a rule, which hangs on the file. -/
def Rule.attachment (f : SourceFile) (r : Rule) : Attachment :=
  let line := some (Text.lineAfter r.before)
  ⟨f.key, .contains, f.named .cssSelector (String.ofList r.selector) line line⟩

/-- A sheet yields its rules in the order of the text, each by its selector on the line of its first
character, apart from those that a statement stands in front of; so it yields all rules if and only
if there is no such rule. Comments, statements and blocks yield nothing themselves. Lines are
numbered up to the largest 32-bit number. -/
theorem rules_of_sheet (f : SourceFile) {items : List Item}
    (h : f.content = String.ofList (Item.writeAll items)) :
    let rules := Item.rulesAll [] false items
    extract f = .ofAttachments ((rules.filter (!·.behind)).map (Rule.attachment f)) ∧
      (extract f = .ofAttachments (rules.map (Rule.attachment f)) ↔
        ∀ r ∈ rules, r.behind = false) ∧
      ∀ r ∈ rules, r.before ++ r.selector <+: Item.writeAll items ∧
        (lineFeeds (Item.writeAll items) + 1 < Bits.limit32 →
          Text.lineAfter r.before = lineFeeds r.before + 1) := by
  intro rules
  have hextract : extract f =
      .ofAttachments ((rules.filter (!·.behind)).map (Rule.attachment f)) := by
    rw [extract, h, selectors_writeAll, entries, List.map_map]
    rfl
  refine ⟨hextract, ?_, fun r hr => ?_⟩
  · rw [hextract]
    constructor
    · intro hall
      have hlength := congrArg (fun e => e.symbols.length) hall
      simp only [Extraction.ofAttachments, List.length_map] at hlength
      simpa using List.length_filter_eq_length_iff.1 hlength
    · intro hnone
      rw [List.filter_eq_self.2 fun r hr => by rw [hnone r hr]; rfl]
  · have hbefore : r.before ++ r.selector <+: Item.writeAll items := by
      simpa using Item.prefix_of_mem_rulesAll hr
    refine ⟨hbefore, fun hlines => ?_⟩
    have hcount : lineFeeds r.before ≤ lineFeeds (Item.writeAll items) :=
      ((List.prefix_append _ _).trans hbefore).sublist.count_le '\n'
    rw [Text.lineAfter_eq]
    omega

/-- The rule behind the statement is passed over, those inside the block and behind it are not. -/
theorem rules_of_import :
    ∃ (f : SourceFile) (items : List Item), f.content = String.ofList (Item.writeAll items) ∧
      f.content = "@import url(x.css);\n.a \x7b\x7d\n@media print \x7b\n.b \x7b\x7d\n\x7d\n" ++
        "/* \x7b */ .c \x7b\x7d\n" ∧
      (Item.rulesAll [] false items).map (fun r => (String.ofList r.selector, r.behind)) =
        [(".a", true), (".b", false), (".c", false)] ∧
      (extract f).symbols.map (fun s => (s.name, s.startLine)) =
        [(".b", some 4), (".c", some 6)] := by
  let space : Blanks := ⟨[' '], Text.forall_mem_of_all (by decide)⟩
  let feed : Item := .blanks ⟨['\n'], Text.forall_mem_of_all (by decide)⟩
  let nothing : Plain := ⟨[], by decide⟩
  let class' (c : Char) (hc : IsPlain ['.', c]) (hblank : isBlank c = false) : Selector :=
    ⟨['.', c], hc, by simp, by rintro d ⟨⟩; decide, by rintro d ⟨⟩; exact hblank⟩
  let a : Selector := class' 'a' (by decide) (by decide)
  let b : Selector := class' 'b' (by decide) (by decide)
  let c : Selector := class' 'c' (by decide) (by decide)
  let items : List Item := [.statement ⟨"import url(x.css)".toList, by decide⟩, feed,
    .rule a space nothing, feed,
    .block ⟨"media print ".toList, by decide⟩ [feed, .rule b space nothing, feed], feed,
    .comment ⟨" \x7b ".toList, by decide⟩, .blanks space, .rule c space nothing, feed]
  let f : SourceFile := ⟨"r", "r:s.css", "/w/s.css", String.ofList (Item.writeAll items)⟩
  have hcontent : f.content = String.ofList (Item.writeAll items) := rfl
  obtain ⟨hextract, -, -⟩ := rules_of_sheet f hcontent
  refine ⟨f, items, hcontent, by decide, by decide, ?_⟩
  rw [hextract]
  decide

end CodeGraph.Stylesheet
