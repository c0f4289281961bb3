import CodeGraph.Proofs.Written
import Mathlib.Tactic.SplitIfs

/-!
# Pieces of a document

A document is taken apart piece by piece: `Makes` says which tokens a piece comes to, behind what
was read before it and in front of any rest. Gaps make none, and a tag, an end tag and a text make
one each.
-/

namespace CodeGraph.Markup

open Token (isBlank tokens? upTo? tagBody? afterBracket? trimEnd)
open Text (utf8Length forall_mem_of_all dropWhile_append_of_head)

theorem trimEnd_append {l rest : List Char} (hrest : ∀ c ∈ rest, isBlank c = true)
    (hl : ∀ c ∈ l.getLast?, isBlank c = false) : trimEnd (l ++ rest) = l := by
  rw [trimEnd, List.reverse_append,
    dropWhile_append_of_head (by simpa using hrest) (by simpa using hl), List.reverse_reverse]

/-! ## Pieces of a text -/

/-- Behind `before`, and with `rest` behind it, the text `l` makes the tokens `ts`. -/
def Makes (before l : List Char) (ts : List Token) (rest : List Char) : Prop :=
  tokens? (utf8Length before) (l ++ rest) =
    (tokens? (utf8Length (before ++ l)) rest).map (ts ++ ·)

variable {before l m rest : List Char} {ts us : List Token}

theorem makes_nil (before rest : List Char) : Makes before [] [] rest := by
  simp [Makes]

theorem Makes.append (h : Makes before l ts (m ++ rest)) (h' : Makes (before ++ l) m us rest) :
    Makes before (l ++ m) (ts ++ us) rest := by
  unfold Makes at *
  rw [List.append_assoc, h, h', Option.map_map, List.append_assoc]
  simp [Function.comp_def]

theorem ne_of_isBlank {c d : Char} (hc : isBlank c = true) (hd : isBlank d = false) : c ≠ d := by
  rintro rfl
  rw [hc] at hd
  cases hd

theorem utf8Size_of_isBlank {c : Char} (h : isBlank c = true) : c.utf8Size = 1 := by
  have hsize : ∀ d ∈ [' ', '\r', '\n', '\t'], d.utf8Size = 1 :=
    forall_mem_of_all (by decide)
  exact hsize c (isBlank_iff_mem.1 h)

theorem makes_blank {c : Char} (h : isBlank c = true) (before rest : List Char) :
    Makes before [c] [] rest := by
  have hc : c ≠ '<' := ne_of_isBlank h (by decide)
  rw [Makes, List.singleton_append, tokens?]
  · simp [h, utf8Size_of_isBlank h]
  · exact hc

theorem makes_blanks (hl : ∀ c ∈ l, isBlank c = true) (before rest : List Char) :
    Makes before l [] rest := by
  induction l generalizing before with
  | nil => exact makes_nil before rest
  | cons c l ih =>
    have hc := makes_blank (hl c List.mem_cons_self) before (l ++ rest)
    exact hc.append (ih (fun d hd => hl d (List.mem_cons_of_mem c hd)) _)

/-- A markup makes the token it is read as. -/
theorem makes_markup {t : Option Token}
    (h : afterBracket? (utf8Length before + 1) (l ++ rest) = some (t, rest)) :
    Makes before ('<' :: l) t.toList rest := by
  have hused : utf8Length ('<' :: (l ++ rest)) - utf8Length rest = utf8Length ('<' :: l) := by
    rw [← List.cons_append, Text.utf8Length_append, Nat.add_sub_cancel]
  rw [Makes, List.cons_append, tokens?]
  split
  · rename_i hnone
    rw [h] at hnone
    cases hnone
  · rename_i t' rest' hsome
    rw [h] at hsome
    cases hsome
    simp only [hused, Text.utf8Length_append]

/-! ## Comments, declarations and text -/

section Marks

variable {body : List Char}

/-- A mark that ends as no other part of it does ends no earlier than its last character stands. -/
theorem not_infix_append {front : List Char} {last : Char} (hlast : last ∉ front)
    (h : ¬ front ++ [last] <:+: body) : ¬ front ++ [last] <:+: body ++ front := by
  rintro ⟨s, t, heq⟩
  rcases List.append_eq_append_iff.1 heq with ⟨a, hbody, hfront⟩ | ⟨a, hmark, hfront⟩
  · exact h ⟨s, a, hbody.symm⟩
  · rcases List.eq_nil_or_concat a with rfl | ⟨a, c, rfl⟩
    · exact h ⟨s, [], by simpa using hmark⟩
    · rw [List.concat_eq_append, ← List.append_assoc, ← List.append_assoc] at hmark
      obtain rfl : last = c := by simpa using (List.append_inj' hmark rfl).2
      exact hlast (by simp [hfront])

/-- The first mark behind a text that holds none is the one that follows it. -/
theorem upTo?_append (front : List Char) {last : Char} (hlast : last ∉ front)
    (h : ¬ front ++ [last] <:+: body) (rest : List Char) :
    upTo? (front ++ [last]) (body ++ (front ++ [last]) ++ rest) = some (body, rest) := by
  induction body with
  | nil =>
    have hafter : Text.after? (front ++ [last]) (front ++ [last] ++ rest) = some rest :=
      Text.after?_eq_some_iff.2 rfl
    obtain ⟨c, l, hcons⟩ := List.exists_cons_of_ne_nil (show front ++ [last] ≠ [] by simp)
    rw [List.nil_append, hcons, List.cons_append, upTo?, ← List.cons_append, ← hcons, hafter]
  | cons c body ih =>
    have hafter : Text.after? (front ++ [last]) (c :: (body ++ (front ++ [last]) ++ rest)) =
        none := by
      rw [Option.eq_none_iff_forall_ne_some]
      intro r hr
      have hfront := List.prefix_of_prefix_length_le ⟨r, (Text.after?_eq_some_iff.1 hr).symm⟩
        (⟨last :: rest, by simp⟩ :
          c :: body ++ front <+: c :: (body ++ (front ++ [last]) ++ rest)) (by simp)
      exact not_infix_append hlast h hfront.isInfix
    have hbody : ¬ front ++ [last] <:+: body :=
      fun hpart => h (hpart.trans (List.suffix_cons c body).isInfix)
    rw [List.cons_append, List.cons_append, upTo?, hafter]
    simp only [ih hbody, Option.map_some]

end Marks

/-- A comment makes no token. -/
theorem makes_comment {body : List Char} (h : ¬ "-->".toList <:+: body) (before rest : List Char) :
    Makes before ("<!--".toList ++ body ++ "-->".toList) [] rest := by
  have hmark : upTo? "-->".toList (body ++ "-->".toList ++ rest) = some (body, rest) :=
    upTo?_append ['-', '-'] (by decide) h rest
  exact makes_markup (l := '!' :: '-' :: '-' :: (body ++ "-->".toList)) (t := none) (by
    simp only [List.cons_append, afterBracket?, Token.afterBang?, hmark, Option.map_some])

theorem makes_filler (f : Filler) (before rest : List Char) : Makes before f.chars [] rest := by
  cases f with
  | blanks l => exact makes_blanks l.2 before rest
  | comment body h => exact makes_comment h before rest

theorem makes_gap (g : Gap) (before rest : List Char) : Makes before g.chars [] rest := by
  induction g generalizing before with
  | nil => exact makes_nil before rest
  | cons f g ih => exact (makes_filler f before (Gap.chars g ++ rest)).append (ih _)

/-- Up to the next angle bracket there are blanks only. -/
def BlankAhead (l : List Char) : Prop := ∀ c ∈ l.takeWhile (· ≠ '<'), isBlank c = true

theorem blankAhead_bracket (l : List Char) : BlankAhead ('<' :: l) := by simp [BlankAhead]

theorem BlankAhead.blanks (h : BlankAhead rest) (hl : ∀ c ∈ l, isBlank c = true) :
    BlankAhead (l ++ rest) := by
  have hbracket : ∀ c ∈ l, decide (c ≠ '<') = true :=
    fun c hc => decide_eq_true (ne_of_isBlank (hl c hc) (by decide))
  intro c hc
  rw [List.takeWhile_append_of_pos hbracket] at hc
  exact (List.mem_append.1 hc).elim (hl c) (h c)

theorem BlankAhead.gap (h : BlankAhead rest) (g : Gap) : BlankAhead (g.chars ++ rest) := by
  induction g with
  | nil => exact h
  | cons f g ih =>
    rw [Gap.chars, List.flatMap_cons, List.append_assoc]
    cases f with
    | blanks l => exact ih.blanks l.2
    | comment body h => exact blankAhead_bracket _

/-- A text without blanks at its ends is taken for itself, whatever blanks follow. -/
theorem makes_text {t : List Char} (hne : t ≠ []) (hbracket : '<' ∉ t)
    (hstart : ∀ c ∈ t.head?, isBlank c = false) (hstop : ∀ c ∈ t.getLast?, isBlank c = false)
    (hrest : BlankAhead rest) (before : List Char) : Makes before t [.text t] rest := by
  obtain ⟨c, l, rfl⟩ := List.exists_cons_of_ne_nil hne
  have hc : c ≠ '<' := fun heq => hbracket (by simp [heq])
  have hplain : ∀ d ∈ l, decide (d ≠ '<') = true :=
    fun d hd => decide_eq_true fun heq => hbracket (heq ▸ List.mem_cons_of_mem c hd)
  have hblanks := makes_blanks hrest (before ++ c :: l) (rest.dropWhile (· ≠ '<'))
  rw [Makes, List.takeWhile_append_dropWhile] at hblanks
  rw [Makes, List.cons_append, tokens?]
  · simp only [if_neg (show ¬ isBlank c = true by simpa using hstart c rfl),
      List.takeWhile_append_of_pos hplain, List.dropWhile_append_of_pos hplain]
    rw [← List.cons_append, trimEnd_append hrest hstop, hblanks]
    simp
  · exact hc

/-! ## Tags -/

theorem tagBody?_quoted {q : Char} (hl : q ∉ l) (rest : List Char) :
    tagBody? (some q) (l ++ q :: rest) =
      (tagBody? none rest).map fun (b, rest) => (l ++ q :: b, rest) := by
  induction l with
  | nil => simp [tagBody?]
  | cons c l ih =>
    have hc : c ≠ q := fun heq => hl (heq ▸ List.mem_cons_self)
    rw [List.cons_append, tagBody?, if_neg hc, ih fun hmem => hl (List.mem_cons_of_mem c hmem)]
    simp [Function.comp_def]

/-- A text that a tag may consist of: it does not end the tag, and nothing in it is taken for
another markup. -/
structure IsTagText (l : List Char) : Prop where
  passes : ∀ rest, tagBody? none (l ++ rest) =
    (tagBody? none rest).map fun (b, rest) => (l ++ b, rest)
  bracket : '<' ∉ l
  start : ∀ c ∈ l.head?, c ∉ ['!', '?', '/']
  stop : ∀ c ∈ l.getLast?, c ≠ '/'

namespace IsTagText

theorem append (hl : IsTagText l) (hm : IsTagText m) : IsTagText (l ++ m) where
  passes rest := by
    rw [List.append_assoc, hl.passes, hm.passes, Option.map_map]
    simp [Function.comp_def]
  bracket := by simp [hl.bracket, hm.bracket]
  start c hc := by
    rw [List.head?_append, Option.mem_def, Option.or_eq_some_iff] at hc
    exact hc.elim (hl.start c) fun h => hm.start c h.2
  stop c hc := by
    rw [List.getLast?_append, Option.mem_def, Option.or_eq_some_iff] at hc
    exact hc.elim (hm.stop c) fun h => hl.stop c h.2

theorem of_plain (h : ∀ c ∈ l, c ∉ ['<', '>', '\'', '"', '!', '?', '/']) : IsTagText l where
  passes rest := by
    induction l with
    | nil => simp
    | cons c l ih =>
      have hc := h c List.mem_cons_self
      simp only [List.mem_cons, List.not_mem_nil, or_false, not_or] at hc
      rw [List.cons_append, tagBody?]
      simp [hc, ih fun d hd => h d (List.mem_cons_of_mem c hd), Function.comp_def]
  bracket hmem := h '<' hmem (by decide)
  start c hc hmem :=
    h c (List.mem_of_mem_head? hc) (List.mem_of_mem_drop (i := 4) hmem)
  stop c hc heq := h c (List.mem_of_mem_getLast? hc) (by simp [heq])

theorem quoted {q : Char} (hq : q = '"' ∨ q = '\'') (hl : q ∉ l) (hbracket : '<' ∉ l) :
    IsTagText (q :: l ++ [q]) where
  passes rest := by
    have hclosing : q ≠ '>' := by rintro rfl; revert hq; decide
    rw [List.cons_append, List.cons_append, List.append_assoc, List.singleton_append, tagBody?]
    simp [hclosing, hq.symm, tagBody?_quoted hl, Function.comp_def]
  bracket := by rcases hq with rfl | rfl <;> simp [hbracket]
  start := by rcases hq with rfl | rfl <;> simp
  stop := by rcases hq with rfl | rfl <;> simp [List.getLast?_cons]

theorem blanks (b : Blanks) : IsTagText b.1 :=
  of_plain fun c hc hmem => by
    have hplain : ∀ d ∈ ['<', '>', '\'', '"', '!', '?', '/'], isBlank d = false :=
      forall_mem_of_all (by decide)
    exact ne_of_isBlank (b.2 c hc) (hplain c hmem) rfl

theorem name {name : List Char} (h : isName name = true) : IsTagText name :=
  of_plain fun c hc hmem => by
    have hmarks : ∀ d ∈ ['<', '>', '\'', '"', '!', '?', '/'], d ∈ marks :=
      forall_mem_of_all (by decide)
    exact not_mem_marks_of_isName h hc (hmarks c hmem)

end IsTagText

theorem AttributeStyle.not_mem_escape (s : AttributeStyle) (l : List Char) :
    s.quote ∉ escape l := by
  rcases s.isQuote with h | h <;> exact Markup.not_mem_escape (by simp [h]) l

theorem AttributeStyle.isTagText_write (s : AttributeStyle) {name : String}
    (h : isName name.toList = true) (value : String) : IsTagText (s.write name value) := by
  have hname := (IsTagText.blanks s.before).append (.name h)
  have hequals : IsTagText ['='] := .of_plain (forall_mem_of_all (by decide))
  have hequals := (hname.append (.blanks s.beforeEquals)).append hequals
  have hvalue := IsTagText.quoted s.isQuote (s.not_mem_escape value.toList)
    (Markup.not_mem_escape (by decide) value.toList)
  simpa [write, rightSide] using (hequals.append (.blanks s.afterEquals)).append hvalue

theorem isTagText_writeAttributes (styles : Nat → AttributeStyle) (i : Nat)
    {attributes : List (String × String)} (h : ∀ a ∈ attributes, isName a.1.toList = true) :
    IsTagText (writeAttributes styles i attributes) := by
  induction attributes generalizing i with
  | nil => exact .of_plain (by simp [writeAttributes])
  | cons a attributes ih =>
    have ha := (styles i).isTagText_write (h a List.mem_cons_self) a.2
    exact ha.append (ih (i + 1) fun a' ha' => h a' (List.mem_cons_of_mem a ha'))

theorem Style.isTagText_body (s : Style) {name : String} (h : isName name.toList = true)
    {attributes : List (String × String)} (ha : ∀ a ∈ attributes, isName a.1.toList = true) :
    IsTagText (s.body name attributes) :=
  ((IsTagText.name h).append (isTagText_writeAttributes s.attributeAt 0 ha)).append
    (.blanks s.beforeEnd)

theorem Style.body_ne_nil (s : Style) {name : String} (h : isName name.toList = true)
    (attributes : List (String × String)) : s.body name attributes ≠ [] := by
  simp [body, ne_nil_of_isName h]

theorem IsTagText.tagBody? (h : IsTagText l) (rest : List Char) :
    tagBody? none (l ++ '>' :: rest) = some (l, rest) := by
  rw [h.passes, Token.tagBody?]
  simp

/-- A tag that starts an element makes one token, which tells where the tag ends. -/
theorem makes_tag (before : List Char) {inner : List Char} {stop : Nat} (hne : inner ≠ [])
    (hstart : ∀ c ∈ inner.head?, c ∉ ['!', '?', '/'])
    (hinner : tagBody? none (inner ++ '>' :: rest) = some (inner, rest))
    (hstop : stop = utf8Length (before ++ '<' :: inner ++ ['>'])) :
    Makes before ('<' :: inner ++ ['>'])
      [if inner.getLast? = some '/' then .empty inner.dropLast stop else .opening inner stop]
      rest := by
  have hstop : utf8Length before + 1 + utf8Length inner + 1 = stop := by
    simp only [hstop, Text.utf8Length_append, Text.utf8Length_cons, Text.utf8Length_nil,
      show '<'.utf8Size = 1 from rfl, show '>'.utf8Size = 1 from rfl]
    omega
  obtain ⟨c, l, rfl⟩ := List.exists_cons_of_ne_nil hne
  have hc := hstart c rfl
  simp only [List.mem_cons, List.not_mem_nil, or_false, not_or] at hc
  refine makes_markup (l := c :: l ++ ['>']) (t := some _) ?_
  rw [List.append_assoc, List.singleton_append, List.cons_append, Token.afterBracket?,
    ← List.cons_append, hinner, Option.map_some]
  · simp only [hstop]
    split_ifs <;> rfl
  all_goals simp [hc]

namespace IsTagText

variable {body : List Char} (h : IsTagText body) (hne : body ≠ [])

include h hne

theorem makes_opening (before rest : List Char) : Makes before ('<' :: body ++ ['>'])
    [.opening body (utf8Length (before ++ '<' :: body ++ ['>']))] rest := by
  have htag := makes_tag before hne h.start (h.tagBody? rest) rfl
  rwa [if_neg (show body.getLast? ≠ some '/' from fun hlast => h.stop '/' hlast rfl)] at htag

theorem makes_empty (before rest : List Char) : Makes before ('<' :: (body ++ ['/']) ++ ['>'])
    [.empty body (utf8Length (before ++ '<' :: (body ++ ['/']) ++ ['>']))] rest := by
  have hinner : Token.tagBody? none (body ++ ['/'] ++ '>' :: rest) =
      some (body ++ ['/'], rest) := by
    simp [h.passes, Token.tagBody?]
  have hstart : ∀ c ∈ (body ++ ['/']).head?, c ∉ ['!', '?', '/'] := by
    rw [List.head?_append, List.head?_eq_some_head hne, Option.some_or,
      ← List.head?_eq_some_head hne]
    exact h.start
  have htag := makes_tag before (by simp) hstart hinner rfl
  rwa [List.getLast?_concat, if_pos rfl, List.dropLast_concat] at htag

end IsTagText

/-- An end tag is taken for its name. -/
theorem makes_closing {name : List Char} (h : isName name = true) (b : Blanks)
    (before rest : List Char) :
    Makes before ("</".toList ++ name ++ b.1 ++ ['>']) [.closing name] rest := by
  have hread : tagBody? none (name ++ b.1 ++ '>' :: rest) = some (name ++ b.1, rest) :=
    ((IsTagText.name h).append (.blanks b)).tagBody? rest
  have hall : (name ++ b.1).all isBlank = false := by
    obtain ⟨c, l, rfl⟩ := List.exists_cons_of_ne_nil (ne_nil_of_isName h)
    simp [not_isBlank_of_isName h List.mem_cons_self]
  have htrim : trimEnd (name ++ b.1) = name :=
    trimEnd_append b.2 fun c hc => not_isBlank_of_isName h (List.mem_of_mem_getLast? hc)
  refine makes_markup (l := '/' :: name ++ b.1 ++ ['>']) (t := some (.closing name)) ?_
  rw [List.append_assoc, List.singleton_append, List.cons_append, List.cons_append, afterBracket?,
    hread, Option.map_some]
  simp only [hall, htrim, Bool.false_eq_true, if_false]

end CodeGraph.Markup
