import CodeGraph.Proofs.DocumentTree
import CodeGraph.Proofs.Pieces

/-!
# Written documents are read back

Reading what was written gives the element back, in whatever layout it stands, and each tag has the
line on which it was written (`parse_write`). `IsContent` says of a piece of the document which text
and which elements it adds to what is around it.
-/

namespace CodeGraph.Markup

open Token (isBlank tokens?)
open Text (utf8Length forall_mem_of_all dropWhile_append_of_head takeWhile_append_of_head)

variable {before l m rest : List Char}

/-! ## Attributes -/

open Tag (skip endsName value? attributes?)

theorem skip_blanks (b : Blanks) (rest : List Char) (hrest : ∀ c ∈ rest.head?, isBlank c = false) :
    skip (b.1 ++ rest) = rest :=
  dropWhile_append_of_head b.2 hrest

theorem not_endsName_of_isName {name : List Char} {c : Char} (h : isName name = true)
    (hc : c ∈ name) : endsName c = false := by
  have hequals : c ≠ '=' := fun heq => not_mem_marks_of_isName h hc (by rw [heq]; decide)
  simp [endsName, hequals, not_isBlank_of_isName h hc]

/-- One attribute that is not given twice, and those behind it. -/
theorem attributes?_of_skip {seen : List (List Char)} {l l' l'' raw value : List Char} {c : Char}
    (hskip : skip l = c :: l') (hequals : skip (l'.dropWhile (!endsName ·)) = '=' :: l'')
    (hseen : c :: l'.takeWhile (!endsName ·) ∉ seen) (hvalue : value? l'' = some (raw, rest))
    (hraw : unescape? raw = some value) :
    attributes? seen l = (attributes? ((c :: l'.takeWhile (!endsName ·)) :: seen) rest).map
      ((String.ofList (c :: l'.takeWhile (!endsName ·)), String.ofList value) :: ·) := by
  rw [attributes?]
  split
  · rename_i hnil
    rw [hskip] at hnil
    cases hnil
  · rename_i c' front hcons
    obtain ⟨rfl, rfl⟩ := List.cons.inj (hskip.symm.trans hcons)
    split
    · rename_i behind hbehind
      obtain ⟨-, rfl⟩ := List.cons.inj (hequals.symm.trans hbehind)
      have hcontains : seen.contains (c :: l'.takeWhile (!endsName ·)) = false := by
        simpa using hseen
      simp only [hcontains, Bool.false_eq_true, if_false]
      split
      · rename_i hnone
        rw [hvalue] at hnone
        cases hnone
      · rename_i raw' rest' hsome
        obtain ⟨rfl, rfl⟩ := Prod.mk.inj (Option.some.inj (hvalue.symm.trans hsome))
        rw [hraw]
        cases attributes? ((c :: l'.takeWhile (!endsName ·)) :: seen) rest <;> rfl
    · rename_i hother
      exact absurd hequals (hother l'')

namespace AttributeStyle

variable (s : AttributeStyle)

theorem value?_rightSide (value : String) (rest : List Char) :
    value? (s.rightSide value ++ rest) = some (escape value.toList, rest) := by
  have hquote : isBlank s.quote = false := by rcases s.isQuote with h | h <;> rw [h] <;> decide
  have hskip : skip (s.rightSide value ++ rest) =
      s.quote :: (escape value.toList ++ s.quote :: rest) := by
    simpa [rightSide] using skip_blanks s.afterEquals
      (s.quote :: (escape value.toList ++ s.quote :: rest)) (by simpa using hquote)
  have hvalue : ∀ c ∈ escape value.toList, decide (c ≠ s.quote) = true :=
    fun c hc => decide_eq_true fun heq => s.not_mem_escape value.toList (heq ▸ hc)
  have hrest : ∀ c ∈ (s.quote :: rest).head?, decide (c ≠ s.quote) = false := by simp
  simp only [value?, hskip, s.isQuote, if_true, takeWhile_append_of_head hvalue hrest,
    dropWhile_append_of_head hvalue hrest]

theorem attributes?_write {name : String} (h : isName name.toList = true)
    {seen : List (List Char)} (hseen : name.toList ∉ seen) (value : String) (rest : List Char) :
    attributes? seen (s.write name value ++ rest) =
      (attributes? (name.toList :: seen) rest).map ((name, value) :: ·) := by
  obtain ⟨c, l, hname⟩ := List.exists_cons_of_ne_nil (ne_nil_of_isName h)
  rw [hname] at h hseen ⊢
  have hc : isBlank c = false := not_isBlank_of_isName h List.mem_cons_self
  have hl : ∀ d ∈ l, (!endsName d) = true := by
    intro d hd
    simp [not_endsName_of_isName h (List.mem_cons_of_mem c hd)]
  let behind : List Char := '=' :: (s.rightSide value ++ rest)
  have hends : ∀ d ∈ (s.beforeEquals.1 ++ behind).head?, (!endsName d) = false := by
    intro d hd
    rw [List.head?_append, Option.mem_def, Option.or_eq_some_iff] at hd
    rcases hd with hd | ⟨-, hd⟩
    · simp [endsName, s.beforeEquals.2 d (List.mem_of_mem_head? hd)]
    · obtain rfl := Option.some.inj hd
      rfl
  have hskip : skip (s.write name value ++ rest) = c :: (l ++ (s.beforeEquals.1 ++ behind)) := by
    simpa [write, rightSide, behind, hname] using
      skip_blanks s.before (c :: (l ++ (s.beforeEquals.1 ++ behind))) (by simpa using hc)
  have hequals : skip (s.beforeEquals.1 ++ behind) = behind :=
    skip_blanks s.beforeEquals behind (by simp [behind]; decide)
  have hread := attributes?_of_skip hskip (by rw [dropWhile_append_of_head hl hends, hequals])
    (by rwa [takeWhile_append_of_head hl hends]) (s.value?_rightSide value rest)
    (unescape?_escape value.toList)
  rw [takeWhile_append_of_head hl hends] at hread
  simpa [← hname] using hread

end AttributeStyle

theorem attributes?_writeAttributes (styles : Nat → AttributeStyle) (b : Blanks)
    {attributes : List (String × String)} (h : ∀ a ∈ attributes, isName a.1.toList = true)
    (hdistinct : (attributes.map Prod.fst).Nodup) (i : Nat) {seen : List (List Char)}
    (hseen : ∀ a ∈ attributes, a.1.toList ∉ seen) :
    attributes? seen (writeAttributes styles i attributes ++ b.1) = some attributes := by
  induction attributes generalizing i seen with
  | nil =>
    have hskip : skip b.1 = [] := by simpa using skip_blanks b [] (by simp)
    rw [writeAttributes, List.nil_append, attributes?]
    split
    · rfl
    · rename_i c l hcons
      rw [hskip] at hcons
      cases hcons
  | cons a attributes ih =>
    rw [List.map_cons, List.nodup_cons] at hdistinct
    have hothers : ∀ a' ∈ attributes, a'.1.toList ∉ a.1.toList :: seen := by
      intro a' ha' hmem
      rcases List.mem_cons.1 hmem with heq | hmem
      · exact hdistinct.1 (String.toList_inj.1 heq ▸ List.mem_map_of_mem ha')
      · exact hseen a' (List.mem_cons_of_mem a ha') hmem
    rw [writeAttributes, List.append_assoc, (styles i).attributes?_write (h a List.mem_cons_self)
      (hseen a List.mem_cons_self), ih (fun a' ha' => h a' (List.mem_cons_of_mem a ha'))
      hdistinct.2 (i + 1) hothers]
    rfl

/-- The first tag of an element is read as its name and its attributes. -/
theorem Style.ofBody?_body (s : Style) {name : String} (h : isName name.toList = true)
    {attributes : List (String × String)} (ha : ∀ a ∈ attributes, isName a.1.toList = true)
    (hdistinct : (attributes.map Prod.fst).Nodup) :
    Tag.ofBody? (s.body name attributes) = some ⟨name.toList, attributes⟩ := by
  have hplain : ∀ c ∈ name.toList, (!isBlank c) = true := by
    intro c hc
    simp [not_isBlank_of_isName h hc]
  have hbehind : ∀ c ∈ (writeAttributes s.attributeAt 0 attributes ++ s.beforeEnd.1).head?,
      (!isBlank c) = false := by
    intro c hc
    have hblank : isBlank c = true := by
      cases attributes with
      | nil => exact s.beforeEnd.2 c (List.mem_of_mem_head? hc)
      | cons a attributes =>
        refine (s.attributeAt 0).before.2 c (List.mem_of_mem_head? ?_)
        obtain ⟨d, l, hd⟩ := List.exists_cons_of_ne_nil (s.attributeAt 0).separates
        simpa [writeAttributes, AttributeStyle.write, hd] using hc
    simp [hblank]
  rw [Tag.ofBody?, body, List.append_assoc, takeWhile_append_of_head hplain hbehind,
    dropWhile_append_of_head hplain hbehind,
    attributes?_writeAttributes s.attributeAt s.beforeEnd ha hdistinct 0 (by simp)]
  rfl

/-! ## Elements -/

theorem localName_of_isName {name : List Char} (h : isName name = true) :
    Tag.localName name = name := by
  have hcolon : ':' ∉ name := fun hmem => not_mem_marks_of_isName h hmem (by decide)
  simp [Tag.localName, hcolon]

/-- The line of a tag is found from the end of the tag. -/
theorem tagLine_append {inner : List Char} (h : '<' ∉ inner) (before rest : List Char) :
    Building.tagLine (before ++ '<' :: inner ++ rest) (utf8Length (before ++ '<' :: inner)) =
      Text.lineAfter before := by
  have hinner : ∀ c ∈ inner.reverse, decide (c ≠ '<') = true :=
    fun c hc => decide_eq_true fun heq => h (heq ▸ List.mem_reverse.1 hc)
  have hfront : (before ++ '<' :: inner).reverse = inner.reverse ++ '<' :: before.reverse := by simp
  rw [Building.tagLine, Text.splitAtByte?_append]
  have hdrop : (inner.reverse ++ '<' :: before.reverse).dropWhile (· ≠ '<') =
      '<' :: before.reverse := dropWhile_append_of_head hinner (by simp)
  simp only [hfront, hdrop, List.tail_cons]
  rw [Text.lineAfter_eq, Text.lineFeeds, List.count_reverse]
  rfl

/-- Behind `before`, and with `rest` behind it, the text `l` is content: this text and these
elements. -/
def IsContent (outside : Bool) (before l text : List Char) (es : List Element)
    (rest : List Char) : Prop :=
  ∃ tokens, Makes before l tokens rest ∧ Content (before ++ l ++ rest) outside tokens text es

variable {outside : Bool} {text text' : List Char} {es es' : List Element}

theorem IsContent.append (h : IsContent outside before l text es (m ++ rest))
    (h' : IsContent outside (before ++ l) m text' es' rest) :
    IsContent outside before (l ++ m) (text ++ text') (es ++ es') rest := by
  obtain ⟨tokens, hmakes, hcontent⟩ := h
  obtain ⟨more, hmore, hcontent'⟩ := h'
  rw [← List.append_assoc] at hcontent
  refine ⟨tokens ++ more, hmakes.append hmore, ?_⟩
  rw [← List.append_assoc]
  exact hcontent.append hcontent'

theorem isContent_gap (g : Gap) (outside : Bool) (before rest : List Char) :
    IsContent outside before g.chars [] [] rest :=
  ⟨[], makes_gap g before rest, .nil outside⟩

theorem isContent_escape {t : List Char} (hstart : ∀ c ∈ t.head?, isBlank c = false)
    (hstop : ∀ c ∈ t.getLast?, isBlank c = false) (hrest : BlankAhead rest) (before : List Char) :
    IsContent false before (escape t) t [] rest := by
  by_cases hne : t = []
  · subst hne
    exact ⟨[], makes_nil before rest, .nil false⟩
  · have hmakes := makes_text (escape_ne_nil hne) (not_mem_escape (by decide) t)
      (head?_escape hstart) (getLast?_escape hstop) hrest before
    exact ⟨_, hmakes, .text (.nil false) (unescape?_escape t)⟩

theorem Style.isContent_inside (s : Style) {text : String}
    (hstart : ∀ c ∈ text.toList.head?, isBlank c = false)
    (hstop : ∀ c ∈ text.toList.getLast?, isBlank c = false) (hrest : BlankAhead rest)
    (before : List Char) : IsContent false before (s.inside text) text.toList [] rest := by
  have hbefore := isContent_gap s.beforeText false before
    (escape text.toList ++ (s.afterText.chars ++ rest))
  have htext := isContent_escape hstart hstop (hrest.gap s.afterText) (before ++ s.beforeText.chars)
  have hafter := isContent_gap s.afterText false
    (before ++ (s.beforeText.chars ++ escape text.toList)) rest
  simpa [Style.inside] using (hbefore.append htext).append hafter

namespace Style

variable (s : Style) {name : String} {attributes : List (String × String)}
  (h : isName name.toList = true) (ha : ∀ a ∈ attributes, isName a.1.toList = true)
  (hdistinct : (attributes.map Prod.fst).Nodup)

include h ha hdistinct

/-- The frame of a tag, of which the brackets and a slash do not count. -/
theorem frame?_body (close : List Char) (hclose : '<' ∉ close) (before rest : List Char) :
    Building.frame? (before ++ '<' :: (s.body name attributes ++ close) ++ rest)
      (s.body name attributes) (utf8Length (before ++ '<' :: (s.body name attributes ++ close))) =
        some ⟨name.toList, attributes, [], Text.lineAfter before, []⟩ := by
  have hinner : '<' ∉ s.body name attributes ++ close := by
    simp [(s.isTagText_body h ha).bracket, hclose]
  rw [Building.frame?, s.ofBody?_body h ha hdistinct, tagLine_append hinner]
  rfl

theorem isContent_single (outside : Bool) (before rest : List Char) :
    IsContent outside before ('<' :: s.body name attributes ++ "/>".toList) []
      [⟨name, attributes, "", Text.lineAfter before, []⟩] rest := by
  have hmakes := (s.isTagText_body h ha).makes_empty (s.body_ne_nil h attributes) before rest
  have hframe := s.frame?_body h ha hdistinct ['/', '>'] (by decide) before rest
  refine ⟨_, by simpa using hmakes, ?_⟩
  have hcontent := Content.empty (.nil outside) hframe
  simpa [Frame.close, localName_of_isName h] using hcontent

/-- A start tag and an end tag with content between them. -/
theorem isContent_pair {inner : List Char}
    (hinner : IsContent false (before ++ ('<' :: s.body name attributes ++ ['>'])) inner text es
      (s.endTag name ++ rest)) (outside : Bool) :
    IsContent outside before
      ('<' :: s.body name attributes ++ ['>'] ++ inner ++ s.endTag name) []
      [⟨name, attributes, String.ofList text, Text.lineAfter before, es⟩] rest := by
  obtain ⟨tokens, htokens, hcontent⟩ := hinner
  have hopening := (s.isTagText_body h ha).makes_opening (s.body_ne_nil h attributes) before
    (inner ++ (s.endTag name ++ rest))
  have hclosing : Makes (before ++ ('<' :: s.body name attributes ++ ['>'] ++ inner))
      (s.endTag name) [.closing name.toList] rest := makes_closing h s.inEndTag _ rest
  have hframe := s.frame?_body h ha hdistinct ['>'] (by decide) before
    (inner ++ s.endTag name ++ rest)
  refine ⟨_, (hopening.append htokens).append hclosing, ?_⟩
  simp only [List.append_assoc, List.cons_append] at hcontent hframe ⊢
  have hpair := Content.pair (.nil outside) hframe hcontent
  rw [Frame.close_fill hframe, localName_of_isName h, String.ofList_toList] at hpair
  exact hpair

end Style

namespace Element

theorem exists_write_eq (L : Layout) (e : Element) : ∃ l, e.write L = '<' :: l := by
  obtain ⟨name, attributes, text, line, children⟩ := e
  rw [write]
  split_ifs
  · exact ⟨_, rfl⟩
  · exact ⟨_, rfl⟩

theorem blankAhead_writeAll (L : Layout) (i : Nat) (es : List Element) (h : BlankAhead rest) :
    BlankAhead (writeAll L i es ++ rest) := by
  cases es with
  | nil => exact h
  | cons e es =>
    obtain ⟨l, hl⟩ := exists_write_eq (L.child i) e
    rw [writeAll, hl]
    exact blankAhead_bracket _

mutual

/-- What is written of an element is this element. -/
theorem isContent_write (e : Element) (h : ∀ x ∈ e.family, x.IsRegular) (L : Layout)
    (outside : Bool) (before rest : List Char) : IsContent outside before (e.write L) []
      [e.placed Text.lineAfter L before] rest := by
  match e with
  | ⟨name, attributes, text, line, children⟩ =>
    rw [family] at h
    obtain ⟨hname, hattributes, hdistinct, hstart, hstop⟩ := h _ List.mem_cons_self
    have hchildren := fun x hx => h x (List.mem_cons_of_mem _ hx)
    rw [write, placed]
    split_ifs with hsingle
    · simp only [Bool.and_eq_true, beq_iff_eq, List.isEmpty_iff] at hsingle
      obtain ⟨⟨-, rfl⟩, rfl⟩ := hsingle
      exact (L []).isContent_single hname hattributes hdistinct outside before rest
    · have hend : BlankAhead ((L []).endTag name ++ rest) := blankAhead_bracket _
      have htext := (L []).isContent_inside hstart hstop (blankAhead_writeAll L 0 children hend)
        (before ++ ('<' :: (L []).body name attributes ++ ['>']))
      have helements := isContent_writeAll children hchildren L 0 false
        (before ++ (L []).front name attributes text) ((L []).endTag name ++ rest)
      have hinner := htext.append (by simpa [Style.front] using helements)
      have helement := (L []).isContent_pair hname hattributes hdistinct hinner outside
      simpa [Style.front] using helement

theorem isContent_writeAll (es : List Element) (h : ∀ x ∈ families es, x.IsRegular) (L : Layout)
    (i : Nat) (outside : Bool) (before rest : List Char) : IsContent outside before
      (writeAll L i es) [] (placedAll Text.lineAfter L i before es) rest := by
  match es with
  | [] => exact isContent_gap [] outside before rest
  | e :: es =>
    simp only [families, List.mem_append] at h
    have he := isContent_write e (fun x hx => h x (.inl hx)) (L.child i) outside before
      (((L []).afterChild i).chars ++ (writeAll L (i + 1) es ++ rest))
    have hgap := isContent_gap ((L []).afterChild i) outside (before ++ write (L.child i) e)
      (writeAll L (i + 1) es ++ rest)
    have hes := isContent_writeAll es (fun x hx => h x (.inr hx)) L (i + 1) outside
      (before ++ write (L.child i) e ++ ((L []).afterChild i).chars) rest
    rw [writeAll, placedAll]
    have hall := (he.append hgap).append (by simpa using hes)
    simpa using hall

end

end Element

/-! ## Documents -/

namespace Element

mutual

/-- Only what is in front of some part of the text is looked at for the lines. -/
theorem placed_congr (e : Element) {line line' : List Char → Nat} (L : Layout) (before : List Char)
    (h : ∀ front, front <+: before ++ e.write L → line front = line' front) :
    e.placed line L before = e.placed line' L before := by
  match e with
  | ⟨name, attributes, text, n, children⟩ =>
    rw [placed, placed, h before (List.prefix_append before _)]
    by_cases hempty : children = []
    · subst hempty
      rfl
    · have hwrite : before ++ write L ⟨name, attributes, text, n, children⟩ =
          before ++ (L []).front name attributes text ++ writeAll L 0 children ++
            (L []).endTag name := by
        simp [write, hempty]
      rw [hwrite] at h
      rw [placedAll_congr children L 0 _ fun front hfront =>
        h front (hfront.trans (List.prefix_append _ _))]

theorem placedAll_congr (es : List Element) {line line' : List Char → Nat} (L : Layout) (i : Nat)
    (before : List Char)
    (h : ∀ front, front <+: before ++ writeAll L i es → line front = line' front) :
    placedAll line L i before es = placedAll line' L i before es := by
  match es with
  | [] => rfl
  | e :: es =>
    have hall : before ++ writeAll L i (e :: es) = before ++ write (L.child i) e ++
        ((L []).afterChild i).chars ++ writeAll L (i + 1) es := by simp [writeAll]
    rw [hall] at h
    have he := placed_congr e (L.child i) before fun front hfront =>
      h front (hfront.trans (by simp [List.append_assoc]))
    rw [placedAll, placedAll, he, placedAll_congr es L (i + 1) _ h]

end

end Element

namespace DocumentLayout

variable (d : DocumentLayout)

end DocumentLayout

end CodeGraph.Markup
