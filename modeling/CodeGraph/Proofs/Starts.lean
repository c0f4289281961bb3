import CodeGraph.Proofs.RoundTrip
import Mathlib.Data.List.Basic

/-!
# Where tags start

A token tells where its tag stops, and what stands between the brackets, so it can be said on which
line the tag starts (`starts`). The line that is kept for an element is found in another way, by
the last angle bracket before the byte at which the tag stops. The two agree as long as no bracket
stands inside a tag and no mark stands in front, which the offsets do not count
(`map_labels_of_tellsLines`).
-/

namespace CodeGraph.Markup

open Token (tokens? upTo? tagBody? balanced? afterBang? afterQuestion? afterBracket?)
open Text (utf8Length lineFeeds)

/-- What stands between the brackets of a tag that starts an element, and the byte at which the tag
stops. -/
def Token.tag? : Token → Option (List Char × Nat)
  | .opening body stop => some (body, stop)
  | .empty body stop => some (body ++ ['/'], stop)
  | _ => none

/-- The text before a tag with this text between its brackets, which stops at this byte. -/
def textBefore (document inner : List Char) (stop : Nat) : List Char :=
  match Text.splitAtByte? document (stop - utf8Length ('<' :: inner ++ ['>'])) with
  | some (before, _) => before
  | none => document

/-- The local name of the element that a tag starts, and the line on which the tag starts. -/
def Token.start? (document : List Char) (t : Token) : Option (String × Nat) := do
  let f ← t.frame? document
  let (inner, stop) ← t.tag?
  return (String.ofList (Tag.localName f.tagName),
    lineFeeds (textBefore (dropMark document) inner stop) + 1)

/-- The elements of a document by their local names and the lines on which their tags start. -/
def starts (document : List Char) (tokens : List Token) : List (String × Nat) :=
  tokens.filterMap (Token.start? document)

/-! ## Tags in the text -/

section Pieces

variable {l body rest : List Char}

theorem append_of_upTo? {mark : List Char} (h : upTo? mark l = some (body, rest)) :
    l = body ++ mark ++ rest := by
  fun_induction upTo? mark l generalizing body rest with
  | case1 hmark =>
    cases h
    simpa using hmark
  | case2 => cases h
  | case3 c l r hr =>
    cases h
    exact Text.after?_eq_some_iff.1 hr
  | case4 c l hn ih =>
    obtain ⟨⟨b, r⟩, hr, heq⟩ := Option.map_eq_some_iff.1 h
    cases heq
    rw [ih hr]
    rfl

theorem append_of_tagBody? {quote : Option Char} (h : tagBody? quote l = some (body, rest)) :
    l = body ++ '>' :: rest := by
  fun_induction tagBody? quote l generalizing body rest with
  | case1 => cases h
  | case2 c l q ih =>
    obtain ⟨⟨b, r⟩, hr, heq⟩ := Option.map_eq_some_iff.1 h
    cases heq
    rw [ih hr]
    rfl
  | case3 l =>
    cases h
    rfl
  | case4 c l hc ih =>
    obtain ⟨⟨b, r⟩, hr, heq⟩ := Option.map_eq_some_iff.1 h
    cases heq
    rw [ih hr]
    rfl

theorem append_of_balanced? {depth : Nat} (h : balanced? depth l = some (body, rest)) :
    l = body ++ '>' :: rest := by
  fun_induction balanced? depth l generalizing body rest with
  | case1 => cases h
  | case2 depth c l hc =>
    cases h
    rw [hc.1]
    rfl
  | case3 depth c l hc depth' =>
    rename_i ih
    obtain ⟨⟨b, r⟩, hr, heq⟩ := Option.map_eq_some_iff.1 h
    cases heq
    rw [ih hr]
    rfl

theorem suffix_of_upTo? {mark : List Char} (h : upTo? mark l = some (body, rest)) : rest <:+ l :=
  ⟨body ++ mark, (append_of_upTo? h).symm⟩

theorem suffix_of_afterBang? {t : Option Token} (h : afterBang? l = some (t, rest)) :
    rest <:+ l := by
  unfold afterBang? at h
  split at h
  · obtain ⟨⟨b, r⟩, hr, heq⟩ := Option.map_eq_some_iff.1 h
    cases heq
    exact (suffix_of_upTo? hr).trans (List.suffix_append "--".toList _)
  · obtain ⟨⟨b, r⟩, hr, heq⟩ := Option.map_eq_some_iff.1 h
    cases heq
    exact (suffix_of_upTo? hr).trans (List.suffix_append "[CDATA[".toList _)
  · split at h
    · rename_i hr
      split_ifs at h
      cases h
      exact ⟨_, (List.append_cons .. ▸ append_of_balanced? hr).symm⟩
    · cases h

theorem tag?_of_afterBang? {t : Token} (h : afterBang? l = some (some t, rest)) :
    t.tag? = none := by
  unfold afterBang? at h
  split at h
  · obtain ⟨⟨b, r⟩, -, heq⟩ := Option.map_eq_some_iff.1 h
    cases heq
  · obtain ⟨⟨b, r⟩, -, heq⟩ := Option.map_eq_some_iff.1 h
    cases heq
    rfl
  · split at h
    · split_ifs at h
      cases h
    · cases h

theorem suffix_of_afterQuestion? (h : afterQuestion? l = some rest) : rest <:+ l := by
  unfold afterQuestion? at h
  split_ifs at h
  obtain ⟨⟨b, r⟩, hr, rfl⟩ := Option.map_eq_some_iff.1 h
  exact suffix_of_upTo? hr

theorem suffix_of_tagBody? (h : tagBody? none l = some (body, rest)) : rest <:+ l :=
  ⟨body ++ ['>'], by rw [append_of_tagBody? h, List.append_assoc, List.singleton_append]⟩

variable {t : Option Token} {offset : Nat}

theorem suffix_of_afterBracket? (h : afterBracket? offset l = some (t, rest)) : rest <:+ l := by
  unfold afterBracket? at h
  split at h
  · cases h
  · exact (suffix_of_afterBang? h).trans (List.suffix_cons _ _)
  · obtain ⟨r, hr, heq⟩ := Option.map_eq_some_iff.1 h
    cases heq
    exact (suffix_of_afterQuestion? hr).trans (List.suffix_cons _ _)
  · obtain ⟨⟨b, r⟩, hr, heq⟩ := Option.map_eq_some_iff.1 h
    cases heq
    exact (suffix_of_tagBody? hr).trans (List.suffix_cons _ _)
  · obtain ⟨⟨b, r⟩, hr, heq⟩ := Option.map_eq_some_iff.1 h
    obtain rfl : r = rest := by
      dsimp only at heq
      split_ifs at heq <;> exact (Prod.mk.inj heq).2
    exact suffix_of_tagBody? hr

/-- A tag that starts an element ends at the first closing bracket. -/
theorem tag?_of_afterBracket? {t : Token} (h : afterBracket? offset l = some (some t, rest))
    {inner : List Char} {stop : Nat} (ht : t.tag? = some (inner, stop)) :
    l = inner ++ '>' :: rest ∧ stop = offset + utf8Length inner + 1 := by
  unfold afterBracket? at h
  split at h
  · cases h
  · rw [tag?_of_afterBang? h] at ht
    cases ht
  · obtain ⟨r, -, heq⟩ := Option.map_eq_some_iff.1 h
    cases heq
  · obtain ⟨⟨b, r⟩, -, heq⟩ := Option.map_eq_some_iff.1 h
    cases heq
    cases ht
  · obtain ⟨⟨b, r⟩, hr, heq⟩ := Option.map_eq_some_iff.1 h
    have hb := append_of_tagBody? hr
    dsimp only at heq
    split_ifs at heq with hlast
    · cases heq
      cases ht
      obtain ⟨front, rfl⟩ := List.getLast?_eq_some_iff.1 hlast
      rw [List.dropLast_concat]
      exact ⟨hb, rfl⟩
    · cases heq
      cases ht
      exact ⟨hb, rfl⟩

end Pieces

section Tokens

variable {l inner : List Char} {tokens : List Token} {t : Token} {n stop : Nat}

/-- Every tag stands where its token says. -/
theorem exists_of_mem_tokens? (h : tokens? n l = some tokens) (ht : t ∈ tokens)
    (htag : t.tag? = some (inner, stop)) :
    ∃ before rest, l = before ++ '<' :: inner ++ '>' :: rest ∧
      stop = n + utf8Length (before ++ '<' :: inner ++ ['>']) := by
  fun_induction tokens? n l generalizing tokens with
  | case1 =>
    cases h
    cases ht
  | case2 => cases h
  | case3 n rest t' rest' hread used =>
    rename_i ih
    obtain ⟨more, hmore, rfl⟩ := Option.map_eq_some_iff.1 h
    rcases List.mem_append.1 ht with ht | ht
    · obtain rfl := Option.mem_toList.1 ht
      obtain ⟨hrest, hstop⟩ := tag?_of_afterBracket? hread htag
      refine ⟨[], rest', by rw [hrest]; rfl, ?_⟩
      simp only [hstop, List.nil_append, List.cons_append, Text.utf8Length_cons,
        Text.utf8Length_append, Text.utf8Length_nil]
      have : '<'.utf8Size = 1 ∧ '>'.utf8Size = 1 := by decide
      omega
    · obtain ⟨front, hfront⟩ := suffix_of_afterBracket? hread
      obtain ⟨before, behind, hrest', hstop⟩ := ih hmore ht
      refine ⟨'<' :: front ++ before, behind, by simp [← hfront, hrest'], ?_⟩
      simp only [hstop, used, ← hfront, List.cons_append, List.append_assoc, Text.utf8Length_cons,
        Text.utf8Length_append, Text.utf8Length_nil]
      omega
  | case4 n c rest hc hblank ih =>
    obtain ⟨before, behind, rfl, hstop⟩ := ih h ht
    refine ⟨c :: before, behind, rfl, ?_⟩
    simp only [hstop, List.cons_append, Text.utf8Length_cons, utf8Size_of_isBlank hblank]
    omega
  | case5 n c rest hc hblank raw =>
    rename_i ih
    obtain ⟨more, hmore, rfl⟩ := Option.map_eq_some_iff.1 h
    rcases List.mem_cons.1 ht with rfl | ht
    · cases htag
    · obtain ⟨before, behind, hbehind, hstop⟩ := ih hmore ht
      refine ⟨raw ++ before, behind, ?_, ?_⟩
      · have hraw : raw ++ rest.dropWhile (· ≠ '<') = c :: rest := by
          simp [raw, List.takeWhile_append_dropWhile]
        rw [← hraw, hbehind]
        simp
      · rw [hstop]
        simp only [List.append_assoc, Text.utf8Length_append]
        omega

end Tokens

/-! ## Lines -/

theorem textBefore_append (before inner rest : List Char) :
    textBefore (before ++ '<' :: inner ++ '>' :: rest) inner
      (utf8Length (before ++ '<' :: inner ++ ['>'])) = before := by
  have hstop : utf8Length (before ++ '<' :: inner ++ ['>']) - utf8Length ('<' :: inner ++ ['>']) =
      utf8Length before := by
    rw [List.append_assoc, Text.utf8Length_append, Nat.add_sub_cancel]
  rw [textBefore, hstop, List.append_assoc, Text.splitAtByte?_append]

/-- What it takes for the lines that are kept to be those on which the tags start. -/
structure TellsLines (document : List Char) (tokens : List Token) : Prop where
  /-- There is no mark in front. -/
  mark : dropMark document = document
  /-- No angle bracket is open inside a tag. -/
  bracket : ∀ t ∈ tokens, ∀ x ∈ t.tag?, '<' ∉ x.1
  /-- Lines are numbered with 32 bits. -/
  lines : lineFeeds document + 1 < Bits.limit32

variable {document : List Char} {tokens : List Token} {t : Token} {f : Frame}

theorem Token.exists_tag?_of_frame? (hf : t.frame? document = some f) :
    ∃ body inner stop, t.tag? = some (inner, stop) ∧
      Building.frame? document body stop = some f := by
  cases t with
  | opening body stop => exact ⟨body, body, stop, rfl, hf⟩
  | empty body stop => exact ⟨body, body ++ ['/'], stop, rfl, hf⟩
  | closing name => cases hf
  | text raw => cases hf
  | literal l => cases hf

theorem Building.line_of_frame? {body : List Char} {stop : Nat}
    (hf : Building.frame? document body stop = some f) : f.line = tagLine document stop := by
  obtain ⟨tag, -, hf⟩ := Option.bind_eq_some_iff.1 hf
  rw [← Option.some.inj hf]

theorem TellsLines.start? (h : TellsLines document tokens)
    (hread : tokens? 0 (dropMark document) = some tokens) (ht : t ∈ tokens) :
    t.start? document = (t.frame? document).map fun f =>
      (String.ofList (Tag.localName f.tagName), f.line) := by
  rcases hf : t.frame? document with _ | f
  · simp [Token.start?, hf]
  obtain ⟨body, inner, stop, htag, hframe⟩ := t.exists_tag?_of_frame? hf
  obtain ⟨before, rest, hdocument, hstop⟩ := exists_of_mem_tokens? hread ht htag
  rw [Nat.zero_add] at hstop
  have hinner : '<' ∉ inner ++ ['>'] := by simp [h.bracket t ht (inner, stop) htag]
  have hbefore : textBefore (dropMark document) inner stop = before := by
    rw [hdocument, hstop, textBefore_append]
  have hlines : lineFeeds before ≤ lineFeeds document := by
    rw [← h.mark, hdocument]
    simp only [List.append_assoc, Text.lineFeeds_append]
    omega
  have hline : f.line = lineFeeds before + 1 := by
    have htagLine := tagLine_append hinner before rest
    rw [h.mark] at hdocument
    have := h.lines
    rw [Building.line_of_frame? hframe, hdocument, hstop]
    simp only [List.append_assoc, List.cons_append, List.nil_append] at htagLine ⊢
    rw [htagLine, Text.lineAfter_eq]
    omega
  simp [Token.start?, hf, htag, hbefore, hline]

theorem map_labels_of_tellsLines (h : TellsLines document tokens)
    (hread : tokens? 0 (dropMark document) = some tokens) :
    (labels document tokens).map (fun x => (x.1, x.2.2)) = starts document tokens := by
  have hstarts : starts document tokens = tokens.filterMap fun t =>
      (t.frame? document).map fun f => (String.ofList (Tag.localName f.tagName), f.line) :=
    List.filterMap_congr fun t ht => h.start? hread ht
  rw [hstarts, labels, List.map_map, List.map_filterMap]
  rfl

end CodeGraph.Markup
