import CodeGraph.Extract.Json
import CodeGraph.Extract.Page
import CodeGraph.Extract.Razor
import CodeGraph.Proofs.Encoding
import CodeGraph.Proofs.Imports
import CodeGraph.Proofs.MemberPaths
import CodeGraph.Proofs.PatternRuns
import CodeGraph.Proofs.StyleRules
import Mathlib.Data.List.TakeWhile

/-!
# Marks in front of a text

A byte order mark in front of a file is decoded to a character, which every reader meets first. No
pattern for scripts and pages starts at it, so they are passed over and their lines stay. A
directive on the first line no longer starts the line, a value in JSON cannot start with a mark, and
the mark becomes part of the first selector of a stylesheet.
-/

namespace CodeGraph

namespace Text

def mark : Char := '\uFEFF'

/-- The bytes of the mark. -/
def markBytes : List UInt8 := [0xef, 0xbb, 0xbf]

/-- The mark is decoded like any other character. -/
theorem toList_decodeLossy_markBytes (bytes : List UInt8) :
    (decodeLossy (markBytes ++ bytes)).toList = mark :: (decodeLossy bytes).toList := by
  obtain ⟨b, tail, hbytes, hstep⟩ := decodeStep_head mark bytes
  have hmark : markBytes = b :: tail := by
    rw [← hbytes]
    decide
  simp only [decodeLossy, String.toList_ofList]
  rw [hmark, List.cons_append, decodeSteps, hstep, List.map_cons, Option.getD_some]

end Text

/-- The file with a mark in front. -/
def SourceFile.marked (f : SourceFile) : SourceFile :=
  { f with content := String.ofList (Text.mark :: f.content.toList) }

@[simp] theorem SourceFile.toList_content_marked (f : SourceFile) :
    f.marked.content.toList = Text.mark :: f.content.toList := String.toList_ofList

namespace Extraction

/-- An extraction tells what it was made from. -/
theorem ofAttachments_inj {l m : List Attachment} : ofAttachments l = ofAttachments m ↔ l = m := by
  refine ⟨fun h => ?_, congrArg ofAttachments⟩
  simp only [ofAttachments, Extraction.mk.injEq] at h
  induction l generalizing m with
  | nil => exact (List.map_eq_nil_iff.1 h.1.symm).symm
  | cons a l ih =>
    cases m with
    | nil => cases h.1
    | cons b m =>
      simp only [List.map_cons, List.cons.injEq, Attachment.relationship,
        Relationship.mk.injEq] at h
      obtain ⟨⟨hsymbol, hsymbols⟩, ⟨hparent, -, htype⟩, hrelationships⟩ := h
      have hfirst : a = b := by
        obtain ⟨parent, type, symbol⟩ := a
        rw [Attachment.mk.injEq]
        exact ⟨hparent, htype, hsymbol⟩
      rw [hfirst, ih ⟨hsymbols, hrelationships⟩]

end Extraction

/-! ## Directives -/

namespace Razor

/-- There is no directive on the first line. -/
def PassesOverMark (l : List Char) : Prop :=
  ∀ line ∈ (Text.pieces '\n' l).head?, directive? line = none

theorem directive?_mark (line : List Char) : directive? (Text.mark :: line) = none := rfl

theorem pieces_mark {l p : List Char} {ps : List (List Char)} (h : Text.pieces '\n' l = p :: ps) :
    Text.pieces '\n' (Text.mark :: l) = (Text.mark :: p) :: ps := by
  rw [Text.pieces, if_neg (by decide), h]

theorem extract_marked_iff (f : SourceFile) :
    extract f.marked = extract f ↔ PassesOverMark f.content.toList := by
  obtain ⟨p, ps, hp⟩ := List.exists_cons_of_ne_nil (Text.pieces_ne_nil '\n' f.content.toList)
  have hfirst : PassesOverMark f.content.toList ↔ directive? p = none := by
    simp [PassesOverMark, hp]
  rw [hfirst]
  simp only [extract, SourceFile.toList_content_marked, pieces_mark hp, hp, List.zipIdx_cons,
    List.filterMap_cons, directive?_mark, Option.map_none]
  cases hd : directive? p with
  | none => exact iff_of_true rfl rfl
  | some d =>
    refine iff_of_false (fun h => ?_) (by simp)
    -- all directives on later lines are found twice, and that on the first line once
    have hlength := congrArg List.length (Extraction.ofAttachments_inj.1 h)
    simp only [Option.map_some, List.length_cons] at hlength
    exact absurd hlength (Nat.ne_of_lt (Nat.lt_succ_self _))

end Razor

/-! ## Values -/

namespace JsonDocument

/-- No object in the document has a member. -/
def PassesOverMark (l : List Char) : Prop :=
  ∀ v, Json.parseChars? l = some v → ∀ m, ¬ v.Has m

/-- No value starts with a mark. -/
theorem parseChars?_mark (l : List Char) : Json.parseChars? (Text.mark :: l) = none := by
  have hnext : Json.Token.next? Text.mark l = none := rfl
  have hread : Json.Token.tokens? (Text.mark :: l) = none := by
    rw [Json.Token.tokens?, if_neg (by decide)]
    split
    · rfl
    · rename_i heq
      rw [hnext] at heq
      cases heq
  rw [Json.parseChars?, hread]
  rfl

theorem extract_marked_iff (f : SourceFile) :
    extract f.marked = extract f ↔ PassesOverMark f.content.toList := by
  have hmarked : extract f.marked = .ofAttachments [] := by
    simp only [extract, Json.parse?, SourceFile.toList_content_marked, parseChars?_mark]
    rfl
  rw [hmarked, extract, Json.parse?]
  cases hv : Json.parseChars? f.content.toList with
  | none => exact iff_of_true rfl fun v hv' => by cases hv.symm.trans hv'
  | some v =>
    have hmembers := fun m => Json.Value.mem_members (m := m) (Json.isSorted_of_parse? hv)
    simp only [PassesOverMark, hv, Option.some.injEq, forall_eq', ← hmembers,
      ← List.eq_nil_iff_forall_not_mem, properties_eq, Extraction.ofAttachments_inj]
    rw [eq_comm, List.map_eq_nil_iff, List.map_eq_nil_iff]

end JsonDocument

/-! ## Selectors -/

namespace Text

theorem count_dropWhile_isBlank {c : Char} (hc : isBlank c = false) (l : List Char) :
    (l.dropWhile isBlank).count c = l.count c := by
  have hblanks : (l.takeWhile isBlank).count c = 0 := by
    rw [List.count_eq_zero]
    intro hmem
    rw [List.mem_takeWhile_imp hmem] at hc
    cases hc
  have hsplit := congrArg (List.count c) (List.takeWhile_append_dropWhile (p := isBlank) (l := l))
  rwa [List.count_append, hblanks, Nat.zero_add] at hsplit

/-- Only blanks are trimmed. -/
theorem count_trimChars {c : Char} (hc : isBlank c = false) (l : List Char) :
    (trimChars l).count c = l.count c := by
  rw [trimChars, trimEndChars, List.count_reverse, count_dropWhile_isBlank hc, List.count_reverse,
    trimStartChars, count_dropWhile_isBlank hc]

end Text

namespace Stylesheet

open Text (isBlank lineFeeds)

def isBrace (c : Char) : Bool := c == '{' || c == '}'

/-- There is no brace, or the first one opens no block. -/
def PassesOverMark (l : List Char) : Prop := (blankComments l).find? isBrace ≠ some '{'

theorem lineAfter_congr {before before' : List Char} (h : lineFeeds before = lineFeeds before')
    (l : List Char) : Text.lineAfter (before ++ l) = Text.lineAfter (before' ++ l) := by
  simp only [Text.lineAfter, Text.lineFeeds_append, h]

theorem selector?_congr {before before' : List Char} (h : lineFeeds before = lineFeeds before')
    (run : List Char) : selector? (before, run) = selector? (before', run) := by
  simp only [selector?, lineAfter_congr h]

/-- Of the text in front only the number of its lines matters. -/
theorem filterMap_openings_congr {before before' : List Char}
    (h : lineFeeds before = lineFeeds before') (run l : List Char) :
    (openings before run l).filterMap selector? = (openings before' run l).filterMap selector? := by
  have hmore (c : Char) {b b' : List Char} (h : lineFeeds b = lineFeeds b') (run : List Char) :
      lineFeeds (c :: (run ++ b)) = lineFeeds (c :: (run ++ b')) := by
    rw [← List.cons_append, ← List.cons_append, Text.lineFeeds_append, h, Text.lineFeeds_append]
  induction l generalizing before before' run with
  | nil => rfl
  | cons c l ih =>
    by_cases hopen : c = '{'
    · subst hopen
      rw [openings_open, openings_open, List.filterMap_append, List.filterMap_append,
        ih (hmore '{' h run)]
      split
      · rfl
      · rw [List.filterMap_cons, List.filterMap_cons, selector?_congr h]
    · by_cases hclose : c = '}'
      · subst hclose
        rw [openings_close, openings_close, ih (hmore '}' h run)]
      · rw [openings, openings, if_neg hopen, if_neg hclose, if_neg hopen, if_neg hclose, ih h]

theorem blankComments_mark (l : List Char) :
    blankComments (Text.mark :: l) = Text.mark :: blankComments l :=
  blankComments_cons (.inl (by decide))

theorem selector?_mark (before run : List Char) : ∃ line,
    selector? (before, Text.mark :: run) =
      some (String.ofList (Text.trimChars (Text.mark :: run)), line) := by
  have hhead : (Text.trimChars (Text.mark :: run)).head? = some Text.mark :=
    head?_trimEndChars (by decide) run
  have hne : (Text.trimChars (Text.mark :: run)).isEmpty = false := by
    cases hl : Text.trimChars (Text.mark :: run) with
    | nil => rw [hl] at hhead; cases hhead
    | cons c l => rfl
  simp only [selector?, hhead, hne]
  exact ⟨_, rfl⟩

/-- A mark is no blank, so it is part of what it stands in front of. -/
theorem trimChars_mark_ne (run : List Char) :
    Text.trimChars (Text.mark :: run) ≠ Text.trimChars run := by
  intro h
  have hcount := congrArg (List.count Text.mark) h
  have hmark : isBlank Text.mark = false := by decide
  rw [Text.count_trimChars hmark, Text.count_trimChars hmark, List.count_cons_self] at hcount
  omega

theorem fst_of_selector? {before run : List Char} {s : String × Nat}
    (h : selector? (before, run) = some s) : s.1 = String.ofList (Text.trimChars run) := by
  simp only [selector?] at h
  split_ifs at h
  rw [← Option.some.inj h]

theorem openings_of_plain {x : List Char} (hx : ∀ c ∈ x, isBrace c = false) (rest : List Char) :
    openings [] [] (x ++ rest) = openings [] x.reverse rest := by
  have hopen : '{' ∉ x := fun hmem => absurd (hx _ hmem) (by decide)
  have hclose : '}' ∉ x := fun hmem => absurd (hx _ hmem) (by decide)
  rw [openings_append hopen hclose, List.append_nil]

section Reading

variable {x rest : List Char}

theorem forall_mem_mark (hx : ∀ c ∈ x, isBrace c = false) :
    ∀ c ∈ Text.mark :: x, isBrace c = false :=
  List.forall_mem_cons.2 ⟨by decide, hx⟩

/-- Behind the first brace the selectors are the same. -/
theorem filterMap_openings_mark (c : Char) :
    (openings (c :: ((Text.mark :: x).reverse ++ [])) [] rest).filterMap selector? =
      (openings (c :: (x.reverse ++ [])) [] rest).filterMap selector? := by
  refine filterMap_openings_congr ?_ [] rest
  simp [lineFeeds, List.count_cons, Text.mark]

theorem filterMap_openings_close (hx : ∀ c ∈ x, isBrace c = false) :
    (openings [] [] (Text.mark :: (x ++ '}' :: rest))).filterMap selector? =
      (openings [] [] (x ++ '}' :: rest)).filterMap selector? := by
  rw [← List.cons_append, openings_of_plain (forall_mem_mark hx), openings_of_plain hx,
    openings_close, openings_close, filterMap_openings_mark]

/-- In front of a block the mark makes a selector, or a longer one. -/
theorem map_openings_open_ne (hx : ∀ c ∈ x, isBrace c = false) :
    ((openings [] [] (Text.mark :: (x ++ '{' :: rest))).filterMap selector?).map (·.1) ≠
      ((openings [] [] (x ++ '{' :: rest)).filterMap selector?).map (·.1) := by
  obtain ⟨line, hmark⟩ := selector?_mark [] x
  have hne : (Text.mark :: x).reverse.isEmpty = false := by simp
  rw [← List.cons_append, openings_of_plain (forall_mem_mark hx), openings_of_plain hx,
    openings_open, openings_open, List.filterMap_append, List.filterMap_append,
    filterMap_openings_mark, hne, List.map_append, List.map_append]
  simp only [Bool.false_eq_true, if_false, List.reverse_reverse, List.filterMap_cons, hmark,
    List.filterMap_nil, List.map_cons, List.map_nil]
  intro h
  have hlength := congrArg List.length h
  split_ifs at h hlength
  · simp at hlength
  · cases hs : selector? ([], x) with
    | none => simp [hs] at hlength
    | some s =>
      simp only [List.filterMap_cons, hs, List.filterMap_nil, List.map_cons, List.map_nil,
        List.singleton_append, List.cons.injEq, fst_of_selector? hs] at h
      exact trimChars_mark_ne x (String.ofList_injective h.1)

end Reading

theorem extract_marked_iff (f : SourceFile) :
    extract f.marked = extract f ↔ PassesOverMark f.content.toList := by
  simp only [extract, selectors, SourceFile.toList_content_marked, blankComments_mark,
    PassesOverMark]
  generalize blankComments f.content.toList = l
  constructor
  · intro h hopen
    obtain ⟨-, x, rest, rfl, hx⟩ := List.find?_eq_some_iff_append.1 hopen
    have hnames := congrArg (fun e => e.symbols.map (·.name)) h
    simp only [Extraction.ofAttachments, List.map_map] at hnames
    exact map_openings_open_ne (by simpa using hx) hnames
  · intro h
    suffices hsame : (openings [] [] (Text.mark :: l)).filterMap selector? =
        (openings [] [] l).filterMap selector? by
      rw [hsame]
      rfl
    cases hb : l.find? isBrace with
    | none =>
      have hl : ∀ c ∈ l, isBrace c = false := by simpa using List.find?_eq_none.1 hb
      rw [← List.append_nil (Text.mark :: l), openings_of_plain (forall_mem_mark hl),
        ← List.append_nil l, openings_of_plain hl]
      rfl
    | some b =>
      obtain ⟨hbrace, x, rest, rfl, hx⟩ := List.find?_eq_some_iff_append.1 hb
      have hb : b = '}' := by
        rw [hb, ne_eq, Option.some.injEq] at h
        simpa [isBrace, h] using hbrace
      rw [hb]
      exact filterMap_openings_close (by simpa using hx)

end Stylesheet

/-! ## Names in scripts and pages -/

namespace Script

open Text (Pattern)

theorem lineBefore_mark {l onward : List Char} (h : onward <:+ l) :
    lineBefore (Text.mark :: l) onward = lineBefore l onward := by
  obtain ⟨before, rfl⟩ := h
  rw [← List.cons_append, lineBefore_append, lineBefore_append]
  rfl

/-- A search whose matches do not start at the mark passes over it. -/
theorem all_mark {p : Pattern} (hp : ∀ l, p.front? (Text.mark :: l) = none) (l : List Char) :
    p.all (Text.mark :: l) = p.all l := Pattern.all_cons_of_none (hp l)

theorem find_mark {p : Pattern} (hp : ∀ l, p.front? (Text.mark :: l) = none) (l : List Char) :
    find p (Text.mark :: l) = find p l := by
  rw [find, find, all_mark hp]
  exact List.map_congr_left fun m hm => by rw [lineBefore_mark (Pattern.suffix_of_mem_all hm).1]

theorem front?_function_mark (l : List Char) : function.front? (Text.mark :: l) = none := rfl

theorem front?_moduleImport_mark (l : List Char) :
    moduleImport.front? (Text.mark :: l) = none := rfl

theorem extract_marked (f : SourceFile) : extract f.marked = extract f := by
  simp only [extract, SourceFile.toList_content_marked, find_mark front?_function_mark,
    find_mark front?_moduleImport_mark]
  rfl

end Script

namespace Page

open Text (Pattern)

theorem find_mark {p : Pattern} (hp : ∀ l, p.front? (Text.mark :: l) = none) (l : List Char) :
    find p (Text.mark :: l) = find p l := by
  rw [find, find, Script.all_mark hp]
  exact List.map_congr_left fun m hm => by
    rw [Script.lineBefore_mark (Pattern.suffix_of_mem_all hm).2]

theorem front?_scriptSource_mark (l : List Char) :
    scriptSource.front? (Text.mark :: l) = none := rfl

theorem front?_elementId_mark (l : List Char) : elementId.front? (Text.mark :: l) = none := rfl

theorem extract_marked (f : SourceFile) : extract f.marked = extract f := by
  simp only [extract, SourceFile.toList_content_marked, find_mark front?_scriptSource_mark,
    find_mark front?_elementId_mark]
  rfl

end Page

end CodeGraph
