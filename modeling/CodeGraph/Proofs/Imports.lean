import CodeGraph.Proofs.ImportPattern
import Mathlib.Data.List.Chain

/-!
# Imports of a script

Each import that binds names is found once, in the order of the text and with its module. A match
starts at the first place from which the pattern reaches the import, so its line is that of the
first of the open imports directly before it, if there are any (`imports_of_script`).
-/

namespace CodeGraph.Script

open Text (Pattern isBlank lineFeeds forall_mem_of_all)
open Text.Pattern

/-- The imports that bind names, each with the text before its statement. -/
def bindings (before : List Char) : List Line → List (List Char × List Char)
  | [] => []
  | l :: lines =>
    match l.statement.module? with
    | some m => (before ++ l.indent.1, m) :: bindings (before ++ l.write) lines
    | none => bindings (before ++ l.write) lines

/-- The imports that are found, each with the text before its match. The text `pending` is that
before the first of the open imports at the end of `before`. -/
def found (before : List Char) (pending : Option (List Char)) :
    List Line → List (List Char × List Char)
  | [] => []
  | l :: lines =>
    let start := pending.getD (before ++ l.indent.1)
    match l.statement.module? with
    | some m => (start, m) :: found (before ++ l.write) none lines
    | none => found (before ++ l.write) (if l.isOpen then some start else none) lines

/-! ## The search -/

theorem lineBefore_append (before onward : List Char) :
    lineBefore (before ++ onward) onward = Text.lineAfter before := by
  simp [lineBefore]

theorem exists_of_reached? {lines rest : List Line} {m : List Char} {l : Line}
    (h : reached? lines = some (m, l, rest)) : ∃ front, lines = front ++ l :: rest := by
  induction lines with
  | nil => cases h
  | cons l' lines ih =>
    rw [reached?] at h
    split at h
    · cases h
      exact ⟨[], rfl⟩
    · split_ifs at h
      obtain ⟨front, rfl⟩ := ih h
      exact ⟨l' :: front, rfl⟩

/-- Behind an open import the next one is found in its place, if one is reached. -/
theorem found_some (before p : List Char) (lines : List Line) :
    match reached? lines with
    | none => found before (some p) lines = found before none lines
    | some (m, _, rest) => ∃ b, b ++ writeAll rest = before ++ writeAll lines ∧
        found before (some p) lines = (p, m) :: found b none rest := by
  induction lines generalizing before p with
  | nil => rfl
  | cons l lines ih =>
    have hwrite : writeAll (l :: lines) = l.write ++ writeAll lines := rfl
    rcases hmodule : l.statement.module? with _ | m
    · by_cases hopen : l.isOpen = true
      · have hp := ih (before ++ l.write) p
        have hstart := ih (before ++ l.write) (before ++ l.indent.1)
        simp only [reached?, found, hmodule, hopen, if_true, Option.getD_some, Option.getD_none,
          hwrite, ← List.append_assoc]
        rcases hreached : reached? lines with _ | ⟨m, l', rest⟩
        · simp only [hreached] at hp hstart
          simp only [hp, hstart]
        · simp only [hreached] at hp
          exact hp
      · simp only [reached?, found, hmodule, hopen]
        rfl
    · simp only [reached?, found, hmodule, hwrite]
      exact ⟨before ++ l.write, by simp, rfl⟩

theorem runFew_body {l : Line} (h : l.statement.module? = none) (lines : List Line) :
    runFew passes source.front? (l.statement.body ++ (l.ending ++ writeAll lines)) =
      if l.isOpen then runFew passes source.front? (writeAll lines) else none := by
  have hbehind : l.statement.body ++ l.ending <:+ l.write :=
    ⟨l.indent.1 ++ ("import".toList ++ l.statement.gap.chars), by simp [Line.write, Line.rest_eq]⟩
  have hsilent := (silent_source_write h lines).of_suffix hbehind
  rw [← List.append_assoc]
  split_ifs with hopen
  · rw [isOpen_iff, semicolon_mem_write_iff] at hopen
    exact runFew_append hsilent (passes_of_not_mem hopen)
  · rw [isOpen_iff, semicolon_mem_write_iff, not_not] at hopen
    exact runFew_eq_none hsilent hopen rfl

theorem runFew_of_module? {s : Statement} {m : List Char} (h : s.module? = some m)
    (t : List Char) :
    ∃ c : Captured, c.text = m ∧
      runFew passes source.front? (s.body ++ t) = some (c, t) := by
  cases s with
  | plain g q m => cases h
  | binding g names before after q module =>
    obtain rfl := Option.some.inj h
    obtain ⟨c, hc, hrun⟩ := runFew_source names.unquoted names.semicolon names.stop before after q
      module t
    refine ⟨c, hc, ?_⟩
    rw [← hrun]
    simp [Statement.body]

theorem length_ending_lt (l : Line) : l.ending.length < l.rest.length := by
  have hword : "import".toList.length = 6 := rfl
  simp only [Line.rest_eq, List.length_append, hword]
  omega

/-- A line from which the pattern reaches an import, and the search behind that import. -/
theorem all_of_runFew {l l' : Line} {lines front rest : List Line} {c : Captured}
    (hlines : l :: lines = front ++ l' :: rest)
    (h : runFew passes source.front? (l.statement.body ++ (l.ending ++ writeAll lines)) =
      some (c, l'.ending ++ writeAll rest)) :
    moduleImport.all (writeAll (l :: lines)) =
      ⟨l.rest ++ writeAll lines, c⟩ :: moduleImport.all (writeAll rest) := by
  have hwrite : writeAll (l :: lines) = l.indent.1 ++ (l.rest ++ writeAll lines) := by
    simp [writeAll, Line.write]
  have hrest : l.rest ++ writeAll lines = "import".toList ++ (l.statement.gap.chars ++
      (l.statement.body ++ (l.ending ++ writeAll lines))) := by simp [Line.rest_eq]
  have hfront := front?_moduleImport l.statement.gap (head?_body l.statement _) h
  rw [← hrest] at hfront
  have hshorter : (l'.ending ++ writeAll rest).length < (l.rest ++ writeAll lines).length := by
    have hl := length_ending_lt l
    have hl' := length_ending_lt l'
    rcases List.cons_eq_append_iff.1 hlines with ⟨rfl, heq⟩ | ⟨front, rfl, rfl⟩
    · obtain ⟨rfl, rfl⟩ := List.cons.inj heq
      simp only [List.length_append]
      omega
    · simp only [writeAll, List.flatMap_append, List.flatMap_cons, Line.write, List.length_append]
      omega
  rw [hwrite, all_append (silent_import_of_blanks l.indent _),
    all_of_front? hfront hshorter,
    all_append (silent_import_ending l' _)]

/-- What the search finds in the lines. -/
theorem all_writeAll {content before : List Char} {lines : List Line}
    (h : content = before ++ writeAll lines) :
    (moduleImport.all (writeAll lines)).map
        (fun m => (String.ofList m.captured.text, lineBefore content m.onward)) =
      (found before none lines).map fun e => (String.ofList e.2, Text.lineAfter e.1) := by
  match lines with
  | [] =>
    have hnone : moduleImport.front? [] = none := rfl
    rw [front?] at hnone
    rw [writeAll, List.flatMap_nil, all.eq_def, hnone]
    rfl
  | l :: lines =>
    have hwrite : content = before ++ l.write ++ writeAll lines := by
      rw [h, List.append_assoc]
      rfl
    have hline : lineBefore content (l.rest ++ writeAll lines) =
        Text.lineAfter (before ++ l.indent.1) := by
      rw [← lineBefore_append _ (l.rest ++ writeAll lines), hwrite]
      simp [Line.write]
    rcases hmodule : l.statement.module? with _ | m
    · have hbody := runFew_body hmodule lines
      by_cases hopen : l.isOpen = true
      · have hreach := runFew_writeAll lines
        have hfound := found_some (before ++ l.write) (before ++ l.indent.1) lines
        rw [if_pos hopen] at hbody
        simp only [found, hmodule, hopen, if_true, Option.getD_none]
        rcases hreached : reached? lines with _ | ⟨m, l', rest⟩
        · simp only [hreached] at hreach hfound
          have hsilent := silent_import_write hmodule (hbody.trans hreach)
          rw [hfound, ← all_writeAll hwrite]
          exact congrArg _ (all_append hsilent)
        · simp only [hreached] at hreach hfound
          obtain ⟨c, rfl, hrun⟩ := hreach
          obtain ⟨b, hb, hfound⟩ := hfound
          obtain ⟨front, hfront⟩ := exists_of_reached? hreached
          have hlines : l :: lines = (l :: front) ++ l' :: rest := by
            rw [hfront, List.cons_append]
          have hshorter : rest.length < lines.length := by
            simp only [hfront, List.length_append, List.length_cons]
            omega
          rw [hfound, all_of_runFew hlines (hbody.trans hrun), List.map_cons, List.map_cons, hline,
            all_writeAll (hwrite.trans hb.symm)]
      · rw [if_neg hopen] at hbody
        simp only [found, hmodule, hopen]
        have hsilent := silent_import_write hmodule hbody
        refine Eq.trans (congrArg _ (all_append hsilent)) ?_
        exact all_writeAll hwrite
    · obtain ⟨c, rfl, hrun⟩ := runFew_of_module? hmodule (l.ending ++ writeAll lines)
      have hlines : l :: lines = [] ++ l :: lines := rfl
      simp only [found, hmodule, Option.getD_none]
      rw [all_of_runFew hlines hrun, List.map_cons, List.map_cons, hline, all_writeAll hwrite]
termination_by lines.length

theorem map_snd_found (before : List Char) (pending : Option (List Char)) (lines : List Line) :
    (found before pending lines).map Prod.snd = (bindings before lines).map Prod.snd := by
  induction lines generalizing before pending with
  | nil => rfl
  | cons l lines ih =>
    rw [found, bindings]
    rcases l.statement.module? with _ | m
    · exact ih _ _
    · exact congrArg (m :: ·) (ih _ _)

/-- No import that binds names stands directly behind an open one. -/
def Apart (lines : List Line) : Prop :=
  lines.IsChain fun l l' =>
    l.statement.module? = none → l.isOpen = true → l'.statement.module? = none

/-- The name and the line of an import with this text before it. -/
def nameAndLine (e : List Char × List Char) : String × Nat :=
  (String.ofList e.2, Text.lineAfter e.1)

theorem lineFeeds_lt_of_mem_trail {l : Line} (h : '\n' ∈ l.trail.1) (before : List Char) :
    lineFeeds (before ++ l.indent.1) < lineFeeds (before ++ l.write) := by
  have htrail : 0 < lineFeeds l.trail.1 := List.count_pos_iff.2 h
  simp only [Line.write, Line.rest_eq, Line.ending, Text.lineFeeds_append]
  omega

theorem map_found_eq_iff {before : List Char} {pending : Option (List Char)} {lines : List Line}
    (hpending : ∀ p ∈ pending, lineFeeds p < lineFeeds before)
    (hlines : ∀ l ∈ lines.dropLast, '\n' ∈ l.trail.1)
    (hlimit : lineFeeds (before ++ writeAll lines) + 1 < Bits.limit32) :
    (found before pending lines).map nameAndLine = (bindings before lines).map nameAndLine ↔
      (pending ≠ none → ∀ l ∈ lines.head?, l.statement.module? = none) ∧ Apart lines := by
  induction lines generalizing before pending with
  | nil => simp [found, bindings, Apart]
  | cons l lines ih =>
    have hwrite : before ++ writeAll (l :: lines) = before ++ l.write ++ writeAll lines := by
      rw [List.append_assoc]
      rfl
    have hbehind : ∀ l' ∈ lines.dropLast, '\n' ∈ l'.trail.1 := by
      intro l' hl'
      cases lines with
      | nil => cases hl'
      | cons l'' lines => exact hlines l' (List.mem_cons_of_mem l hl')
    rw [hwrite] at hlimit
    rw [found, bindings]
    rcases hmodule : l.statement.module? with _ | m
    · cases hcons : lines with
      | nil => simp [found, bindings, Apart, hmodule]
      | cons l' lines' =>
        have htrail : '\n' ∈ l.trail.1 := hlines l (by simp [hcons])
        have hlater := lineFeeds_lt_of_mem_trail htrail before
        have hnext : ∀ p ∈ (if l.isOpen then some (pending.getD (before ++ l.indent.1)) else none),
            lineFeeds p < lineFeeds (before ++ l.write) := by
          intro p hp
          split_ifs at hp
          · obtain rfl := Option.some.inj hp
            cases pending with
            | none => exact hlater
            | some p =>
              have := hpending p rfl
              simp only [Text.lineFeeds_append, Option.getD_some] at hlater ⊢
              omega
          · cases hp
        rw [← hcons]
        refine (ih hnext hbehind hlimit).trans ?_
        rw [Apart, Apart, List.isChain_cons]
        simp only [List.head?_cons, Option.mem_def, Option.some.injEq, forall_eq', hmodule]
        split_ifs with hopen <;> simp [hopen]
    · have hrest := @ih (before ++ l.write) none (by simp) hbehind hlimit
      have happart : Apart (l :: lines) ↔ Apart lines := by
        rw [Apart, Apart, List.isChain_cons]
        simp [hmodule]
      simp only [List.map_cons, List.cons.injEq, hrest, happart, List.head?_cons, Option.mem_def,
        Option.some.injEq, forall_eq', hmodule, reduceCtorEq, imp_false, not_not]
      cases pending with
      | none => simp
      | some p =>
        have hearlier := hpending p rfl
        have hlines : nameAndLine (p, m) ≠ nameAndLine (before ++ l.indent.1, m) := by
          simp only [nameAndLine, Text.lineAfter_eq, Text.lineFeeds_append, ne_eq, Prod.mk.injEq,
            true_and] at hlimit ⊢
          simp only [Line.write, Text.lineFeeds_append] at hlimit
          omega
        simp [hlines]

/-- The symbol of an import, which hangs on the file. -/
def attachment (f : SourceFile) (e : List Char × List Char) : Attachment :=
  let (name, line) := nameAndLine e
  ⟨f.key, .dependsOn, f.named .javaScriptImport name (some line) (some line)⟩

variable {f : SourceFile} {lines : List Line}

theorem exists_extract_eq (h : f.content = String.ofList (writeAll lines)) :
    ∃ functions : List Attachment, (∀ a ∈ functions, a.symbol.kind = .javaScriptFunction) ∧
      extract f = .ofAttachments (functions ++ (found [] none lines).map (attachment f)) := by
  have hfind : find moduleImport f.content.toList = (found [] none lines).map nameAndLine := by
    rw [h, String.toList_ofList, find, all_writeAll (List.nil_append _).symm]
    rfl
  refine ⟨(find function f.content.toList).map fun (name, line) =>
    ⟨f.key, .contains, f.named .javaScriptFunction name (some line) (some line)⟩, ?_, ?_⟩
  · intro a ha
    obtain ⟨e, -, rfl⟩ := List.mem_map.1 ha
    rfl
  · rw [extract, hfind, List.map_map]
    rfl

/-- The symbols of the imports found in a file. -/
def imports (f : SourceFile) : List Symbol :=
  (extract f).symbols.filter (·.kind == .javaScriptImport)

theorem imports_eq (h : f.content = String.ofList (writeAll lines)) :
    imports f = (found [] none lines).map fun e => (attachment f e).symbol := by
  obtain ⟨functions, hkind, hextract⟩ := exists_extract_eq h
  have hfunctions : (functions.map (·.symbol)).filter (·.kind == .javaScriptImport) = [] := by
    rw [List.filter_eq_nil_iff]
    intro s hs
    obtain ⟨a, ha, rfl⟩ := List.mem_map.1 hs
    simp [hkind a ha]
  have hfound (l : List (List Char × List Char)) :
      ((l.map (attachment f)).map (·.symbol)).filter (·.kind == .javaScriptImport) =
        l.map fun e => (attachment f e).symbol := by
    rw [List.map_map]
    refine List.filter_eq_self.2 fun s hs => ?_
    obtain ⟨e, -, rfl⟩ := List.mem_map.1 hs
    rfl
  rw [imports, hextract, Extraction.ofAttachments, List.map_append, List.filter_append, hfunctions,
    hfound, List.nil_append]

theorem map_symbol_eq_iff {l l' : List (List Char × List Char)} :
    l.map (fun e => (attachment f e).symbol) = l'.map (fun e => (attachment f e).symbol) ↔
      l.map nameAndLine = l'.map nameAndLine := by
  let symbolOf (x : String × Nat) := f.named .javaScriptImport x.1 (some x.2) (some x.2)
  have hinj : Function.Injective symbolOf := by
    rintro ⟨name, line⟩ ⟨name', line'⟩ heq
    obtain rfl : name = name' := congrArg Symbol.name heq
    obtain rfl : line = line' := Option.some.inj (congrArg Symbol.startLine heq)
    rfl
  have hmap (l : List (List Char × List Char)) :
      l.map (fun e => (attachment f e).symbol) = (l.map nameAndLine).map symbolOf := by
    rw [List.map_map]
    rfl
  rw [hmap, hmap]
  exact ⟨fun heq => hinj.list_map heq, fun heq => by rw [heq]⟩

/-- A script yields one import for each statement that binds names, in the order of the text and
named by its module, and apart from these only functions. With each statement on a line of its own,
all of them have the lines of their statements if and only if no such statement stands directly
behind one for its effects alone in which there is no semicolon. Lines are numbered up to the
largest 32-bit number. -/
theorem imports_of_script (f : SourceFile) {lines : List Line}
    (h : f.content = String.ofList (writeAll lines)) :
    (∃ functions : List Attachment, (∀ a ∈ functions, a.symbol.kind = .javaScriptFunction) ∧
      extract f = .ofAttachments (functions ++ (found [] none lines).map (attachment f))) ∧
    imports f = (found [] none lines).map (fun e => (attachment f e).symbol) ∧
    (imports f).map (·.name) = (bindings [] lines).map (fun e => String.ofList e.2) ∧
    ((∀ l ∈ lines.dropLast, '\n' ∈ l.trail.1) → lineFeeds (writeAll lines) + 1 < Bits.limit32 →
      (imports f = (bindings [] lines).map (fun e => (attachment f e).symbol) ↔ Apart lines)) := by
  refine ⟨exists_extract_eq h, imports_eq h, ?_, fun hlines hlimit => ?_⟩
  · have hnames := congrArg (List.map String.ofList) (map_snd_found [] none lines)
    rw [List.map_map, List.map_map] at hnames
    rw [imports_eq h, List.map_map]
    exact hnames
  · rw [imports_eq h, map_symbol_eq_iff, map_found_eq_iff (by simp) hlines hlimit]
    simp

/-- Names without blanks and brackets are quiet. -/
theorem isQuiet_of_all {l : List Char} (h : ∀ c ∈ l, isBlank c = false ∧ c ≠ '(') :
    (∀ g : Gap, ¬ "import".toList ++ g.chars <:+: l) ∧
      (∀ g g' : Gap, ¬ g.chars ++ ("from".toList ++ g'.chars) <:+ l) ∧
      ∀ b : Blanks, ¬ "require(".toList ++ b.1 <:+ l := by
  have hgap (g : Gap) : ∃ c ∈ g.chars, c ∉ l := by
    obtain ⟨c, b, hg⟩ := List.exists_cons_of_ne_nil g.ne_nil
    have hc : c ∈ g.chars := by simp [hg]
    refine ⟨c, hc, fun hmem => ?_⟩
    have hblank := g.isBlank c hc
    rw [(h c hmem).1] at hblank
    cases hblank
  refine ⟨fun g hin => ?_, fun g g' hin => ?_, fun b hin => ?_⟩
  · obtain ⟨c, hc, hl⟩ := hgap g
    exact hl (hin.subset (List.mem_append_right _ hc))
  · obtain ⟨c, hc, hl⟩ := hgap g
    exact hl (hin.subset (List.mem_append_left _ hc))
  · exact (h '(' (hin.subset (List.mem_append_left _ (by decide)))).2 rfl

/-- The first import is found on the line of the statement in front of it, the second one, in front
of which a semicolon stands, on its own. -/
theorem imports_of_styles :
    ∃ (f : SourceFile) (lines : List Line), f.content = String.ofList (writeAll lines) ∧
      f.content = "import './a.css'\nimport x from 'b'\nimport \"c\";\nimport {y} from \"d\";\n" ∧
      (∀ l ∈ lines.dropLast, '\n' ∈ l.trail.1) ∧
      lineFeeds (writeAll lines) + 1 < Bits.limit32 ∧ ¬ Apart lines ∧
      (imports f).map (fun s => (s.name, s.startLine)) = [("b", some 1), ("d", some 4)] := by
  let space : Gap := ⟨[' '], forall_mem_of_all (by decide), by decide⟩
  let feed : Blanks := ⟨['\n'], forall_mem_of_all (by decide)⟩
  let nothing : Blanks := ⟨[], by simp⟩
  let single : Quote := ⟨'\'', by decide⟩
  let double : Quote := ⟨'"', by decide⟩
  let a : Quiet :=
    have h := isQuiet_of_all (l := "./a.css".toList) (forall_mem_of_all (by decide))
    ⟨"./a.css".toList, forall_mem_of_all (by decide), h.1, h.2.1, h.2.2⟩
  let c : Quiet :=
    have h := isQuiet_of_all (l := "c".toList) (forall_mem_of_all (by decide))
    ⟨"c".toList, forall_mem_of_all (by decide), h.1, h.2.1, h.2.2⟩
  let b : Module := ⟨"b".toList, forall_mem_of_all (by decide), by decide⟩
  let d : Module := ⟨"d".toList, forall_mem_of_all (by decide), by decide⟩
  let x : Names := ⟨"x".toList, forall_mem_of_all (by decide), by decide, by decide,
    by rintro c ⟨⟩; decide, by rintro c ⟨⟩; decide⟩
  let y : Names := ⟨"{y}".toList, forall_mem_of_all (by decide), by decide, by decide,
    by rintro c ⟨⟩; decide, by rintro c ⟨⟩; decide⟩
  let lines : List Line := [⟨nothing, .plain space single a, none, feed⟩,
    ⟨nothing, .binding space x space space single b, none, feed⟩,
    ⟨nothing, .plain space double c, some nothing, feed⟩,
    ⟨nothing, .binding space y space space double d, some nothing, feed⟩]
  let f : SourceFile := ⟨"r", "r:a.js", "/w/a.js", String.ofList (writeAll lines)⟩
  have hcontent : f.content = String.ofList (writeAll lines) := rfl
  obtain ⟨-, himports, -, -⟩ := imports_of_script f hcontent
  refine ⟨f, lines, hcontent, by decide, by decide, by decide, fun h => ?_, ?_⟩
  · cases (List.isChain_cons_cons.1 h).1 rfl rfl
  · rw [himports]
    decide

end CodeGraph.Script
