import CodeGraph.LanguageServer.Declare
import Mathlib.Data.List.TakeWhile

/-!
# Declarations by offsets in bytes

The definitions take texts apart into what stands before a place and what stands after it. A program
that has the places as offsets in bytes cuts the texts there, and that can fail: an offset may lie
outside the text or inside a character, a sum may be too large. `toDeclarationsAt` makes the
declarations of an outline in this way, with every cut and every sum checked. It finds the same
declarations, and a line without a next one is all that stops it (`toDeclarationsAt_eq`).
-/

namespace CodeGraph

namespace Text

/-- What stops a program that counts and cuts. -/
inductive Fault where
  /-- A number is too large. -/
  | overflow
  /-- A text is cut outside it or inside a character, or a list beyond its end. -/
  | slice
deriving DecidableEq, Repr

/-- An answer that is missing where a number is too large. -/
def Fault.orOverflow {α : Type} (o : Option α) : Except Fault α :=
  match o with
  | some a => .ok a
  | none => .error .overflow

theorem Fault.ok_bind {α β : Type} (a : α) (f : α → Except Fault β) : Except.ok a >>= f = f a := rfl

theorem Fault.orOverflow_bind {α β : Type} (o : Option α) (f : α → Option β) :
    Fault.orOverflow (o >>= f) = Fault.orOverflow o >>= fun a => Fault.orOverflow (f a) := by
  cases o <;> rfl

theorem Fault.mapM_orOverflow {α β : Type} (f : α → Option β) (l : List α) :
    (l.mapM fun a => Fault.orOverflow (f a)) = Fault.orOverflow (l.mapM f) := by
  induction l with
  | nil => rfl
  | cons a l ih =>
    rw [List.mapM_cons, List.mapM_cons, ih]
    simp only [Fault.orOverflow_bind]
    rfl

/-- The text before an offset and the text from it on. -/
def cut (l : List Char) (n : Nat) : Except Fault (List Char × List Char) :=
  match splitAtByte? l n with
  | some parts => .ok parts
  | none => .error .slice

/-- The sum of two offsets into a text. Numbers that hold the length of the text may hold nothing
larger. -/
def addOffset (l : List Char) (m n : Nat) : Except Fault Nat :=
  if m + n ≤ utf8Length l then .ok (m + n) else .error .overflow

def firstLines (lines : List (List Char)) (n : Nat) : Except Fault (List (List Char)) :=
  if n ≤ lines.length then .ok (lines.take n) else .error .slice

/-- The offset of the first place from which on the text has a property. -/
def firstPlace? (holds : List Char → Bool) : List Char → Option Nat
  | [] => none
  | c :: l => if holds (c :: l) then some 0 else (firstPlace? holds l).map (c.utf8Size + ·)

/-- The offset of the last place from which on the text has a property. -/
def lastPlace? (holds : List Char → Bool) : List Char → Option Nat
  | [] => none
  | c :: l =>
    ((lastPlace? holds l).map (c.utf8Size + ·)).or (if holds (c :: l) then some 0 else none)

def startsWith (p : Char → Bool) (l : List Char) : Bool := l.head?.any p

/-- Looks for the word `w :: ws` from offset `search` on, as `findWordFrom` does. -/
def findWordFromAt (line : List Char) (w : Char) (ws : List Char) (search : Nat) :
    Except Fault (Option Nat) :=
  match splitAtByte? line search with
  | none => .ok none
  | some (_, rest) =>
    match firstPlace? (fun l => (after? (w :: ws) l).isSome) rest with
    | none => .ok none
    | some n =>
      if _ : search + n + utf8Length (w :: ws) ≤ utf8Length line then do
        let (before, _) ← cut line (search + n)
        let (_, after) ← cut line (search + n + utf8Length (w :: ws))
        if bordersWord before.reverse && bordersWord after then return some (search + n)
        else findWordFromAt line w ws (search + n + utf8Length (w :: ws))
      else .error .overflow
termination_by utf8Length line - search
decreasing_by
  have := w.utf8Size_pos
  simp only [utf8Length_cons] at *
  omega

def findWordAt (line word : List Char) (search : Nat) : Except Fault (Option Nat) :=
  match word with
  | [] => .ok none
  | w :: ws => findWordFromAt line w ws search

/-! ## Places -/

variable {l m : List Char} {c : Char} {p : Char → Bool}

theorem cut_append (l m : List Char) : cut (l ++ m) (utf8Length l) = .ok (l, m) := by
  rw [cut, splitAtByte?_append]

theorem addOffset_one (l m : List Char) (hc : c.utf8Size = 1) :
    addOffset (l ++ c :: m) (utf8Length l) 1 = .ok (utf8Length (l ++ [c])) := by
  unfold addOffset
  simp only [utf8Length_append, utf8Length_cons, utf8Length_nil, hc]
  rw [if_pos (by omega)]

theorem cut_behind (l m : List Char) (c : Char) :
    cut (l ++ c :: m) (utf8Length (l ++ [c])) = .ok (l ++ [c], m) := by
  rw [← cut_append, List.append_assoc, List.singleton_append]

theorem firstPlace?_of_none (h : ∀ c ∈ l, p c = false) : firstPlace? (startsWith p) l = none := by
  induction l with
  | nil => rfl
  | cons d l ih =>
    rw [List.forall_mem_cons] at h
    simp [firstPlace?, startsWith, h.1, ih h.2]

theorem firstPlace?_append (h : ∀ c ∈ l, p c = false) (hc : p c = true) :
    firstPlace? (startsWith p) (l ++ c :: m) = some (utf8Length l) := by
  induction l with
  | nil => simp [firstPlace?, startsWith, hc]
  | cons d l ih =>
    rw [List.forall_mem_cons] at h
    simp [firstPlace?, startsWith, h.1, ih h.2]

theorem lastPlace?_of_none (h : ∀ c ∈ l, p c = false) : lastPlace? (startsWith p) l = none := by
  induction l with
  | nil => rfl
  | cons d l ih =>
    rw [List.forall_mem_cons] at h
    simp [lastPlace?, startsWith, h.1, ih h.2]

theorem lastPlace?_append (hc : p c = true) (h : ∀ c ∈ m, p c = false) :
    lastPlace? (startsWith p) (l ++ c :: m) = some (utf8Length l) := by
  induction l with
  | nil => simp [lastPlace?, lastPlace?_of_none h, startsWith, hc]
  | cons d l ih => simp [lastPlace?, ih]

theorem lastPlace?_append_of_none (h : ∀ c ∈ m, p c = false) :
    ∀ l : List Char, lastPlace? (startsWith p) (l ++ m) = lastPlace? (startsWith p) l
  | [] => lastPlace?_of_none h
  | c :: l => by
    rw [List.cons_append, lastPlace?, lastPlace?, lastPlace?_append_of_none h l]
    rfl

theorem lt_of_lastPlace? {holds : List Char → Bool} : ∀ {l : List Char} {n : Nat},
    lastPlace? holds l = some n → n < utf8Length l
  | [], _, h => by cases h
  | c :: l, n, h => by
    have hc := c.utf8Size_pos
    rw [lastPlace?, Option.or_eq_some_iff] at h
    rw [utf8Length_cons]
    rcases h with h | ⟨-, h⟩
    · obtain ⟨m, hm, rfl⟩ := Option.map_eq_some_iff.1 h
      exact Nat.add_lt_add_left (lt_of_lastPlace? hm) _
    · obtain ⟨-, h⟩ := Option.ite_none_right_eq_some.1 h
      obtain rfl := Option.some_inj.1 h
      omega

theorem exists_first (h : ∃ c ∈ l, p c = true) :
    ∃ before c after, l = before ++ c :: after ∧ p c = true ∧ ∀ d ∈ before, p d = false := by
  obtain ⟨c, hc⟩ := Option.isSome_iff_exists.1 (List.find?_isSome.2 h)
  obtain ⟨hp, before, after, hl, hbefore⟩ := List.find?_eq_some_iff_append.1 hc
  exact ⟨before, c, after, hl, hp, by simpa using hbefore⟩

theorem exists_last (h : ∃ c ∈ l, p c = true) :
    ∃ before c after, l = before ++ c :: after ∧ p c = true ∧ ∀ d ∈ after, p d = false := by
  obtain ⟨after, c, before, hl, hp, hafter⟩ := exists_first (l := l.reverse) (p := p) (by simpa)
  refine ⟨before.reverse, c, after.reverse, ?_, hp, by simpa using hafter⟩
  rw [← List.reverse_reverse l, hl]
  simp

/-! ## Words -/

section Words

variable {w : Char} {ws rest after : List Char}

theorem findWordFrom_of_no_place : ∀ {rest : List Char},
    firstPlace? (fun l => (after? (w :: ws) l).isSome) rest = none →
    ∀ before, findWordFrom w ws before rest = none
  | [], _, before => findWordFrom_nil before
  | c :: rest, h, before => by
    rw [firstPlace?] at h
    cases hafter : after? (w :: ws) (c :: rest) with
    | some after => simp [hafter] at h
    | none =>
      simp only [hafter, Option.isSome_none, Bool.false_eq_true, if_false,
        Option.map_eq_none_iff] at h
      rw [findWordFrom_cons hafter, findWordFrom_of_no_place h]

/-- The search passes over the text before the first occurrence. -/
theorem findWordFrom_of_place : ∀ {rest : List Char} {n : Nat},
    firstPlace? (fun l => (after? (w :: ws) l).isSome) rest = some n →
    ∃ skipped after, rest = skipped ++ (w :: ws ++ after) ∧ utf8Length skipped = n ∧
      ∀ before, findWordFrom w ws before rest =
        findWordFrom w ws (skipped.reverse ++ before) (w :: ws ++ after)
  | [], _, h => by simp [firstPlace?] at h
  | c :: rest, n, h => by
    rw [firstPlace?] at h
    cases hafter : after? (w :: ws) (c :: rest) with
    | some after =>
      simp only [hafter, Option.isSome_some, if_true, Option.some.injEq] at h
      rw [after?_eq_some_iff.1 hafter]
      exact ⟨[], after, rfl, h, fun before => rfl⟩
    | none =>
      simp only [hafter, Option.isSome_none, Bool.false_eq_true, if_false,
        Option.map_eq_some_iff] at h
      obtain ⟨m, hm, rfl⟩ := h
      obtain ⟨skipped, after, rfl, rfl, hsearch⟩ := findWordFrom_of_place hm
      refine ⟨c :: skipped, after, rfl, rfl, fun before => ?_⟩
      rw [findWordFrom_cons hafter, hsearch, List.reverse_cons, List.append_assoc,
        List.singleton_append]

/-- The two searches find the same place, as the text before it and as its offset. -/
theorem findWordFromAt_eq {line : List Char} {search : Nat} (before rest : List Char)
    (hline : line = before.reverse ++ rest) (hsearch : search = utf8Length before) :
    findWordFromAt line w ws search =
      .ok ((findWordFrom w ws before rest).map fun found => utf8Length found.1) := by
  have hhere : splitAtByte? line search = some (before.reverse, rest) := by
    rw [hline, hsearch, ← utf8Length_reverse, splitAtByte?_append]
  rw [findWordFromAt, hhere]
  dsimp only
  cases hplace : firstPlace? (fun l => (after? (w :: ws) l).isSome) rest with
  | none =>
    rw [findWordFrom_of_no_place hplace]
    rfl
  | some n =>
    obtain ⟨skipped, after, rfl, rfl, hfound⟩ := findWordFrom_of_place hplace
    have hstart : search + utf8Length skipped = utf8Length (skipped.reverse ++ before) := by
      simp only [hsearch, utf8Length_append, utf8Length_reverse]
      omega
    have hstop : search + utf8Length skipped + utf8Length (w :: ws) =
        utf8Length ((w :: ws).reverse ++ (skipped.reverse ++ before)) := by
      simp only [hsearch, utf8Length_append, utf8Length_reverse]
      omega
    have hline' : line = ((w :: ws).reverse ++ (skipped.reverse ++ before)).reverse ++ after := by
      rw [hline]
      simp
    have hlong : search + utf8Length skipped + utf8Length (w :: ws) ≤ utf8Length line := by
      simp only [hstop, hline', utf8Length_append, utf8Length_reverse]
      omega
    have hcut : cut line (search + utf8Length skipped) =
        .ok ((skipped.reverse ++ before).reverse, w :: ws ++ after) := by
      rw [hstart, ← utf8Length_reverse, hline, List.reverse_append, List.reverse_reverse,
        ← List.append_assoc, cut_append]
    have hcut' : cut line (search + utf8Length skipped + utf8Length (w :: ws)) =
        .ok (((w :: ws).reverse ++ (skipped.reverse ++ before)).reverse, after) := by
      rw [hstop, ← utf8Length_reverse, hline', cut_append]
    -- after a match inside an identifier both go on behind it
    have ih := findWordFromAt_eq _ after hline' hstop
    dsimp only
    rw [dif_pos hlong, hfound, findWordFrom_of_after? (after?_eq_some_iff.2 rfl), hcut, hcut', ih,
      hstart]
    show (if bordersWord (skipped.reverse ++ before).reverse.reverse && bordersWord after then _
      else _) = _
    rw [List.reverse_reverse]
    split <;> rfl
termination_by rest.length
decreasing_by
  subst_vars
  simp only [List.length_append, List.length_cons]
  omega

theorem findWordAt_eq {line before rest : List Char} {search : Nat}
    (h : splitAtByte? line search = some (before, rest)) (word : List Char) :
    findWordAt line word search =
      .ok ((findWord word before.reverse rest).map fun found => utf8Length found.1) := by
  obtain ⟨hline, hsearch⟩ := splitAtByte?_eq_some_iff.1 h
  cases word with
  | nil => rfl
  | cons w ws =>
    exact findWordFromAt_eq _ rest (by rwa [List.reverse_reverse])
      (by rwa [utf8Length_reverse])

end Words

end Text

namespace LanguageServer

open Text

/-! ## Parameters -/

/-- Takes `Name(int, string)` apart as `splitParameters` does. -/
def splitParametersAt (text : List Char) : Except Fault (List Char × Option (List Char)) :=
  match firstPlace? (startsWith (· == '(')) text, lastPlace? (startsWith (· == ')')) text with
  | some start, some stop =>
    if start < stop then do
      let (head, _) ← cut text start
      let (front, _) ← cut text (← addOffset text stop 1)
      let (_, parameters) ← cut front start
      return (((trimChars head).reverse.takeWhile (!isBlank ·)).reverse, some parameters)
    else return (trimChars text, none)
  | _, _ => return (trimChars text, none)

theorem splitParameters_append {head inner rest : List Char}
    (hhead : ∀ c ∈ head, (c == '(') = false) (hrest : ∀ c ∈ rest, (c == ')') = false) :
    splitParameters (head ++ '(' :: (inner ++ ')' :: rest)) =
      (((trimChars head).reverse.takeWhile (!isBlank ·)).reverse,
        some ('(' :: (inner ++ [')']))) := by
  have hfront : ∀ c ∈ head, decide (c ≠ '(') = true := by simpa using hhead
  have hback : ∀ c ∈ rest.reverse, decide (c ≠ ')') = true := by simpa using hrest
  have hparameters : (('(' :: (inner ++ ')' :: rest)).reverse.dropWhile (· ≠ ')')).reverse =
      '(' :: (inner ++ [')']) := by
    rw [List.reverse_cons, List.reverse_append, List.reverse_cons, List.append_assoc,
      List.append_assoc, List.dropWhile_append_of_pos hback]
    simp
  unfold splitParameters
  rw [List.takeWhile_append_of_pos hfront, List.dropWhile_append_of_pos hfront,
    List.takeWhile_cons_of_neg (by simp), List.dropWhile_cons_of_neg (by simp), List.append_nil]
  dsimp only
  rw [if_pos (by simp), hparameters]

theorem splitParameters_of_not_mem {text : List Char} (h : ')' ∉ text.dropWhile (· ≠ '(')) :
    splitParameters text = (trimChars text, none) := by
  unfold splitParameters
  dsimp only
  rw [if_neg (by simpa using h)]

theorem splitParametersAt_append {head inner rest : List Char}
    (hhead : ∀ c ∈ head, (c == '(') = false) (hrest : ∀ c ∈ rest, (c == ')') = false) :
    splitParametersAt (head ++ '(' :: (inner ++ ')' :: rest)) =
      .ok (((trimChars head).reverse.takeWhile (!isBlank ·)).reverse,
        some ('(' :: (inner ++ [')']))) := by
  have hstart : firstPlace? (startsWith (· == '(')) (head ++ '(' :: (inner ++ ')' :: rest)) =
      some (utf8Length head) := firstPlace?_append hhead rfl
  have hstop : lastPlace? (startsWith (· == ')')) ((head ++ '(' :: inner) ++ ')' :: rest) =
      some (utf8Length (head ++ '(' :: inner)) := lastPlace?_append rfl hrest
  have hsum := addOffset_one (c := ')') (head ++ '(' :: inner) rest rfl
  have hcut := cut_behind (head ++ '(' :: inner) rest ')'
  have hlt : utf8Length head < utf8Length (head ++ '(' :: inner) := by
    have := '('.utf8Size_pos
    rw [utf8Length_append, utf8Length_cons]
    omega
  simp only [List.append_assoc, List.cons_append] at hstop hsum hcut
  rw [splitParametersAt, hstart, hstop]
  dsimp only
  simp only [if_pos hlt, hsum, hcut, cut_append, Fault.ok_bind]
  rfl

theorem splitParametersAt_eq (text : List Char) :
    splitParametersAt text = .ok (splitParameters text) := by
  by_cases hopen : '(' ∈ text
  · obtain ⟨head, c, tail, rfl, hc, hhead⟩ := exists_first (p := (· == '(')) ⟨'(', hopen, rfl⟩
    obtain rfl := eq_of_beq hc
    by_cases hclose : ')' ∈ tail
    · obtain ⟨inner, c, rest, rfl, hc, hrest⟩ := exists_last (p := (· == ')')) ⟨')', hclose, rfl⟩
      obtain rfl := eq_of_beq hc
      rw [splitParameters_append hhead hrest, splitParametersAt_append hhead hrest]
    · have hfront : ∀ c ∈ head, decide (c ≠ '(') = true := by simpa using hhead
      have htail : ∀ c ∈ '(' :: tail, (c == ')') = false := by
        rw [List.forall_mem_cons]
        exact ⟨rfl, fun c hc => beq_eq_false_iff_ne.2 (ne_of_mem_of_not_mem hc hclose)⟩
      rw [splitParameters_of_not_mem, splitParametersAt, firstPlace?_append hhead rfl,
        lastPlace?_append_of_none htail]
      · -- a closing parenthesis can only stand before the opening one
        cases hlast : lastPlace? (startsWith (· == ')')) head with
        | none => rfl
        | some n =>
          have := lt_of_lastPlace? hlast
          dsimp only
          rw [if_neg (by omega)]
          rfl
      · rw [List.dropWhile_append_of_pos hfront, List.dropWhile_cons_of_neg (by simp)]
        simpa using hclose
  · have hnone : ∀ c ∈ text, (c == '(') = false :=
      fun c hc => beq_eq_false_iff_ne.2 (ne_of_mem_of_not_mem hc hopen)
    rw [splitParameters_of_not_mem, splitParametersAt, firstPlace?_of_none hnone]
    · rfl
    · rw [List.dropWhile_eq_nil_iff.2 (by simpa using hnone)]
      exact List.not_mem_nil

/-! ## Modifiers -/

/-- The text behind the last bracket or semicolon. -/
def clauseAt (before : List Char) : Except Fault (List Char) :=
  match lastPlace? (startsWith endsClause) before with
  | none => .ok before
  | some n => do
    let (_, clause) ← cut before (← addOffset before n 1)
    return clause

/-- The place of the name on its line. -/
def nameAt (line : List Char) (column : Nat) (name : List Char) : Except Fault (Option Nat) := do
  let start := if (splitAtByte? line column).isSome then column else 0
  return (← findWordAt line name start).or (← findWordAt line name 0)

def declaredAccessibilityAt (line : List Char) (column : Nat) (name : List Char) :
    Except Fault (Option Accessibility) := do
  match ← nameAt line column name with
  | none => return none
  | some place =>
    let (before, _) ← cut line place
    return accessibilityOf? (words (← clauseAt before))

theorem findWordAt_zero (line word : List Char) :
    findWordAt line word 0 =
      .ok (((findWord word [] line).map (·.1)).map utf8Length) := by
  have hstart : splitAtByte? line 0 = some ([], line) := by cases line <;> rfl
  rw [findWordAt_eq hstart, Option.map_map]
  rfl

theorem reverse_append_of_beforeName? {line name before : List Char} {column : Nat}
    (h : beforeName? line column name = some before) : ∃ after, line = before.reverse ++ after := by
  have hstart : ∀ before', (findWord name [] line).map (·.1) = some before' →
      ∃ after, line = before'.reverse ++ after := by
    intro before' h'
    obtain ⟨⟨_, after⟩, hfound, rfl⟩ := Option.map_eq_some_iff.1 h'
    exact ⟨name ++ after, append_of_findWord hfound⟩
  unfold beforeName? at h
  dsimp only at h
  cases hsplit : splitAtByte? line column with
  | none =>
    rw [hsplit] at h
    exact hstart before h
  | some parts =>
    obtain ⟨front, rest⟩ := parts
    rw [hsplit, Option.or_eq_some_iff] at h
    rcases h with h | ⟨-, h⟩
    · obtain ⟨⟨_, after⟩, hfound, rfl⟩ := Option.map_eq_some_iff.1 h
      have happend := append_of_findWord hfound
      rw [List.reverse_reverse, ← (splitAtByte?_eq_some_iff.1 hsplit).1] at happend
      exact ⟨name ++ after, happend⟩
    · exact hstart before h

theorem clauseAt_eq (before : List Char) :
    clauseAt before.reverse = .ok (before.takeWhile (!endsClause ·)).reverse := by
  by_cases hmem : ∃ c ∈ before.reverse, endsClause c = true
  · obtain ⟨front, c, clause, hbefore, hc, hclause⟩ := exists_last hmem
    have hbyte : c.utf8Size = 1 := by
      simp only [endsClause, Bool.or_eq_true, beq_iff_eq] at hc
      rcases hc with ((rfl | rfl) | rfl) | rfl <;> rfl
    have htake : before.takeWhile (!endsClause ·) = clause.reverse := by
      have hstay : ∀ c ∈ clause.reverse, (!endsClause c) = true := by simpa using hclause
      rw [← List.reverse_reverse before, hbefore, List.reverse_append, List.reverse_cons,
        List.append_assoc, List.takeWhile_append_of_pos hstay, List.singleton_append,
        List.takeWhile_cons_of_neg (by simp [hc]), List.append_nil]
    rw [clauseAt, hbefore, lastPlace?_append hc hclause, htake, List.reverse_reverse]
    simp only [addOffset_one front clause hbyte, cut_behind, Fault.ok_bind]
    rfl
  · have hstay : ∀ c ∈ before.reverse, endsClause c = false := by simpa using hmem
    rw [clauseAt, lastPlace?_of_none hstay, List.takeWhile_eq_self_iff.2 (by simpa using hstay)]

theorem nameAt_eq (line : List Char) (column : Nat) (name : List Char) :
    nameAt line column name = .ok ((beforeName? line column name).map utf8Length) := by
  unfold nameAt beforeName?
  dsimp only
  cases hsplit : splitAtByte? line column with
  | none =>
    rw [Option.isSome_none, if_neg Bool.false_ne_true, findWordAt_zero, Fault.ok_bind,
      Fault.ok_bind, Option.or_self]
    rfl
  | some parts =>
    obtain ⟨before, rest⟩ := parts
    rw [Option.isSome_some, if_pos rfl, findWordAt_zero, findWordAt_eq hsplit, Fault.ok_bind,
      Fault.ok_bind, Option.map_or, Option.map_map, Option.map_map]
    rfl

theorem declaredAccessibilityAt_eq (line : List Char) (column : Nat) (name : List Char) :
    declaredAccessibilityAt line column name = .ok (declaredAccessibility? line column name) := by
  unfold declaredAccessibilityAt declaredAccessibility?
  rw [nameAt_eq, Fault.ok_bind]
  cases hbefore : beforeName? line column name with
  | none => rfl
  | some before =>
    obtain ⟨after, rfl⟩ := reverse_append_of_beforeName? hbefore
    rw [Option.map_some, ← utf8Length_reverse]
    simp only [cut_append, clauseAt_eq, Fault.ok_bind]
    rfl

/-! ## Declarations -/

/-- The documentation comment above a line, which may stand behind the last one. -/
def documentationAt (lines : List (List Char)) (line : Nat) : Except Fault (Option String) := do
  let above ← firstLines lines (min line lines.length)
  return documentationAbove above above.length

theorem documentationAt_eq (lines : List (List Char)) (line : Nat) :
    documentationAt lines line = .ok (documentationAbove lines line) := by
  have htake : lines.take (min line lines.length) = lines.take line :=
    List.take_eq_take_iff.2 (by omega)
  rw [documentationAt, firstLines, if_pos (Nat.min_le_right _ _), htake, Fault.ok_bind]
  unfold documentationAbove
  rw [List.take_length]
  rfl

def parametersAt (inName : Option (List Char)) (detail : Option String) : Except Fault String := do
  let inDetail ← match detail with
    | some d => (·.2) <$> splitParametersAt d.toList
    | none => .ok none
  return match inName.or inDetail with
    | some parameters => String.ofList parameters
    | none => "()"

def signatureAt (declared : SymbolKind) (qualifiedName : String) (inName : Option (List Char))
    (detail : Option String) : Except Fault String := do
  if isCallable declared then return qualifiedName ++ (← parametersAt inName detail)
  else return qualifiedName

theorem parametersAt_eq (s : ReportedSymbol) :
    parametersAt (splitParameters s.name.toList).2 s.detail = .ok (parametersOf s) := by
  unfold parametersAt parametersOf
  cases s.detail with
  | none => rfl
  | some d =>
    dsimp only
    rw [splitParametersAt_eq]
    rfl

theorem signatureAt_eq (declared : SymbolKind) (qualifiedName : String) (s : ReportedSymbol) :
    signatureAt declared qualifiedName (splitParameters s.name.toList).2 s.detail =
      .ok (if isCallable declared then qualifiedName ++ parametersOf s else qualifiedName) := by
  rw [signatureAt, parametersAt_eq]
  split <;> rfl

mutual

/-- The declaration that a symbol makes, as `declare` finds it. -/
def declareAt (lines : List (List Char)) (scope : String) (parent : Option SymbolKind) :
    ReportedSymbol → Except Fault (List Declaration)
  | ⟨reported, kind, detail, _, startLine, endLine, startColumn, children⟩ =>
    match kind.declared? with
    | none => .ok []
    | some declared => do
      let (name, inName) ← splitParametersAt reported.toList
      let qualifiedName := qualify scope (String.ofList name)
      let signature ← signatureAt declared qualifiedName inName detail
      let written ← declaredAccessibilityAt (lines.getD startLine []) startColumn name
      let children ← declareAllAt lines qualifiedName (some declared) children
      return [{
        name := String.ofList name
        kind := declared
        qualifiedName
        signature
        accessibility := written.getD (defaultAccessibility declared parent)
        startLine := ← Fault.orOverflow (nextLine? startLine)
        endLine := ← Fault.orOverflow (nextLine? endLine)
        documentation := ← documentationAt lines startLine
        children }]

def declareAllAt (lines : List (List Char)) (scope : String) (parent : Option SymbolKind) :
    List ReportedSymbol → Except Fault (List Declaration)
  | [] => .ok []
  | s :: rest => do
    return (← declareAt lines scope parent s) ++ (← declareAllAt lines scope parent rest)

end

def toDeclarationsAt (symbols : List ReportedSymbol) (content : String) :
    Except Fault (List Declaration) := do
  let lines := splitLines content
  let found ← symbols.mapM fun s => declareAt lines (s.containerName.getD "") none s
  return found.flatten

mutual

theorem declareAt_eq (lines : List (List Char)) (scope : String) (parent : Option SymbolKind) :
    ∀ s : ReportedSymbol, declareAt lines scope parent s =
      Fault.orOverflow (declare lines scope parent s)
  | ⟨reported, kind, detail, container, startLine, endLine, startColumn, children⟩ => by
    rw [declareAt, declare]
    cases hkind : kind.declared? with
    | none => rfl
    | some declared =>
      have hsignature := fun name => signatureAt_eq declared name
        ⟨reported, kind, detail, container, startLine, endLine, startColumn, []⟩
      have ih := fun name => declareAllAt_eq lines name (some declared) children
      dsimp only at hsignature
      simp only [splitParametersAt_eq, declaredAccessibilityAt_eq, documentationAt_eq,
        Fault.ok_bind, hsignature, ih]
      -- what is left to fail are the numbers of lines, on both sides
      simp only [Fault.orOverflow_bind]
      rfl

theorem declareAllAt_eq (lines : List (List Char)) (scope : String) (parent : Option SymbolKind) :
    ∀ l : List ReportedSymbol, declareAllAt lines scope parent l =
      Fault.orOverflow (declareAll lines scope parent l)
  | [] => by
    rw [declareAllAt, declareAll]
    rfl
  | s :: rest => by
    rw [declareAllAt, declareAll, declareAt_eq lines scope parent s,
      declareAllAt_eq lines scope parent rest]
    simp only [Fault.orOverflow_bind]
    rfl

end

/-- Making declarations by offsets finds what is found without, and is stopped by nothing but a
number that is too large. -/
theorem toDeclarationsAt_eq (symbols : List ReportedSymbol) (content : String) :
    toDeclarationsAt symbols content = Fault.orOverflow (toDeclarations symbols content) := by
  unfold toDeclarationsAt toDeclarations
  simp only [declareAt_eq, Fault.mapM_orOverflow, Fault.orOverflow_bind]
  rfl

end LanguageServer

end CodeGraph
