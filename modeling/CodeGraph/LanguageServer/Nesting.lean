import CodeGraph.LanguageServer.Symbol

/-!
# Nesting an outline

An outline without nesting names the container of each symbol. `nest` rebuilds the tree: the parent
of a symbol is the innermost symbol that encloses its lines and that its container names. The
symbols lie in slots, one for each place, and are taken out of them one after the other, each with
what is below it. A slot that is empty has been visited, which is why the steps end.
-/

namespace CodeGraph.LanguageServer

/-- The number of lines a symbol spans after its first one, none if it ends before it starts. -/
def ReportedSymbol.span (s : ReportedSymbol) : Nat := s.endLine - s.startLine

/-- Whether a container is the symbol with this name, or ends in the name after a dot. -/
def namesContainer (container name : List Char) : Bool :=
  container == name || ('.' :: name).isSuffixOf container

/-- Whether the symbol at place `j` may be the parent of the symbol at place `i`. -/
def mayContain (flat : List ReportedSymbol) (i j : Nat) : Bool :=
  match flat[i]?, flat[j]? with
  | some child, some parent =>
    (child.span < parent.span || (child.span == parent.span && j < i))
      && parent.startLine ≤ child.startLine && child.endLine ≤ parent.endLine
      && match child.containerName with
        | some container => container != "" && namesContainer container.toList parent.name.toList
        | none => false
  | _, _ => false

/-- The symbol with the smallest span, the last of several. -/
def innermost? (flat : List ReportedSymbol) : List Nat → Option Nat
  | [] => none
  | i :: rest =>
    match innermost? flat rest with
    | none => some i
    | some j =>
      match flat[i]?, flat[j]? with
      | some s, some t => if t.span ≤ s.span then some j else some i
      | _, _ => some j

/-- The place of the parent of the symbol at place `i`. -/
def parent? (flat : List ReportedSymbol) (i : Nat) : Option Nat :=
  innermost? flat ((List.range flat.length).filter (mayContain flat i))

/-- The places of the symbols whose parent stands at place `i`. -/
def childPlaces (flat : List ReportedSymbol) (i : Nat) : List Nat :=
  (List.range flat.length).filter fun j => parent? flat j = some i

/-- The places of the symbols without a parent. -/
def rootPlaces (flat : List ReportedSymbol) : List Nat :=
  (List.range flat.length).filter fun i => parent? flat i = none

/-- The symbols at their places, apart from those that have been taken. -/
abbrev Slots := List (Option ReportedSymbol)

/-- The number of symbols that are still there. -/
def Slots.left (slots : Slots) : Nat := slots.countP Option.isSome

theorem Slots.left_set_lt {slots : Slots} {i : Nat} {s : ReportedSymbol}
    (h : slots[i]? = some (some s)) : Slots.left (slots.set i none) < slots.left := by
  obtain ⟨hi, hs⟩ := List.getElem?_eq_some_iff.1 h
  have hpos : 0 < slots.left := List.countP_pos_iff.2 ⟨some s, hs ▸ List.getElem_mem hi, rfl⟩
  unfold left at hpos ⊢
  rw [List.countP_set hi, hs]
  simp only [Option.isSome_some, Option.isSome_none, if_true, Bool.false_eq_true, if_false]
  omega

mutual

/-- Takes the symbol at a place, with what is below it. -/
def assemble (below : Nat → List Nat) (i : Nat) (slots : Slots) :
    Option ReportedSymbol × { rest : Slots // rest.left ≤ slots.left } :=
  match h : slots[i]? with
  | some (some s) =>
    let (children, rest) := assembleAll below (below i) (slots.set i none)
    (some { s with children }, ⟨rest, Nat.le_trans rest.2 (Nat.le_of_lt (Slots.left_set_lt h))⟩)
  | _ => (none, ⟨slots, Nat.le_refl _⟩)
termination_by (slots.left, 0)
decreasing_by exact Prod.Lex.left _ _ (Slots.left_set_lt h)

/-- Takes the symbols at some places in turn. Where there is none any more, nothing is taken. -/
def assembleAll (below : Nat → List Nat) (places : List Nat) (slots : Slots) :
    List ReportedSymbol × { rest : Slots // rest.left ≤ slots.left } :=
  match places with
  | [] => ([], ⟨slots, Nat.le_refl _⟩)
  | i :: places =>
    let (s, rest) := assemble below i slots
    let (siblings, rest') := assembleAll below places rest
    (s.toList ++ siblings, ⟨rest', Nat.le_trans rest'.2 rest.2⟩)
termination_by (slots.left, places.length + 1)
decreasing_by
  · exact Prod.Lex.right _ (Nat.succ_pos _)
  · rcases Nat.lt_or_eq_of_le rest.2 with hlt | heq
    · exact Prod.Lex.left _ _ hlt
    · rw [heq]
      exact Prod.Lex.right _ (Nat.lt_succ_self _)

end

/-- The trees of an outline that is not nested. -/
def nest (flat : List ReportedSymbol) : List ReportedSymbol :=
  (assembleAll (childPlaces flat) (rootPlaces flat) (flat.map some)).1

end CodeGraph.LanguageServer
