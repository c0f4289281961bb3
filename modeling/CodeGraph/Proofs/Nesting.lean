import CodeGraph.LanguageServer.Nesting
import Mathlib.Data.List.Nodup
import Mathlib.Logic.Relation

/-!
# Nested outlines

The parent of a symbol is given by what a symbol must be to hold it, and which of those that do is
the innermost (`parent?_eq_some_iff`). Parents span more lines, or come first, so no way from symbol
to parent comes back. Two ways up from one symbol run along each other, hence what is below one
sibling is not below another, and a slot is never found empty: `nest` gives a forest in which every
place is met once (`nest_places`).
-/

namespace CodeGraph.LanguageServer

open Relation (ReflTransGen TransGen)

variable {flat : List ReportedSymbol} {i j k : Nat}

/-! ## Parents -/

def spanAt (flat : List ReportedSymbol) (i : Nat) : Nat := (flat[i]?.map (·.span)).getD 0

/-- The symbol at `j` spans more lines than the one at `i`, or as many and comes first. -/
def Wider (flat : List ReportedSymbol) (i j : Nat) : Prop :=
  spanAt flat i < spanAt flat j ∨ (spanAt flat i = spanAt flat j ∧ j < i)

/-- The symbol at `j` can hold the one at `i`: it is another symbol, it encloses the lines of the
first, its name is the container or what the container has after a dot, and it is wider. -/
def CanHold (flat : List ReportedSymbol) (i j : Nat) : Prop :=
  ∃ child parent container, flat[i]? = some child ∧ flat[j]? = some parent ∧ j ≠ i ∧
    parent.startLine ≤ child.startLine ∧ child.endLine ≤ parent.endLine ∧
    child.containerName = some container ∧ container ≠ "" ∧
    (container = parent.name ∨ ∃ qualifier, container = qualifier ++ "." ++ parent.name) ∧
    Wider flat i j

/-- Of the symbols that can hold the one at `i`, the one at `j` spans the fewest lines, and is the
last of those. -/
def IsParent (flat : List ReportedSymbol) (i j : Nat) : Prop :=
  CanHold flat i j ∧ ∀ k, CanHold flat i k →
    spanAt flat j < spanAt flat k ∨ (spanAt flat j = spanAt flat k ∧ k ≤ j)

theorem namesContainer_iff (container name : String) :
    namesContainer container.toList name.toList = true ↔
      container = name ∨ ∃ qualifier, container = qualifier ++ "." ++ name := by
  simp only [namesContainer, Bool.or_eq_true, beq_iff_eq, List.isSuffixOf_iff_suffix,
    String.toList_inj]
  refine or_congr_right ⟨fun ⟨q, hq⟩ => ⟨String.ofList q, ?_⟩, fun ⟨q, hq⟩ => ⟨q.toList, ?_⟩⟩
  · rw [← String.toList_inj, ← hq]
    simp
  · rw [hq]
    simp

theorem mayContain_iff : mayContain flat i j = true ↔ CanHold flat i j := by
  unfold mayContain CanHold Wider spanAt
  cases hi : flat[i]? with
  | none => simp
  | some child =>
    cases hj : flat[j]? with
    | none => simp
    | some parent =>
      cases hc : child.containerName with
      | none => simp [hc]
      | some container =>
        simp only [Bool.and_eq_true, Bool.or_eq_true, decide_eq_true_eq, beq_iff_eq, bne_iff_ne, hc,
          namesContainer_iff, Option.some.injEq, Option.map_some, Option.getD_some]
        constructor
        · rintro ⟨⟨⟨hwider, hstart⟩, hend⟩, hne, hname⟩
          have hother : j ≠ i := by
            rintro rfl
            rw [hi, Option.some.injEq] at hj
            subst hj
            omega
          exact ⟨child, parent, container, rfl, rfl, hother, hstart, hend, hc, hne, hname, hwider⟩
        · rintro ⟨c, p, n, rfl, rfl, -, hstart, hend, hn, hne, hname, hwider⟩
          rw [hc, Option.some.injEq] at hn
          subst hn
          exact ⟨⟨⟨hwider, hstart⟩, hend⟩, hne, hname⟩

theorem CanHold.lt_length (h : CanHold flat i j) : i < flat.length ∧ j < flat.length := by
  obtain ⟨_, _, _, hi, hj, -⟩ := h
  exact ⟨(List.getElem?_eq_some_iff.1 hi).1, (List.getElem?_eq_some_iff.1 hj).1⟩

theorem CanHold.wider (h : CanHold flat i j) : Wider flat i j := by
  obtain ⟨_, _, _, -, -, -, -, -, -, -, -, hwider⟩ := h
  exact hwider

theorem innermost?_eq_none {places : List Nat} (h : innermost? flat places = none) :
    places = [] := by
  cases places with
  | nil => rfl
  | cons i rest =>
    simp only [innermost?] at h
    split at h
    · simp at h
    · split at h
      · split at h <;> simp at h
      · simp at h

theorem innermost?_eq_some : ∀ {places : List Nat} {j : Nat}, places.Pairwise (· < ·) →
    (∀ i ∈ places, i < flat.length) → innermost? flat places = some j →
    j ∈ places ∧ ∀ k ∈ places,
      spanAt flat j < spanAt flat k ∨ (spanAt flat j = spanAt flat k ∧ k ≤ j)
  | [], j, _, _, h => by simp [innermost?] at h
  | i :: rest, j, hsorted, hin, h => by
    rw [List.pairwise_cons] at hsorted
    rw [List.forall_mem_cons] at hin
    simp only [innermost?] at h
    cases hrest : innermost? flat rest with
    | none =>
      simp only [hrest, Option.some.injEq] at h
      subst h
      simp [innermost?_eq_none hrest]
    | some l =>
      obtain ⟨hl, hleast⟩ := innermost?_eq_some hsorted.2 hin.2 hrest
      have hlen := hin.2 l hl
      have hi : flat[i]? = some flat[i] := List.getElem?_eq_getElem hin.1
      have hlast : flat[l]? = some flat[l] := List.getElem?_eq_getElem hlen
      have hil := hsorted.1 l hl
      have hspani : spanAt flat i = flat[i].span := by simp [spanAt, hi]
      have hspanl : spanAt flat l = flat[l].span := by simp [spanAt, hlast]
      simp only [hrest, hi, hlast, ← hspani, ← hspanl] at h
      split at h <;> simp only [Option.some.injEq] at h <;> subst h
      · refine ⟨List.mem_cons_of_mem _ hl, fun k hk => ?_⟩
        rcases List.mem_cons.1 hk with rfl | hk
        · omega
        · exact hleast k hk
      · refine ⟨List.mem_cons_self, fun k hk => ?_⟩
        rcases List.mem_cons.1 hk with rfl | hk
        · omega
        · have := hleast k hk
          omega

/-- The parent as the search finds it is the innermost symbol that can hold the one at `i`. -/
theorem parent?_eq_some_iff : parent? flat i = some j ↔ IsParent flat i j := by
  have hmem : ∀ k, k ∈ (List.range flat.length).filter (mayContain flat i) ↔ CanHold flat i k := by
    intro k
    rw [List.mem_filter, List.mem_range, mayContain_iff]
    exact and_iff_right_of_imp fun h => h.lt_length.2
  have hfound : ∀ j, parent? flat i = some j → IsParent flat i j := by
    intro j h
    have hsorted := (List.pairwise_lt_range (n := flat.length)).filter (mayContain flat i)
    obtain ⟨hj, hleast⟩ := innermost?_eq_some hsorted (fun k hk => ((hmem k).1 hk).lt_length.2) h
    exact ⟨(hmem j).1 hj, fun k hk => hleast k ((hmem k).2 hk)⟩
  refine ⟨hfound j, fun h => ?_⟩
  cases hp : parent? flat i with
  | none =>
    have hj := (hmem j).2 h.1
    rw [innermost?_eq_none hp] at hj
    cases hj
  | some k =>
    have hk := hfound k hp
    have h₁ := h.2 k hk.1
    have h₂ := hk.2 j h.1
    congr 1
    omega

theorem parent?_eq_none_iff : parent? flat i = none ↔ ∀ j, ¬ IsParent flat i j := by
  simp [Option.eq_none_iff_forall_ne_some, parent?_eq_some_iff]

/-! ## Ways up -/

/-- The parent of the symbol at `i` stands at `j`. -/
def Up (flat : List ReportedSymbol) (i j : Nat) : Prop := parent? flat i = some j

theorem Up.wider (h : Up flat i j) : Wider flat i j := (parent?_eq_some_iff.1 h).1.wider

theorem Up.lt_length (h : Up flat i j) : i < flat.length ∧ j < flat.length :=
  (parent?_eq_some_iff.1 h).1.lt_length

theorem wider_of_ups (h : TransGen (Up flat) i j) : Wider flat i j := by
  induction h with
  | single h => exact h.wider
  | tail _ h ih =>
    have := h.wider
    unfold Wider at *
    omega

theorem not_ups_self : ¬ TransGen (Up flat) i i := by
  intro h
  have := wider_of_ups h
  unfold Wider at this
  omega

/-- What is below two different siblings is different. -/
theorem eq_of_up_of_siblings {a b : Nat} (h : parent? flat a = parent? flat b)
    (ha : ReflTransGen (Up flat) k a) (hb : ReflTransGen (Up flat) k b) : a = b := by
  have hfirst : ∀ a b, parent? flat a = parent? flat b → ReflTransGen (Up flat) a b → a = b := by
    intro a b h hab
    rcases hab.cases_head with rfl | ⟨c, hac, hcb⟩
    · rfl
    · have hbc : Up flat b c := h.symm.trans hac
      exact absurd (TransGen.tail' hcb hbc) not_ups_self
  have hunique : Relator.RightUnique (Up flat) := fun x y z hy hz =>
    Option.some_inj.1 (hy.symm.trans hz)
  rcases ReflTransGen.total_of_right_unique hunique ha hb with hab | hba
  · exact hfirst a b h hab
  · exact (hfirst b a h.symm hba).symm

theorem spanAt_le (flat : List ReportedSymbol) (i : Nat) :
    spanAt flat i ≤ (flat.map (·.span)).max?.getD 0 := by
  unfold spanAt
  cases hi : flat[i]? with
  | none => exact Nat.zero_le _
  | some s => exact List.le_max?_getD_of_mem (List.mem_map_of_mem (List.mem_of_getElem? hi))

/-- Every way up ends at a root. -/
theorem exists_root (flat : List ReportedSymbol) (i : Nat) :
    ∃ r, ReflTransGen (Up flat) i r ∧ parent? flat r = none := by
  cases hp : parent? flat i with
  | none => exact ⟨i, .refl, hp⟩
  | some j =>
    obtain ⟨r, hway, hr⟩ := exists_root flat j
    exact ⟨r, .head hp hway, hr⟩
termination_by ((flat.map (·.span)).max?.getD 0 - spanAt flat i, i)
decreasing_by
  have hwider : Wider flat i j := Up.wider hp
  have hle := spanAt_le flat j
  rcases hwider with hlt | ⟨heq, hlt⟩
  · exact Prod.Lex.left _ _ (by omega)
  · rw [heq]
    exact Prod.Lex.right _ hlt

/-! ## Trees of places -/

/-- A tree of symbols with the places they come from. -/
inductive Placed where
  | node (place : Nat) (symbol : ReportedSymbol) (children : List Placed)

namespace Placed

def place : Placed → Nat
  | node place _ _ => place

def symbol : Placed → ReportedSymbol
  | node _ symbol _ => symbol

def children : Placed → List Placed
  | node _ _ children => children

mutual

/-- The tree and the ones below it. -/
def nodes : Placed → List Placed
  | node place symbol children => node place symbol children :: nodesOf children

def nodesOf : List Placed → List Placed
  | [] => []
  | t :: rest => t.nodes ++ nodesOf rest

end

mutual

/-- The tree without the places. -/
def outline : Placed → ReportedSymbol
  | node _ symbol children => { symbol with children := outlines children }

def outlines : List Placed → List ReportedSymbol
  | [] => []
  | t :: rest => t.outline :: outlines rest

end

theorem nodesOf_eq_flatMap : ∀ l : List Placed, nodesOf l = l.flatMap nodes
  | [] => rfl
  | t :: rest => by rw [nodesOf, nodesOf_eq_flatMap rest, List.flatMap_cons]

theorem outlines_eq_map : ∀ l : List Placed, outlines l = l.map outline
  | [] => rfl
  | t :: rest => by rw [outlines, outlines_eq_map rest, List.map_cons]

end Placed

theorem mem_childPlaces : j ∈ childPlaces flat i ↔ Up flat j i := by
  simp only [childPlaces, List.mem_filter, List.mem_range, decide_eq_true_eq]
  exact and_iff_right_of_imp fun h => Up.lt_length h |>.1

theorem childPlaces_wider (h : j ∈ childPlaces flat i) :
    Prod.Lex (· < ·) (· < ·) (spanAt flat j, flat.length - j) (spanAt flat i, flat.length - i) := by
  have hup := mem_childPlaces.1 h
  have hl := hup.lt_length
  rcases hup.wider with hlt | ⟨heq, hlt⟩
  · exact Prod.Lex.left _ _ hlt
  · rw [heq]
    exact Prod.Lex.right _ (by omega)

/-- The tree of the symbol at `i`. -/
def treeAt (flat : List ReportedSymbol) (i : Nat) : Placed :=
  .node i (flat.getD i default) ((childPlaces flat i).attach.map fun j => treeAt flat j.1)
termination_by (spanAt flat i, flat.length - i)
decreasing_by exact childPlaces_wider j.2

theorem treeAt_eq (flat : List ReportedSymbol) (i : Nat) :
    treeAt flat i = .node i (flat.getD i default) ((childPlaces flat i).map (treeAt flat)) := by
  rw [treeAt]
  simp

theorem place_treeAt (flat : List ReportedSymbol) (i : Nat) : (treeAt flat i).place = i := by
  rw [treeAt_eq]
  rfl

theorem map_place_treeAt (flat : List ReportedSymbol) (l : List Nat) :
    (l.map (treeAt flat)).map (·.place) = l := by
  simp [Function.comp_def, place_treeAt]

theorem map_place_children (flat : List ReportedSymbol) (i : Nat) :
    (treeAt flat i).children.map (·.place) = childPlaces flat i := by
  rw [treeAt_eq]
  exact map_place_treeAt flat _

/-- What holds of a place if it holds of those below it holds of all. -/
theorem below_induction (flat : List ReportedSymbol) {P : Nat → Prop}
    (h : ∀ i, (∀ j ∈ childPlaces flat i, P j) → P i) (i : Nat) : P i :=
  h i fun j _ => below_induction flat h j
termination_by (spanAt flat i, flat.length - i)
decreasing_by exact childPlaces_wider ‹_›

/-- The places in the tree of the symbol at `i`, the symbol first. -/
def places (flat : List ReportedSymbol) (i : Nat) : List Nat := (treeAt flat i).nodes.map (·.place)

theorem places_eq (flat : List ReportedSymbol) (i : Nat) :
    places flat i = i :: (childPlaces flat i).flatMap (places flat) := by
  unfold places
  rw [treeAt_eq, Placed.nodes, Placed.nodesOf_eq_flatMap, List.flatMap_map, List.map_cons,
    List.map_flatMap]
  rfl

/-- The tree of a symbol holds what leads up to it. -/
theorem mem_places : k ∈ places flat i ↔ ReflTransGen (Up flat) k i := by
  constructor
  · intro h
    induction i using below_induction flat with
    | h i ih =>
      rw [places_eq, List.mem_cons, List.mem_flatMap] at h
      rcases h with rfl | ⟨j, hj, hk⟩
      · exact .refl
      · exact (ih j hj hk).tail (mem_childPlaces.1 hj)
  · intro h
    induction h with
    | refl => rw [places_eq]; exact List.mem_cons_self
    | tail _ hup ih =>
      rw [places_eq]
      exact List.mem_cons_of_mem _ (List.mem_flatMap.2 ⟨_, mem_childPlaces.2 hup, ih⟩)

/-- Trees of siblings have no place in common. -/
theorem nodup_flatMap_places {p : Option Nat} {l : List Nat} (hl : l.Nodup)
    (hsiblings : ∀ a ∈ l, parent? flat a = p) (hplaces : ∀ a ∈ l, (places flat a).Nodup) :
    (l.flatMap (places flat)).Nodup := by
  refine List.nodup_flatMap.2 ⟨hplaces, List.Pairwise.imp_of_mem ?_ hl⟩
  intro a b ha hb hne k hka hkb
  exact hne (eq_of_up_of_siblings ((hsiblings a ha).trans (hsiblings b hb).symm)
    (mem_places.1 hka) (mem_places.1 hkb))

theorem nodup_places (flat : List ReportedSymbol) (i : Nat) : (places flat i).Nodup := by
  induction i using below_induction flat with
  | h i ih =>
    rw [places_eq, List.nodup_cons]
    constructor
    · intro h
      obtain ⟨j, hj, hi⟩ := List.mem_flatMap.1 h
      exact not_ups_self (TransGen.tail' (mem_places.1 hi) (mem_childPlaces.1 hj))
    · exact nodup_flatMap_places (List.nodup_range.filter _) (fun _ => mem_childPlaces.1) ih

theorem mem_rootPlaces : i ∈ rootPlaces flat ↔ i < flat.length ∧ parent? flat i = none := by
  simp [rootPlaces]

/-- The trees of the roots hold every place once. -/
theorem perm_range (flat : List ReportedSymbol) :
    ((rootPlaces flat).flatMap (places flat)).Perm (List.range flat.length) := by
  have hnodup : ((rootPlaces flat).flatMap (places flat)).Nodup :=
    nodup_flatMap_places (List.nodup_range.filter _) (fun _ h => (mem_rootPlaces.1 h).2)
      fun i _ => nodup_places flat i
  refine (List.perm_ext_iff_of_nodup hnodup List.nodup_range).2 fun k => ?_
  rw [List.mem_flatMap, List.mem_range]
  constructor
  · rintro ⟨r, hr, hk⟩
    rcases (mem_places.1 hk).cases_head with rfl | ⟨j, hup, -⟩
    · exact (mem_rootPlaces.1 hr).1
    · exact hup.lt_length.1
  · intro hk
    obtain ⟨r, hway, hr⟩ := exists_root flat k
    refine ⟨r, mem_rootPlaces.2 ⟨?_, hr⟩, mem_places.2 hway⟩
    rcases hway.cases_tail with rfl | ⟨j, -, hup⟩
    · exact hk
    · exact hup.lt_length.2

/-! ## Slots -/

/-- The slots of an outline after the symbols at some places have been taken. -/
def without (flat : List ReportedSymbol) (taken : List Nat) : Slots :=
  (List.range flat.length).map fun i => if i ∈ taken then none else flat[i]?

theorem without_nil (flat : List ReportedSymbol) : without flat [] = flat.map some := by
  refine List.ext_getElem? fun i => ?_
  by_cases hi : i < flat.length <;> simp [without, hi]

theorem getElem?_without (hi : i < flat.length) (taken : List Nat) :
    (without flat taken)[i]? = some (if i ∈ taken then none else flat[i]?) := by
  simp [without, hi]

theorem set_without (flat : List ReportedSymbol) (taken : List Nat) (i : Nat) :
    (without flat taken).set i none = without flat (taken ++ [i]) := by
  refine List.ext_getElem? fun k => ?_
  by_cases hk : k < flat.length
  · rw [List.getElem?_set, getElem?_without hk, getElem?_without hk]
    by_cases hik : i = k <;> simp [hik, without, hk, eq_comm]
  · simp [without, hk]

section Assembling

variable {below : Nat → List Nat} {slots : Slots}

theorem assembleAll_nil : assembleAll below [] slots = ([], ⟨slots, Nat.le_refl _⟩) := by
  rw [assembleAll]

theorem assembleAll_cons (below : Nat → List Nat) (i : Nat) (l : List Nat) (slots : Slots) :
    (assembleAll below (i :: l) slots).1 = (assemble below i slots).1.toList ++
        (assembleAll below l (assemble below i slots).2).1 ∧
      (assembleAll below (i :: l) slots).2.1 =
        (assembleAll below l (assemble below i slots).2).2.1 := by
  rw [assembleAll]
  exact ⟨rfl, rfl⟩

theorem assemble_of_some (below : Nat → List Nat) {s : ReportedSymbol}
    (h : slots[i]? = some (some s)) :
    (assemble below i slots).1 =
        some { s with children := (assembleAll below (below i) (slots.set i none)).1 } ∧
      (assemble below i slots).2.1 = (assembleAll below (below i) (slots.set i none)).2.1 := by
  rw [assemble]
  split
  · rename_i s' h'
    obtain rfl : s = s' := by simpa [h] using h'
    exact ⟨rfl, rfl⟩
  · rename_i hnone
    exact absurd h (hnone s)

end Assembling

/-- From slots in which nothing of it is missing, the tree of the symbol at `i` is taken whole. -/
def TakesTree (flat : List ReportedSymbol) (i : Nat) : Prop :=
  ∀ taken, (taken ++ places flat i).Nodup → i < flat.length →
    (assemble (childPlaces flat) i (without flat taken)).1 = some (treeAt flat i).outline ∧
    (assemble (childPlaces flat) i (without flat taken)).2.1 = without flat (taken ++ places flat i)

theorem assembleAll_without : ∀ {l : List Nat}, (∀ i ∈ l, TakesTree flat i) →
    ∀ {taken}, (taken ++ l.flatMap (places flat)).Nodup → (∀ i ∈ l, i < flat.length) →
      (assembleAll (childPlaces flat) l (without flat taken)).1 =
        l.map (fun i => (treeAt flat i).outline) ∧
      (assembleAll (childPlaces flat) l (without flat taken)).2.1 =
        without flat (taken ++ l.flatMap (places flat))
  | [], _, taken, _, _ => by simp [assembleAll_nil]
  | i :: rest, h, taken, hnodup, hin => by
    rw [List.forall_mem_cons] at h hin
    rw [List.flatMap_cons, ← List.append_assoc] at hnodup
    obtain ⟨htree, hslots⟩ := h.1 taken hnodup.of_append_left hin.1
    obtain ⟨hsiblings, hrest⟩ := assembleAll_without h.2 hnodup hin.2
    obtain ⟨hfst, hsnd⟩ := assembleAll_cons (childPlaces flat) i rest (without flat taken)
    rw [hfst, hsnd, htree, hslots, hsiblings, hrest]
    simp

theorem takesTree (flat : List ReportedSymbol) (i : Nat) : TakesTree flat i := by
  induction i using below_induction flat with
  | h i ih =>
    intro taken hnodup hi
    rw [places_eq] at hnodup ⊢
    have hnot : i ∉ taken := fun h =>
      List.disjoint_of_nodup_append hnodup h List.mem_cons_self
    have hthere : (without flat taken)[i]? = some (some flat[i]) := by
      rw [getElem?_without hi, if_neg hnot, List.getElem?_eq_getElem hi]
    rw [← List.singleton_append, ← List.append_assoc] at hnodup ⊢
    obtain ⟨hbelow, hrest⟩ := assembleAll_without ih hnodup
      fun j hj => (mem_childPlaces.1 hj).lt_length.1
    obtain ⟨hfst, hsnd⟩ := assemble_of_some (childPlaces flat) hthere
    rw [hfst, hsnd, set_without, hbelow, hrest, treeAt_eq, Placed.outline, Placed.outlines_eq_map,
      List.map_map]
    simp [hi]

/-! ## The forest -/

/-- The trees of the roots. -/
def forest (flat : List ReportedSymbol) : List Placed := (rootPlaces flat).map (treeAt flat)

theorem nest_eq (flat : List ReportedSymbol) : nest flat = Placed.outlines (forest flat) := by
  have hnodup := (perm_range flat).nodup_iff.2 List.nodup_range
  obtain ⟨htaken, -⟩ := assembleAll_without (fun i _ => takesTree flat i)
    (show ([] ++ (rootPlaces flat).flatMap (places flat)).Nodup from hnodup)
    fun i hi => (mem_rootPlaces.1 hi).1
  rw [nest, ← without_nil, htaken, forest, Placed.outlines_eq_map, List.map_map]
  rfl

theorem map_place_nodesOf_forest (flat : List ReportedSymbol) :
    (Placed.nodesOf (forest flat)).map (·.place) = (rootPlaces flat).flatMap (places flat) := by
  rw [Placed.nodesOf_eq_flatMap, forest, List.flatMap_map, List.map_flatMap]
  rfl

theorem eq_treeAt_of_mem_nodes {t : Placed} : t ∈ (treeAt flat i).nodes →
    t = treeAt flat t.place := by
  induction i using below_induction flat with
  | h i ih =>
    intro h
    rw [treeAt_eq, Placed.nodes, Placed.nodesOf_eq_flatMap, List.flatMap_map, List.mem_cons,
      List.mem_flatMap, ← treeAt_eq] at h
    rcases h with rfl | ⟨j, hj, ht⟩
    · rw [place_treeAt]
    · exact ih j hj ht

/-- The outline that comes out is a forest in which each place is met once, with its symbol. The
children of a symbol are those it is the parent of, and the roots those without a parent, and both
stand in the order of their places. -/
theorem nest_places (flat : List ReportedSymbol) : ∃ trees : List Placed,
    nest flat = Placed.outlines trees ∧
    ((Placed.nodesOf trees).map (·.place)).Perm (List.range flat.length) ∧
    (∀ t ∈ Placed.nodesOf trees, flat[t.place]? = some t.symbol) ∧
    (∀ t ∈ Placed.nodesOf trees, ∀ i,
      i ∈ t.children.map (·.place) ↔ IsParent flat i t.place) ∧
    (∀ i, i ∈ trees.map (·.place) ↔ i < flat.length ∧ ∀ j, ¬ IsParent flat i j) ∧
    (trees.map (·.place)).Pairwise (· < ·) ∧
    ∀ t ∈ Placed.nodesOf trees, (t.children.map (·.place)).Pairwise (· < ·) := by
  have hperm : ((Placed.nodesOf (forest flat)).map (·.place)).Perm (List.range flat.length) := by
    rw [map_place_nodesOf_forest]
    exact perm_range flat
  have htree : ∀ t ∈ Placed.nodesOf (forest flat),
      t = treeAt flat t.place ∧ t.place < flat.length := by
    intro t ht
    refine ⟨?_, List.mem_range.1 (hperm.subset (List.mem_map_of_mem ht))⟩
    rw [Placed.nodesOf_eq_flatMap, forest, List.flatMap_map, List.mem_flatMap] at ht
    obtain ⟨i, -, ht⟩ := ht
    exact eq_treeAt_of_mem_nodes ht
  have hroots : (forest flat).map (·.place) = rootPlaces flat := map_place_treeAt flat _
  refine ⟨forest flat, nest_eq flat, hperm, fun t ht => ?_, fun t ht i => ?_, fun i => ?_, ?_,
    fun t ht => ?_⟩
  · obtain ⟨heq, hlt⟩ := htree t ht
    have hsymbol : t.symbol = flat.getD t.place default := by
      rw [heq, place_treeAt, treeAt_eq]
      rfl
    simp [hsymbol, hlt]
  · rw [(htree t ht).1, map_place_children, place_treeAt, mem_childPlaces]
    exact parent?_eq_some_iff
  · rw [hroots, mem_rootPlaces, parent?_eq_none_iff]
  · rw [hroots]
    exact List.pairwise_lt_range.filter _
  · rw [(htree t ht).1, map_place_children]
    exact List.pairwise_lt_range.filter _

end CodeGraph.LanguageServer
