import CodeGraph.Git.History
import Mathlib.Data.List.Nodup
import Mathlib.Data.List.Perm.Basic

/-!
# What tells two snapshots apart

Of two snapshots without links, each path at which they differ has one delta, and no other path has
one (`isDiff_deltas`). A comparison may put a renaming in the place of a file that was deleted and
one that was added. Which of them it pairs makes no difference to the paths at which there is
something new, nor to those at which there is nothing any more (`IsComparison.mem_newPaths`,
`IsComparison.mem_oldPaths`).
-/

namespace CodeGraph.Git

open Files (Location)

/-- There are no links. -/
def IsRegular (s : Snapshot) : Prop := ∀ x ∈ s, ∃ bytes, x.2 = .file bytes

theorem isRegular_iff {s : Snapshot} :
    IsRegular s ↔ ∀ x ∈ s, x.2.sameKind (.file []) = true := by
  refine forall₂_congr fun x _ => ?_
  cases x.2 with
  | file bytes => simp [Content.sameKind]
  | link target => simp [Content.sameKind]

instance (s : Snapshot) : Decidable (IsRegular s) := decidable_of_iff' _ isRegular_iff

/-- The delta says what there is at its path before and after. It is no renaming, which is about two
paths. -/
def Delta.Tells (before after : Snapshot) : Delta → Prop
  | added p => before.lookup p = none ∧ after.lookup p ≠ none
  | modified p => before.lookup p ≠ none ∧ after.lookup p ≠ none ∧ before.lookup p ≠ after.lookup p
  | deleted p => before.lookup p ≠ none ∧ after.lookup p = none
  | renamed _ _ => False

/-- Each path at which the snapshots differ is listed once, as added, modified or deleted. -/
structure IsDiff (before after : Snapshot) (l : List Delta) : Prop where
  nodup : l.Nodup
  mem_iff : ∀ d, d ∈ l ↔ d.Tells before after

/-- Some of the files that were deleted are paired with files that were added, and a renaming takes
the place of both. -/
def Pairs (l m : List Delta) : Prop :=
  ∃ (pairs : List (Location × Location)) (rest : List Delta),
    l.Perm ((pairs.flatMap fun x => [.deleted x.1, .added x.2]) ++ rest) ∧
    m.Perm ((pairs.map fun x => .renamed x.1 x.2) ++ rest)

/-- A comparison lists the deltas, with some of them paired. -/
def IsComparison (compare : Snapshot → Snapshot → List Delta) : Prop :=
  ∀ before after, IsRegular before → IsRegular after →
    ∃ l, IsDiff before after l ∧ Pairs l (compare before after)

/-! ## Paths -/

section Paths

variable {p q : Location} {l : List Location} {before after : Snapshot}

theorem lookup_ne_none_iff {s : Snapshot} : s.lookup p ≠ none ↔ p ∈ s.map Prod.fst := by
  simp [List.lookup_eq_none_iff]

theorem mem_insertPath : q ∈ insertPath p l ↔ q = p ∨ q ∈ l := by
  induction l with
  | nil => simp [insertPath]
  | cons u l ih =>
    rw [insertPath]
    split_ifs with hbefore hsame
    · rw [List.mem_cons]
    · subst hsame
      rw [List.mem_cons, ← or_assoc, or_self]
    · rw [List.mem_cons, List.mem_cons, ih]
      exact or_left_comm

/-- None comes before one in front of it. Different paths may have the same bytes. -/
def IsOrdered (l : List Location) : Prop := l.Pairwise fun p q => pathPrecedes q p = false

theorem pathPrecedes_irrefl (p : Location) : pathPrecedes p p = false :=
  decide_eq_false (List.lt_irrefl _)

theorem pathPrecedes_trans {u : Location} (hpq : pathPrecedes p q = true)
    (hqu : pathPrecedes q u = true) : pathPrecedes p u = true :=
  decide_eq_true (List.lt_trans (of_decide_eq_true hpq) (of_decide_eq_true hqu))

theorem IsOrdered.insertPath (h : IsOrdered l) : IsOrdered (insertPath p l) := by
  induction l with
  | nil => exact List.pairwise_singleton _ _
  | cons u l ih =>
    obtain ⟨hu, hl⟩ := List.pairwise_cons.1 h
    rw [Git.insertPath]
    split_ifs with hbefore hsame
    · refine List.pairwise_cons.2 ⟨fun v hv => ?_, h⟩
      refine Bool.eq_false_iff.2 fun hvp => ?_
      have hvu := pathPrecedes_trans hvp hbefore
      rcases List.mem_cons.1 hv with rfl | hv
      · exact Bool.eq_false_iff.1 (pathPrecedes_irrefl v) hvu
      · exact Bool.eq_false_iff.1 (hu v hv) hvu
    · exact h
    · refine List.pairwise_cons.2 ⟨fun v hv => ?_, ih hl⟩
      rcases mem_insertPath.1 hv with rfl | hv
      · exact Bool.eq_false_iff.2 hbefore
      · exact hu v hv

theorem nodup_insertPath (h : IsOrdered l) (hnodup : l.Nodup) : (insertPath p l).Nodup := by
  induction l with
  | nil => exact List.nodup_singleton p
  | cons u l ih =>
    obtain ⟨hu, hl⟩ := List.pairwise_cons.1 h
    obtain ⟨hnot, hnodup'⟩ := List.nodup_cons.1 hnodup
    rw [insertPath]
    split_ifs with hbefore hsame
    · refine List.nodup_cons.2 ⟨fun hp => ?_, hnodup⟩
      rcases List.mem_cons.1 hp with rfl | hp
      · exact Bool.eq_false_iff.1 (pathPrecedes_irrefl p) hbefore
      · exact Bool.eq_false_iff.1 (hu p hp) hbefore
    · exact hnodup
    · refine List.nodup_cons.2 ⟨fun hmem => ?_, ih hl hnodup'⟩
      rcases mem_insertPath.1 hmem with rfl | hmem
      · exact hsame rfl
      · exact hnot hmem

theorem mem_foldl_insertPath (ps : List Location) : ∀ {l : List Location},
    p ∈ ps.foldl (fun acc q => insertPath q acc) l ↔ p ∈ ps ∨ p ∈ l := by
  induction ps with
  | nil => simp
  | cons q ps ih =>
    intro l
    rw [List.foldl_cons, ih, mem_insertPath, List.mem_cons, or_left_comm, or_assoc]

theorem nodup_foldl_insertPath (ps : List Location) : ∀ {l : List Location}, IsOrdered l →
    l.Nodup → (ps.foldl (fun acc q => insertPath q acc) l).Nodup := by
  induction ps with
  | nil => exact fun _ hnodup => hnodup
  | cons q ps ih => exact fun h hnodup => ih h.insertPath (nodup_insertPath h hnodup)

theorem nodup_allPaths (before after : Snapshot) : (allPaths before after).Nodup :=
  nodup_foldl_insertPath _ .nil .nil

theorem mem_allPaths :
    p ∈ allPaths before after ↔ before.lookup p ≠ none ∨ after.lookup p ≠ none := by
  rw [lookup_ne_none_iff, lookup_ne_none_iff, ← List.mem_append, allPaths, mem_foldl_insertPath,
    or_iff_left List.not_mem_nil]

end Paths

/-! ## Deltas -/

section Deltas

variable {before after : Snapshot} {p : Location} {d : Delta}

theorem IsRegular.exists_file {s : Snapshot} (h : IsRegular s) {c : Content}
    (hc : s.lookup p = some c) : ∃ bytes, c = .file bytes := by
  obtain ⟨front, rest, rfl, -⟩ := List.lookup_eq_some_iff.1 hc
  exact h (p, c) (List.mem_append_right front List.mem_cons_self)

/-- Without links, a path has one delta or none. -/
theorem deltasAt_eq (hbefore : IsRegular before) (hafter : IsRegular after) :
    deltasAt before after p =
      if before.lookup p = after.lookup p then []
      else if before.lookup p = none then [.added p]
      else if after.lookup p = none then [.deleted p]
      else [.modified p] := by
  unfold deltasAt
  rcases ha : before.lookup p with _ | a <;> rcases hb : after.lookup p with _ | b
  · rfl
  · rfl
  · rfl
  · obtain ⟨_, rfl⟩ := hbefore.exists_file ha
    obtain ⟨_, rfl⟩ := hafter.exists_file hb
    simp [Content.sameKind]

theorem mem_deltasAt (hbefore : IsRegular before) (hafter : IsRegular after) :
    d ∈ deltasAt before after p ↔ d.path = p ∧ d.Tells before after := by
  rw [deltasAt_eq hbefore hafter]
  constructor
  · intro h
    split_ifs at h with hsame hb ha
    · cases h
    · obtain rfl := List.mem_singleton.1 h
      exact ⟨rfl, hb, fun ha => hsame (hb.trans ha.symm)⟩
    · obtain rfl := List.mem_singleton.1 h
      exact ⟨rfl, hb, ha⟩
    · obtain rfl := List.mem_singleton.1 h
      exact ⟨rfl, hb, ha, hsame⟩
  · rintro ⟨rfl, h⟩
    cases d with
    | added p => simp [Delta.path, h.1, Ne.symm h.2]
    | modified p => simp [Delta.path, h.1, h.2.1, h.2.2]
    | deleted p => simp [Delta.path, h.1, h.2]
    | renamed p q => exact h.elim

/-- The paths of the deltas are those at which the snapshots differ. -/
theorem map_path_deltas (hbefore : IsRegular before) (hafter : IsRegular after) :
    (deltas before after).map Delta.path =
      (allPaths before after).filter fun p => before.lookup p ≠ after.lookup p := by
  rw [deltas, List.map_flatMap]
  induction allPaths before after with
  | nil => rfl
  | cons p l ih =>
    rw [List.flatMap_cons, ih, deltasAt_eq hbefore hafter]
    by_cases hsame : before.lookup p = after.lookup p
    · rw [if_pos hsame, List.filter_cons_of_neg (by simpa using hsame)]
      rfl
    · rw [if_neg hsame, List.filter_cons_of_pos (by simpa using hsame)]
      split_ifs <;> rfl

theorem nodup_path_deltas (hbefore : IsRegular before) (hafter : IsRegular after) :
    ((deltas before after).map Delta.path).Nodup := by
  rw [map_path_deltas hbefore hafter]
  exact (nodup_allPaths before after).filter _

theorem mem_path_deltas (hbefore : IsRegular before) (hafter : IsRegular after) :
    p ∈ (deltas before after).map Delta.path ↔ before.lookup p ≠ after.lookup p := by
  rw [map_path_deltas hbefore hafter, List.mem_filter, decide_eq_true_eq, mem_allPaths,
    and_iff_right_iff_imp]
  intro hne
  by_contra hnone
  rw [not_or, not_not, not_not] at hnone
  exact hne (hnone.1.trans hnone.2.symm)

theorem Delta.Tells.differs (h : d.Tells before after) :
    before.lookup d.path ≠ after.lookup d.path := by
  cases d with
  | added p => exact fun hsame => h.2 (hsame.symm.trans h.1)
  | modified p => exact h.2.2
  | deleted p => exact fun hsame => h.1 (hsame.trans h.2)
  | renamed p q => exact h.elim

/-- Each path at which the snapshots differ has one delta. -/
theorem isDiff_deltas (hbefore : IsRegular before) (hafter : IsRegular after) :
    IsDiff before after (deltas before after) where
  nodup := (nodup_path_deltas hbefore hafter).of_map _
  mem_iff d := by
    rw [deltas, List.mem_flatMap]
    constructor
    · rintro ⟨p, -, hd⟩
      exact ((mem_deltasAt hbefore hafter).1 hd).2
    · intro h
      have hpath := (mem_path_deltas hbefore hafter).2 h.differs
      rw [map_path_deltas hbefore hafter] at hpath
      exact ⟨d.path, (List.mem_filter.1 hpath).1, (mem_deltasAt hbefore hafter).2 ⟨rfl, h⟩⟩

theorem isComparison_deltas : IsComparison deltas := fun before after hbefore hafter =>
  ⟨deltas before after, isDiff_deltas hbefore hafter, [], deltas before after, .refl _, .refl _⟩

end Deltas

/-! ## Renamings -/

section Renamings

variable {before after : Snapshot} {p : Location} {l m : List Delta}

theorem IsDiff.mem_newPaths (h : IsDiff before after l) : p ∈ l.filterMap Delta.newPath? ↔
    after.lookup p ≠ none ∧ before.lookup p ≠ after.lookup p := by
  simp only [List.mem_filterMap, h.mem_iff]
  constructor
  · rintro ⟨d, hd, hp⟩
    cases d with
    | added q =>
      obtain rfl := Option.some.inj hp
      exact ⟨hd.2, hd.differs⟩
    | modified q =>
      obtain rfl := Option.some.inj hp
      exact ⟨hd.2.1, hd.differs⟩
    | deleted q => cases hp
    | renamed q u => exact hd.elim
  · rintro ⟨hafter, hdiffer⟩
    by_cases hbefore : before.lookup p = none
    · exact ⟨.added p, ⟨hbefore, hafter⟩, rfl⟩
    · exact ⟨.modified p, ⟨hbefore, hafter, hdiffer⟩, rfl⟩

theorem IsDiff.mem_oldPaths (h : IsDiff before after l) : p ∈ l.filterMap Delta.oldPath? ↔
    before.lookup p ≠ none ∧ after.lookup p = none := by
  simp only [List.mem_filterMap, h.mem_iff]
  constructor
  · rintro ⟨d, hd, hp⟩
    cases d with
    | added q => cases hp
    | modified q => cases hp
    | deleted q =>
      obtain rfl := Option.some.inj hp
      exact hd
    | renamed q u => exact hd.elim
  · exact fun h => ⟨.deleted p, h, rfl⟩

/-- What counts a renaming like the two deltas in its place is not changed by pairing. -/
theorem Pairs.perm_filterMap {f : Delta → Option Location}
    (hf : ∀ p q, [.deleted p, .added q].filterMap f = [.renamed p q].filterMap f)
    (h : Pairs l m) : (m.filterMap f).Perm (l.filterMap f) := by
  obtain ⟨pairs, rest, hl, hm⟩ := h
  -- the renamings count like all that they replace, pair by pair
  have hpairs : (pairs.map fun x => .renamed x.1 x.2).filterMap f =
      (pairs.flatMap fun x => [.deleted x.1, .added x.2]).filterMap f := by
    clear hl hm
    induction pairs with
    | nil => rfl
    | cons x pairs ih =>
      rw [List.map_cons, List.flatMap_cons, List.filterMap_append, hf, ← ih,
        ← List.filterMap_append, List.singleton_append]
  have hm := hm.filterMap f
  rw [List.filterMap_append, hpairs, ← List.filterMap_append] at hm
  exact hm.trans (hl.filterMap f).symm

variable {compare : Snapshot → Snapshot → List Delta}

/-- A comparison finds something new at the paths whose files were added or modified. -/
theorem IsComparison.mem_newPaths (h : IsComparison compare) (hbefore : IsRegular before)
    (hafter : IsRegular after) : p ∈ (compare before after).filterMap Delta.newPath? ↔
      after.lookup p ≠ none ∧ before.lookup p ≠ after.lookup p := by
  obtain ⟨l, hdiff, hpairs⟩ := h before after hbefore hafter
  rw [(hpairs.perm_filterMap fun _ _ => rfl).mem_iff, hdiff.mem_newPaths]

/-- A comparison finds nothing any more at the paths whose files were deleted. -/
theorem IsComparison.mem_oldPaths (h : IsComparison compare) (hbefore : IsRegular before)
    (hafter : IsRegular after) : p ∈ (compare before after).filterMap Delta.oldPath? ↔
      before.lookup p ≠ none ∧ after.lookup p = none := by
  obtain ⟨l, hdiff, hpairs⟩ := h before after hbefore hafter
  rw [(hpairs.perm_filterMap fun _ _ => rfl).mem_iff, hdiff.mem_oldPaths]

/-- Pairs a deleted file with an added one if there are two with the same content. -/
def pairFirst (before after : Snapshot) : List Delta :=
  let l := deltas before after
  let isPair := fun x : Location × Location =>
    l.contains (.deleted x.1) && l.contains (.added x.2) && before.lookup x.1 == after.lookup x.2
  match ((before.map Prod.fst).product (after.map Prod.fst)).find? isPair with
  | some x => .renamed x.1 x.2 :: (l.erase (.deleted x.1)).erase (.added x.2)
  | none => l

theorem isComparison_pairFirst : IsComparison pairFirst := by
  intro before after hbefore hafter
  refine ⟨deltas before after, isDiff_deltas hbefore hafter, ?_⟩
  unfold pairFirst
  dsimp only
  split
  · rename_i x hx
    have hpair := List.find?_some hx
    simp only [Bool.and_eq_true, List.contains_iff_mem] at hpair
    -- the deletion is taken out first, and the addition is still there
    refine ⟨[x], _, ?_, .refl _⟩
    have hadded : Delta.added x.2 ∈ (deltas before after).erase (.deleted x.1) :=
      (List.mem_erase_of_ne (by simp)).2 hpair.1.2
    exact (List.perm_cons_erase hpair.1.1).trans ((List.perm_cons_erase hadded).cons _)
  · exact ⟨[], _, .refl _, .refl _⟩

end Renamings

end CodeGraph.Git
