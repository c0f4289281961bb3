import CodeGraph.Git.Walk
import Mathlib.Data.List.MinMax
import Mathlib.Data.List.Nodup
import Mathlib.Data.List.Perm.Basic
import Mathlib.Data.List.Perm.Subperm
import Mathlib.Logic.Relation

/-!
# Walks through a history

Putting commits in order loses none and repeats none (`perm_inOrder`). The commits are collected by
a search that marks each when it is first seen, and as many steps as there are commits are enough
to see all that can be reached (`mem_reachable_iff`), each once (`nodup_reachable`).
-/

namespace CodeGraph.Git

/-! ## Heaps -/

namespace Heap

variable {α : Type} (precedes : α → α → Bool)

theorem perm_exchange (l : List α) (i j : Nat) : (exchange l i j).Perm l := by
  unfold exchange
  split
  · rename_i a b ha hb
    obtain ⟨hi, rfl⟩ := List.getElem?_eq_some_iff.1 ha
    obtain ⟨hj, rfl⟩ := List.getElem?_eq_some_iff.1 hb
    exact List.set_set_perm hi hj
  · exact .refl l

theorem perm_rise (l : List α) (i : Nat) : (rise precedes l i).Perm l := by
  fun_induction rise precedes l i with
  | case1 => exact .refl _
  | case2 l i hi parent a hparent ha hbefore ih => exact ih.trans (perm_exchange _ _ _)
  | case3 => exact .refl _
  | case4 => exact .refl _

theorem perm_sink (l : List α) (i : Nat) : (sink precedes l i).Perm l := by
  fun_induction sink precedes l i with
  | case1 => exact .refl _
  | case2 l i k hk a child ha hchild hbefore ih => exact ih.trans (perm_exchange _ _ _)
  | case3 => exact .refl _
  | case4 => exact .refl _

theorem perm_push (l : List α) (a : α) : (push precedes l a).Perm (a :: l) :=
  (perm_rise precedes _ _).trans (List.perm_append_singleton a l)

theorem perm_pop? {l rest : List α} {a : α} (h : pop? precedes l = some (a, rest)) :
    (a :: rest).Perm l := by
  unfold pop? at h
  split at h
  · cases h
  · split at h
    · rename_i hlast
      cases h
      rw [List.getLast?_eq_none_iff.1 hlast]
    · rename_i last hlast
      cases h
      obtain ⟨front, rfl⟩ := List.getLast?_eq_some_iff.1 hlast
      rw [List.dropLast_concat]
      refine .cons _ ((perm_sink precedes _ 0).trans ?_)
      exact (List.perm_append_singleton last front).symm

theorem pop?_eq_none {l : List α} (h : pop? precedes l = none) : l = [] := by
  unfold pop? at h
  split at h
  · rfl
  · split at h <;> cases h

theorem perm_popMany : ∀ {n : Nat} {l : List α}, l.length = n → (popMany precedes n l).Perm l
  | 0, l, h => by rw [List.length_eq_zero_iff.1 h, popMany]
  | n + 1, l, h => by
    rw [popMany]
    split
    · rename_i hpop
      rw [pop?_eq_none precedes hpop]
    · rename_i a rest hpop
      have hperm := perm_pop? precedes hpop
      have hlength := hperm.length_eq
      rw [List.length_cons] at hlength
      exact (List.Perm.cons a (perm_popMany (by omega))).trans hperm

/-- What goes into a heap comes out of it. -/
theorem perm_drain (l : List α) : (drain precedes l).Perm l := by
  have hpush : ∀ (l heap : List α), (l.foldl (push precedes) heap).Perm (l ++ heap) := by
    intro l
    induction l with
    | nil => exact fun heap => .refl heap
    | cons a l ih =>
      intro heap
      refine (ih _).trans ?_
      exact ((perm_push precedes heap a).append_left l).trans List.perm_middle
  have hfull := hpush l []
  rw [List.append_nil] at hfull
  exact (perm_popMany precedes hfull.length_eq).trans hfull

end Heap

namespace Repository

variable (r : Repository)

/-- The second commit is a parent of the first. -/
def HasParent (c p : Commit) : Prop := p ∈ r.parents c

/-- The second commit is the first or an ancestor of it. -/
def Reaches (c d : Commit) : Prop := Relation.ReflTransGen r.HasParent c d

/-- The commit is the one that its hash leads to. -/
def IsKnown (c : Commit) : Prop := r.commit? c.hash = some c

variable {r}

theorem isKnown_of_commit? {hash : String} {c : Commit} (h : r.commit? hash = some c) :
    r.IsKnown c := by
  have hhash : c.hash = hash := by simpa using List.find?_some h
  rwa [IsKnown, hhash]

theorem isKnown_of_headCommit? {c : Commit} (h : r.headCommit? = some c) : r.IsKnown c := by
  unfold headCommit? at h
  split at h
  · obtain ⟨hash, -, h⟩ := Option.bind_eq_some_iff.1 h
    exact isKnown_of_commit? h
  · exact isKnown_of_commit? h

theorem isKnown_of_hasParent {c p : Commit} (h : r.HasParent c p) : r.IsKnown p := by
  obtain ⟨hash, -, h⟩ := List.mem_filterMap.1 h
  exact isKnown_of_commit? h

theorem Reaches.isKnown {c d : Commit} (h : r.Reaches c d) (hc : r.IsKnown c) : r.IsKnown d := by
  induction h with
  | refl => exact hc
  | tail _ hp _ => exact isKnown_of_hasParent hp

theorem IsKnown.mem_commits {c : Commit} (h : r.IsKnown c) : c ∈ r.commits :=
  List.mem_of_find?_eq_some h

theorem IsKnown.eq_of_hash {c d : Commit} (hc : r.IsKnown c) (hd : r.IsKnown d)
    (h : c.hash = d.hash) : c = d := by
  unfold IsKnown at hc hd
  rw [h, hd] at hc
  exact (Option.some.inj hc).symm

/-! ## Collecting commits -/

theorem perm_insertByDate (c : Commit) : ∀ l : List Commit, (insertByDate c l).Perm (c :: l)
  | [] => .refl _
  | d :: rest => by
    rw [insertByDate]
    split
    · exact .refl _
    · exact ((perm_insertByDate c rest).cons d).trans (.swap c d rest)

/-- What seeing some commits adds to those that are to be visited and to the hashes seen: the fresh
ones, each once. -/
theorem exists_fresh (ps : List Commit) : ∀ acc : List Commit × List String, ∃ fresh,
    (ps.foldl see acc).1.Perm (fresh ++ acc.1) ∧
    (ps.foldl see acc).2.Perm (fresh.map (·.hash) ++ acc.2) ∧
    fresh ⊆ ps ∧ (fresh.map (·.hash)).Nodup ∧ (∀ c ∈ fresh, c.hash ∉ acc.2) ∧
    ∀ c ∈ ps, c.hash ∈ (ps.foldl see acc).2 := by
  induction ps with
  | nil => exact fun acc => ⟨[], .refl _, .refl _, List.nil_subset _, .nil, by simp, by simp⟩
  | cons p ps ih =>
    intro acc
    obtain ⟨fresh, hpending, hseen, hsub, hnodup, hnew, hall⟩ := ih (see acc p)
    rw [List.foldl_cons]
    by_cases hp : p.hash ∈ acc.2
    · have hsee : see acc p = acc := by
        rw [see, if_pos (List.contains_iff_mem.2 hp)]
      rw [hsee] at hpending hseen hnew hall ⊢
      refine ⟨fresh, hpending, hseen, List.subset_cons_of_subset p hsub, hnodup, hnew, ?_⟩
      refine List.forall_mem_cons.2 ⟨hseen.symm.subset ?_, hall⟩
      exact List.mem_append_right _ hp
    · have hsee : see acc p = (insertByDate p acc.1, p.hash :: acc.2) := by
        rw [see, if_neg (by simpa using hp)]
      rw [hsee] at hpending hseen hnew hall ⊢
      refine ⟨p :: fresh, ?_, ?_, ?_, ?_, ?_, ?_⟩
      · exact hpending.trans (((perm_insertByDate p acc.1).append_left fresh).trans
          List.perm_middle)
      · exact hseen.trans List.perm_middle
      · exact List.cons_subset_cons p hsub
      · refine List.nodup_cons.2 ⟨fun hmem => ?_, hnodup⟩
        obtain ⟨c, hc, hhash⟩ := List.mem_map.1 hmem
        exact hnew c hc (hhash ▸ List.mem_cons_self)
      · exact List.forall_mem_cons.2
          ⟨hp, fun c hc hmem => hnew c hc (List.mem_cons_of_mem _ hmem)⟩
      · refine List.forall_mem_cons.2 ⟨hseen.symm.subset ?_, hall⟩
        exact List.mem_append_right _ List.mem_cons_self

/-- What holds while commits are collected: the pending ones are known and marked as seen, each
once, and only hashes of commits are marked. -/
structure Searching (r : Repository) (pending : List Commit) (seen : List String) : Prop where
  known : ∀ c ∈ pending, r.IsKnown c
  marked : ∀ c ∈ pending, c.hash ∈ seen
  nodup : (pending.map (·.hash)).Nodup
  nodup_seen : seen.Nodup
  hashes : seen ⊆ r.commits.map (·.hash)

theorem Searching.length_le {pending : List Commit} {seen : List String}
    (h : r.Searching pending seen) : seen.length ≤ r.commits.length := by
  have hle := (h.nodup_seen.subperm h.hashes).length_le
  rwa [List.length_map] at hle

/-- What happens when a commit is visited: the parents that have not been seen are marked, and they
are pending from then on. -/
structure Visits (r : Repository) (c : Commit) (pending : List Commit) (seen : List String)
    (pending' : List Commit) (seen' : List String) : Prop where
  pending_subset : pending ⊆ pending'
  seen_subset : seen ⊆ seen'
  fresh : ∀ d ∈ pending', d ∈ pending ∨ r.HasParent c d ∧ d.hash ∉ seen
  parents : ∀ p, r.HasParent c p → p.hash ∈ seen'
  marked : ∀ d, r.IsKnown d → d.hash ∈ seen' → d.hash ∈ seen ∨ d ∈ pending'
  length_eq : pending'.length + seen.length = pending.length + seen'.length
  searching : r.Searching pending' seen'

theorem Searching.visits {c : Commit} {pending : List Commit} {seen : List String}
    (h : r.Searching (c :: pending) seen) :
    r.Visits c pending seen ((r.parents c).foldl see (pending, seen)).1
      ((r.parents c).foldl see (pending, seen)).2 := by
  obtain ⟨fresh, hpending, hseen, hsub, hnodup, hnew, hall⟩ := exists_fresh (r.parents c)
    (pending, seen)
  generalize ((r.parents c).foldl see (pending, seen)).1 = pending' at *
  generalize ((r.parents c).foldl see (pending, seen)).2 = seen' at *
  have hrest : ∀ d ∈ pending, d.hash ∈ seen := fun d hd => h.marked d (List.mem_cons_of_mem c hd)
  have hknown : ∀ d ∈ pending', r.IsKnown d := by
    intro d hd
    rcases List.mem_append.1 (hpending.subset hd) with hd | hd
    · exact isKnown_of_hasParent (hsub hd)
    · exact h.known d (List.mem_cons_of_mem c hd)
  have hfresh : fresh ⊆ pending' := fun d hd => hpending.symm.subset (List.mem_append_left _ hd)
  -- no fresh commit has been seen, so none of the hashes comes twice
  have hdisjoint : (fresh.map (·.hash)).Disjoint seen := by
    intro hash hmem hold
    obtain ⟨d, hd, rfl⟩ := List.mem_map.1 hmem
    exact hnew d hd hold
  constructor
  case pending_subset => exact fun d hd => hpending.symm.subset (List.mem_append_right _ hd)
  case seen_subset => exact fun hash hhash => hseen.symm.subset (List.mem_append_right _ hhash)
  case fresh =>
    intro d hd
    rcases List.mem_append.1 (hpending.subset hd) with hd | hd
    · exact .inr ⟨hsub hd, hnew d hd⟩
    · exact .inl hd
  case parents => exact hall
  case marked =>
    intro d hd hhash
    rcases List.mem_append.1 (hseen.subset hhash) with hmem | hold
    · obtain ⟨e, he, hsame⟩ := List.mem_map.1 hmem
      rw [← (hknown e (hfresh he)).eq_of_hash hd hsame]
      exact .inr (hfresh he)
    · exact .inl hold
  case length_eq =>
    have hlength := hpending.length_eq
    have hlength' := hseen.length_eq
    simp only [List.length_append, List.length_map] at hlength hlength'
    omega
  case searching =>
    constructor
    case known => exact hknown
    case marked =>
      intro d hd
      refine hseen.symm.subset ?_
      rcases List.mem_append.1 (hpending.subset hd) with hd | hd
      · exact List.mem_append_left _ (List.mem_map_of_mem hd)
      · exact List.mem_append_right _ (hrest d hd)
    case nodup =>
      rw [(hpending.map _).nodup_iff, List.map_append]
      refine List.nodup_append'.2 ⟨hnodup, (List.nodup_cons.1 h.nodup).2, fun hash hmem hold => ?_⟩
      obtain ⟨d, hd, rfl⟩ := List.mem_map.1 hold
      exact hdisjoint hmem (hrest d hd)
    case nodup_seen =>
      rw [hseen.nodup_iff]
      exact List.nodup_append'.2 ⟨hnodup, h.nodup_seen, hdisjoint⟩
    case hashes =>
      intro hash hhash
      rcases List.mem_append.1 (hseen.subset hhash) with hmem | hold
      · obtain ⟨d, hd, rfl⟩ := List.mem_map.1 hmem
        exact List.mem_map_of_mem (hknown d (hfresh hd)).mem_commits
      · exact h.hashes hold

/-- What a search from some pending commits comes to: they and whatever parents have not been seen
are visited, each once. -/
structure IsVisit (r : Repository) (pending : List Commit) (seen : List String)
    (l : List Commit) : Prop where
  pending_subset : pending ⊆ l
  nodup : (l.map (·.hash)).Nodup
  fresh : ∀ c ∈ l, c ∈ pending ∨ c.hash ∉ seen
  closed : ∀ c ∈ l, ∀ p, r.HasParent c p → p.hash ∈ seen ∨ p ∈ l
  sound : ∀ c ∈ l, ∃ d ∈ pending, r.Reaches d c

theorem IsVisit.cons {c : Commit} {pending pending' l : List Commit} {seen seen' : List String}
    (h : r.Searching (c :: pending) seen) (hv : r.Visits c pending seen pending' seen')
    (hl : r.IsVisit pending' seen' l) : r.IsVisit (c :: pending) seen (c :: l) := by
  have hc : c.hash ∈ seen := h.marked c List.mem_cons_self
  have hclosed : ∀ p, r.IsKnown p → p.hash ∈ seen' → p.hash ∈ seen ∨ p ∈ c :: l :=
    fun p hp hhash => (hv.marked p hp hhash).imp_right fun hmem =>
      List.mem_cons_of_mem c (hl.pending_subset hmem)
  constructor
  case pending_subset =>
    exact List.cons_subset_cons c (List.Subset.trans hv.pending_subset hl.pending_subset)
  case nodup =>
    refine List.nodup_cons.2 ⟨fun hmem => ?_, hl.nodup⟩
    obtain ⟨d, hd, hhash⟩ := List.mem_map.1 hmem
    -- `c` has been seen, so it is neither visited again nor among what its parents add
    rcases hl.fresh d hd with hd | hd
    · rcases hv.fresh d hd with hold | ⟨-, hnew⟩
      · exact (List.nodup_cons.1 h.nodup).1 (hhash ▸ List.mem_map_of_mem hold)
      · exact hnew (hhash ▸ hc)
    · exact hd (hhash ▸ hv.seen_subset hc)
  case fresh =>
    refine List.forall_mem_cons.2 ⟨.inl List.mem_cons_self, fun d hd => ?_⟩
    rcases hl.fresh d hd with hd | hd
    · exact (hv.fresh d hd).imp (List.mem_cons_of_mem c) And.right
    · exact .inr fun hmem => hd (hv.seen_subset hmem)
  case closed =>
    refine List.forall_mem_cons.2
      ⟨fun p hp => hclosed p (isKnown_of_hasParent hp) (hv.parents p hp), fun d hd p hp => ?_⟩
    rcases hl.closed d hd p hp with hhash | hmem
    · exact hclosed p (isKnown_of_hasParent hp) hhash
    · exact .inr (List.mem_cons_of_mem c hmem)
  case sound =>
    refine List.forall_mem_cons.2 ⟨⟨c, List.mem_cons_self, .refl⟩, fun d hd => ?_⟩
    obtain ⟨e, he, hreach⟩ := hl.sound d hd
    rcases hv.fresh e he with hold | ⟨hparent, -⟩
    · exact ⟨e, List.mem_cons_of_mem c hold, hreach⟩
    · exact ⟨c, List.mem_cons_self, .head hparent hreach⟩

/-- As many steps as there are commits that are pending or not seen yet are enough. -/
theorem isVisit_visit : ∀ {n : Nat} {pending : List Commit} {seen : List String},
    r.Searching pending seen → r.commits.length + pending.length ≤ n + seen.length →
    r.IsVisit pending seen (visit r n pending seen)
  | n, [], seen, _, _ => by
    have hvisit : visit r n [] seen = [] := by cases n <;> rfl
    rw [hvisit]
    exact ⟨List.Subset.refl _, .nil, by simp, by simp, by simp⟩
  | 0, c :: pending, seen, h, hn => by
    -- no steps are left, so with `c` pending more would have been seen than there are
    have := h.length_le
    rw [List.length_cons] at hn
    omega
  | n + 1, c :: pending, seen, h, hn => by
    have hv := h.visits
    have hlength := hv.length_eq
    rw [List.length_cons] at hn
    exact IsVisit.cons h hv (isVisit_visit hv.searching (by omega))

section Reachable

variable {c d : Commit}

theorem searching_start (hc : r.IsKnown c) : r.Searching [c] [c.hash] where
  known _ hd := List.mem_singleton.1 hd ▸ hc
  marked _ hd := List.mem_singleton.1 hd ▸ List.mem_singleton_self _
  nodup := List.nodup_singleton _
  nodup_seen := List.nodup_singleton _
  hashes _ hd := List.mem_singleton.1 hd ▸ List.mem_map_of_mem hc.mem_commits

/-- Each commit that can be reached is collected once. -/
theorem nodup_reachable (hc : r.IsKnown c) : ((r.reachable c).map (·.hash)).Nodup :=
  (isVisit_visit (searching_start hc) (Nat.le_refl _)).nodup

/-- The commits that are collected are those that can be reached. -/
theorem mem_reachable_iff (hc : r.IsKnown c) : d ∈ r.reachable c ↔ r.Reaches c d := by
  have hvisit := isVisit_visit (searching_start hc) (Nat.le_refl _)
  have hstart : c ∈ r.reachable c := hvisit.pending_subset List.mem_cons_self
  constructor
  · intro hd
    obtain ⟨e, he, hreach⟩ := hvisit.sound d hd
    rwa [List.mem_singleton.1 he] at hreach
  · intro hreach
    induction hreach with
    | refl => exact hstart
    | tail _ hp ih =>
      rcases hvisit.closed _ ih _ hp with hhash | hmem
      · rwa [(isKnown_of_hasParent hp).eq_of_hash hc (List.mem_singleton.1 hhash)]
      · exact hmem

theorem reaches_iff (hc : r.IsKnown c) (hd : r.IsKnown d) :
    r.reaches c d = true ↔ r.Reaches c d := by
  rw [reaches, List.any_eq_true]
  constructor
  · rintro ⟨e, he, hhash⟩
    have hreach := (mem_reachable_iff hc).1 he
    rwa [(hreach.isKnown hc).eq_of_hash hd (beq_iff_eq.1 hhash)] at hreach
  · exact fun h => ⟨d, (mem_reachable_iff hc).2 h, beq_self_eq_true _⟩

theorem perm_inOrder (l : List Commit) : (inOrder l).Perm l := Heap.perm_drain isLater l

theorem mem_walk_iff (hc : r.IsKnown c) : d ∈ r.walk c ↔ r.Reaches c d :=
  (perm_inOrder _).mem_iff.trans (mem_reachable_iff hc)

theorem nodup_walk (hc : r.IsKnown c) : ((r.walk c).map (·.hash)).Nodup :=
  ((perm_inOrder _).map _).nodup_iff.2 (nodup_reachable hc)

end Reachable

/-! ## Common ancestors -/

/-- No commit is its own ancestor. -/
def IsAcyclic (r : Repository) : Prop := ∀ c, ¬ Relation.TransGen r.HasParent c c

/-- There is no way back to a commit if something gets less on the way to its parents. -/
theorem isAcyclic_of_rank (rank : Commit → Nat)
    (h : ∀ c ∈ r.commits, ∀ p ∈ r.parents c, rank p < rank c) : r.IsAcyclic := by
  have hless : ∀ {c d}, Relation.TransGen r.HasParent c d → c ∈ r.commits → rank d < rank c := by
    intro c d hway hc
    induction hway with
    | single hp => exact h c hc _ hp
    | @tail d p hway hp ih =>
      obtain ⟨e, -, hd⟩ := Relation.TransGen.tail'_iff.1 hway
      exact (h d (isKnown_of_hasParent hd).mem_commits p hp).trans ih
  intro c hway
  obtain ⟨e, -, hc⟩ := Relation.TransGen.tail'_iff.1 hway
  exact Nat.lt_irrefl _ (hless hway (isKnown_of_hasParent hc).mem_commits)

/-- A commit from which both come, and which is no ancestor of another such commit. -/
structure IsMergeBase (r : Repository) (c d base : Commit) : Prop where
  left : r.Reaches c base
  right : r.Reaches d base
  latest : ∀ e, r.Reaches c e → r.Reaches d e → r.Reaches e base → e = base

section MergeBase

variable {c d e : Commit}

theorem isMergeBase_of_mergeBase? (hc : r.IsKnown c) (hd : r.IsKnown d)
    (h : r.mergeBase? c d = some e) : r.IsMergeBase c d e := by
  have hbest := (perm_inOrder _).subset (List.mem_of_head? h)
  simp only [List.mem_filter, Bool.not_eq_true', List.any_eq_false, Bool.and_eq_true,
    bne_iff_ne, ne_eq, not_and] at hbest
  obtain ⟨⟨hleft, hright⟩, hlatest⟩ := hbest
  rw [mem_reachable_iff hc] at hleft
  have he := hleft.isKnown hc
  refine ⟨hleft, (reaches_iff hd he).1 hright, fun f hcf hdf hfe => ?_⟩
  have hf := hcf.isKnown hc
  by_contra hne
  refine hlatest f ⟨(mem_reachable_iff hc).2 hcf, (reaches_iff hd hf).2 hdf⟩ ?_
    ((reaches_iff hf he).2 hfe)
  exact fun hhash => hne (hf.eq_of_hash he hhash)

/-- An ancestor reaches fewer commits. -/
theorem length_reachable_lt (hacyclic : r.IsAcyclic) (hc : r.IsKnown c) (h : r.Reaches c d)
    (hne : c ≠ d) : (r.reachable d).length < (r.reachable c).length := by
  have hd := h.isKnown hc
  have hnot : c ∉ r.reachable d := by
    intro hmem
    obtain h | ⟨b, hcb, hbd⟩ := h.cases_head
    · exact hne h
    · exact hacyclic c (.head' hcb (hbd.trans ((mem_reachable_iff hd).1 hmem)))
  have hsub : c :: r.reachable d ⊆ r.reachable c := by
    refine List.cons_subset.2 ⟨(mem_reachable_iff hc).2 .refl, fun e he => ?_⟩
    exact (mem_reachable_iff hc).2 (h.trans ((mem_reachable_iff hd).1 he))
  exact ((List.nodup_cons.2 ⟨hnot, (nodup_reachable hd).of_map _⟩).subperm hsub).length_le

/-- Commits that have an ancestor in common have a latest one. -/
theorem mergeBase?_isSome (hacyclic : r.IsAcyclic) (hc : r.IsKnown c) (hd : r.IsKnown d)
    (hleft : r.Reaches c e) (hright : r.Reaches d e) : (r.mergeBase? c d).isSome := by
  have hcommon : ∀ f, f ∈ (r.reachable c).filter (fun e => r.reaches d e) ↔
      r.Reaches c f ∧ r.Reaches d f := by
    intro f
    rw [List.mem_filter, mem_reachable_iff hc]
    exact and_congr_right fun hf => reaches_iff hd (hf.isKnown hc)
  unfold mergeBase?
  dsimp only
  generalize (r.reachable c).filter (fun e => r.reaches d e) = common at hcommon
  -- none of the others leads to the one that reaches most
  obtain ⟨f, hf⟩ : ∃ f, f ∈ common.argmax fun g => (r.reachable g).length := by
    refine Option.ne_none_iff_exists'.1 fun hnone => ?_
    rw [List.argmax_eq_none] at hnone
    exact List.ne_nil_of_mem ((hcommon e).2 ⟨hleft, hright⟩) hnone
  have hmem := List.argmax_mem hf
  obtain ⟨hcf, hdf⟩ := (hcommon f).1 hmem
  have hbest : f ∈ common.filter
      fun e => !common.any fun f => f.hash != e.hash && r.reaches f e := by
    simp only [List.mem_filter, Bool.not_eq_true', List.any_eq_false, Bool.and_eq_true,
      bne_iff_ne, ne_eq, not_and]
    refine ⟨hmem, fun g hg hhash hreaches => ?_⟩
    have hknown := ((hcommon g).1 hg).1.isKnown hc
    have hgf := (reaches_iff hknown (hcf.isKnown hc)).1 hreaches
    have hle := List.le_of_mem_argmax (f := fun g => (r.reachable g).length) hg hf
    exact Nat.not_lt.2 hle (length_reachable_lt hacyclic hknown hgf fun h => hhash (h ▸ rfl))
  rw [List.isSome_head?]
  exact List.ne_nil_of_mem ((perm_inOrder _).symm.subset hbest)

end MergeBase

end Repository

end CodeGraph.Git
