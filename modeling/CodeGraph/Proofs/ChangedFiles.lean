import CodeGraph.Proofs.Deltas
import CodeGraph.Proofs.TextPaths
import CodeGraph.Proofs.Walks

/-!
# Changed files

The files that differ from a base are those that differ from the last commit in common with it. The
result follows from the two snapshots alone: whichever files a comparison pairs as renamed, the old
path counts as deleted and the new one as modified, each if it is a source by itself
(`changedFiles_since_base`). A path is never both, unless two paths have the same text.
-/

namespace CodeGraph.Git

open Files (Location)

section Selection

variable {absolute : Location → String} {keep : String → Bool} {l : List Delta} {t : String}

theorem mem_modified : t ∈ (changedBy absolute keep l).modified ↔
    keep t = true ∧ ∃ p, p ∈ l.filterMap Delta.newPath? ∧ absolute p = t := by
  rw [changedBy, Text.mem_ascending, List.mem_filter, List.mem_map, and_comm]

theorem mem_deleted : t ∈ (changedBy absolute keep l).deleted ↔
    keep t = true ∧ ∃ p, p ∈ l.filterMap Delta.oldPath? ∧ absolute p = t := by
  rw [changedBy, Text.mem_ascending, List.mem_filter, List.mem_map, and_comm]

end Selection

namespace Repository

variable {r : Repository} {c d : Commit}

/-! ## Commits that are named -/

theorem isKnown_of_named? {name : String} (h : r.named? name = some c) : r.IsKnown c := by
  unfold named? at h
  split at h
  · exact isKnown_of_headCommit? h
  · rcases Option.or_eq_some_iff.1 h with h | ⟨-, h⟩
    · exact isKnown_of_commit? h
    · obtain ⟨hash, -, h⟩ := Option.bind_eq_some_iff.1 h
      exact isKnown_of_commit? h

theorem isKnown_of_back? {n : Nat} (hc : r.IsKnown c) (h : r.back? c n = some d) :
    r.IsKnown d := by
  induction n generalizing c with
  | zero => rwa [← Option.some.inj h]
  | succ n ih =>
    obtain ⟨p, hp, h⟩ := Option.bind_eq_some_iff.1 h
    exact ih (isKnown_of_hasParent (List.mem_of_head? hp)) h

theorem isKnown_of_follow? {s : Step} (hc : r.IsKnown c) (h : r.follow? c s = some d) :
    r.IsKnown d := by
  cases s with
  | back n => exact isKnown_of_back? hc h
  | parent n =>
    cases n with
    | zero => rwa [← Option.some.inj h]
    | succ n => exact isKnown_of_hasParent (List.mem_of_getElem? h)

theorem isKnown_of_resolve? {expression : String} (h : r.resolve? expression = some c) :
    r.IsKnown c := by
  obtain ⟨revision, -, h⟩ := Option.bind_eq_some_iff.1 h
  obtain ⟨start, hstart, h⟩ := Option.bind_eq_some_iff.1 h
  have hknown := isKnown_of_named? hstart
  clear hstart
  generalize revision.steps = steps at h
  induction steps generalizing start with
  | nil => rwa [← Option.some.inj h]
  | cons s steps ih =>
    obtain ⟨d, hd, h⟩ := Option.bind_eq_some_iff.1 h
    exact ih d (isKnown_of_follow? hknown hd) h

/-! ## Changed files -/

section ChangedFiles

variable {base : String} {compare : Snapshot → Snapshot → List Delta} {b head : Commit}
  (cwd root sourceRoot : String) (extensions : List String)

theorem changedFiles_eq (hbase : r.resolve? base = some b) (hhead : r.headCommit? = some head) :
    r.changedFiles cwd root compare base sourceRoot extensions =
      match r.mergeBase? b head with
      | none => .error .unrelated
      | some common => .ok (changedBy (absolutePath cwd root) (isSource cwd sourceRoot extensions)
          (compare common.snapshot head.snapshot)) := by
  have hends : r.ends base = .ok (b, head) := by rw [ends, hbase, hhead]
  simp only [changedFiles, hends, bind, Except.bind]
  cases r.mergeBase? b head <;> rfl

/-- Let a comparison pair deleted files with added ones as it likes. Then the files that differ from
a base are found whenever the base and the present have a commit in common: the sources that the
present has and that the last common commit has not, or not with the same content, are modified, and
those that only the common commit has are deleted. No path is both if paths that differ have
different texts, as those that are UTF-8 without backslashes do. -/
theorem changedFiles_since_base (hcompare : IsComparison compare)
    (hregular : ∀ c ∈ r.commits, IsRegular c.snapshot) (hacyclic : r.IsAcyclic)
    (hbase : r.resolve? base = some b) (hhead : r.headCommit? = some head) :
    (∀ e, r.Reaches b e → ¬ r.Reaches head e) ∧
      r.changedFiles cwd root compare base sourceRoot extensions = .error .unrelated ∨
    ∃ common changed, r.IsMergeBase b head common ∧
      r.changedFiles cwd root compare base sourceRoot extensions = .ok changed ∧
      changed.modified.Pairwise (· < ·) ∧ changed.deleted.Pairwise (· < ·) ∧
      (∀ t, t ∈ changed.modified ↔ isSource cwd sourceRoot extensions t = true ∧
        ∃ p, head.snapshot.lookup p ≠ none ∧ common.snapshot.lookup p ≠ head.snapshot.lookup p ∧
          absolutePath cwd root p = t) ∧
      (∀ t, t ∈ changed.deleted ↔ isSource cwd sourceRoot extensions t = true ∧
        ∃ p, common.snapshot.lookup p ≠ none ∧ head.snapshot.lookup p = none ∧
          absolutePath cwd root p = t) ∧
      (TellsApart (absolutePath cwd root) common.snapshot head.snapshot →
        changed.modified.Disjoint changed.deleted) ∧
      (HasTextPaths common.snapshot → HasTextPaths head.snapshot →
        TellsApart (absolutePath cwd root) common.snapshot head.snapshot) := by
  have hb := isKnown_of_resolve? hbase
  have hh := isKnown_of_headCommit? hhead
  rw [changedFiles_eq cwd root sourceRoot extensions hbase hhead]
  rcases hcommon : r.mergeBase? b head with _ | common
  · refine .inl ⟨fun e hleft hright => ?_, rfl⟩
    have hsome := mergeBase?_isSome hacyclic hb hh hleft hright
    rw [hcommon] at hsome
    cases hsome
  · have hmergeBase := isMergeBase_of_mergeBase? hb hh hcommon
    have hbefore := hregular common (hmergeBase.left.isKnown hb).mem_commits
    have hafter := hregular head hh.mem_commits
    have hmodified : ∀ t, t ∈ (changedBy (absolutePath cwd root)
        (isSource cwd sourceRoot extensions)
        (compare common.snapshot head.snapshot)).modified ↔ _ := fun t => mem_modified
    have hdeleted : ∀ t, t ∈ (changedBy (absolutePath cwd root)
        (isSource cwd sourceRoot extensions)
        (compare common.snapshot head.snapshot)).deleted ↔ _ := fun t => mem_deleted
    simp only [hcompare.mem_newPaths hbefore hafter, hcompare.mem_oldPaths hbefore hafter,
      and_assoc] at hmodified hdeleted
    refine .inr ⟨common, _, hmergeBase, rfl, Text.pairwise_ascending _, Text.pairwise_ascending _,
      hmodified, hdeleted, fun hapart t ht ht' => ?_,
      fun hs ht => hs.tellsApart_absolutePath ht _ _⟩
    obtain ⟨-, q, hq, -, rfl⟩ := (hmodified t).1 ht
    obtain ⟨-, p, hp, hgone, hsame⟩ := (hdeleted _).1 ht'
    exact hq (hapart p q hp hq hsame ▸ hgone)

/-- Two branches. On the one that is checked out a file has been moved out of `src`. -/
def branched : Repository where
  commits := [
    ⟨"c2", ["c0"], [textFile ["lib", "a.cs"] "class A", textFile ["src", "b.cs"] "class C"],
      "A", "a@x", 30, ""⟩,
    ⟨"c1", ["c0"], [textFile ["src", "a.cs"] "class D"], "A", "a@x", 20, ""⟩,
    ⟨"c0", [], [textFile ["src", "a.cs"] "class A", textFile ["src", "b.cs"] "class B"],
      "A", "a@x", 10, ""⟩]
  branches := [("master", "c2"), ("other", "c1")]

theorem changedFiles_since_base_of_branched :
    let changed : ChangedFiles := ⟨["/w/src/b.cs"], ["/w/src/a.cs"]⟩
    IsComparison pairFirst ∧ (∀ c ∈ branched.commits, IsRegular c.snapshot) ∧
      branched.IsAcyclic ∧ (branched.resolve? "other").isSome ∧ branched.headCommit?.isSome ∧
      branched.changedFiles "/" "/w" pairFirst "other" "/w/src" [".cs"] = .ok changed ∧
      changed.modified.Disjoint changed.deleted := by
  intro changed
  have hregular : ∀ c ∈ branched.commits, IsRegular c.snapshot := by decide +kernel
  have htext : ∀ c ∈ branched.commits, HasTextPaths c.snapshot := by decide +kernel
  have hacyclic : branched.IsAcyclic :=
    isAcyclic_of_rank (fun c => c.time.toNat) (by decide +kernel)
  have hbase : (branched.resolve? "other").isSome := by decide +kernel
  have hhead : branched.headCommit?.isSome := by decide +kernel
  have hchanged : branched.changedFiles "/" "/w" pairFirst "other" "/w/src" [".cs"] =
      .ok changed := by decide +kernel
  refine ⟨isComparison_pairFirst, hregular, hacyclic, hbase, hhead, hchanged, ?_⟩
  obtain ⟨b, hb⟩ := Option.isSome_iff_exists.1 hbase
  obtain ⟨head, hh⟩ := Option.isSome_iff_exists.1 hhead
  obtain ⟨-, h⟩ | ⟨common, changed', hmergeBase, h, -, -, -, -, hdisjoint, hapart⟩ :=
    changedFiles_since_base "/" "/w" "/w/src" [".cs"] isComparison_pairFirst hregular hacyclic hb hh
  · rw [hchanged] at h
    cases h
  · rw [hchanged] at h
    obtain rfl := Except.ok.inj h
    have hcommon := (hmergeBase.left.isKnown (isKnown_of_resolve? hb)).mem_commits
    have hpresent := (isKnown_of_headCommit? hh).mem_commits
    exact hdisjoint (hapart (htext _ hcommon) (htext _ hpresent))

/-- A file whose name is no UTF-8 gives way to one whose name is the text that stands for it. -/
def replaced : Repository where
  commits := [
    ⟨"c1", ["c0"], [textFile ["a\uFFFD.cs"] "struct S"], "A", "a@x", 20, ""⟩,
    ⟨"c0", [], [([[0x61, 0xff, 0x2e, 0x63, 0x73]], .file (Text.encode "class A"))],
      "A", "a@x", 10, ""⟩]
  branches := [("master", "c1")]

/-- Bytes that are no UTF-8 are replaced, so a path that is deleted and one that is added may have
the same text, although no name has a backslash. -/
theorem modified_and_deleted_of_replaced :
    IsComparison deltas ∧ (∀ c ∈ replaced.commits, IsRegular c.snapshot) ∧
      (∀ c ∈ replaced.commits, ∀ x ∈ c.snapshot, ∀ n ∈ x.1, 0x5c ∉ n) ∧ replaced.IsAcyclic ∧
      (replaced.resolve? "c0").isSome ∧ replaced.headCommit?.isSome ∧
      ∃ changed, replaced.changedFiles "/" "/w" deltas "c0" "/w" [".cs"] = .ok changed ∧
        ¬ changed.modified.Disjoint changed.deleted := by
  refine ⟨isComparison_deltas, by decide +kernel, by decide +kernel,
    isAcyclic_of_rank (fun c => c.time.toNat) (by decide +kernel), by decide +kernel,
    by decide +kernel, ⟨["/w/a\uFFFD.cs"], ["/w/a\uFFFD.cs"]⟩, by decide +kernel, ?_⟩
  exact fun h => h List.mem_cons_self List.mem_cons_self

end ChangedFiles

end Repository

end CodeGraph.Git
