import CodeGraph.Proofs.ChangedFiles
import CodeGraph.Proofs.Touches

/-!
# The history of single files

The index is made by one walk over all that can be reached. Under a path it has the commits that
touched it, merges apart: those whose snapshot differs there from that of their parent, or from
nothing if they have none. The history of a file sums these up (`fileHistory_of_commits`). Paths are
compared as text, so where different paths have the same text their commits are mixed up.
-/

namespace CodeGraph.Git

open Files (Location)

namespace Repository

variable {r : Repository} {c d : Commit} {t : String}

/-! ## Touched paths -/

theorem isRegular_before (hregular : ∀ c ∈ r.commits, IsRegular c.snapshot) (c : Commit) :
    IsRegular (r.before c) := by
  unfold before
  rcases hparents : (r.parents c).head? with _ | p
  · exact fun x hx => nomatch hx
  · exact hregular p (isKnown_of_hasParent (List.mem_of_head? hparents)).mem_commits

/-- The paths at which the snapshot of a commit differs from what it started from. -/
def changedPaths (r : Repository) (c : Commit) : List Location :=
  (deltas (r.before c) c.snapshot).map Delta.path

theorem touchedPaths_eq (c : Commit) : r.touchedPaths c =
    if c.parents.length ≤ 1 then (r.changedPaths c).map touchText else [] := by
  rw [changedPaths, List.map_map]
  unfold touchedPaths
  rcases c.parents with _ | ⟨p, _ | ⟨q, parents⟩⟩
  · rfl
  · rfl
  · simp

section Touched

variable (hregular : ∀ c ∈ r.commits, IsRegular c.snapshot) (hc : c ∈ r.commits)

include hregular hc

theorem mem_changedPaths {p : Location} :
    p ∈ r.changedPaths c ↔ (r.before c).lookup p ≠ c.snapshot.lookup p :=
  mem_path_deltas (isRegular_before hregular c) (hregular c hc)

/-- A commit that is no merge touches the paths at which its snapshot differs from what it started
from. -/
theorem mem_touchedPaths : t ∈ r.touchedPaths c ↔ c.parents.length ≤ 1 ∧
    ∃ p, touchText p = t ∧ (r.before c).lookup p ≠ c.snapshot.lookup p := by
  rw [touchedPaths_eq]
  split_ifs with hlength
  · simp only [List.mem_map, mem_changedPaths hregular hc, hlength, true_and, and_comm]
  · simp [hlength]

/-- A path that a commit changes is one of its own or of its parent. -/
theorem exists_holder {p : Location} (hp : p ∈ r.changedPaths c) :
    ∃ d ∈ r.commits, d.snapshot.lookup p ≠ none := by
  rw [mem_changedPaths hregular hc] at hp
  by_cases hown : c.snapshot.lookup p = none
  · rw [hown, before] at hp
    rcases hparents : (r.parents c).head? with _ | d
    · rw [hparents] at hp
      exact absurd rfl hp
    · rw [hparents] at hp
      exact ⟨d, (isKnown_of_hasParent (List.mem_of_head? hparents)).mem_commits, hp⟩
  · exact ⟨c, hc, hown⟩

end Touched

/-- Among the paths of all commits, at most one has the text. -/
def HasOnePath (r : Repository) (t : String) : Prop :=
  ∀ c ∈ r.commits, ∀ d ∈ r.commits, ∀ p q, c.snapshot.lookup p ≠ none → d.snapshot.lookup q ≠ none →
    touchText p = t → touchText q = t → p = q

theorem hasOnePath_of_text (h : ∀ c ∈ r.commits, HasTextPaths c.snapshot) (t : String) :
    r.HasOnePath t := fun c hc d hd p q hp hq hpt hqt =>
  (h c hc).tellsApart_touchText (h d hd) p q hp hq (hpt.trans hqt.symm)

theorem length_le_one {l : List Location} (hnodup : l.Nodup) (hsame : ∀ p ∈ l, ∀ q ∈ l, p = q) :
    l.length ≤ 1 := by
  rcases l with _ | ⟨p, _ | ⟨q, l⟩⟩
  · exact Nat.zero_le 1
  · exact Nat.le_refl 1
  · obtain rfl : p = q := hsame p (by simp) q (by simp)
    simp at hnodup

theorem count_touchedPaths_le (hregular : ∀ c ∈ r.commits, IsRegular c.snapshot)
    (hone : r.HasOnePath t) (hc : c ∈ r.commits) : (r.touchedPaths c).count t ≤ 1 := by
  rw [touchedPaths_eq]
  split_ifs
  · have hnodup : (r.changedPaths c).Nodup :=
      nodup_path_deltas (isRegular_before hregular c) (hregular c hc)
    rw [List.count_eq_countP, List.countP_map, List.countP_eq_length_filter]
    -- changed paths are paths of commits, so two of them with the text are the same
    refine length_le_one (hnodup.filter _) fun p hp q hq => ?_
    simp only [List.mem_filter, Function.comp_apply, beq_iff_eq] at hp hq
    obtain ⟨d, hd, hpd⟩ := exists_holder hregular hc hp.1
    obtain ⟨e, he, hqe⟩ := exists_holder hregular hc hq.1
    exact hone d hd e he p q hpd hqe hp.2 hq.2
  · simp

/-! ## The index -/

/-- The commits of a list that touch a path. -/
def touching (r : Repository) (t : String) (l : List Commit) : List Commit :=
  l.filter fun c => (r.touchedPaths c).contains t

/-- Under a path the index has the commits that touch it, as often as they do. -/
theorem filter_touchesOf (t : String) (l : List Commit) :
    ((r.touchesOf l).filter (·.1 == t)).map (·.2) =
      l.flatMap fun c => List.replicate ((r.touchedPaths c).count t) (r.touch c) := by
  have hcommit : ∀ c,
      (((r.touchedPaths c).map fun p => (p, r.touch c)).filter (·.1 == t)).map (·.2) =
        List.replicate ((r.touchedPaths c).count t) (r.touch c) := by
    intro c
    rw [List.filter_map, List.map_map]
    show ((r.touchedPaths c).filter (· == t)).map (fun _ => r.touch c) = _
    rw [List.filter_beq, List.map_replicate]
  rw [touchesOf, List.filter_flatMap, List.map_flatMap]
  exact congrArg (l.flatMap ·) (funext hcommit)

/-- If no two paths have the same text, each commit touches a path at most once. -/
theorem filter_touchesOf_eq (hregular : ∀ c ∈ r.commits, IsRegular c.snapshot)
    (hone : r.HasOnePath t) {l : List Commit} (hl : l ⊆ r.commits) :
    ((r.touchesOf l).filter (·.1 == t)).map (·.2) = (r.touching t l).map r.touch := by
  rw [filter_touchesOf, touching]
  induction l with
  | nil => rfl
  | cons c l ih =>
    obtain ⟨hc, hl⟩ := List.cons_subset.1 hl
    have hcount := count_touchedPaths_le hregular hone hc
    rw [List.flatMap_cons, ih hl, List.filter_cons]
    split_ifs with hmem
    · have hpos := List.count_pos_iff.2 (List.contains_iff_mem.1 hmem)
      rw [show (r.touchedPaths c).count t = 1 by omega]
      rfl
    · rw [List.count_eq_zero.2 fun h => hmem (List.contains_iff_mem.2 h)]
      rfl

/-! ## All that can be reached -/

theorem mem_past : c ∈ r.past ↔ ∃ head, r.headCommit? = some head ∧ r.Reaches head c := by
  unfold past
  rcases hhead : r.headCommit? with _ | head
  · simp
  · simp [mem_walk_iff (isKnown_of_headCommit? hhead)]

theorem isKnown_of_mem_past (h : c ∈ r.past) : r.IsKnown c := by
  obtain ⟨head, hhead, hreach⟩ := mem_past.1 h
  exact hreach.isKnown (isKnown_of_headCommit? hhead)

theorem nodup_past : (r.past.map (·.hash)).Nodup := by
  unfold past
  split
  · exact .nil
  · exact nodup_walk (isKnown_of_headCommit? ‹_›)

theorem mem_tagsOn (hc : r.IsKnown c) :
    t ∈ r.tagsOn c ↔ ∃ hash, (t, hash) ∈ r.tags ∧ r.commit? hash = some c := by
  have hsame : ∀ hash, (r.commit? hash).any (·.hash == c.hash) = true ↔
      r.commit? hash = some c := by
    intro hash
    rcases hfound : r.commit? hash with _ | d
    · simp
    · have hd := isKnown_of_commit? hfound
      simp only [Option.any_some, beq_iff_eq, Option.some.injEq]
      exact ⟨fun h => hd.eq_of_hash hc h, fun h => h ▸ rfl⟩
  simp [tagsOn, hsame]

end Repository

namespace OpenRepository

variable {r : Repository} {made : Option Index} {cwd root path relative : String}

theorem fileHistory_eq (hmade : ∀ index ∈ made, index = r.index)
    (hpath : Path.relative? cwd root path = some relative) :
    ((history cwd root).fileHistory path ⟨r, made⟩).1 = some (fileHistory r.index relative) := by
  have hindex : made.getD r.index = r.index := by
    rcases made with _ | index
    · rfl
    · exact hmade index rfl
  simp only [history, hpath, indexed, hindex]

/-- Let the trees have no links, and let no two paths have the text of the path that is asked for.
Then the history of the file sums up commits that come in the order of the walk, each once: those of
the past, merges apart, whose snapshot differs at the path from that of the parent, or from nothing
if there is no parent. The tags are those that lead to one of them. In any other order of the past
the sum is the same, the order of the hashes apart. -/
theorem fileHistory_of_commits (hmade : ∀ index ∈ made, index = r.index)
    (hregular : ∀ c ∈ r.commits, IsRegular c.snapshot)
    (hpath : Path.relative? cwd root path = some relative) (hone : r.HasOnePath relative) :
    ∃ (h : FileHistory) (commits : List Commit),
      ((history cwd root).fileHistory path ⟨r, made⟩).1 = some h ∧
      commits.Sublist r.past ∧ (commits.map (·.hash)).Nodup ∧
      (∀ c, c ∈ commits ↔ (∃ head, r.headCommit? = some head ∧ r.Reaches head c) ∧
        c.parents.length ≤ 1 ∧
        ∃ p, touchText p = relative ∧ (r.before c).lookup p ≠ c.snapshot.lookup p) ∧
      h.IsSummary (commits.map r.touch) ∧
      (∀ t, t ∈ h.tags ↔
        ∃ c ∈ commits, ∃ hash, (t, hash) ∈ r.tags ∧ r.commit? hash = some c) ∧
      ∀ walk, walk.Perm r.past →
        { fileHistory (r.touchesOf walk) relative with commitHashes := [] } =
          { h with commitHashes := [] } := by
  have hpast : r.past ⊆ r.commits := fun c hc => (Repository.isKnown_of_mem_past hc).mem_commits
  -- only one path has the text, so no commit is listed twice under it
  have htouches := Repository.filter_touchesOf_eq hregular hone hpast
  have hsummary : (fileHistory r.index relative).IsSummary
      ((r.touching relative r.past).map r.touch) := by
    rw [fileHistory, Repository.index, htouches]
    exact FileHistory.isSummary_ofTouches _
  have hsublist : (r.touching relative r.past).Sublist r.past := List.filter_sublist
  refine ⟨fileHistory r.index relative, r.touching relative r.past, fileHistory_eq hmade hpath,
    hsublist, Repository.nodup_past.sublist (hsublist.map _), fun c => ?_, hsummary, fun t => ?_,
    fun walk hwalk => ?_⟩
  · rw [Repository.touching, List.mem_filter, List.contains_iff_mem, ← Repository.mem_past]
    exact and_congr_right fun hc => Repository.mem_touchedPaths hregular (hpast hc)
  · simp only [hsummary.mem_tags, List.mem_map, exists_exists_and_eq_and]
    refine exists_congr fun c => and_congr_right fun hc => ?_
    exact Repository.mem_tagsOn (Repository.isKnown_of_mem_past (hsublist.subset hc))
  · refine FileHistory.ofTouches_perm (List.Perm.map _ (List.Perm.filter _ ?_))
    exact hwalk.flatMap_right _

/-- Two branches that have been merged. The first commit claims to be later than those after it, and
the file is gone at the end. -/
def merged : Repository :=
  let a := textFile ["src", "a.cs"]
  let b := textFile ["src", "b.cs"] "class B"
  { commits := [
      ⟨"c4", ["c3"], [b], "A", "a@x", 50, ""⟩,
      ⟨"c3", ["c1", "c2"], [a "class C", b], "A", "a@x", 40, ""⟩,
      ⟨"c2", ["c0"], [a "class A", b], "A", "a@x", 25, ""⟩,
      ⟨"c1", ["c0"], [a "class C"], "B", "b@x", 20, ""⟩,
      ⟨"c0", [], [a "class A"], "A", "a@x", 30, ""⟩]
    branches := [("master", "c4")]
    tags := [("v3", "c4"), ("v2", "c3"), ("v1", "c1"), ("v0", "c1")] }

theorem fileHistory_of_commits_of_merged :
    let h : FileHistory := {
      created := some ⟨20, 0⟩
      lastModified := some ⟨50, 0⟩
      authors := [⟨"A", ⟨30, 0⟩, ⟨50, 0⟩, 2⟩, ⟨"B", ⟨20, 0⟩, ⟨20, 0⟩, 1⟩]
      commitHashes := ["c4", "c0", "c1"]
      tags := ["v0", "v1", "v3"] }
    (∀ c ∈ merged.commits, IsRegular c.snapshot) ∧ merged.HasOnePath "src/a.cs" ∧
      Path.relative? "/" "/w" "/w/src/a.cs" = some "src/a.cs" ∧
      ((history "/" "/w").fileHistory "/w/src/a.cs" ⟨merged, none⟩).1 = some h ∧
      (∃ commits : List Commit, h.IsSummary (commits.map merged.touch)) ∧
      ∀ walk, walk.Perm merged.past →
        { fileHistory (merged.touchesOf walk) "src/a.cs" with commitHashes := [] } =
          { h with commitHashes := [] } := by
  intro h
  have hregular : ∀ c ∈ merged.commits, IsRegular c.snapshot := by decide +kernel
  have htext : ∀ c ∈ merged.commits, HasTextPaths c.snapshot := by decide +kernel
  have hone := Repository.hasOnePath_of_text htext "src/a.cs"
  have hpath : Path.relative? "/" "/w" "/w/src/a.cs" = some "src/a.cs" := by decide +kernel
  have hfound : ((history "/" "/w").fileHistory "/w/src/a.cs" ⟨merged, none⟩).1 = some h := by
    decide +kernel
  have hmade : ∀ index ∈ (none : Option Index), index = merged.index := fun _ h => nomatch h
  obtain ⟨h', commits, hfound', -, -, -, hsummary, -, hany⟩ :=
    fileHistory_of_commits hmade hregular hpath hone
  rw [hfound] at hfound'
  obtain rfl := Option.some.inj hfound'
  exact ⟨hregular, hone, hpath, hfound, ⟨commits, hsummary⟩, hany⟩

/-- A file whose name is no UTF-8, and after it one whose name is the text that stands for it. -/
def respelled : Repository :=
  let first := ([[0x61, 0xff, 0x2e, 0x63, 0x73]], .file (Text.encode "class A"))
  { commits := [
      ⟨"c1", ["c0"], [first, textFile ["a\uFFFD.cs"] "struct S"], "A", "a@x", 20, ""⟩,
      ⟨"c0", [], [first], "A", "a@x", 10, ""⟩]
    branches := [("master", "c1")] }

/-- A commit that does not touch a path is in its history if it touches another with the same text,
although no name has a backslash. -/
theorem untouched_in_history_of_respelled :
    (∀ c ∈ respelled.commits, IsRegular c.snapshot) ∧
      (∀ c ∈ respelled.commits, ∀ x ∈ c.snapshot, ∀ n ∈ x.1, 0x5c ∉ n) ∧
      Path.relative? "/" "/w" "/w/a\uFFFD.cs" = some "a\uFFFD.cs" ∧
      (∃ c ∈ respelled.commits, c.hash = "c0" ∧
        (respelled.before c).lookup [Text.encode "a\uFFFD.cs"] =
          c.snapshot.lookup [Text.encode "a\uFFFD.cs"]) ∧
      ((history "/" "/w").fileHistory "/w/a\uFFFD.cs" ⟨respelled, none⟩).1.map (·.commitHashes) =
        some ["c1", "c0"] :=
  ⟨by decide +kernel, by decide +kernel, by decide +kernel, by decide +kernel, by decide +kernel⟩

end OpenRepository

end CodeGraph.Git
