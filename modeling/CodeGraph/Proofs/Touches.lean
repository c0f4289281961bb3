import CodeGraph.History.Touch
import Mathlib.Algebra.BigOperators.Group.List.Lemmas
import Mathlib.Algebra.GroupWithZero.Nat
import Mathlib.Data.List.Dedup
import Mathlib.Data.List.Perm.Basic
import Mathlib.Order.Basic

/-!
# What touches come to

The past of a file sums up the commits that touched it (`FileHistory.isSummary_ofTouches`). Only the
hashes depend on the order in which the commits are told: the least and the greatest time, the
authors with their counts and the tags are the same for any order (`FileHistory.ofTouches_perm`).
-/

namespace CodeGraph

/-! ## The earliest and the latest -/

namespace Time.Instant

variable {i j k : Instant}

theorem le_iff : i.le j = true ↔
    i.seconds < j.seconds ∨ i.seconds = j.seconds ∧ i.nanos ≤ j.nanos := by
  simp [Instant.le]

theorem le_refl (i : Instant) : i.le i = true := le_iff.2 (.inr ⟨rfl, Nat.le_refl _⟩)

theorem le_trans (hij : i.le j = true) (hjk : j.le k = true) : i.le k = true := by
  rw [le_iff] at *
  omega

theorem le_of_not_le (h : ¬ i.le j = true) : j.le i = true := by
  rw [le_iff] at *
  omega

theorem le_antisymm (hij : i.le j = true) (hji : j.le i = true) : i = j := by
  rw [le_iff] at *
  obtain ⟨s, n⟩ := i
  obtain ⟨s', n'⟩ := j
  simp only [Instant.mk.injEq] at *
  omega

end Time.Instant

open Time (Instant)

/-- The time is one of the times, and none is before it. -/
def IsEarliest (t : Instant) (l : List Instant) : Prop := t ∈ l ∧ ∀ u ∈ l, t.le u = true

/-- The time is one of the times, and none is after it. -/
def IsLatest (t : Instant) (l : List Instant) : Prop := t ∈ l ∧ ∀ u ∈ l, u.le t = true

section Times

variable {t u first : Instant} {l m rest : List Instant}

theorem IsEarliest.eq (ht : IsEarliest t l) (hu : IsEarliest u l) : t = u :=
  Time.Instant.le_antisymm (ht.2 u hu.1) (hu.2 t ht.1)

theorem IsLatest.eq (ht : IsLatest t l) (hu : IsLatest u l) : t = u :=
  Time.Instant.le_antisymm (hu.2 t ht.1) (ht.2 u hu.1)

theorem isEarliest_perm (h : l.Perm m) : IsEarliest t l ↔ IsEarliest t m := by
  simp only [IsEarliest, h.mem_iff]

theorem isLatest_perm (h : l.Perm m) : IsLatest t l ↔ IsLatest t m := by
  simp only [IsLatest, h.mem_iff]

theorem IsEarliest.of_cons (h : IsEarliest t (u :: l)) (hu : u ∈ l) : IsEarliest t l :=
  ⟨List.mem_of_mem_cons_of_mem h.1 hu, (List.forall_mem_cons.1 h.2).2⟩

theorem IsLatest.of_cons (h : IsLatest t (u :: l)) (hu : u ∈ l) : IsLatest t l :=
  ⟨List.mem_of_mem_cons_of_mem h.1 hu, (List.forall_mem_cons.1 h.2).2⟩

/-- Picking one of two again and again leaves one that is related to all. -/
theorem foldl_pick {R : Instant → Instant → Prop} {pick : Instant → Instant → Instant}
    (hrefl : ∀ i, R i i) (htrans : ∀ {i j k}, R i j → R j k → R i k)
    (hpick : ∀ i j, (pick i j = i ∨ pick i j = j) ∧ R (pick i j) i ∧ R (pick i j) j) :
    ∀ rest first, rest.foldl pick first ∈ first :: rest ∧
      ∀ u ∈ first :: rest, R (rest.foldl pick first) u := by
  intro rest
  induction rest with
  | nil => exact fun first => ⟨List.mem_cons_self, fun u hu => List.mem_singleton.1 hu ▸ hrefl _⟩
  | cons v rest ih =>
    intro first
    obtain ⟨hmem, hall⟩ := ih (pick first v)
    obtain ⟨heq, hfirst, hv⟩ := hpick first v
    obtain ⟨hpicked, hrest⟩ := List.forall_mem_cons.1 hall
    refine ⟨?_, List.forall_mem_cons.2 ⟨htrans hpicked hfirst,
      List.forall_mem_cons.2 ⟨htrans hpicked hv, hrest⟩⟩⟩
    rcases List.mem_cons.1 hmem with h | h
    · rw [List.foldl_cons, h]
      rcases heq with heq | heq <;> simp [heq]
    · exact List.mem_cons_of_mem first (List.mem_cons_of_mem v h)

theorem isEarliest_earliest (first : Instant) (rest : List Instant) :
    IsEarliest (earliest first rest) (first :: rest) := by
  refine foldl_pick (R := fun i j => i.le j = true) Time.Instant.le_refl Time.Instant.le_trans
    (fun i j => ?_) rest first
  unfold Time.Instant.min
  split_ifs with h
  · exact ⟨.inl rfl, Time.Instant.le_refl i, h⟩
  · exact ⟨.inr rfl, Time.Instant.le_of_not_le h, Time.Instant.le_refl j⟩

theorem isLatest_latest (first : Instant) (rest : List Instant) :
    IsLatest (latest first rest) (first :: rest) := by
  refine foldl_pick (R := fun i j => j.le i = true) Time.Instant.le_refl
    (fun hij hjk => Time.Instant.le_trans hjk hij) (fun i j => ?_) rest first
  unfold Time.Instant.max
  split_ifs with h
  · exact ⟨.inl rfl, Time.Instant.le_refl i, h⟩
  · exact ⟨.inr rfl, Time.Instant.le_of_not_le h, Time.Instant.le_refl j⟩

end Times

/-! ## Summaries -/

namespace FileHistory

/-- The history sums up the touches. Each author is listed once, with the number of the touches of
that author and the least and the greatest of their times. -/
structure IsSummary (h : FileHistory) (touches : List Touch) : Prop where
  created : ∀ t, h.created = some t ↔ IsEarliest t (touches.map (·.time))
  lastModified : ∀ t, h.lastModified = some t ↔ IsLatest t (touches.map (·.time))
  ascending_authors : (h.authors.map (·.name)).Pairwise (· < ·)
  mem_authors : ∀ a, a ∈ h.authors.map (·.name) ↔ a ∈ touches.map (·.author)
  stats : ∀ s ∈ h.authors,
    s.commitCount = (touches.filter (·.author = s.name)).length ∧
    IsEarliest s.firstCommit ((touches.filter (·.author = s.name)).map (·.time)) ∧
    IsLatest s.lastCommit ((touches.filter (·.author = s.name)).map (·.time))
  count : (h.authors.map (·.commitCount)).sum = h.commitHashes.length
  hashes : h.commitHashes = touches.map (·.hash)
  ascending_tags : h.tags.Pairwise (· < ·)
  mem_tags : ∀ t, t ∈ h.tags ↔ ∃ x ∈ touches, t ∈ x.tags

variable {touches l m : List Touch}

theorem ofTouches?_eq_some {a : String} {s : AuthorStats} :
    AuthorStats.ofTouches? touches a = some s ↔
      s.name = a ∧ s.commitCount = (touches.filter (·.author = a)).length ∧
      IsEarliest s.firstCommit ((touches.filter (·.author = a)).map (·.time)) ∧
      IsLatest s.lastCommit ((touches.filter (·.author = a)).map (·.time)) := by
  unfold AuthorStats.ofTouches?
  generalize touches.filter (·.author = a) = own
  rcases own with _ | ⟨x, rest⟩
  · simp [IsEarliest]
  · have hearliest := isEarliest_earliest x.time (rest.map (·.time))
    have hlatest := isLatest_latest x.time (rest.map (·.time))
    constructor
    · intro h
      obtain rfl := Option.some.inj h
      exact ⟨rfl, rfl, hearliest, hlatest⟩
    · rintro ⟨hname, hcount, hfirst, hlast⟩
      -- there is only one earliest and one latest time, so nothing is left open
      obtain ⟨name, first, last, count⟩ := s
      obtain rfl : name = a := hname
      obtain rfl : count = rest.length + 1 := hcount
      obtain rfl : first = _ := hfirst.eq hearliest
      obtain rfl : last = _ := hlast.eq hlatest
      rfl

theorem exists_ofTouches? {a : String} (h : a ∈ touches.map (·.author)) :
    ∃ s, AuthorStats.ofTouches? touches a = some s := by
  obtain ⟨t, ht, rfl⟩ := List.mem_map.1 h
  unfold AuthorStats.ofTouches?
  split
  · rename_i hnone
    exact absurd (decide_eq_true rfl) (List.filter_eq_nil_iff.1 hnone t ht)
  · exact ⟨_, rfl⟩

/-- Each author has an entry, in ascending order. -/
theorem map_name_authors (touches : List Touch) :
    (ofTouches touches).authors.map (·.name) = Text.ascending (touches.map (·.author)) := by
  have hmem : Text.ascending (touches.map (·.author)) ⊆ touches.map (·.author) :=
    fun _ => Text.mem_ascending.1
  rw [ofTouches]
  dsimp only
  generalize Text.ascending (touches.map (·.author)) = names at hmem ⊢
  induction names with
  | nil => rfl
  | cons a names ih =>
    obtain ⟨ha, hnames⟩ := List.cons_subset.1 hmem
    obtain ⟨s, hs⟩ := exists_ofTouches? ha
    rw [List.filterMap_cons_some hs, List.map_cons, ih hnames, (ofTouches?_eq_some.1 hs).1]

theorem mem_authors_ofTouches {s : AuthorStats} (hs : s ∈ (ofTouches touches).authors) :
    AuthorStats.ofTouches? touches s.name = some s := by
  obtain ⟨a, -, h⟩ := List.mem_filterMap.1 hs
  rwa [(ofTouches?_eq_some.1 h).1]

/-- The counts of the authors add up to the number of touches. -/
theorem sum_commitCount (touches : List Touch) :
    ((ofTouches touches).authors.map (·.commitCount)).sum = touches.length := by
  have hcount : (ofTouches touches).authors.map (·.commitCount) =
      (Text.ascending (touches.map (·.author))).map fun a => (touches.map (·.author)).count a := by
    rw [← map_name_authors, List.map_map]
    refine List.map_congr_left fun s hs => ?_
    rw [(ofTouches?_eq_some.1 (mem_authors_ofTouches hs)).2.1, Function.comp_apply,
      List.count_eq_countP, List.countP_map, List.countP_eq_length_filter]
    rfl
  have hperm : (Text.ascending (touches.map (·.author))).Perm (touches.map (·.author)).dedup := by
    rw [List.perm_ext_iff_of_nodup (Text.nodup_ascending _) (List.nodup_dedup _)]
    exact fun a => Text.mem_ascending.trans List.mem_dedup.symm
  rw [hcount, (hperm.map _).sum_nat, List.sum_map_count_dedup_eq_length, List.length_map]

theorem created_ofTouches {t : Instant} :
    (ofTouches touches).created = some t ↔ IsEarliest t (touches.map (·.time)) := by
  rcases touches with _ | ⟨x, rest⟩
  · simp [ofTouches, IsEarliest]
  · have h := (isEarliest_earliest x.time ((x :: rest).map (·.time))).of_cons List.mem_cons_self
    exact ⟨fun ht => Option.some.inj ht ▸ h, fun ht => congrArg some (h.eq ht)⟩

theorem lastModified_ofTouches {t : Instant} :
    (ofTouches touches).lastModified = some t ↔ IsLatest t (touches.map (·.time)) := by
  rcases touches with _ | ⟨x, rest⟩
  · simp [ofTouches, IsLatest]
  · have h := (isLatest_latest x.time ((x :: rest).map (·.time))).of_cons List.mem_cons_self
    exact ⟨fun ht => Option.some.inj ht ▸ h, fun ht => congrArg some (h.eq ht)⟩

theorem isSummary_ofTouches (touches : List Touch) : (ofTouches touches).IsSummary touches where
  created _ := created_ofTouches
  lastModified _ := lastModified_ofTouches
  ascending_authors := by
    rw [map_name_authors]
    exact Text.pairwise_ascending _
  mem_authors a := by rw [map_name_authors, Text.mem_ascending]
  stats s hs := (ofTouches?_eq_some.1 (mem_authors_ofTouches hs)).2
  count := by rw [sum_commitCount, ofTouches, List.length_map]
  hashes := rfl
  ascending_tags := Text.pairwise_ascending _
  mem_tags t := by rw [ofTouches, Text.mem_ascending, List.mem_flatMap]

theorem ofTouches?_perm (h : l.Perm m) (a : String) :
    AuthorStats.ofTouches? l a = AuthorStats.ofTouches? m a := by
  have hown := h.filter (·.author = a)
  ext1 s
  rw [ofTouches?_eq_some, ofTouches?_eq_some, hown.length_eq, isEarliest_perm (hown.map _),
    isLatest_perm (hown.map _)]

/-- The order of the touches makes no difference to anything but the hashes. -/
theorem ofTouches_perm (h : l.Perm m) :
    { ofTouches l with commitHashes := [] } = { ofTouches m with commitHashes := [] } := by
  have hcreated : (ofTouches l).created = (ofTouches m).created := by
    ext1 t
    rw [created_ofTouches, created_ofTouches, isEarliest_perm (h.map _)]
  have hlastModified : (ofTouches l).lastModified = (ofTouches m).lastModified := by
    ext1 t
    rw [lastModified_ofTouches, lastModified_ofTouches, isLatest_perm (h.map _)]
  have hauthors : (ofTouches l).authors = (ofTouches m).authors := by
    have hnames : Text.ascending (l.map (·.author)) = Text.ascending (m.map (·.author)) :=
      Text.ascending_congr fun _ => (h.map _).mem_iff
    rw [ofTouches, ofTouches, hnames]
    exact List.filterMap_congr fun a _ => ofTouches?_perm h a
  have htags : (ofTouches l).tags = (ofTouches m).tags :=
    Text.ascending_congr fun _ => (h.flatMap_right _).mem_iff
  dsimp only
  rw [hcreated, hlastModified, hauthors, htags]

end FileHistory

end CodeGraph
