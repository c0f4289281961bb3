import CodeGraph.Proofs.Batches
import Mathlib.Data.List.TakeWhile

/-!
# Normalized once and twice

A path that is normalized has no dots to resolve, unless a name brought them in: backslashes turn
into slashes only after the path has been resolved, so a name with backslashes may leave empty names
and dots behind. Normalizing is repeated wherever a key is made from a path that has been normalized
before, and the second time makes a difference exactly if the first has left such names
(`key_found_again_iff`).
-/

namespace CodeGraph

namespace Path

/-- A name that neither stays in its directory nor leaves it. -/
def IsProper (name : List Char) : Prop := name ≠ [] ∧ name ≠ ['.'] ∧ name ≠ ['.', '.']

/-- The names between the slashes are proper. -/
def IsNamed (path : List Char) : Prop := ∀ n ∈ Text.pieces '/' path, IsProper n

/-- An absolute path with proper names, or the root. -/
def IsCanonical (path : List Char) : Prop :=
  path = ['/'] ∨ path.head? = some '/' ∧ IsNamed path.tail

instance (name : List Char) : Decidable (IsProper name) :=
  inferInstanceAs (Decidable (_ ∧ _ ∧ _))

instance (path : List Char) : Decidable (IsNamed path) :=
  inferInstanceAs (Decidable (∀ n ∈ _, _))

instance (path : List Char) : Decidable (IsCanonical path) :=
  inferInstanceAs (Decidable (_ ∨ _ ∧ _))

section Named

variable {l m : List Char}

theorem isNamed_append_cons : IsNamed (l ++ '/' :: m) ↔ IsNamed l ∧ IsNamed m := by
  unfold IsNamed
  rw [Text.pieces_append_cons, List.forall_mem_append]

theorem not_isNamed_nil : ¬ IsNamed [] := fun h => (h [] (List.mem_singleton_self _)).1 rfl

theorem not_isNamed_cons : ¬ IsNamed ('/' :: l) :=
  fun h => not_isNamed_nil (isNamed_append_cons (l := []).1 h).1

/-- Proper names have no slash in front of them. -/
theorem IsNamed.dropWhile_eq (h : IsNamed l) : l.dropWhile (· == '/') = l := by
  cases l with
  | nil => rfl
  | cons c l =>
    by_cases hc : c = '/'
    · subst hc
      exact absurd h not_isNamed_cons
    · rw [List.dropWhile_cons_of_neg (by simpa using hc)]

theorem trimSlashes_of_getLast? (h : l.getLast? ≠ some '/') : trimSlashes l = l := by
  rcases List.eq_nil_or_concat l with rfl | ⟨m, c, rfl⟩
  · rfl
  · rw [List.concat_eq_append, List.getLast?_concat] at h
    have hc : ¬ (c == '/') = true := fun heq => h (by rw [beq_iff_eq.1 heq])
    rw [List.concat_eq_append, trimSlashes]
    split
    · rfl
    · rw [List.reverse_append, List.reverse_singleton, List.singleton_append,
        List.dropWhile_cons_of_neg (by exact hc), List.reverse_cons, List.reverse_reverse]

/-- Proper names have no slash behind them. -/
theorem IsNamed.trimSlashes_cons (h : IsNamed l) : trimSlashes ('/' :: l) = '/' :: l := by
  rcases List.eq_nil_or_concat l with rfl | ⟨m, c, rfl⟩
  · exact absurd h not_isNamed_nil
  · rw [List.concat_eq_append] at h ⊢
    refine trimSlashes_of_getLast? ?_
    rw [← List.cons_append, List.getLast?_concat]
    rintro ⟨⟩
    exact not_isNamed_nil (isNamed_append_cons.1 h).2

theorem IsCanonical.trimSlashes_eq (h : IsCanonical l) : trimSlashes l = l := by
  rcases h with rfl | ⟨hhead, hnamed⟩
  · rfl
  · obtain ⟨rest, rfl⟩ := List.head?_eq_some_iff.1 hhead
    exact IsNamed.trimSlashes_cons hnamed

/-- What is behind a slash in a canonical path is named, unless nothing is. -/
theorem IsCanonical.of_append_cons (h : IsCanonical (l ++ '/' :: m)) (hm : m ≠ []) : IsNamed m := by
  rcases h with h | ⟨hhead, hnamed⟩
  · cases l with
    | nil => exact absurd (List.cons.inj h).2 hm
    | cons c l => simp at h
  · cases l with
    | nil => exact hnamed
    | cons c l => exact (isNamed_append_cons.1 hnamed).2

theorem isCanonical_ofNames : ∀ {ns : List (List Char)},
    (∀ n ∈ ns, ∀ p ∈ Text.pieces '/' n, IsProper p) → IsCanonical (ofNames ns)
  | [], _ => .inl rfl
  | n :: ns, h => by
    refine .inr ⟨rfl, fun p hp => ?_⟩
    rw [ofNames, List.tail_cons, Text.pieces_intercalate _ (List.cons_ne_nil n ns)] at hp
    obtain ⟨n', hn', hp⟩ := List.mem_flatMap.1 hp
    exact h n' hn' p hp

end Named

/-! ## Resolving -/

section Resolve

variable {cwd path : List Char}

theorem mem_names {n : List Char} : n ∈ names path ↔
    n ∈ Text.pieces '/' path ∧ n ≠ [] ∧ n ≠ ['.'] := by
  simp [names]

theorem names_append_cons (l m : List Char) : names (l ++ '/' :: m) = names l ++ names m := by
  unfold names
  rw [Text.pieces_append_cons, List.filter_append]

theorem names_dropWhile : ∀ l : List Char, names (l.dropWhile (· == '/')) = names l
  | [] => rfl
  | c :: l => by
    by_cases hc : c = '/'
    · subst hc
      rw [List.dropWhile_cons_of_pos rfl, names_dropWhile l]
      exact (names_append_cons [] l).symm
    · rw [List.dropWhile_cons_of_neg (by simpa using hc)]

theorem enter_of_forall : ∀ {ns : List (List Char)} (stack : List (List Char)),
    (∀ n ∈ ns, n ≠ ['.', '.']) → enter stack ns = ns.reverse ++ stack
  | [], _, _ => rfl
  | n :: ns, stack, h => by
    obtain ⟨hn, hns⟩ := List.forall_mem_cons.1 h
    rw [enter, if_neg hn, enter_of_forall (n :: stack) hns, List.reverse_cons, List.append_assoc,
      List.singleton_append]

theorem mem_enter {n : List Char} : ∀ {ns stack : List (List Char)}, n ∈ enter stack ns →
    n ∈ stack ∨ n ∈ ns ∧ n ≠ ['.', '.']
  | [], stack, h => .inl h
  | m :: ns, stack, h => by
    rw [enter] at h
    split at h
    · rcases mem_enter h with h | h
      · exact .inl (List.mem_of_mem_tail h)
      · exact .inr ⟨List.mem_cons_of_mem m h.1, h.2⟩
    · rcases mem_enter h with h | h
      · rcases List.mem_cons.1 h with rfl | h
        · exact .inr ⟨List.mem_cons_self, ‹_›⟩
        · exact .inl h
      · exact .inr ⟨List.mem_cons_of_mem m h.1, h.2⟩

/-- The path that a path is resolved from. -/
def absolute (cwd path : List Char) : List Char :=
  if isAbsolute path then path else cwd ++ '/' :: path

theorem mem_resolve {n : List Char} (h : n ∈ resolve cwd path) :
    IsProper n ∧ '/' ∉ n ∧ n ⊆ absolute cwd path := by
  rw [resolve, List.mem_reverse] at h
  obtain ⟨h, hup⟩ := (mem_enter h).resolve_left List.not_mem_nil
  obtain ⟨hmem, hne, hdot⟩ := mem_names.1 h
  exact ⟨⟨hne, hdot, hup⟩, Text.not_mem_of_mem_pieces hmem, Text.pieces_subset '/' _ n hmem⟩

theorem resolve_of_isCanonical (h : IsCanonical path) : ofNames (resolve cwd path) = path := by
  have habsolute : isAbsolute path = true := by
    rcases h with rfl | ⟨hhead, -⟩
    · rfl
    · rw [isAbsolute, hhead, beq_self_eq_true]
  rw [resolve, habsolute, if_pos rfl]
  rcases h with rfl | ⟨hhead, hnamed⟩
  · rfl
  obtain ⟨rest, rfl⟩ := List.head?_eq_some_iff.1 hhead
  have hnames : names ('/' :: rest) = Text.pieces '/' rest := by
    rw [show names ('/' :: rest) = names rest from names_append_cons [] rest, names,
      List.filter_eq_self]
    intro n hn
    have hproper := hnamed n hn
    simp [hproper.1, hproper.2.1]
  have hup : ∀ n ∈ Text.pieces '/' rest, n ≠ ['.', '.'] := fun n hn => (hnamed n hn).2.2
  rw [hnames, enter_of_forall [] hup, List.append_nil, List.reverse_reverse, ofNames,
    Text.intercalate_pieces]

end Resolve

/-! ## Normalizing -/

section Normalize

variable {cwd root path rest : List Char}

/-- A backslash as a slash, and any other character as it is. -/
def slash (c : Char) : Char := if c = '\\' then '/' else c

theorem slash_ne (c : Char) : slash c ≠ '\\' := by
  unfold slash
  split
  · decide
  · assumption

theorem map_slash_of_not_mem : ∀ {l : List Char}, '\\' ∉ l → l.map slash = l
  | [], _ => rfl
  | c :: l, h => by
    rw [List.mem_cons, not_or] at h
    rw [List.map_cons, slash, if_neg fun hc => h.1 hc.symm, map_slash_of_not_mem h.2]

/-- Once the backslashes are slashes, they separate what they separated before. -/
theorem pieces_map_slash : ∀ {l : List Char}, '/' ∉ l →
    Text.pieces '/' (l.map slash) = Text.pieces '\\' l
  | [], _ => rfl
  | c :: l, h => by
    rw [List.mem_cons, not_or] at h
    rw [List.map_cons, Text.pieces, Text.pieces, pieces_map_slash h.2]
    by_cases hc : c = '\\'
    · subst hc
      rfl
    · have hslash : slash c = c := if_neg hc
      rw [hslash, if_neg hc, if_neg fun hc => h.1 hc.symm]

theorem map_slash_ofNames (ns : List (List Char)) :
    (ofNames ns).map slash = ofNames (ns.map (List.map slash)) := by
  rw [ofNames, List.map_cons, ofNames]
  congr 1
  induction ns with
  | nil => rfl
  | cons n ns ih =>
    cases ns with
    | nil => simp [List.intercalate_singleton]
    | cons m ns =>
      rw [List.intercalate_cons_cons, List.map_append, List.map_append, ih]
      exact (List.intercalate_cons_cons ..).symm

theorem normalizeChars_eq (cwd path : List Char) :
    normalizeChars cwd path = trimSlashes ((ofNames (resolve cwd path)).map slash) := rfl

theorem trimSlashes_isPrefix (l : List Char) : trimSlashes l <+: l := by
  unfold trimSlashes
  split
  · exact List.prefix_refl l
  · rw [← List.reverse_suffix, List.reverse_reverse]
    exact List.dropWhile_suffix _

theorem trimSlashes_ne_concat {l m : List Char} (hm : m ≠ []) : trimSlashes l ≠ m ++ ['/'] := by
  have hlength := List.length_pos_iff.2 hm
  unfold trimSlashes
  split
  · rintro rfl
    rw [List.length_append, List.length_singleton] at *
    omega
  · intro h
    have hhead := List.head?_dropWhile_not (· == '/') l.reverse
    rw [List.reverse_eq_iff.1 h, List.reverse_append] at hhead
    simp at hhead

theorem not_mem_normalizeChars : '\\' ∉ normalizeChars cwd path := by
  intro h
  obtain ⟨c, -, hc⟩ := List.mem_map.1 ((trimSlashes_isPrefix _).subset h)
  exact slash_ne c hc

theorem head?_normalizeChars (h : normalizeChars cwd path ≠ []) :
    (normalizeChars cwd path).head? = some '/' := by
  obtain ⟨rest, hrest⟩ : normalizeChars cwd path <+: (ofNames (resolve cwd path)).map slash :=
    trimSlashes_isPrefix _
  obtain ⟨c, l, hl⟩ := List.exists_cons_of_ne_nil h
  rw [hl] at hrest ⊢
  rw [(List.cons.inj hrest).1]
  rfl

/-- Names whose parts between backslashes are proper make a canonical path. -/
theorem isCanonical_normalizeChars
    (h : ∀ n ∈ resolve cwd path, ∀ m ∈ Text.pieces '\\' n, IsProper m) :
    IsCanonical (normalizeChars cwd path) := by
  have hcanonical : IsCanonical ((ofNames (resolve cwd path)).map slash) := by
    rw [map_slash_ofNames]
    refine isCanonical_ofNames fun n hn => ?_
    obtain ⟨m, hm, rfl⟩ := List.mem_map.1 hn
    rw [pieces_map_slash (mem_resolve hm).2.1]
    exact h m hm
  rwa [normalizeChars_eq, hcanonical.trimSlashes_eq]

theorem isCanonical_of_not_mem (h : '\\' ∉ absolute cwd path) :
    IsCanonical (normalizeChars cwd path) := by
  refine isCanonical_normalizeChars fun n hn m hm => ?_
  obtain ⟨hproper, -, hsub⟩ := mem_resolve hn
  rw [Text.pieces_of_not_mem fun hmem => h (hsub hmem)] at hm
  rwa [List.mem_singleton.1 hm]

theorem isAbsolute_normalizeChars (h : normalizeChars cwd path ≠ []) :
    isAbsolute (normalizeChars cwd path) = true := by
  rw [isAbsolute, head?_normalizeChars h, beq_self_eq_true]

/-- The second time there are no backslashes left. -/
theorem isCanonical_again (h : normalizeChars cwd path ≠ []) :
    IsCanonical (normalizeChars cwd (normalizeChars cwd path)) := by
  refine isCanonical_of_not_mem ?_
  rw [absolute, if_pos (isAbsolute_normalizeChars h)]
  exact not_mem_normalizeChars

/-- A canonical path is normalized as it stands. -/
theorem normalizeChars_of_isCanonical (h : IsCanonical path) (hslash : '\\' ∉ path) :
    normalizeChars cwd path = path := by
  rw [normalizeChars_eq, resolve_of_isCanonical h, map_slash_of_not_mem hslash, h.trimSlashes_eq]

end Normalize

/-! ## Relative paths -/

section Relative

variable {cwd root path rest : List Char}

/-- The normalized root, without the slash that a root directory ends in. -/
def stem (cwd root : List Char) : List Char :=
  ((normalizeChars cwd root).reverse.dropWhile (· == '/')).reverse

theorem relativeChars?_eq_some : relativeChars? cwd root path = some rest ↔
    rest ≠ [] ∧ normalizeChars cwd path = stem cwd root ++ '/' :: rest := by
  simp only [relativeChars?, Option.bind_eq_bind, Option.bind_eq_some_iff, Text.after?_eq_some_iff]
  constructor
  · rintro ⟨l, hl, m, rfl, h⟩
    split at h
    · cases h
    · obtain rfl := Option.some_inj.1 h
      exact ⟨by simpa using ‹¬m.isEmpty = true›, hl⟩
  · rintro ⟨hne, h⟩
    refine ⟨_, h, rest, rfl, ?_⟩
    rw [if_neg (by simpa using hne)]

/-- A relative path does not end in a slash, so it is not made of slashes. -/
theorem dropWhile_ne_nil (h : relativeChars? cwd root path = some rest) :
    rest.dropWhile (· == '/') ≠ [] := by
  obtain ⟨hne, hpath⟩ := relativeChars?_eq_some.1 h
  rw [ne_eq, List.dropWhile_eq_nil_iff]
  intro hall
  rcases List.eq_nil_or_concat rest with rfl | ⟨m, c, rfl⟩
  · exact hne rfl
  · rw [List.concat_eq_append] at hall hpath
    have hc : c = '/' := by simpa using hall c (by simp)
    subst hc
    rw [← List.cons_append, ← List.append_assoc] at hpath
    exact trimSlashes_ne_concat (by simp) hpath

/-- The second time, a path below the root is normalized to a canonical path. -/
theorem normalizeChars_again (h : relativeChars? cwd root path = some rest) :
    isAbsolute (normalizeChars cwd path) = true ∧
      IsCanonical (normalizeChars cwd (normalizeChars cwd path)) := by
  obtain ⟨-, hpath⟩ := relativeChars?_eq_some.1 h
  have hne : normalizeChars cwd path ≠ [] := by
    rw [hpath]
    simp
  exact ⟨isAbsolute_normalizeChars hne, isCanonical_again hne⟩

theorem relativeChars?_again_iff (h : relativeChars? cwd root path = some rest) :
    relativeChars? cwd root (normalizeChars cwd path) = some rest ↔
      IsCanonical (normalizeChars cwd path) := by
  obtain ⟨hne, hpath⟩ := relativeChars?_eq_some.1 h
  rw [relativeChars?_eq_some, ← hpath]
  constructor
  · rintro ⟨-, hsame⟩
    rw [← hsame]
    exact (normalizeChars_again h).2
  · exact fun hcanonical =>
      ⟨hne, normalizeChars_of_isCanonical hcanonical not_mem_normalizeChars⟩

/-- Slashes in front of the relative path do not matter to the names. -/
theorem normalizeChars_again_eq (h : relativeChars? cwd root path = some rest)
    (hcanonical : IsCanonical (stem cwd root ++ '/' :: rest.dropWhile (· == '/'))) :
    normalizeChars cwd (normalizeChars cwd path) =
      stem cwd root ++ '/' :: rest.dropWhile (· == '/') := by
  obtain ⟨-, hpath⟩ := relativeChars?_eq_some.1 h
  have hslash : '\\' ∉ stem cwd root ++ '/' :: rest.dropWhile (· == '/') := by
    have hnot : '\\' ∉ stem cwd root ++ '/' :: rest := hpath ▸ not_mem_normalizeChars
    simp only [List.mem_append, List.mem_cons, not_or] at hnot ⊢
    exact ⟨hnot.1, hnot.2.1, fun hmem => hnot.2.2 ((List.dropWhile_suffix _).subset hmem)⟩
  have habsolute : isAbsolute (stem cwd root ++ '/' :: rest.dropWhile (· == '/')) = true := by
    rcases hcanonical with heq | ⟨hhead, -⟩
    · rw [heq]
      rfl
    · rw [isAbsolute, hhead, beq_self_eq_true]
  have hresolve : resolve cwd (normalizeChars cwd path) =
      resolve cwd (stem cwd root ++ '/' :: rest.dropWhile (· == '/')) := by
    rw [resolve, resolve, (normalizeChars_again h).1, habsolute, if_pos rfl, if_pos rfl, hpath,
      names_append_cons, names_append_cons, names_dropWhile]
  rw [normalizeChars_eq, hresolve, ← normalizeChars_eq,
    normalizeChars_of_isCanonical hcanonical hslash]

theorem relativeChars?_again_dropWhile_iff (h : relativeChars? cwd root path = some rest) :
    (∃ rest', relativeChars? cwd root (normalizeChars cwd path) = some rest' ∧
        rest'.dropWhile (· == '/') = rest.dropWhile (· == '/')) ↔
      IsCanonical (stem cwd root ++ '/' :: rest.dropWhile (· == '/')) := by
  constructor
  · rintro ⟨rest', hrest', hsame⟩
    obtain ⟨hne, hagain⟩ := relativeChars?_eq_some.1 hrest'
    have hcanonical := (normalizeChars_again h).2
    rw [hagain] at hcanonical
    have hnamed := hcanonical.of_append_cons hne
    rwa [← hsame, hnamed.dropWhile_eq]
  · intro hcanonical
    have hne := dropWhile_ne_nil h
    refine ⟨_, relativeChars?_eq_some.2 ⟨hne, normalizeChars_again_eq h hcanonical⟩, ?_⟩
    exact (hcanonical.of_append_cons hne).dropWhile_eq

end Relative

end Path

namespace Run

open CodeGraph.Path (DiscoveredFile IsProper IsCanonical stem)

theorem file_key_inj {repoKey path path' : String} :
    Key.file repoKey path = Key.file repoKey path' ↔
      path.toList.dropWhile (· == '/') = path'.toList.dropWhile (· == '/') := by
  simp only [Key.file, Text.dropStartWhile, ← String.toList_inj, String.toList_append,
    String.toList_ofList, List.append_cancel_left_eq]

/-- The path of a file that a scan finds leads to the same relative path again if and only if it is
canonical, and it leads to the same key if and only if it would be canonical with a single slash
behind the root. Names without backslashes, and names whose parts between backslashes are proper,
are fine. -/
theorem key_found_again_iff {cwd path : String} {o : Options} {f : DiscoveredFile}
    (h : DiscoveredFile.of? cwd o.root path = some f) :
    (Path.relative? cwd o.root f.path = some f.relativePath ↔ IsCanonical f.path.toList) ∧
    (keyOf? cwd o f.path = some (keyOfFile o f) ↔
      IsCanonical (stem cwd.toList o.root.toList ++
        '/' :: f.relativePath.toList.dropWhile (· == '/'))) ∧
    ((∀ n ∈ Path.resolve cwd.toList path.toList, ∀ m ∈ Text.pieces '\\' n, IsProper m) →
      Path.relative? cwd o.root f.path = some f.relativePath ∧
        keyOf? cwd o f.path = some (keyOfFile o f)) := by
  obtain ⟨relative, hrelative, rfl⟩ := Option.map_eq_some_iff.1 h
  obtain ⟨rest, hrest, rfl⟩ := Option.map_eq_some_iff.1 hrelative
  have hpath : (Path.normalize cwd path).toList = Path.normalizeChars cwd.toList path.toList :=
    String.toList_ofList
  have hsame : Path.relative? cwd o.root (Path.normalize cwd path) = some (String.ofList rest) ↔
      IsCanonical (Path.normalize cwd path).toList := by
    rw [Path.relative?, hpath, ← Path.relativeChars?_again_iff hrest, Option.map_eq_some_iff]
    simp only [String.ofList_inj, exists_eq_right]
  have hkey : keyOf? cwd o (Path.normalize cwd path) =
      some (Key.file o.repoKey (String.ofList rest)) ↔
        IsCanonical (stem cwd.toList o.root.toList ++
          '/' :: (String.ofList rest).toList.dropWhile (· == '/')) := by
    rw [String.toList_ofList, ← Path.relativeChars?_again_dropWhile_iff hrest, keyOf?,
      Path.relative?, hpath, Option.map_map, Option.map_eq_some_iff]
    simp only [Function.comp_apply, file_key_inj, String.toList_ofList]
  refine ⟨hsame, hkey, fun hproper => ?_⟩
  have hagain := hsame.2 (hpath ▸ Path.isCanonical_normalizeChars hproper)
  refine ⟨hagain, ?_⟩
  rw [keyOf?, hagain]
  rfl

/-- A file whose name has backslashes is told to be another file when its path is resolved again. -/
theorem key_of_backslashes :
    let o : Options := { root := "/w", repoKey := "r" }
    let f : DiscoveredFile := ⟨"/w/a/../b.json", "a/../b.json"⟩
    DiscoveredFile.of? "/" o.root "/w/a\\..\\b.json" = some f ∧
      Path.relative? "/" o.root f.path ≠ some f.relativePath ∧
      keyOf? "/" o f.path ≠ some (keyOfFile o f) := by
  intro o f
  have hfound : DiscoveredFile.of? "/" o.root "/w/a\\..\\b.json" = some f := by decide +kernel
  obtain ⟨hrelative, hkey, -⟩ := key_found_again_iff hfound
  have hpath : ¬ IsCanonical f.path.toList := by decide +kernel
  have hbehind : ¬ IsCanonical (stem "/".toList o.root.toList ++
      '/' :: f.relativePath.toList.dropWhile (· == '/')) := by decide +kernel
  exact ⟨hfound, mt hrelative.1 hpath, mt hkey.1 hbehind⟩

end Run

end CodeGraph
