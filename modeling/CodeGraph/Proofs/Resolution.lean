import CodeGraph.Proofs.Normalization

/-!
# Resolving paths

A path leads from a directory to another, name by name, without a look at what is there (`Enters`).
If no name of the place that it leads to holds a backslash, the normalized form of a path is made of
these names, so it is canonical and does not change when it is normalized again, and the path from a
root on is what its names have beyond those of the root (`normalize_resolves`). Names are compared
as wholes: a sibling whose name starts like that of the root is outside of it.
-/

namespace CodeGraph.Path

/-- The names lead from one directory to another. A directory is the list of the names from the root
on. Empty names and `.` stay where they are, and `..` goes up, which the root leaves at the root. -/
inductive Enters : List (List Char) → List (List Char) → List (List Char) → Prop
  | done (d : List (List Char)) : Enters d [] d
  | stay {n : List Char} {d ns e : List (List Char)} (hn : n = [] ∨ n = ['.'])
      (h : Enters d ns e) : Enters d (n :: ns) e
  | up {n : List Char} {d ns e : List (List Char)} (h : Enters d ns e) :
      Enters (d ++ [n]) (['.', '.'] :: ns) e
  | top {ns e : List (List Char)} (h : Enters [] ns e) : Enters [] (['.', '.'] :: ns) e
  | down {n : List Char} {d ns e : List (List Char)} (hn : IsProper n)
      (h : Enters (d ++ [n]) ns e) : Enters d (n :: ns) e

/-- The place that a path leads to, from the root if it is absolute and from `cwd` otherwise. -/
def Resolves (cwd path : List Char) (e : List (List Char)) : Prop :=
  ∃ d, (if isAbsolute path then d = [] else Enters [] (Text.pieces '/' cwd) d) ∧
    Enters d (Text.pieces '/' path) e

section Entering

variable {d ns e : List (List Char)} {cwd path : List Char}

/-- The names that lead elsewhere. -/
def moves (ns : List (List Char)) : List (List Char) := ns.filter fun n => n ≠ [] && n ≠ ['.']

theorem moves_cons_of_stay {n : List Char} (hn : n = [] ∨ n = ['.']) :
    moves (n :: ns) = moves ns :=
  List.filter_cons_of_neg (by rcases hn with rfl | rfl <;> simp)

theorem moves_cons_of_proper {n : List Char} (hn : IsProper n) :
    moves (n :: ns) = n :: moves ns :=
  List.filter_cons_of_pos (by simp [hn.1, hn.2.1])

theorem enter_append (stack ms : List (List Char)) : ∀ ns : List (List Char),
    enter stack (ns ++ ms) = enter (enter stack ns) ms := by
  intro ns
  induction ns generalizing stack with
  | nil => rfl
  | cons n ns ih =>
    rw [List.cons_append, enter, enter]
    split_ifs <;> exact ih _

theorem Enters.enter_eq (h : Enters d ns e) : (enter d.reverse (moves ns)).reverse = e := by
  induction h with
  | done d => exact List.reverse_reverse d
  | stay hn _ ih => rwa [moves_cons_of_stay hn]
  | up _ ih =>
    rw [List.reverse_append]
    exact ih
  | top _ ih => exact ih
  | down hn _ ih =>
    rw [moves_cons_of_proper hn, enter, if_neg hn.2.2]
    rwa [List.reverse_append] at ih

theorem enters_enter : ∀ d ns : List (List Char),
    Enters d ns (enter d.reverse (moves ns)).reverse := by
  intro d ns
  induction ns generalizing d with
  | nil =>
    show Enters d [] d.reverse.reverse
    rw [List.reverse_reverse]
    exact .done d
  | cons n ns ih =>
    by_cases hstay : n = [] ∨ n = ['.']
    · rw [moves_cons_of_stay hstay]
      exact .stay hstay (ih d)
    by_cases hup : n = ['.', '.']
    · subst hup
      rcases List.eq_nil_or_concat d with rfl | ⟨d, m, rfl⟩
      · exact .top (ih [])
      · have hd : enter (d.concat m).reverse (moves (['.', '.'] :: ns)) =
            enter d.reverse (moves ns) := by
          rw [List.concat_eq_append, List.reverse_append]
          rfl
        rw [hd, List.concat_eq_append]
        exact .up (ih d)
    · rw [not_or] at hstay
      have hproper : IsProper n := ⟨hstay.1, hstay.2, hup⟩
      have h := ih (d ++ [n])
      rw [List.reverse_append] at h
      rw [moves_cons_of_proper hproper, enter, if_neg hup]
      exact .down hproper h

theorem enters_iff : Enters d ns e ↔ (enter d.reverse (moves ns)).reverse = e :=
  ⟨Enters.enter_eq, fun h => h ▸ enters_enter d ns⟩

/-- A path leads to one place, the one that it is resolved to. -/
theorem resolves_iff : Resolves cwd path e ↔ resolve cwd path = e := by
  have hnames (l : List Char) : moves (Text.pieces '/' l) = names l := rfl
  unfold Resolves resolve
  split_ifs
  · simp only [exists_eq_left, enters_iff, hnames, List.reverse_nil]
  · simp only [enters_iff, hnames, List.reverse_nil, exists_eq_left', List.reverse_reverse,
      names_append_cons, enter_append]

end Entering

/-! ## Normalized paths and their names -/

section Names

variable {cwd root path rest : List Char} {ns : List (List Char)}

/-- A name between slashes. -/
def IsName (n : List Char) : Prop := IsProper n ∧ '/' ∉ n

instance (n : List Char) : Decidable (IsName n) := inferInstanceAs (Decidable (_ ∧ _))

theorem isName_of_mem_resolve {n : List Char} (h : n ∈ resolve cwd path) : IsName n :=
  ⟨(mem_resolve h).1, (mem_resolve h).2.1⟩

/-- The names with a slash in front of each. -/
def slashed (ns : List (List Char)) : List Char := ns.flatMap fun n => '/' :: n

theorem ofNames_of_ne_nil (h : ns ≠ []) : ofNames ns = slashed ns := by
  induction ns with
  | nil => exact absurd rfl h
  | cons n ns ih =>
    rcases ns with _ | ⟨m, ns⟩
    · simp [ofNames, slashed, List.intercalate_singleton]
    · have ih := ih (List.cons_ne_nil m ns)
      rw [ofNames, List.intercalate_cons_cons, slashed, List.flatMap_cons]
      rw [ofNames, slashed] at ih
      rw [← ih]
      simp

theorem pieces_join (hne : ns ≠ []) (h : ∀ n ∈ ns, '/' ∉ n) :
    Text.pieces '/' (['/'].intercalate ns) = ns := by
  rw [Text.pieces_intercalate '/' hne]
  clear hne
  induction ns with
  | nil => rfl
  | cons n ns ih =>
    obtain ⟨hn, hns⟩ := List.forall_mem_cons.1 h
    rw [List.flatMap_cons, Text.pieces_of_not_mem hn, ih hns, List.singleton_append]

theorem pieces_slashed (h : ∀ n ∈ ns, '/' ∉ n) : Text.pieces '/' (slashed ns) = [] :: ns := by
  rcases eq_or_ne ns [] with rfl | hne
  · rfl
  · rw [← ofNames_of_ne_nil hne, show ofNames ns = [] ++ '/' :: ['/'].intercalate ns from rfl,
      Text.pieces_append_cons, pieces_join hne h]
    rfl

theorem slashed_pieces (l : List Char) : slashed (Text.pieces '/' l) = '/' :: l := by
  rw [← ofNames_of_ne_nil (Text.pieces_ne_nil '/' l), ofNames, Text.intercalate_pieces]

theorem slashed_inj {ms : List (List Char)} (hns : ∀ n ∈ ns, '/' ∉ n) (hms : ∀ m ∈ ms, '/' ∉ m) :
    slashed ns = slashed ms ↔ ns = ms := by
  refine ⟨fun h => ?_, fun h => h ▸ rfl⟩
  have hpieces := congrArg (Text.pieces '/') h
  rw [pieces_slashed hns, pieces_slashed hms] at hpieces
  exact (List.cons.inj hpieces).2

theorem names_ofNames (h : ∀ n ∈ ns, IsName n) : names (ofNames ns) = ns := by
  rcases ns with _ | ⟨n, ns⟩
  · rfl
  · rw [ofNames_of_ne_nil (List.cons_ne_nil n ns), names, pieces_slashed fun m hm => (h m hm).2,
      List.filter_cons_of_neg (by simp), List.filter_eq_self]
    intro m hm
    simp [(h m hm).1.1, (h m hm).1.2.1]

/-! ## Canonical paths -/

theorem IsCanonical.names_eq (h : IsCanonical path) : names path = resolve [] path := by
  have hnames : names (ofNames (resolve [] path)) = resolve [] path :=
    names_ofNames fun _ => isName_of_mem_resolve
  rwa [resolve_of_isCanonical h] at hnames

/-- A canonical path is made of its names. -/
theorem IsCanonical.ofNames_names (h : IsCanonical path) : ofNames (names path) = path := by
  rw [h.names_eq, resolve_of_isCanonical h]

theorem IsCanonical.isName {n : List Char} (h : IsCanonical path) (hn : n ∈ names path) :
    IsName n :=
  isName_of_mem_resolve (h.names_eq ▸ hn)

theorem IsCanonical.names_ne_nil (h : IsCanonical path) (hlength : 1 < path.length) :
    names path ≠ [] := by
  intro hnil
  rw [← h.ofNames_names, hnil] at hlength
  exact absurd hlength (by decide)

theorem IsCanonical.slashed_names (h : IsCanonical path) :
    slashed (names path) = (path.reverse.dropWhile (· == '/')).reverse := by
  have hpath := h.ofNames_names
  rcases hns : names path with _ | ⟨n, ns⟩
  · rw [← hpath, hns]
    rfl
  have hlong : ¬ path.length ≤ 1 := by
    have hn : n ≠ [] := (h.isName (hns ▸ List.mem_cons_self)).1.1
    have := List.length_pos_iff.2 hn
    rw [← hpath, hns, ofNames_of_ne_nil (List.cons_ne_nil n ns), slashed, List.flatMap_cons]
    simp only [List.length_append, List.length_cons]
    omega
  have htrim := h.trimSlashes_eq
  rw [trimSlashes, if_neg hlong] at htrim
  rw [htrim, ← ofNames_of_ne_nil (List.cons_ne_nil n ns), ← hns, hpath]

/-- A normalized path is canonical if and only if it stays as it is when it is normalized again.
Where the only names are backslashes, nothing at all is left of them. -/
theorem isCanonical_normalizeChars_iff : IsCanonical (normalizeChars cwd path) ↔
    normalizeChars cwd path ≠ [] ∧
      normalizeChars cwd (normalizeChars cwd path) = normalizeChars cwd path := by
  constructor
  · intro h
    refine ⟨?_, normalizeChars_of_isCanonical h not_mem_normalizeChars⟩
    rw [← h.ofNames_names]
    exact List.cons_ne_nil _ _
  · rintro ⟨hne, hsame⟩
    exact hsame ▸ isCanonical_again hne

/-- The path from the root on has the names that come after those of the root. -/
theorem relativeChars?_eq_some_iff (hroot : IsCanonical (normalizeChars cwd root))
    (hpath : IsCanonical (normalizeChars cwd path)) : relativeChars? cwd root path = some rest ↔
      IsNamed rest ∧ names (normalizeChars cwd root) ++ Text.pieces '/' rest =
        names (normalizeChars cwd path) := by
  have hbehind : stem cwd root ++ '/' :: rest =
      slashed (names (normalizeChars cwd root) ++ Text.pieces '/' rest) := by
    rw [stem, ← hroot.slashed_names, slashed, slashed, List.flatMap_append, ← slashed,
      ← slashed_pieces rest]
    rfl
  have hslash : ∀ n ∈ names (normalizeChars cwd root) ++ Text.pieces '/' rest, '/' ∉ n := by
    intro n hn
    rcases List.mem_append.1 hn with hn | hn
    · exact (hroot.isName hn).2
    · exact Text.not_mem_of_mem_pieces hn
  have hsame : names (normalizeChars cwd path) ≠ [] →
      (normalizeChars cwd path = stem cwd root ++ '/' :: rest ↔
        names (normalizeChars cwd root) ++ Text.pieces '/' rest =
          names (normalizeChars cwd path)) := by
    intro hne
    have hslashed : slashed (names (normalizeChars cwd path)) = normalizeChars cwd path := by
      rw [← ofNames_of_ne_nil hne, hpath.ofNames_names]
    rw [hbehind, ← slashed_inj hslash (fun n hn => (hpath.isName hn).2), hslashed, eq_comm]
  rw [relativeChars?_eq_some]
  constructor
  · rintro ⟨hrest, h⟩
    -- nothing comes after the slash of the root directory, but `rest` is something
    have hne : names (normalizeChars cwd path) ≠ [] := by
      refine hpath.names_ne_nil ?_
      have := List.length_pos_iff.2 hrest
      rw [h, List.length_append, List.length_cons]
      omega
    have hnames := (hsame hne).1 h
    refine ⟨fun n hn => ?_, hnames⟩
    exact (hpath.isName (hnames ▸ List.mem_append_right _ hn)).1
  · rintro ⟨hnamed, hnames⟩
    have hne : names (normalizeChars cwd path) ≠ [] := by
      rw [← hnames]
      simp [Text.pieces_ne_nil]
    refine ⟨?_, (hsame hne).2 hnames⟩
    rintro rfl
    exact not_isNamed_nil hnamed

theorem relativeChars?_isSome_iff (hroot : IsCanonical (normalizeChars cwd root))
    (hpath : IsCanonical (normalizeChars cwd path)) : (relativeChars? cwd root path).isSome ↔
      ∃ ns, ns ≠ [] ∧
        names (normalizeChars cwd root) ++ ns = names (normalizeChars cwd path) := by
  simp only [Option.isSome_iff_exists, relativeChars?_eq_some_iff hroot hpath]
  constructor
  · rintro ⟨rest, -, h⟩
    exact ⟨_, Text.pieces_ne_nil '/' rest, h⟩
  · rintro ⟨ns, hne, h⟩
    have hns : ∀ n ∈ ns, IsName n := fun n hn => hpath.isName (h ▸ List.mem_append_right _ hn)
    have hpieces := pieces_join hne fun n hn => (hns n hn).2
    refine ⟨['/'].intercalate ns, fun n hn => ?_, by rw [hpieces, h]⟩
    exact (hns n (hpieces ▸ hn)).1

/-! ## Backslashes -/

/-- No name of the place that a path leads to holds a backslash. -/
def AvoidsBackslashes (cwd path : List Char) : Prop :=
  ∀ ns, Resolves cwd path ns → ∀ n ∈ ns, '\\' ∉ n

theorem avoidsBackslashes_iff :
    AvoidsBackslashes cwd path ↔ ∀ n ∈ resolve cwd path, '\\' ∉ n := by
  simp only [AvoidsBackslashes, resolves_iff, forall_eq']

theorem avoidsBackslashes_of_not_mem (hpath : '\\' ∉ path)
    (h : isAbsolute path = true ∨ '\\' ∉ cwd) : AvoidsBackslashes cwd path := by
  have habsolute : '\\' ∉ absolute cwd path := by
    unfold absolute
    split_ifs with hslash
    · exact hpath
    · simp [h.resolve_left hslash, hpath]
  exact avoidsBackslashes_iff.2 fun n hn hmem => habsolute ((mem_resolve hn).2.2 hmem)

theorem AvoidsBackslashes.isCanonical (h : AvoidsBackslashes cwd path) :
    IsCanonical (normalizeChars cwd path) := by
  refine isCanonical_normalizeChars fun n hn m hm => ?_
  rw [Text.pieces_of_not_mem (avoidsBackslashes_iff.1 h n hn), List.mem_singleton] at hm
  exact hm ▸ (isName_of_mem_resolve hn).1

theorem not_mem_ofNames : '\\' ∉ ofNames ns ↔ ∀ n ∈ ns, '\\' ∉ n := by
  rcases eq_or_ne ns [] with rfl | hne
  · simp [ofNames]
  · simp only [ofNames_of_ne_nil hne, slashed, List.mem_flatMap, List.mem_cons, not_exists, not_and,
      not_or]
    exact ⟨fun h n hn => (h n hn).2, fun h n hn => ⟨by decide, h n hn⟩⟩

theorem isCanonical_ofNames_resolve : IsCanonical (ofNames (resolve cwd path)) := by
  refine isCanonical_ofNames fun n hn p hp => ?_
  rw [Text.pieces_of_not_mem (isName_of_mem_resolve hn).2, List.mem_singleton] at hp
  exact hp ▸ (isName_of_mem_resolve hn).1

/-- The normalized path is made of the names of the place that the path leads to if and only if none
of them holds a backslash. -/
theorem normalizeChars_eq_ofNames_iff :
    normalizeChars cwd path = ofNames (resolve cwd path) ↔ AvoidsBackslashes cwd path := by
  rw [avoidsBackslashes_iff, ← not_mem_ofNames]
  constructor
  · exact fun h => h ▸ not_mem_normalizeChars
  · intro h
    rw [normalizeChars_eq, map_slash_of_not_mem h, isCanonical_ofNames_resolve.trimSlashes_eq]

theorem names_normalizeChars (h : AvoidsBackslashes cwd path) :
    names (normalizeChars cwd path) = resolve cwd path := by
  rw [normalizeChars_eq_ofNames_iff.2 h, names_ofNames fun _ => isName_of_mem_resolve]

end Names

/-- A path is normalized to the path with the names of the place that it leads to exactly if none of
them holds a backslash. That is so for a path without backslashes if it is absolute, or relative to
a directory without backslashes. The normalized path is canonical if the parts of the names between
backslashes are proper, so if there are none, and exactly if it is not empty and stays as it is when
it is normalized again. If root and path are canonical when they are normalized, then the path from
the root on is the text whose names come after those of the root. There is none if the names of the
root do not come first or nothing comes after them: not for the root itself, for a sibling whose
name only starts like that of the root, or for anything else outside. -/
theorem normalize_resolves (cwd root path : String) :
    let rootNames := names (normalize cwd root).toList
    let pathNames := names (normalize cwd path).toList
    (∀ p : String, '\\' ∉ p.toList → isAbsolute p.toList = true ∨ '\\' ∉ cwd.toList →
      AvoidsBackslashes cwd.toList p.toList) ∧
    ((∀ ns, Resolves cwd.toList path.toList ns → (normalize cwd path).toList = ofNames ns) ↔
      AvoidsBackslashes cwd.toList path.toList) ∧
    (AvoidsBackslashes cwd.toList path.toList →
      IsCanonical (normalize cwd path).toList ∧
      ∀ ns, Resolves cwd.toList path.toList ns ↔ pathNames = ns) ∧
    ((∀ ns, Resolves cwd.toList path.toList ns →
        ∀ n ∈ ns, ∀ m ∈ Text.pieces '\\' n, IsProper m) →
      IsCanonical (normalize cwd path).toList) ∧
    (IsCanonical (normalize cwd path).toList ↔
      normalize cwd path ≠ "" ∧ normalize cwd (normalize cwd path) = normalize cwd path) ∧
    (IsCanonical (normalize cwd path).toList → (normalize cwd path).toList = ofNames pathNames) ∧
    (IsCanonical (normalize cwd root).toList → IsCanonical (normalize cwd path).toList →
      (∀ rest : String, relative? cwd root path = some rest ↔
        IsNamed rest.toList ∧ rootNames ++ Text.pieces '/' rest.toList = pathNames) ∧
      (relative? cwd root path = none ↔ ¬ ∃ ns, ns ≠ [] ∧ rootNames ++ ns = pathNames) ∧
      (isWithin cwd root path = true ↔ rootNames <+: pathNames)) := by
  intro rootNames pathNames
  have hnormal (s : String) :
      (normalize cwd s).toList = normalizeChars cwd.toList s.toList := String.toList_ofList
  have hrootNames : rootNames = names (normalizeChars cwd.toList root.toList) := by rw [← hnormal]
  have hpathNames : pathNames = names (normalizeChars cwd.toList path.toList) := by rw [← hnormal]
  refine ⟨fun p => avoidsBackslashes_of_not_mem, ?_, fun h => ⟨?_, fun ns => ?_⟩, fun h => ?_, ?_,
    fun h => h.ofNames_names.symm, fun hroot hpath => ?_⟩
  · rw [hnormal, ← normalizeChars_eq_ofNames_iff]
    simp only [resolves_iff, forall_eq']
  · exact hnormal path ▸ h.isCanonical
  · rw [resolves_iff, hpathNames, names_normalizeChars h]
  · rw [hnormal]
    exact isCanonical_normalizeChars (h _ (resolves_iff.2 rfl))
  · rw [ne_eq, ← String.toList_inj, ← String.toList_inj, hnormal (normalize cwd path), hnormal path]
    exact isCanonical_normalizeChars_iff
  · rw [hnormal] at hroot hpath
    have hnone : relative? cwd root path = none ↔
        ¬ ∃ ns, ns ≠ [] ∧ rootNames ++ ns = pathNames := by
      rw [hrootNames, hpathNames, ← relativeChars?_isSome_iff hroot hpath, relative?,
        Option.map_eq_none_iff, Option.not_isSome_iff_eq_none]
    refine ⟨fun rest => ?_, hnone, ?_⟩
    · rw [hrootNames, hpathNames, ← relativeChars?_eq_some_iff hroot hpath, relative?,
        Option.map_eq_some_iff]
      constructor
      · rintro ⟨l, hl, rfl⟩
        rwa [String.toList_ofList]
      · exact fun h => ⟨_, h, String.ofList_toList⟩
    · have hsame : (normalize cwd root == normalize cwd path) = true ↔ rootNames = pathNames := by
        rw [beq_iff_eq, ← String.toList_inj, hnormal, hnormal, hrootNames, hpathNames]
        refine ⟨congrArg names, fun h => ?_⟩
        rw [← hroot.ofNames_names, h, hpath.ofNames_names]
      have hsome : (relative? cwd root path).isSome = true ↔
          ∃ ns, ns ≠ [] ∧ rootNames ++ ns = pathNames := by
        rw [← not_iff_not, ← hnone, Option.not_isSome_iff_eq_none]
      rw [isWithin, Bool.or_eq_true, hsame, hsome]
      constructor
      · rintro (h | ⟨ns, -, h⟩)
        · exact h ▸ List.prefix_refl _
        · exact ⟨ns, h⟩
      · rintro ⟨ns, h⟩
        rcases eq_or_ne ns [] with rfl | hne
        · exact .inl (by rw [← h, List.append_nil])
        · exact .inr ⟨ns, hne, h⟩

/-- A relative path through a sibling of the root back into it, with slashes and dots that name
nothing. -/
theorem normalize_resolves_of_detour :
    let cwd := "/w/ab"
    let root := "../a/"
    let path := "..//abc/./../a/x/y/"
    AvoidsBackslashes cwd.toList root.toList ∧ AvoidsBackslashes cwd.toList path.toList ∧
      normalize cwd path = "/w/a/x/y" ∧ Resolves cwd.toList path.toList
        ["w".toList, "a".toList, "x".toList, "y".toList] ∧
      relative? cwd root path = some "x/y" ∧ relative? cwd root cwd = none := by
  intro cwd root path
  obtain ⟨havoids, -, hplace, -, -, -, hbehind⟩ := normalize_resolves cwd root path
  obtain ⟨-, -, hcwd, -, -, -, houtside⟩ := normalize_resolves cwd root cwd
  obtain ⟨-, -, hroot, -⟩ := normalize_resolves cwd root root
  have hclear (p : String) (h : '\\' ∉ p.toList) : AvoidsBackslashes cwd.toList p.toList :=
    havoids p h (.inr (by decide))
  have hplain : AvoidsBackslashes cwd.toList root.toList := hclear root (by decide)
  have hpath : AvoidsBackslashes cwd.toList path.toList := hclear path (by decide)
  have hnormal : normalize cwd path = "/w/a/x/y" := by decide +kernel
  obtain ⟨hcanonical, hresolves⟩ := hplace hpath
  have hbase := (hroot hplain).1
  refine ⟨hplain, hpath, hnormal, (hresolves _).2 (by decide +kernel),
    ((hbehind hbase hcanonical).1 "x/y").2 (by decide +kernel),
    (houtside hbase (hcwd (hclear cwd (by decide))).1).2.1.2 ?_⟩
  rintro ⟨ns, -, h⟩
  have hprefix : names (normalize cwd root).toList <+: names (normalize cwd cwd).toList := ⟨ns, h⟩
  revert hprefix
  decide +kernel

/-- In a directory whose name holds dots between backslashes, a path without backslashes is
normalized to one with dots in it, and the second time they are resolved. -/
theorem normalize_below_backslashes :
    let cwd := "/tmp/a\\..\\b"
    let path := "x"
    isAbsolute cwd.toList = true ∧ '\\' ∉ path.toList ∧
      Resolves cwd.toList path.toList ["tmp".toList, "a\\..\\b".toList, "x".toList] ∧
      normalize cwd path = "/tmp/a/../b/x" ∧ ¬ IsCanonical (normalize cwd path).toList ∧
      normalize cwd (normalize cwd path) ≠ normalize cwd path ∧
      (normalize cwd path).toList ≠
        ofNames ["tmp".toList, "a\\..\\b".toList, "x".toList] := by
  intro cwd path
  refine ⟨?_, ?_, resolves_iff.2 ?_, ?_, ?_, ?_, ?_⟩ <;> decide +kernel

end CodeGraph.Path
