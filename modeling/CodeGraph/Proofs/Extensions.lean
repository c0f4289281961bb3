import CodeGraph.Extract.DocumentKind
import CodeGraph.Files.Scan
import CodeGraph.Proofs.Resolution
import Mathlib

/-!
# Extensions

A scan looks at the end of the whole path, and takes capitals of ASCII for small letters. A reader
looks at what follows the last dot of the file name, unless that dot starts the name, and takes the
capitals of all of Unicode for small letters. For the extensions that are scanned for both come to
the same, as long as the name is more than an extension; and no extension belongs to two kinds of
documents. So a file that is found is of one kind (`one_kind_of_path`).
-/

namespace CodeGraph

/-! ## Letters

The facts about the case of ASCII letters come with the whole of Mathlib and with no part of it. -/

namespace Text

section Letters

variable {c : Char} {l : List Char}

theorem toNat_lt_of_isAlpha (h : c.isAlpha = true) : c.toNat < 128 := by
  simp only [Char.isAlpha, Char.isUpper, Char.isLower, Bool.or_eq_true, Bool.and_eq_true,
    decide_eq_true_eq, ge_iff_le, UInt32.le_iff_toNat_le] at h
  have hc : c.toNat = c.val.toNat := rfl
  have hcapital : 'Z'.val.toNat = 90 := rfl
  have hsmall : 'z'.val.toNat = 122 := rfl
  omega

theorem eq_of_toLower_eq {d : Char} (hd : d.isLower = false) (h : c.toLower = d) : c = d := by
  have hletter : c.isAlpha = false := by rw [← Char.isLower_toLower_eq_isAlpha, h, hd]
  have hcapital : ¬ c.isUpper = true := by
    rw [Char.isAlpha, Bool.or_eq_false_iff] at hletter
    rw [hletter.1]
    exact Bool.false_ne_true
  rw [← h, Char.toLower_eq_of_not_isUpper hcapital]

/-- Only the first run is of ASCII letters. -/
theorem lowerRuns_eq : ∃ runs, lowerRuns = (0x41, 0x5a, 1, 32) :: runs ∧ ∀ r ∈ runs, 128 ≤ r.1 :=
  have hall : lowerRuns.tail.all (fun r => decide (128 ≤ r.1)) = true := by decide +kernel
  ⟨lowerRuns.tail, rfl, fun r hr => of_decide_eq_true (List.all_eq_true.1 hall r hr)⟩

theorem lowerChar_of_ascii (h : c.toNat < 128) : lowerChar c = [c.toLower] := by
  obtain ⟨runs, hruns, hbeyond⟩ := lowerRuns_eq
  -- Every other run starts beyond ASCII.
  have hnone {p : Nat × Nat × Nat × Int → Bool} (hp : ∀ r, p r = true → r.1 ≤ c.toNat) :
      runs.find? p = none := by
    refine List.find?_eq_none.2 fun r hr hpr => ?_
    have hlow := hp r hpr
    have hhigh := hbeyond r hr
    omega
  have hdotted : ¬ (c.toNat == 0x130) = true := by
    rw [beq_iff_eq]
    omega
  have hcapital : (decide (0x41 ≤ c.toNat) && decide (c.toNat ≤ 0x5a)) = c.isUpper := by
    simp [Char.isUpper, UInt32.le_iff_toNat_le]
  simp only [lowerChar, hruns, List.find?_cons, if_neg hdotted, Nat.mod_one, beq_self_eq_true,
    Bool.and_true, hcapital]
  rw [hnone fun r hr => by simp at hr; omega]
  by_cases hc : c.isUpper = true
  · rw [Char.toLower_eq_of_isUpper hc, hc]
    rfl
  · rw [Char.toLower_eq_of_not_isUpper hc, Bool.eq_false_iff.2 hc]

theorem lowerFrom_of_ascii : ∀ {l : List Char} (before : List Char),
    (∀ c ∈ l, c.toNat < 128) → lowerFrom before l = l.map Char.toLower
  | [], _, _ => rfl
  | c :: l, before, h => by
    obtain ⟨hc, hl⟩ := List.forall_mem_cons.1 h
    have hsigma : c ≠ 'Σ' := by
      rintro rfl
      exact absurd hc (by decide)
    rw [lowerFrom, if_neg hsigma, lowerChar_of_ascii hc, lowerFrom_of_ascii (c :: before) hl,
      List.map_cons, List.singleton_append]

theorem lower_of_ascii (h : ∀ c ∈ l, c.toNat < 128) :
    lower (String.ofList l) = String.ofList (l.map Char.toLower) := by
  rw [lower, String.toList_ofList, lowerFrom_of_ascii [] h]

theorem toList_asciiLower (s : String) : (asciiLower s).toList = s.toList.map Char.toLower :=
  String.toList_map

end Letters

end Text

/-! ## Names and extensions -/

namespace Path

/-- A dot with small letters of ASCII behind it. -/
def IsPlainExtension (e : String) : Prop :=
  ∃ w, e.toList = '.' :: w ∧ w ≠ [] ∧ w.all Char.isLower = true

theorem isPlainExtension_of_scanned : ∀ e ∈ scannedExtensions, IsPlainExtension e := by
  have hall : ∀ e ∈ scannedExtensions, e.toList = '.' :: e.toList.tail ∧ e.toList.tail ≠ [] ∧
      e.toList.tail.all Char.isLower = true := by decide +kernel
  exact fun e he => ⟨e.toList.tail, hall e he⟩

theorem endsInOneOf_iff {path : String} {extensions : List String} :
    endsInOneOf path extensions = true ↔
      ∃ e ∈ extensions, ∃ back, back <:+ path.toList ∧ back.map Char.toLower = e.toList := by
  simp only [endsInOneOf, List.any_eq_true, List.isSuffixOf_iff_suffix, Text.toList_asciiLower]
  refine exists_congr fun e => and_congr_right fun _ => ?_
  constructor
  · rintro ⟨front, h⟩
    obtain ⟨front', back, hpath, -, hback⟩ := List.map_eq_append_iff.1 h.symm
    exact ⟨back, ⟨front', hpath.symm⟩, hback⟩
  · rintro ⟨back, hsuffix, hback⟩
    exact hback ▸ hsuffix.map Char.toLower

section Extension

variable {x path : List Char}

/-- What ends a path that a scan finds: a dot with letters of ASCII behind it. -/
theorem IsPlainExtension.exists_letters {e : String} (he : IsPlainExtension e) {back : List Char}
    (h : back.map Char.toLower = e.toList) :
    ∃ x, back = '.' :: x ∧ x ≠ [] ∧ ∀ c ∈ x, c.isAlpha = true := by
  obtain ⟨w, hw, hne, hlower⟩ := he
  rw [hw] at h
  obtain ⟨c, x, rfl, hc, rfl⟩ := List.map_eq_cons_iff.1 h
  obtain rfl := Text.eq_of_toLower_eq rfl hc
  refine ⟨x, rfl, fun hnil => hne (by rw [hnil, List.map_nil]), fun d hd => ?_⟩
  rw [← Char.isLower_toLower_eq_isAlpha]
  exact List.all_eq_true.1 hlower _ (List.mem_map_of_mem hd)

variable (hne : x ≠ []) (hx : ∀ c ∈ x, c.isAlpha = true)

include hx in
theorem not_mem_of_isAlpha {c : Char} (hc : c.isAlpha = false) : c ∉ x :=
  fun hmem => absurd (hx c hmem) (by simp [hc])

include hne hx in
theorem getLast?_append_ne (stem : List Char) {c : Char} (hc : c.isAlpha = false) :
    (stem ++ '.' :: x).getLast? ≠ some c := by
  rw [List.getLast?_append_of_ne_nil _ (List.cons_ne_nil _ _), List.getLast?_cons_of_ne_nil hne]
  exact fun h => not_mem_of_isAlpha hx hc (List.mem_of_getLast? h)

include hne hx in
theorem isProper_append (stem : List Char) : IsProper (stem ++ '.' :: x) := by
  have hlast := getLast?_append_ne hne hx stem (by decide : '.'.isAlpha = false)
  refine ⟨by simp, fun h => hlast (by rw [h]; rfl), fun h => hlast (by rw [h]; rfl)⟩

include hne hx in
theorem exists_names_append (front : List Char) :
    ∃ ns stem, names (front ++ '.' :: x) = ns ++ [stem ++ '.' :: x] := by
  have hslash : '/' ∉ '.' :: x := by
    simpa using not_mem_of_isAlpha hx (by decide : '/'.isAlpha = false)
  obtain ⟨ps, stem, hpieces⟩ := Text.exists_pieces_append hslash front
  obtain ⟨hnil, hdot, -⟩ := isProper_append hne hx stem
  refine ⟨ps.filter fun n => n ≠ [] && n ≠ ['.'], stem, ?_⟩
  rw [names, hpieces, List.filter_append, List.filter_cons_of_pos (by simp [hdot]), List.filter_nil]

theorem fileName?_of_names {ns : List (List Char)} {n : List Char} (h : names path = ns ++ [n])
    (hn : n ≠ ['.', '.']) : fileName? path = some n := by
  rw [fileName?, h, List.getLast?_concat]
  exact if_neg hn

include hx in
theorem extension?_of_fileName? {stem : List Char} (h : fileName? path = some (stem ++ '.' :: x)) :
    extension? path = if stem = [] then none else some x := by
  -- Read from the back, the name is the letters up to the dot, and then the dot and the stem.
  have hdots : ∀ c ∈ x.reverse, decide (c ≠ '.') = true := fun c hc =>
    decide_eq_true fun hdot => absurd (hx c (List.mem_reverse.1 hc)) (by rw [hdot]; decide)
  have hhead : ∀ c ∈ ('.' :: stem.reverse).head?, decide (c ≠ '.') = false := by
    rintro c ⟨⟩
    rfl
  have hback : (stem ++ '.' :: x).reverse = x.reverse ++ '.' :: stem.reverse := by simp
  simp only [extension?, h, Option.bind_eq_bind, Option.bind_some, hback,
    Text.dropWhile_append_of_head hdots hhead, Text.takeWhile_append_of_head hdots hhead,
    List.tail_cons, List.reverse_reverse, List.isEmpty_iff, List.reverse_eq_nil_iff]

/-- The normalized path ends in the last name, with slashes for backslashes. -/
theorem exists_normalizeChars {ns : List (List Char)} {n : List Char} (h : names path = ns ++ [n])
    (hn : n ≠ ['.', '.']) (cwd : List Char) :
    ∃ l, normalizeChars cwd path = trimSlashes (l ++ '/' :: n.map slash) := by
  obtain ⟨ms, hms⟩ : ∃ ms, names (absolute cwd path) = ms ++ [n] := by
    unfold absolute
    split
    · exact ⟨ns, h⟩
    · exact ⟨names cwd ++ ns, by rw [names_append_cons, h, List.append_assoc]⟩
  have hresolve : resolve cwd path = (enter [] ms).reverse ++ [n] := by
    show (enter [] (names (absolute cwd path))).reverse = _
    rw [hms, enter_append, enter, if_neg hn, enter, List.reverse_cons]
  refine ⟨(slashed (enter [] ms).reverse).map slash, ?_⟩
  rw [normalizeChars_eq, hresolve, ofNames_of_ne_nil (by simp), slashed, List.flatMap_append,
    List.map_append, List.flatMap_singleton, List.map_cons]
  rfl

include hne hx in
theorem suffix_normalizeChars (h : '.' :: x <:+ path) (cwd : List Char) :
    '.' :: x <:+ normalizeChars cwd path := by
  obtain ⟨front, rfl⟩ := h
  obtain ⟨ns, stem, hnames⟩ := exists_names_append hne hx front
  obtain ⟨l, hl⟩ := exists_normalizeChars hnames (isProper_append hne hx stem).2.2 cwd
  have hkept : ('.' :: x).map slash = '.' :: x := map_slash_of_not_mem (by
    simpa using not_mem_of_isAlpha hx (by decide : '\\'.isAlpha = false))
  rw [List.map_append, hkept, ← List.cons_append, ← List.append_assoc] at hl
  -- The path ends in a letter, so no slash is cut off at its end.
  rw [hl, trimSlashes_of_getLast? (getLast?_append_ne hne hx _ (by decide))]
  exact List.suffix_append _ _

theorem exists_names_of_fileName? {n : List Char} (h : fileName? path = some n) :
    ∃ ns, names path = ns ++ [n] ∧ n ≠ ['.', '.'] := by
  unfold fileName? at h
  split at h
  · rename_i m hlast
    split_ifs at h with hup
    obtain rfl := Option.some_inj.1 h
    exact ⟨_, (List.dropLast_append_getLast? m hlast).symm, hup⟩
  · cases h

theorem mem_names_of_fileName? {n : List Char} (h : fileName? path = some n) :
    n ∈ names path := by
  obtain ⟨ns, hnames, -⟩ := exists_names_of_fileName? h
  exact hnames ▸ List.mem_append_right ns List.mem_cons_self

theorem subset_of_fileName? {n : List Char} (h : fileName? path = some n) : n ⊆ path :=
  Text.pieces_subset '/' path n (mem_names.1 (mem_names_of_fileName? h)).1

/-- A name without backslashes stays the name of the file when its path is normalized. -/
theorem fileName?_normalizeChars {n : List Char} (h : fileName? path = some n) (hn : '\\' ∉ n)
    (cwd : List Char) : fileName? (normalizeChars cwd path) = some n := by
  obtain ⟨ns, hnames, hup⟩ := exists_names_of_fileName? h
  obtain ⟨hpiece, hne, hdot⟩ := mem_names.1 (mem_names_of_fileName? h)
  have hslash : '/' ∉ n := Text.not_mem_of_mem_pieces hpiece
  obtain ⟨l, hl⟩ := exists_normalizeChars hnames hup cwd
  rw [map_slash_of_not_mem hn, trimSlashes_of_getLast?] at hl
  · have hback : names (l ++ '/' :: n) = names l ++ [n] := by
      rw [names_append_cons, names, names, Text.pieces_of_not_mem hslash]
      simp [hne, hdot]
    exact hl ▸ fileName?_of_names hback hup
  · rw [List.getLast?_append_of_ne_nil _ (List.cons_ne_nil _ _), List.getLast?_cons_of_ne_nil hne]
    exact fun hlast => hslash (List.mem_of_getLast? hlast)

end Extension

theorem normalizeExtensions_scanned :
    normalizeExtensions scannedExtensions = scannedExtensions := by
  decide +kernel

/-- Whether the name of the file is an extension that is scanned for and nothing else, up to the
case of its letters. -/
def isBareExtension (path : String) : Bool :=
  (fileName? path.toList).any fun n =>
    scannedExtensions.contains (Text.asciiLower (String.ofList n))

theorem isBareExtension_iff {path : String} :
    isBareExtension path = true ↔ ∃ n, fileName? path.toList = some n ∧
      ∃ e ∈ scannedExtensions, n.map Char.toLower = e.toList := by
  simp only [isBareExtension, Option.any_eq_true, List.contains_iff_mem]
  refine exists_congr fun n => and_congr_right fun _ => ?_
  have hlower : (Text.asciiLower (String.ofList n)).toList = n.map Char.toLower := by
    rw [Text.toList_asciiLower, String.toList_ofList]
  constructor
  · exact fun h => ⟨_, h, hlower.symm⟩
  · rintro ⟨e, he, hn⟩
    rwa [String.toList_inj.1 (hlower.trans hn)]

/-- A path that passes the test of a scan has a name, which ends in an extension. -/
theorem exists_stem {path : String} (h : endsInOneOf path scannedExtensions = true) :
    ∃ e ∈ scannedExtensions, ∃ stem x, x ≠ [] ∧ (∀ c ∈ x, c.isAlpha = true) ∧
      '.' :: x <:+ path.toList ∧ ('.' :: x).map Char.toLower = e.toList ∧
      fileName? path.toList = some (stem ++ '.' :: x) := by
  obtain ⟨e, he, back, hsuffix, hback⟩ := endsInOneOf_iff.1 h
  obtain ⟨x, rfl, hne, hx⟩ := (isPlainExtension_of_scanned e he).exists_letters hback
  obtain ⟨front, hfront⟩ := hsuffix
  obtain ⟨ns, stem, hnames⟩ := exists_names_append hne hx front
  refine ⟨e, he, stem, x, hne, hx, ⟨front, hfront⟩, hback, ?_⟩
  exact fileName?_of_names (hfront ▸ hnames) (isProper_append hne hx stem).2.2

theorem extension?_of_isBareExtension {path : String} (h : isBareExtension path = true) :
    extension? path.toList = none := by
  obtain ⟨n, hname, e, he, hn⟩ := isBareExtension_iff.1 h
  obtain ⟨x, rfl, -, hx⟩ := (isPlainExtension_of_scanned e he).exists_letters hn
  rw [← List.nil_append ('.' :: x)] at hname
  rw [extension?_of_fileName? hx hname, if_pos rfl]

theorem endsInOneOf_normalize {path : String} (h : endsInOneOf path scannedExtensions = true)
    (cwd : String) : endsInOneOf (normalize cwd path) scannedExtensions = true := by
  obtain ⟨e, he, -, x, hne, hx, hsuffix, hsame, -⟩ := exists_stem h
  refine endsInOneOf_iff.2 ⟨e, he, '.' :: x, ?_, hsame⟩
  rw [normalize, String.toList_ofList]
  exact suffix_normalizeChars hne hx hsuffix cwd.toList

theorem isBareExtension_normalize {path : String}
    (h : endsInOneOf path scannedExtensions = true) (hpath : '\\' ∉ path.toList) (cwd : String) :
    isBareExtension (normalize cwd path) = isBareExtension path := by
  obtain ⟨-, -, stem, x, -, -, -, -, hname⟩ := exists_stem h
  have hn : '\\' ∉ stem ++ '.' :: x := fun hmem => hpath (subset_of_fileName? hname hmem)
  rw [isBareExtension, isBareExtension, normalize, String.toList_ofList, hname,
    fileName?_normalizeChars hname hn]

end Path

/-! ## Scans -/

namespace Files

open CodeGraph.Path (DiscoveredFile)

theorem Tree.mem_of_mem_insertByPath {f g : DiscoveredFile} : ∀ {l : List DiscoveredFile},
    g ∈ insertByPath f l → g = f ∨ g ∈ l
  | [], h => .inl (List.mem_singleton.1 h)
  | a :: l, h => by
    rw [insertByPath] at h
    split_ifs at h
    · exact List.mem_cons.1 h
    · exact .inr h
    · rcases List.mem_cons.1 h with rfl | h
      · exact .inr List.mem_cons_self
      · exact (mem_of_mem_insertByPath h).imp_right (List.mem_cons_of_mem a)

theorem Tree.mem_of_mem_foldl_insertByPath {f : DiscoveredFile} : ∀ {l acc : List DiscoveredFile},
    f ∈ l.foldl (fun acc f => insertByPath f acc) acc → f ∈ acc ∨ f ∈ l
  | [], _, h => .inl h
  | a :: l, acc, h => by
    rcases mem_of_mem_foldl_insertByPath (l := l) h with h | h
    · rcases mem_of_mem_insertByPath h with rfl | h
      · exact .inr List.mem_cons_self
      · exact .inl h
    · exact .inr (List.mem_cons_of_mem a h)

/-- What a scan finds it finds at a path that passes its test. -/
theorem Tree.exists_of_mem_scan {t : Tree} {cwd root : String} {extensions : List String}
    {f : DiscoveredFile} (h : f ∈ t.scan cwd root extensions) : ∃ path,
      Path.endsInOneOf path extensions = true ∧ DiscoveredFile.of? cwd root path = some f := by
  unfold scan at h
  dsimp only at h
  split at h
  · cases h
  · split_ifs at h
    · obtain ⟨path, hpath, hf⟩ := List.mem_filterMap.1
        ((mem_of_mem_foldl_insertByPath h).resolve_left List.not_mem_nil)
      exact ⟨path, (List.mem_filter.1 hpath).2, hf⟩
    · cases h

end Files

/-! ## Kinds -/

namespace DocumentKind

section Accepts

variable {path : String} {k k' : DocumentKind}

/-- The extensions of all kinds are dots with small letters behind them. -/
theorem dotted_of_mem_extensions : ∀ k ∈ all, ∀ e ∈ k.extensions,
    "." ++ Text.asciiLower (Text.dropStartWhile '.' e) = e := by
  decide +kernel

/-- No extension belongs to two kinds. -/
theorem eq_of_mem_extensions : ∀ k ∈ all, ∀ k' ∈ all, ∀ e ∈ k.extensions, e ∈ k'.extensions →
    k = k' := by
  decide +kernel

theorem accepts_iff : k.accepts path = true ↔ ∃ x, Path.extension? path.toList = some x ∧
    "." ++ Text.asciiLower (Text.lower (String.ofList x)) ∈ k.extensions := by
  have hdotted := dotted_of_mem_extensions k k.mem_all
  unfold accepts Path.hasExtension
  rcases Path.extension? path.toList with _ | x
  · simp
  simp only [List.any_eq_true, Text.eqIgnoringAsciiCase, beq_iff_eq, Option.some_inj,
    exists_eq_left']
  constructor
  · rintro ⟨e, he, hsame⟩
    rwa [← hsame, hdotted e he]
  · intro he
    refine ⟨_, he, ?_⟩
    have hcancel := String.toList_inj.2 (hdotted _ he)
    rw [String.toList_append, String.toList_append, List.append_cancel_left_eq] at hcancel
    exact String.toList_inj.1 hcancel

theorem eq_of_accepts (h : k.accepts path = true) (h' : k'.accepts path = true) : k = k' := by
  obtain ⟨x, hx, he⟩ := accepts_iff.1 h
  obtain ⟨x', hx', he'⟩ := accepts_iff.1 h'
  obtain rfl : x = x' := Option.some_inj.1 (hx.symm.trans hx')
  exact eq_of_mem_extensions k k.mem_all k' k'.mem_all _ he he'

/-- The kinds may be tried in any order. -/
theorem find?_accepts_of_perm {kinds : List DocumentKind} (h : kinds.Perm all) :
    kinds.find? (·.accepts path) = ofPath? path :=
  List.find?_eq_find?_of_perm h fun _ hk _ hk' => eq_of_accepts hk.2 hk'.2

theorem ofPath?_eq_some_iff : ofPath? path = some k ↔ k.accepts path = true := by
  refine ⟨fun h => List.find?_some (p := fun k => accepts k path) h, fun h => ?_⟩
  rcases hfind : ofPath? path with _ | k'
  · exact absurd h (List.find?_eq_none.1 hfind k k.mem_all)
  · rw [eq_of_accepts (List.find?_some (p := fun k => accepts k path) hfind) h]

/-- A file whose extension is one of the kind, up to the case of its letters, is of the kind. -/
theorem accepts_of_extension {x : List Char} {e : String} (hx : ∀ c ∈ x, c.isAlpha = true)
    (hpath : Path.extension? path.toList = some x) (he : e ∈ k.extensions)
    (hsame : ('.' :: x).map Char.toLower = e.toList) : k.accepts path = true := by
  have hword : "." ++ Text.asciiLower (Text.lower (String.ofList x)) = e := by
    rw [← String.toList_inj, String.toList_append, Text.toList_asciiLower,
      Text.lower_of_ascii fun c hc => Text.toNat_lt_of_isAlpha (hx c hc), String.toList_ofList,
      ← hsame]
    simp
  exact accepts_iff.2 ⟨x, hpath, hword ▸ he⟩

theorem exists_extensions_of_scanned :
    ∀ e ∈ Path.scannedExtensions, ∃ k : DocumentKind, e ∈ k.extensions := by
  have hall : ∀ e ∈ Path.scannedExtensions, ∃ k ∈ all, e ∈ k.extensions := by decide +kernel
  exact fun e he => (hall e he).imp fun _ => And.right

theorem not_accepts_of_isBareExtension (h : Path.isBareExtension path = true) :
    ¬ k.accepts path = true := by
  intro haccepts
  obtain ⟨x, hx, -⟩ := accepts_iff.1 haccepts
  rw [Path.extension?_of_isBareExtension h] at hx
  cases hx

/-- A path that passes the test of a scan is of one kind, unless its name is an extension. -/
theorem existsUnique_accepts_iff (h : Path.endsInOneOf path Path.scannedExtensions = true) :
    (∃! k : DocumentKind, k.accepts path = true) ↔ Path.isBareExtension path = false := by
  constructor
  · rintro ⟨k, hk, -⟩
    exact Bool.eq_false_iff.2 fun hbare => not_accepts_of_isBareExtension hbare hk
  · intro hbare
    obtain ⟨e, he, stem, x, -, hx, -, hsame, hname⟩ := Path.exists_stem h
    have hstem : stem ≠ [] := by
      rintro rfl
      rw [Path.isBareExtension_iff.2 ⟨_, hname, e, he, hsame⟩] at hbare
      cases hbare
    have hextension := Path.extension?_of_fileName? hx hname
    rw [if_neg hstem] at hextension
    obtain ⟨k, hk⟩ := exists_extensions_of_scanned e he
    have haccepts := accepts_of_extension hx hextension hk hsame
    exact ⟨k, haccepts, fun k' hk' => eq_of_accepts hk' haccepts⟩

theorem ofPath?_eq_none_iff (h : Path.endsInOneOf path Path.scannedExtensions = true) :
    ofPath? path = none ↔ Path.isBareExtension path = true := by
  constructor
  · intro hnone
    by_contra hbare
    obtain ⟨k, hk, -⟩ := (existsUnique_accepts_iff h).2 (Bool.eq_false_iff.2 hbare)
    rw [ofPath?_eq_some_iff.2 hk] at hnone
    cases hnone
  · exact fun hbare => List.find?_eq_none.2 fun k _ => not_accepts_of_isBareExtension hbare

end Accepts

/-- No path is of two kinds, so the kinds may be tried in any order. A path that passes the test of
a scan is of one kind, unless its name is nothing but an extension. The same holds of every file
that a scan finds, by the path it is read at; and that has the name of the path it is found at,
unless a backslash in it has been taken for a slash. -/
theorem one_kind_of_path :
    (∀ (path : String) (k k' : DocumentKind),
      k.accepts path = true → k'.accepts path = true → k = k') ∧
    (∀ (path : String) (kinds : List DocumentKind), kinds.Perm all →
      kinds.find? (·.accepts path) = ofPath? path) ∧
    (∀ path : String,
      Path.endsInOneOf path (Path.normalizeExtensions Path.scannedExtensions) = true →
        ((∃! k : DocumentKind, k.accepts path = true) ↔ Path.isBareExtension path = false)) ∧
    (∀ (t : Files.Tree) (cwd root : String),
      ∀ f ∈ t.scan cwd root (Path.normalizeExtensions Path.scannedExtensions),
        (ofPath? f.path = none ↔ Path.isBareExtension f.path = true) ∧
        ∃ path, Path.DiscoveredFile.of? cwd root path = some f ∧
          Path.endsInOneOf path (Path.normalizeExtensions Path.scannedExtensions) = true ∧
          ('\\' ∉ path.toList → Path.isBareExtension f.path = Path.isBareExtension path)) := by
  rw [Path.normalizeExtensions_scanned]
  refine ⟨fun _ _ _ => eq_of_accepts, fun _ _ => find?_accepts_of_perm,
    fun _ => existsUnique_accepts_iff, fun t cwd root f hf => ?_⟩
  obtain ⟨path, hpath, hfound⟩ := Files.Tree.exists_of_mem_scan hf
  obtain ⟨relative, -, rfl⟩ := Option.map_eq_some_iff.1 hfound
  exact ⟨ofPath?_eq_none_iff (Path.endsInOneOf_normalize hpath cwd), path, hfound, hpath,
    fun h => Path.isBareExtension_normalize hpath h cwd⟩

/-- A script and a file that is named like an extension, in one directory. -/
theorem one_kind_of_script :
    let t : Files.Tree := ⟨[([Text.encode "A.JS"], .file []), ([Text.encode ".js"], .file [])]⟩
    let script : Path.DiscoveredFile := ⟨"/A.JS", "A.JS"⟩
    let bare : Path.DiscoveredFile := ⟨"/.js", ".js"⟩
    t.scan "/" "/" (Path.normalizeExtensions Path.scannedExtensions) = [bare, script] ∧
      (∀ k : DocumentKind, k.accepts script.path = true → k = javaScript) ∧
      all.reverse.find? (·.accepts script.path) = ofPath? script.path ∧
      (∃! k : DocumentKind, k.accepts script.path = true) ∧
      ofPath? script.path ≠ none ∧ ofPath? bare.path = none := by
  intro t script bare
  obtain ⟨hsame, horder, hone, hscan⟩ := one_kind_of_path
  have hfound : t.scan "/" "/" (Path.normalizeExtensions Path.scannedExtensions) =
      [bare, script] := by
    rw [Path.normalizeExtensions_scanned]
    cbv
  have hscript : Path.isBareExtension script.path = false := by decide +kernel
  have hbare : Path.isBareExtension bare.path = true := by decide +kernel
  refine ⟨hfound, fun k hk => hsame script.path k javaScript hk (by decide +kernel),
    horder script.path all.reverse (List.reverse_perm all),
    (hone script.path (by decide +kernel)).2 hscript, ?_, ?_⟩
  · rw [Ne, (hscan t "/" "/" script (by rw [hfound]; simp)).1, hscript]
    exact Bool.false_ne_true
  · rw [(hscan t "/" "/" bare (by rw [hfound]; simp)).1, hbare]

end DocumentKind

end CodeGraph
