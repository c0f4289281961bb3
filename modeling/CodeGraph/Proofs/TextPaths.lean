import CodeGraph.Proofs.Deltas
import CodeGraph.Proofs.Encoding
import CodeGraph.Proofs.Resolution

/-!
# Paths that are text

The paths in a repository are bytes. If the names are UTF-8 without backslashes, a path is told from
others by its text (`touchText_inj`), and by its normalized form, whatever the working directory
(`absolutePath_inj`). Bytes that are no UTF-8 are replaced, and then two paths may have the same
text.
-/

namespace CodeGraph

namespace Path

section Below

variable {cwd root : List Char} {ns ms : List (List Char)}

theorem slashed_cons (n : List Char) (ns : List (List Char)) :
    slashed (n :: ns) = '/' :: (n ++ slashed ns) := List.flatMap_cons

theorem slashed_append (ns ms : List (List Char)) :
    slashed (ns ++ ms) = slashed ns ++ slashed ms := List.flatMap_append

theorem not_mem_slashed (h : ∀ n ∈ ns, '\\' ∉ n) : '\\' ∉ slashed ns := by
  intro hmem
  obtain ⟨n, hn, hmem⟩ := List.mem_flatMap.1 hmem
  rcases List.mem_cons.1 hmem with hslash | hmem
  · cases hslash
  · exact h n hn hmem

theorem names_append_slashed (h : ∀ n ∈ ns, IsName n) (l : List Char) :
    names (l ++ slashed ns) = names l ++ ns := by
  rcases ns with _ | ⟨n, ns⟩
  · rw [slashed, List.flatMap_nil, List.append_nil, List.append_nil]
  · have hnames := names_ofNames h
    rw [ofNames_of_ne_nil (List.cons_ne_nil n ns), slashed_cons] at hnames
    rw [slashed_cons, names_append_cons, ← hnames]
    rfl

/-- Names after a root are entered from the place that the root leads to, which is the same for all
of them. -/
theorem exists_resolve_append (cwd root : List Char) : ∃ base : List (List Char), ∀ {ns},
    ns ≠ [] → (∀ n ∈ ns, IsName n) → resolve cwd (root ++ slashed ns) = base ++ ns := by
  obtain ⟨start, hstart⟩ : ∃ start, ∀ {ns : List (List Char)}, ns ≠ [] →
      absolute cwd (root ++ slashed ns) = start ++ slashed ns := by
    rcases root with _ | ⟨c, root⟩
    · refine ⟨[], fun {ns} hne => ?_⟩
      obtain ⟨n, ns, rfl⟩ := List.exists_cons_of_ne_nil hne
      rfl
    · refine ⟨absolute cwd (c :: root), fun {ns} _ => ?_⟩
      unfold absolute
      rw [show isAbsolute (c :: root ++ slashed ns) = isAbsolute (c :: root) from rfl]
      split_ifs
      · rfl
      · exact (List.append_assoc cwd ('/' :: c :: root) (slashed ns)).symm
  refine ⟨(enter [] (names start)).reverse, fun hne hns => ?_⟩
  show (enter [] (names (absolute _ _))).reverse = _
  rw [hstart hne, names_append_slashed hns, enter_append,
    enter_of_forall _ fun n hn => (hns n hn).1.2.2, List.reverse_append, List.reverse_reverse]

theorem trimSlashes_slashed (hne : ns ≠ []) (h : ∀ n ∈ ns, IsName n) (l : List Char) :
    trimSlashes (l ++ slashed ns) = l ++ slashed ns := by
  obtain ⟨ms, n, rfl⟩ := List.eq_nil_or_concat ns |>.resolve_left hne
  rw [List.concat_eq_append] at h ⊢
  obtain ⟨⟨hn, -⟩, hslash⟩ := h n (by simp)
  have hend : l ++ slashed (ms ++ [n]) = l ++ slashed ms ++ ['/'] ++ n := by simp [slashed]
  refine trimSlashes_of_getLast? ?_
  rw [hend, List.getLast?_append_of_ne_nil _ hn]
  exact fun hlast => hslash (List.mem_of_getLast? hlast)

/-- Below a root, different names have different normalized paths. -/
theorem exists_normalizeChars_append (cwd root : List Char) : ∃ front : List Char, ∀ {ns},
    ns ≠ [] → (∀ n ∈ ns, IsName n ∧ '\\' ∉ n) →
    normalizeChars cwd (root ++ slashed ns) = front ++ slashed ns := by
  obtain ⟨base, hbase⟩ := exists_resolve_append cwd root
  refine ⟨(slashed base).map slash, fun {ns} hne hns => ?_⟩
  rw [normalizeChars_eq, hbase hne fun n hn => (hns n hn).1,
    ofNames_of_ne_nil (List.append_ne_nil_of_right_ne_nil base hne), slashed_append,
    List.map_append, map_slash_of_not_mem (not_mem_slashed fun n hn => (hns n hn).2),
    trimSlashes_slashed hne fun n hn => (hns n hn).1]

end Below

end Path

namespace Git

open Files (Location)

/-- The names are UTF-8 without backslashes, and they are names in any path: not empty, no dots, and
without slashes. -/
def IsTextPath (p : Location) : Prop :=
  p ≠ [] ∧ ∀ n ∈ p, Text.encode (Text.decodeLossy n) = n ∧
    Path.IsName (Text.decodeLossy n).toList ∧ '\\' ∉ (Text.decodeLossy n).toList

instance (p : Location) : Decidable (IsTextPath p) := inferInstanceAs (Decidable (_ ∧ _))

/-- The paths of a snapshot are text. -/
def HasTextPaths (s : Snapshot) : Prop := ∀ x ∈ s, IsTextPath x.1

instance (s : Snapshot) : Decidable (HasTextPaths s) := inferInstanceAs (Decidable (∀ x ∈ s, _))

/-- A file with a text at a path. -/
def textFile (names : List String) (text : String) : Location × Content :=
  (names.map Text.encode, .file (Text.encode text))

/-- A path of one snapshot and a path of the other with the same text are the same path. -/
def TellsApart (text : Location → String) (s t : Snapshot) : Prop :=
  ∀ p q, s.lookup p ≠ none → t.lookup q ≠ none → text p = text q → p = q

section TextPaths

variable {p q : Location}

theorem bytesOf_map_encode (ns : List String) : Files.bytesOf (ns.map Text.encode) =
    (Path.slashed (ns.map String.toList)).flatMap String.utf8EncodeChar := by
  have hslash : String.utf8EncodeChar '/' = [Files.slash] := rfl
  induction ns with
  | nil => rfl
  | cons n ns ih =>
    rw [List.map_cons, List.map_cons, Path.slashed_cons, List.flatMap_cons, List.flatMap_append,
      ← ih, hslash, ← Text.encode_eq]
    simp [Files.bytesOf]

theorem cons_pathText {ns : List String} (hne : ns ≠ []) :
    '/' :: (pathText (ns.map Text.encode)).toList = Path.slashed (ns.map String.toList) := by
  obtain ⟨n, ns, rfl⟩ := List.exists_cons_of_ne_nil hne
  have hslash : String.utf8EncodeChar '/' = [Files.slash] := rfl
  rw [pathText, bytesOf_map_encode, List.map_cons, Path.slashed_cons, List.flatMap_cons, hslash,
    List.singleton_append, List.drop_one, List.tail_cons]
  generalize n.toList ++ Path.slashed (ns.map String.toList) = text
  rw [← String.toList_ofList (l := text), ← Text.encode_eq, Text.decodeLossy_encode]

/-- The names of a path that is text, which its text tells. -/
theorem IsTextPath.exists_names (hp : IsTextPath p) : ∃ ns : List String,
    p = ns.map Text.encode ∧ ns.map String.toList ≠ [] ∧
    (∀ n ∈ ns.map String.toList, Path.IsName n ∧ '\\' ∉ n) ∧
    '/' :: (pathText p).toList = Path.slashed (ns.map String.toList) := by
  obtain ⟨hne, hnames⟩ := hp
  have hp : (p.map Text.decodeLossy).map Text.encode = p := by
    rw [List.map_map]
    exact (List.map_congr_left fun n hn => (hnames n hn).1).trans (List.map_id p)
  have hnonempty : p.map Text.decodeLossy ≠ [] := by simpa using hne
  have htext := cons_pathText hnonempty
  rw [hp] at htext
  refine ⟨p.map Text.decodeLossy, hp.symm, by simpa using hne, ?_, htext⟩
  simpa using fun n hn => (hnames n hn).2

theorem eq_of_slashed {ns ms : List String} (hns : ∀ n ∈ ns.map String.toList, Path.IsName n)
    (hms : ∀ n ∈ ms.map String.toList, Path.IsName n)
    (h : Path.slashed (ns.map String.toList) = Path.slashed (ms.map String.toList)) : ns = ms := by
  have hnames := (Path.slashed_inj (fun n hn => (hns n hn).2) fun n hn => (hms n hn).2).1 h
  exact (List.map_inj_right fun _ _ => String.toList_inj.1).1 hnames

theorem touchText_inj (hp : IsTextPath p) (hq : IsTextPath q) (h : touchText p = touchText q) :
    p = q := by
  have htext : ∀ {p}, IsTextPath p → touchText p = pathText p := by
    intro p hp
    obtain ⟨ns, -, -, hns, hpath⟩ := hp.exists_names
    have hmem : '\\' ∉ (pathText p).toList := fun hmem =>
      Path.not_mem_slashed (fun n hn => (hns n hn).2) (hpath ▸ List.mem_cons_of_mem '/' hmem)
    rw [← String.toList_inj, touchText, String.toList_map]
    exact Path.map_slash_of_not_mem hmem
  rw [htext hp, htext hq] at h
  obtain ⟨ns, rfl, -, hns, hpath⟩ := hp.exists_names
  obtain ⟨ms, rfl, -, hms, hpath'⟩ := hq.exists_names
  rw [eq_of_slashed (fun n hn => (hns n hn).1) (fun n hn => (hms n hn).1)
    (by rw [← hpath, ← hpath', h])]

/-- Whatever the working directory, paths that are text are normalized to different paths. -/
theorem absolutePath_inj {cwd root : String} (hp : IsTextPath p) (hq : IsTextPath q)
    (h : absolutePath cwd root p = absolutePath cwd root q) : p = q := by
  obtain ⟨front, hfront⟩ := Path.exists_normalizeChars_append cwd.toList root.toList
  have hchars : ∀ p, (absolutePath cwd root p).toList =
      Path.normalizeChars cwd.toList (root.toList ++ '/' :: (pathText p).toList) := by
    intro p
    have hpath : s!"{root}/{pathText p}" = root ++ "/" ++ pathText p := rfl
    simp [absolutePath, Path.normalize, hpath]
  rw [← String.toList_inj, hchars, hchars] at h
  obtain ⟨ns, rfl, hne, hns, hpath⟩ := hp.exists_names
  obtain ⟨ms, rfl, hne', hms, hpath'⟩ := hq.exists_names
  rw [hpath, hpath', hfront hne hns, hfront hne' hms, List.append_cancel_left_eq] at h
  rw [eq_of_slashed (fun n hn => (hns n hn).1) (fun n hn => (hms n hn).1) h]

theorem HasTextPaths.isTextPath {s : Snapshot} (h : HasTextPaths s) (hp : s.lookup p ≠ none) :
    IsTextPath p := by
  obtain ⟨x, hx, rfl⟩ := List.mem_map.1 (lookup_ne_none_iff.1 hp)
  exact h x hx

theorem HasTextPaths.tellsApart_absolutePath {s t : Snapshot} (hs : HasTextPaths s)
    (ht : HasTextPaths t) (cwd root : String) : TellsApart (absolutePath cwd root) s t :=
  fun _ _ hp hq h => absolutePath_inj (hs.isTextPath hp) (ht.isTextPath hq) h

theorem HasTextPaths.tellsApart_touchText {s t : Snapshot} (hs : HasTextPaths s)
    (ht : HasTextPaths t) : TellsApart touchText s t :=
  fun _ _ hp hq h => touchText_inj (hs.isTextPath hp) (ht.isTextPath hq) h

end TextPaths

end Git

end CodeGraph
