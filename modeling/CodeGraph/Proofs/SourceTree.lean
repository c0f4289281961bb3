import CodeGraph.Proofs.MemoryRun
import Mathlib.Data.List.Dedup
import Mathlib.Data.List.Nodup

/-!
# Source trees

A run may be shown one source tree from its start to its end, with facts that depend on nothing but
the path and the text of a file. If it is not told to stop, it then visits every file of its
worklist, and what it finds there follows from the path and the bytes of the file.
-/

namespace CodeGraph

open CodeGraph.Path (DiscoveredFile)

theorem Path.DiscoveredFile.eq_of_path {cwd root path path' : String} {f f' : DiscoveredFile}
    (h : DiscoveredFile.of? cwd root path = some f)
    (h' : DiscoveredFile.of? cwd root path' = some f') (hpath : f.path = f'.path) : f = f' := by
  obtain ⟨r, hr, rfl⟩ := Option.map_eq_some_iff.1 h
  obtain ⟨r', hr', rfl⟩ := Option.map_eq_some_iff.1 h'
  have hchars := String.ofList_injective hpath
  have hrelative : Path.relative? cwd root path = Path.relative? cwd root path' := by
    unfold Path.relative? Path.relativeChars?
    rw [hchars]
  obtain rfl := Option.some_inj.1 (hr.symm.trans (hrelative.trans hr'))
  exact congrArg (DiscoveredFile.mk · r) hpath

namespace Run

variable {ε : Type} {cwd root : String}

/-! ## Trees -/

/-- The files below a source root, and the bytes at their paths. -/
structure SourceTree (cwd root : String) where
  files : List DiscoveredFile
  bytes : (path : String) → List UInt8
  discovered : ∀ f ∈ files, ∃ path, DiscoveredFile.of? cwd root path = some f
  distinct : files.Nodup

/-- What is known of the file with a path and a text. -/
abbrev Knowledge := (path content : String) → Except FactError (List Declaration)

namespace SourceTree

variable (t t₀ t₁ : SourceTree cwd root)

/-- The files of the second tree that are new or have other bytes than in the first. -/
def changed : List DiscoveredFile :=
  t₁.files.filter fun f => f ∉ t₀.files ∨ t₀.bytes f.path ≠ t₁.bytes f.path

/-- The files of the first tree that the second does not have. -/
def gone : List DiscoveredFile := t₀.files.filter (· ∉ t₁.files)

/-- What is found in a file of the tree. -/
def extraction (o : Options) (known : Knowledge) (f : DiscoveredFile) : Extraction :=
  let source : SourceFile := ⟨o.repoKey, keyOfFile o f, f.path, Text.decodeLossy (t.bytes f.path)⟩
  source.extract o.minimum
    (if DocumentKind.ofPath? f.path = some .source then known f.path source.content else .ok [])

/-- The symbol is the last with its key in the file. -/
def Leaves (o : Options) (known : Knowledge) (f : DiscoveredFile) (x : Symbol) : Prop :=
  lastWith (t.extraction o known f).symbols x.key = some x

variable {t t₀ t₁}

/-- Files with one path are one file, be it in two trees below one root. -/
theorem eq_of_path {f f' : DiscoveredFile} (h : f ∈ t₀.files) (h' : f' ∈ t₁.files)
    (hpath : f.path = f'.path) : f = f' := by
  obtain ⟨p, hp⟩ := t₀.discovered f h
  obtain ⟨p', hp'⟩ := t₁.discovered f' h'
  exact DiscoveredFile.eq_of_path hp hp' hpath

theorem mem_changed {f : DiscoveredFile} : f ∈ t₀.changed t₁ ↔
    f ∈ t₁.files ∧ (f ∉ t₀.files ∨ t₀.bytes f.path ≠ t₁.bytes f.path) := by
  rw [changed, List.mem_filter, decide_eq_true_eq]

theorem mem_gone {f : DiscoveredFile} : f ∈ t₀.gone t₁ ↔ f ∈ t₀.files ∧ f ∉ t₁.files := by
  rw [gone, List.mem_filter, decide_eq_true_eq]

theorem changed_subset : t₀.changed t₁ ⊆ t₁.files := fun _ h => (mem_changed.1 h).1

theorem path_mem_changed {f : DiscoveredFile} (h : f ∈ t₁.files) :
    f.path ∈ (t₀.changed t₁).map (·.path) ↔
      f ∉ t₀.files ∨ t₀.bytes f.path ≠ t₁.bytes f.path := by
  refine ⟨fun hmem => ?_, fun hnew => List.mem_map_of_mem (mem_changed.2 ⟨h, hnew⟩)⟩
  obtain ⟨f', hf', hpath⟩ := List.mem_map.1 hmem
  rw [← eq_of_path (changed_subset hf') h hpath]
  exact (mem_changed.1 hf').2

theorem extraction_hangsOn (o : Options) (known : Knowledge) (f : DiscoveredFile) :
    (t.extraction o known f).HangsOn (keyOfFile o f) (keyOfFile o f) :=
  SourceFile.extract_hangsOn _ _ _

theorem Leaves.mem {o : Options} {known : Knowledge} {f : DiscoveredFile} {x : Symbol}
    (h : t.Leaves o known f x) : x ∈ (t.extraction o known f).symbols := (lastWith_eq_some h).1

theorem Leaves.fileKey_eq {o : Options} {known : Knowledge} {f : DiscoveredFile} {x : Symbol}
    (h : t.Leaves o known f x) : x.fileKey = keyOfFile o f :=
  (extraction_hangsOn o known f).owned x h.mem

theorem exists_leaves {o : Options} {known : Knowledge} {f : DiscoveredFile} {key : String}
    (h : key ∈ (t.extraction o known f).symbols.map (·.key)) :
    ∃ x, t.Leaves o known f x ∧ x.key = key := by
  obtain ⟨y, hy, rfl⟩ := List.mem_map.1 h
  obtain ⟨x, hx⟩ := lastWith_isSome hy
  have hkey := (lastWith_eq_some hx).2
  exact ⟨x, (congrArg _ hkey).trans hx, hkey⟩

theorem unchanged {f : DiscoveredFile} (h : f ∈ t₁.files) (hsame : f ∉ t₀.changed t₁)
    (o : Options) (known : Knowledge) :
    f ∈ t₀.files ∧ t₁.extraction o known f = t₀.extraction o known f := by
  have hold : ¬ (f ∉ t₀.files ∨ t₀.bytes f.path ≠ t₁.bytes f.path) :=
    fun hnew => hsame (mem_changed.2 ⟨h, hnew⟩)
  rw [not_or, not_not, not_ne_iff] at hold
  refine ⟨hold.1, ?_⟩
  unfold extraction
  rw [hold.2]

end SourceTree

/-- The files of the trees have keys of their own, and no key of a symbol is found at two paths. -/
structure Apart (o : Options) (known : Knowledge) (l : List (SourceTree cwd root)) : Prop where
  fileKeys : ∀ t ∈ l, ∀ t' ∈ l, ∀ f ∈ t.files, ∀ f' ∈ t'.files,
    keyOfFile o f = keyOfFile o f' → f.path = f'.path
  symbolKeys : ∀ t ∈ l, ∀ t' ∈ l, ∀ f ∈ t.files, ∀ f' ∈ t'.files,
    ∀ x ∈ (t.extraction o known f).symbols, ∀ x' ∈ (t'.extraction o known f').symbols,
      x.key = x'.key → f.path = f'.path

namespace Apart

variable {o : Options} {known : Knowledge} {l : List (SourceTree cwd root)}
  {t t' : SourceTree cwd root} {f f' : DiscoveredFile}

theorem file_eq (h : Apart o known l) (ht : t ∈ l) (ht' : t' ∈ l) (hf : f ∈ t.files)
    (hf' : f' ∈ t'.files) (hkey : keyOfFile o f = keyOfFile o f') : f = f' :=
  SourceTree.eq_of_path hf hf' (h.fileKeys t ht t' ht' f hf f' hf' hkey)

theorem file_eq_of_symbols (h : Apart o known l) (ht : t ∈ l) (ht' : t' ∈ l) (hf : f ∈ t.files)
    (hf' : f' ∈ t'.files) {x x' : Symbol} (hx : x ∈ (t.extraction o known f).symbols)
    (hx' : x' ∈ (t'.extraction o known f').symbols) (hkey : x.key = x'.key) : f = f' :=
  SourceTree.eq_of_path hf hf' (h.symbolKeys t ht t' ht' f hf f' hf' x hx x' hx' hkey)

theorem nodup_keys (h : Apart o known l) (ht : t ∈ l) {files : List DiscoveredFile}
    (hfiles : files.Sublist t.files) : (files.map (keyOfFile o)).Nodup :=
  .map_on (fun _ hf _ hf' => h.file_eq ht ht (hfiles.subset hf) (hfiles.subset hf'))
    (hfiles.nodup t.distinct)

end Apart

/-! ## Runs that are shown a tree -/

/-- The surroundings of a run that is shown this tree and is not told to stop. -/
structure Surroundings.Shows (s : Surroundings ε) (extensions : List String) (known : Knowledge)
    (t : SourceTree cwd root) : Prop where
  cwd : s.cwd = cwd
  scan : ∀ e, s.scan root extensions e = t.files
  read : ∀ f ∈ t.files, ∀ e, s.read f.path e = some (t.bytes f.path)
  declarations : ∀ path content e, (s.facts.declarations path content e).1 = known path content
  going : ∀ e, s.isCancelled e = false

/-- The history says what has changed from the first tree to the second. -/
structure Tells (h : History ε) (base : String) (extensions : List String)
    (t₀ t₁ : SourceTree cwd root) : Prop where
  within : Path.isWithin cwd h.root root = true
  commits : ∀ e, ∃ commits e', h.commitsSince base e = (.ok commits, e')
  changes : ∀ e, ∃ changed e', h.changedFiles base root extensions e = (.ok changed, e') ∧
    (∀ path, path ∈ changed.modified ↔ path ∈ (t₀.changed t₁).map (·.path)) ∧
    ∀ path, path ∈ changed.deleted ↔ path ∈ (t₀.gone t₁).map (·.path)

theorem lastWith_found_cases {key : String} {c : Extraction} : ∀ {vs : List Visit},
    (∀ v ∈ vs, ∀ y ∈ v.extraction.symbols, y.key = key → v.extraction = c) →
    lastWith (found vs).symbols key = none ∨
      lastWith (found vs).symbols key = lastWith c.symbols key
  | [], _ => .inl rfl
  | v :: vs, honly => by
    obtain ⟨hv, hvs⟩ := List.forall_mem_cons.1 honly
    have hrest := lastWith_found_cases hvs
    rw [found, Extraction.symbols_append, lastWith_append]
    rcases hy : lastWith v.extraction.symbols key with _ | y
    · rwa [Option.or_none]
    · obtain ⟨hmem, hkey⟩ := lastWith_eq_some hy
      rw [← hy, hv y hmem hkey]
      refine .inr (hrest.elim (fun hnone => ?_) fun hlast => ?_)
      · rw [hnone, Option.none_or]
      · rw [hlast, Option.or_self]

/-- If a key is found in one extraction only, then what is found last with it is there. -/
theorem lastWith_found {vs : List Visit} {key : String} {c : Extraction}
    (honly : ∀ v ∈ vs, ∀ y ∈ v.extraction.symbols, y.key = key → v.extraction = c)
    (hex : ∃ v ∈ vs, v.extraction = c) :
    lastWith (found vs).symbols key = lastWith c.symbols key := by
  refine (lastWith_found_cases honly).elim (fun hnone => ?_) id
  obtain ⟨v, hv, rfl⟩ := hex
  rw [hnone, eq_comm, lastWith_eq_none]
  exact fun y hy => lastWith_eq_none.1 hnone y (mem_found_symbols.2 ⟨v, hv, hy⟩)

namespace SourceTree

/-- The tree of the files at these paths, with their texts. -/
def ofTexts (cwd root : String) (l : List (String × String)) : SourceTree cwd root where
  files := (l.filterMap fun (path, _) => DiscoveredFile.of? cwd root path).dedup
  bytes path := ((l.find? fun (p, _) => Path.normalize cwd p == path).map
    fun (_, text) => text.toUTF8.data.toList).getD []
  discovered f hf := by
    obtain ⟨⟨path, _⟩, -, h⟩ := List.mem_filterMap.1 (List.mem_dedup.1 hf)
    exact ⟨path, h⟩
  distinct := List.nodup_dedup _

/-- Surroundings that show the tree. -/
def surroundings (t : SourceTree cwd root) (known : Knowledge) (history : Option (History Unit)) :
    Surroundings Unit where
  cwd := cwd
  scan _ _ _ := t.files
  read path _ := if path ∈ t.files.map (·.path) then some (t.bytes path) else none
  facts := ⟨fun path content w => (known path content, w), fun _ _ => []⟩
  history := history
  announce _ w := w
  isCancelled _ := false

theorem shows_surroundings (t : SourceTree cwd root) (extensions : List String)
    (known : Knowledge) (history : Option (History Unit)) :
    (t.surroundings known history).Shows extensions known t where
  cwd := rfl
  scan _ := rfl
  read _ hf _ := if_pos (List.mem_map_of_mem hf)
  declarations _ _ _ := rfl
  going _ := rfl

/-- A history that says what has changed from the first tree to the second, and no more. -/
def changes (t₀ t₁ : SourceTree cwd root) : History Unit where
  root := root
  commitsSince _ w := (.ok [], w)
  changedFiles _ _ _ w := (.ok ⟨(t₀.changed t₁).map (·.path), (t₀.gone t₁).map (·.path)⟩, w)
  fileHistory _ w := (none, w)

theorem tells_changes (t₀ t₁ : SourceTree cwd root) (base : String) (extensions : List String) :
    Tells (t₀.changes t₁) base extensions t₀ t₁ where
  within := by rw [Path.isWithin, changes, beq_self_eq_true, Bool.true_or]
  commits e := ⟨[], e, rfl⟩
  changes e := ⟨_, e, rfl, fun _ => Iff.rfl, fun _ => Iff.rfl⟩

end SourceTree

/-- What the visits of a run come to that has taken these files of the tree. -/
def Tours (o : Options) (known : Knowledge) (t : SourceTree cwd root) (files : List DiscoveredFile)
    (vs : List Visit) : Prop :=
  vs.map (fun v => (v.node.key, v.extraction)) =
    files.map fun f => (keyOfFile o f, t.extraction o known f)

namespace Tours

variable {o : Options} {known : Knowledge} {t : SourceTree cwd root} {files : List DiscoveredFile}
  {vs : List Visit}

theorem keys (h : Tours o known t files vs) :
    vs.map (·.node.key) = files.map (keyOfFile o) := by
  have h := congrArg (List.map Prod.fst) h
  rwa [List.map_map, List.map_map] at h

theorem exists_visit_iff (h : Tours o known t files vs) (q : String → Extraction → Prop) :
    (∃ v ∈ vs, q v.node.key v.extraction) ↔
      ∃ f ∈ files, q (keyOfFile o f) (t.extraction o known f) := by
  have hmem : ∀ x : String × Extraction, (∃ v ∈ vs, (v.node.key, v.extraction) = x) ↔
      ∃ f ∈ files, (keyOfFile o f, t.extraction o known f) = x := by
    intro x
    rw [← List.mem_map, ← List.mem_map, h]
  constructor
  · rintro ⟨v, hv, hq⟩
    obtain ⟨f, hf, heq⟩ := (hmem _).1 ⟨v, hv, rfl⟩
    obtain ⟨hkey, hextraction⟩ := Prod.mk.inj heq
    exact ⟨f, hf, by rwa [hkey, hextraction]⟩
  · rintro ⟨f, hf, hq⟩
    obtain ⟨v, hv, heq⟩ := (hmem _).2 ⟨f, hf, rfl⟩
    obtain ⟨hkey, hextraction⟩ := Prod.mk.inj heq
    exact ⟨v, hv, by rwa [hkey, hextraction]⟩

theorem found_symbols (h : Tours o known t files vs) :
    (found vs).symbols = files.flatMap fun f => (t.extraction o known f).symbols := by
  have h := congrArg (List.flatMap fun x => x.2.symbols) h
  rw [List.flatMap_map, List.flatMap_map] at h
  exact (found_symbols_eq vs).trans h

theorem mem_symbols (h : Tours o known t files vs) {x : Symbol} :
    x ∈ (found vs).symbols ↔ ∃ f ∈ files, x ∈ (t.extraction o known f).symbols := by
  rw [h.found_symbols, List.mem_flatMap]

theorem mem_relationships (h : Tours o known t files vs) {r : Relationship} :
    r ∈ (found vs).relationships ↔ ∃ f ∈ files, r ∈ (t.extraction o known f).relationships :=
  mem_found_relationships.trans (h.exists_visit_iff fun _ e => r ∈ e.relationships)

/-- If no two files share a key, then what is found last with a key is what its file leaves. -/
theorem lastWith_iff (h : Tours o known t files vs) {l : List (SourceTree cwd root)}
    (hapart : Apart o known l) (ht : t ∈ l) (hfiles : files ⊆ t.files) {x : Symbol} :
    lastWith (found vs).symbols x.key = some x ↔ ∃ f ∈ files, t.Leaves o known f x := by
  have hlast : ∀ f ∈ files, ∀ y ∈ (t.extraction o known f).symbols,
      lastWith (found vs).symbols y.key = lastWith (t.extraction o known f).symbols y.key := by
    intro f hf y hy
    refine lastWith_found (fun v hv z hz hkey => ?_) ?_
    · obtain ⟨f', hf', hz', he⟩ := (h.exists_visit_iff
        fun _ e => z ∈ e.symbols ∧ v.extraction = e).1 ⟨v, hv, hz, rfl⟩
      obtain rfl := hapart.file_eq_of_symbols ht ht (hfiles hf') (hfiles hf) hz' hy hkey
      exact he
    · exact (h.exists_visit_iff fun _ e => e = t.extraction o known f).2 ⟨f, hf, rfl⟩
  constructor
  · intro hx
    obtain ⟨f, hf, hmem⟩ := h.mem_symbols.1 (lastWith_eq_some hx).1
    exact ⟨f, hf, (hlast f hf x hmem).symm.trans hx⟩
  · rintro ⟨f, hf, hx⟩
    exact (hlast f hf x (lastWith_eq_some hx).1).trans hx

end Tours

section Plans

variable {s : Surroundings ε} {o : Options} {known : Knowledge} {t : SourceTree cwd o.root}

theorem visitAt_of_shows (hs : s.Shows (Path.normalizeExtensions o.extensions) known t)
    {f : DiscoveredFile} (hf : f ∈ t.files) (e : ε) : ∃ v, visitAt s o (f, e) = some v ∧
      (v.node.key, v.extraction) = (keyOfFile o f, t.extraction o known f) := by
  refine ⟨_, congrArg (Option.map _) (hs.read f hf e), ?_⟩
  have hdeclarations : ∀ (kind : Option DocumentKind) (source : SourceFile) (e : ε),
      (declarationsOf s kind source e).1 =
        if kind = some .source then known source.path source.content else .ok [] := by
    intro kind source e
    unfold declarationsOf
    split_ifs
    · exact hs.declarations _ _ e
    · rfl
  simp only [visit, SourceTree.extraction, hdeclarations]
  rfl

theorem tours_visits (hs : s.Shows (Path.normalizeExtensions o.extensions) known t) :
    ∀ l : List (DiscoveredFile × ε), (∀ turn ∈ l, turn.1 ∈ t.files) →
      Tours o known t (l.map Prod.fst) (visits s o l)
  | [], _ => rfl
  | (f, e) :: l, h => by
    obtain ⟨hf, hl⟩ := List.forall_mem_cons.1 h
    obtain ⟨v, hv, heq⟩ := visitAt_of_shows hs hf e
    rw [visits, List.filterMap_cons_some hv, Tours, List.map_cons, List.map_cons, List.map_cons,
      heq]
    exact congrArg _ (tours_visits hs l hl)

theorem tours_of_plan (hs : s.Shows (Path.normalizeExtensions o.extensions) known t) {e : ε}
    {p : Plan} (hp : plan s o e = .ok p) (hfiles : p.worklist ⊆ t.files) :
    p.turns = p.worklist ∧ Tours o known t p.worklist p.visits := by
  obtain ⟨e', ts, -, hts, hturns, hvisits, -⟩ := plan_eq_ok s o hp
  have hfst : ts.map Prod.fst = p.worklist := by
    rw [hts]
    refine (turns_complete s o _ 0 _ e').resolve_right ?_
    rintro ⟨e'', hstop⟩
    rw [hs.going e''] at hstop
    exact Bool.false_ne_true hstop
  refine ⟨hturns.trans hfst, ?_⟩
  rw [hvisits, ← hfst]
  refine tours_visits hs ts fun turn hturn => hfiles ?_
  rw [← hfst]
  exact List.mem_map_of_mem hturn

/-- A full run takes the whole tree and marks nothing as deleted. -/
theorem plan_full (hs : s.Shows (Path.normalizeExtensions o.extensions) known t)
    (hbase : o.base = none) (e : ε) : ∃ p, plan s o e = .ok p ∧ p.worklist = t.files ∧
      p.turns = p.worklist ∧ p.changes.tombstones = [] ∧ Tours o known t p.worklist p.visits := by
  obtain ⟨p, hp, hworklist, htombstones⟩ := plan_of_base_eq_none s o hbase e
  rw [hs.scan e] at hworklist
  obtain ⟨hturns, htours⟩ := tours_of_plan hs hp (hworklist ▸ List.Subset.refl _)
  exact ⟨p, hp, hworklist, hturns, htombstones, htours⟩

/-- An incremental run takes the files that have changed and marks those that are gone. -/
theorem plan_incremental (hs : s.Shows (Path.normalizeExtensions o.extensions) known t)
    {h : History ε} {base : String} {t₀ : SourceTree cwd o.root} (hh : s.history = some h)
    (hbase : o.base = some base) (hforce : o.force = false)
    (htells : Tells h base (Path.normalizeExtensions o.extensions) t₀ t) (e : ε) :
    ∃ p, plan s o e = .ok p ∧ p.worklist = t₀.changed t ∧ p.turns = p.worklist ∧
      (∀ path, path ∈ p.changes.tombstones ↔ path ∈ (t₀.gone t).map (·.path)) ∧
      Tours o known t p.worklist p.visits := by
  obtain ⟨commits, e₁, hcommits⟩ := htells.commits e
  obtain ⟨changed, e₂, hchanged, hmodified, hdeleted⟩ := htells.changes e₁
  let changes : ChangeSet :=
    ⟨.incremental, Text.ascending changed.modified, Text.ascending changed.deleted, commits⟩
  have hchanges : changesOf s o e = (.ok changes, e₂) := by
    simp only [changesOf, ChangeSet.resolve, ChangeSet.since, hbase, hh, hs.cwd, htells.within,
      if_true, hcommits, hforce, Bool.false_eq_true, if_false, hchanged, changes]
  obtain ⟨p, hp, hpchanges, hdiscovered⟩ := plan_of_changes s o hchanges
  have hworklist : p.worklist = t₀.changed t := by
    rw [Plan.worklist, hpchanges, hdiscovered, hs.scan e]
    refine List.filter_congr fun f hf => ?_
    rw [Bool.eq_iff_iff, List.contains_iff_mem, Text.mem_ascending, hmodified, decide_eq_true_eq]
    exact SourceTree.path_mem_changed hf
  obtain ⟨hturns, htours⟩ := tours_of_plan hs hp (hworklist ▸ SourceTree.changed_subset)
  refine ⟨p, hp, hworklist, hturns, fun path => ?_, htours⟩
  rw [hpchanges, ← hdeleted]
  exact Text.mem_ascending

end Plans

end Run

end CodeGraph
