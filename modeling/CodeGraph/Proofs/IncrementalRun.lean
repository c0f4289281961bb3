import CodeGraph.Proofs.FullRun
import CodeGraph.Proofs.SourceTree
import Mathlib.Data.List.Perm.Subperm

/-!
# Incremental runs

A store that reflects one source tree is brought up to date with another by an incremental run,
whose history says what has changed, under the conditions of `incremental_run`.
-/

namespace CodeGraph

namespace MemoryGraph

/-- A symbol whose file is not marked as deleted. -/
def Live (g : MemoryGraph) (x : Symbol) : Prop := x ∈ g.symbols ∧ x.fileKey ∉ g.deleted

/-- The key is that of a live symbol or of its file. -/
def IsNear (g : MemoryGraph) (key : String) : Prop :=
  ∃ x, g.Live x ∧ (x.key = key ∨ x.fileKey = key)

/-- A relationship among live symbols and their files. -/
def Connects (g : MemoryGraph) (r : Relationship) : Prop :=
  r ∈ g.relationships ∧ g.IsNear r.source ∧ g.IsNear r.target

end MemoryGraph

namespace Run

open MemoryGraph (after)
open CodeGraph.Path (DiscoveredFile)

variable {ε : Type} {cwd : String}

/-- No symbol that is found in the trees has the key of a file. -/
def Plain {root : String} (o : Options) (known : Knowledge) (l : List (SourceTree cwd root)) :
    Prop :=
  ∀ t ∈ l, ∀ t' ∈ l, ∀ f ∈ t.files, ∀ f' ∈ t'.files,
    ∀ x ∈ (t.extraction o known f).symbols, x.key ≠ keyOfFile o f'

/-- The store holds what is found in the files of the tree, and marks none of them as deleted. -/
structure Reflects (o : Options) (known : Knowledge) (t : SourceTree cwd o.root)
    (g : MemoryGraph) : Prop where
  keyed : g.Keyed
  symbols : ∀ x, x ∈ g.symbols ↔ ∃ f ∈ t.files, t.Leaves o known f x
  relationships : ∀ r, r ∈ g.relationships ↔
    ∃ f ∈ t.files, r ∈ (t.extraction o known f).relationships
  files : ∀ key, g.hasFile key = true ↔ key ∈ t.files.map (keyOfFile o)
  deleted : g.deleted = []

theorem reflects_full {s : Surroundings ε} {o : Options} {known : Knowledge}
    {t : SourceTree cwd o.root} {l : List (SourceTree cwd o.root)} (hapart : Apart o known l)
    (ht : t ∈ l) (hs : s.Shows (Path.normalizeExtensions o.extensions) known t)
    {version : String} (hversion : checkVersion version = .ok ()) (n : Nat) (e : ε) :
    ∃ report e' g, synchronize ((MemoryGraph.store version).beside ε) (s.beside _)
        { o with base := none, batchSize := n } (e, {}) = (.ok report, e', g) ∧
      Reflects o known t g := by
  let o' : Options := { o with base := none, batchSize := n }
  have hapart' : Apart o' known l := ⟨hapart.fileKeys, hapart.symbolKeys⟩
  obtain ⟨p, hp, hworklist, hturns, htombstones, htours⟩ := plan_full (o := o') hs rfl e
  have hvs : Itinerary p.visits := by
    refine plan_itinerary s o' hp (hapart'.nodup_keys ht ?_)
    rw [hworklist]
  rw [hworklist] at htours
  obtain ⟨report, e', hrun⟩ := synchronize_of_plan version s o' hversion hp hturns {}
  refine ⟨report, e', _, hrun, MemoryGraph.keyed_foldl_after _ MemoryGraph.keyed_empty,
    fun x => ?_, fun r => ?_, fun key => ?_, ?_⟩
  · rw [mem_symbols_agenda s o' hp hvs MemoryGraph.keyed_empty,
      htours.lastWith_iff hapart' ht (List.Subset.refl _)]
    exact or_iff_left fun h => List.not_mem_nil h.1
  · rw [mem_relationships_of_empty s o' hp hvs, htours.mem_relationships]
    rfl
  · have hkeys : p.visits.map (·.node.key) = t.files.map (keyOfFile o) := htours.keys
    rw [MemoryGraph.hasFile_foldl_after, files_agenda s o' hp, List.map_map, ← hkeys]
    exact or_iff_right Bool.false_ne_true
  · refine List.eq_nil_iff_forall_not_mem.2 fun key hkey => ?_
    have hmarked := ((mem_deleted_agenda s o' hp).1 hkey).1.resolve_left List.not_mem_nil
    rw [tombstoneKeys, htombstones] at hmarked
    exact List.not_mem_nil hmarked.1

/-- The keys of the files that are gone are among those that are made of their paths. -/
def Traceable (o : Options) (t₀ t₁ : SourceTree cwd o.root) : Prop :=
  ∀ f ∈ t₀.gone t₁, ∃ f' ∈ t₀.gone t₁, keyOf? cwd o f'.path = some (keyOfFile o f)

/-- A path that is normalized as it stands leads to the key of its file. -/
theorem traceable_of_normalized {o : Options} {t₀ t₁ : SourceTree cwd o.root}
    (h : ∀ f ∈ t₀.gone t₁, Path.normalize cwd f.path = f.path) : Traceable o t₀ t₁ := by
  intro f hf
  obtain ⟨path, hpath⟩ := t₀.discovered f (SourceTree.mem_gone.1 hf).1
  obtain ⟨relative, hrelative, rfl⟩ := Option.map_eq_some_iff.1 hpath
  refine ⟨_, hf, ?_⟩
  have hchars := String.ofList_injective (h _ hf)
  have hsame : Path.relative? cwd o.root (Path.normalize cwd path) =
      Path.relative? cwd o.root path := by
    unfold Path.relative? Path.relativeChars?
    rw [hchars]
  unfold keyOf?
  rw [hsame, hrelative]
  rfl

/-- An incremental run from one tree to another, ahead of which the store reflects the first. -/
structure Refresh (s : Surroundings ε) (o : Options) (known : Knowledge)
    (t₀ t₁ : SourceTree cwd o.root) (e : ε) (p : Plan) (g : MemoryGraph) : Prop where
  apart : Apart o known [t₀, t₁]
  reflects : Reflects o known t₀ g
  cwd : s.cwd = cwd
  planned : plan s o e = .ok p
  worklist : p.worklist = t₀.changed t₁
  tours : Tours o known t₁ (t₀.changed t₁) p.visits
  tombstones : ∀ path, path ∈ p.changes.tombstones ↔ path ∈ (t₀.gone t₁).map (·.path)

/-- The first store marks the files that are gone, and apart from them it holds what the second
does. -/
structure UpToDate (o : Options) (t₀ t₁ : SourceTree cwd o.root) (g₁ g₂ : MemoryGraph) : Prop where
  tombstones : ∀ key, key ∈ g₁.deleted ↔ key ∈ (t₀.gone t₁).map (keyOfFile o)
  symbols : ∀ x, g₁.Live x ↔ x ∈ g₂.symbols
  relationships : ∀ r, g₁.Connects r ↔ r ∈ g₂.relationships

namespace Refresh

variable {s : Surroundings ε} {o : Options} {known : Knowledge} {t₀ t₁ : SourceTree cwd o.root}
  {e : ε} {p : Plan} {g : MemoryGraph}

theorem mem_first : t₀ ∈ [t₀, t₁] := List.mem_cons_self

theorem mem_second : t₁ ∈ [t₀, t₁] := List.mem_cons_of_mem _ List.mem_cons_self

theorem itinerary (h : Refresh s o known t₀ t₁ e p g) : Itinerary p.visits :=
  plan_itinerary s o h.planned
    (h.worklist ▸ h.apart.nodup_keys mem_second List.filter_sublist)

theorem exists_visit_iff (h : Refresh s o known t₀ t₁ e p g) {key : String} :
    (∃ v ∈ p.visits, v.node.key = key) ↔ ∃ f ∈ t₀.changed t₁, keyOfFile o f = key :=
  h.tours.exists_visit_iff fun k _ => k = key

/-! ## Symbols -/

/-- The symbols after the run are those of the changed files, and those of the other files of the
first tree. -/
theorem mem_symbols (h : Refresh s o known t₀ t₁ e p g) {x : Symbol} :
    x ∈ ((agenda s o e).foldl after g).symbols ↔
      (∃ f ∈ t₀.changed t₁, t₁.Leaves o known f x) ∨
        ∃ f ∈ t₀.files, f ∉ t₀.changed t₁ ∧ t₀.Leaves o known f x := by
  rw [mem_symbols_agenda s o h.planned h.itinerary h.reflects.keyed,
    h.tours.lastWith_iff h.apart mem_second SourceTree.changed_subset, h.reflects.symbols]
  refine or_congr_right ⟨?_, ?_⟩
  · rintro ⟨⟨f, hf, hx⟩, -, hfile⟩
    refine ⟨f, hf, fun hchanged => ?_, hx⟩
    obtain ⟨v, hv, hkey⟩ := h.exists_visit_iff.2 ⟨f, hchanged, rfl⟩
    exact hfile v hv (hkey.trans hx.fileKey_eq.symm)
  · rintro ⟨f, hf, hsame, hx⟩
    refine ⟨⟨f, hf, hx⟩, fun y hy hkey => ?_, fun v hv hkey => ?_⟩
    · obtain ⟨f', hf', hy⟩ := h.tours.mem_symbols.1 hy
      obtain rfl := h.apart.file_eq_of_symbols mem_second mem_first
        (SourceTree.changed_subset hf') hf hy hx.mem hkey
      exact hsame hf'
    · obtain ⟨f', hf', hkey'⟩ := h.exists_visit_iff.1 ⟨v, hv, hkey⟩
      obtain rfl := h.apart.file_eq mem_second mem_first (SourceTree.changed_subset hf') hf
        (hkey'.trans hx.fileKey_eq)
      exact hsame hf'

/-! ## Tombstones -/

theorem mem_deleted (h : Refresh s o known t₀ t₁ e p g) {key : String} :
    key ∈ ((agenda s o e).foldl after g).deleted ↔
      key ∈ tombstoneKeys s.cwd o p.changes ∧ key ∈ t₀.files.map (keyOfFile o) ∧
        key ∉ (t₀.changed t₁).map (keyOfFile o) := by
  rw [mem_deleted_agenda s o h.planned, h.reflects.deleted, h.reflects.files, h.tours.keys,
    and_assoc.symm]
  exact and_congr_left fun _ => or_iff_right List.not_mem_nil

theorem mem_tombstoneKeys (h : Refresh s o known t₀ t₁ e p g) {key : String} :
    key ∈ tombstoneKeys s.cwd o p.changes ↔
      ∃ f ∈ t₀.gone t₁, keyOf? cwd o f.path = some key := by
  rw [tombstoneKeys, List.mem_filterMap, h.cwd]
  simp only [h.tombstones, List.mem_map, exists_exists_and_eq_and]

/-- There are no more tombstones than files that are gone, so if these are marked, nothing else is.
-/
theorem tombstoneKeys_subset (h : Refresh s o known t₀ t₁ e p g)
    (htrace : Traceable o t₀ t₁) :
    tombstoneKeys s.cwd o p.changes ⊆ (t₀.gone t₁).map (keyOfFile o) := by
  obtain ⟨e', ts, hchanges, -⟩ := plan_eq_ok s o h.planned
  have hnodup : p.changes.tombstones.Nodup := (changesOf_eq_ok s o hchanges).1.imp String.ne_of_lt
  have hgone : ((t₀.gone t₁).map (keyOfFile o)).Nodup :=
    h.apart.nodup_keys mem_first List.filter_sublist
  have hsub : (t₀.gone t₁).map (keyOfFile o) ⊆ tombstoneKeys s.cwd o p.changes := by
    intro key hkey
    obtain ⟨f, hf, rfl⟩ := List.mem_map.1 hkey
    exact h.mem_tombstoneKeys.2 (htrace f hf)
  have hlength : (tombstoneKeys s.cwd o p.changes).length ≤
      ((t₀.gone t₁).map (keyOfFile o)).length := by
    calc (tombstoneKeys s.cwd o p.changes).length
        ≤ p.changes.tombstones.length := List.length_filterMap_le _ _
      _ ≤ ((t₀.gone t₁).map (·.path)).length :=
          (List.subperm_of_subset hnodup fun path => (h.tombstones path).1).length_le
      _ = ((t₀.gone t₁).map (keyOfFile o)).length := by rw [List.length_map, List.length_map]
  exact ((List.subperm_of_subset hgone hsub).perm_of_length_le hlength).symm.subset

/-- The marked files are those that are gone if and only if the run marks all of these. -/
theorem deleted_iff_traceable (h : Refresh s o known t₀ t₁ e p g) :
    (∀ key, key ∈ ((agenda s o e).foldl after g).deleted ↔
      key ∈ (t₀.gone t₁).map (keyOfFile o)) ↔ Traceable o t₀ t₁ := by
  constructor
  · intro hdeleted f hf
    have hmem := (hdeleted _).2 (List.mem_map_of_mem hf)
    exact h.mem_tombstoneKeys.1 (h.mem_deleted.1 hmem).1
  · intro htrace key
    rw [h.mem_deleted]
    refine ⟨fun hkey => h.tombstoneKeys_subset htrace hkey.1, fun hkey => ?_⟩
    obtain ⟨f, hf, rfl⟩ := List.mem_map.1 hkey
    obtain ⟨hold, hnew⟩ := SourceTree.mem_gone.1 hf
    refine ⟨h.mem_tombstoneKeys.2 (htrace f hf), List.mem_map_of_mem hold, fun hchanged => hnew ?_⟩
    obtain ⟨f', hf', hkey'⟩ := List.mem_map.1 hchanged
    rw [← h.apart.file_eq mem_second mem_first (SourceTree.changed_subset hf') hold hkey']
    exact SourceTree.changed_subset hf'

/-- If what is gone is marked, the live symbols are those of the second tree. -/
theorem live_iff (h : Refresh s o known t₀ t₁ e p g) (htrace : Traceable o t₀ t₁) {x : Symbol} :
    ((agenda s o e).foldl after g).Live x ↔ ∃ f ∈ t₁.files, t₁.Leaves o known f x := by
  rw [MemoryGraph.Live, h.mem_symbols, h.deleted_iff_traceable.2 htrace]
  constructor
  · rintro ⟨⟨f, hf, hx⟩ | ⟨f, hf, hsame, hx⟩, hlive⟩
    · exact ⟨f, SourceTree.changed_subset hf, hx⟩
    · have hnew : f ∈ t₁.files := by
        by_contra hnew
        rw [hx.fileKey_eq] at hlive
        exact hlive (List.mem_map_of_mem (SourceTree.mem_gone.2 ⟨hf, hnew⟩))
      refine ⟨f, hnew, ?_⟩
      rwa [SourceTree.Leaves, (SourceTree.unchanged hnew hsame o known).2]
  · rintro ⟨f, hf, hx⟩
    refine ⟨?_, fun hmem => ?_⟩
    · by_cases hchanged : f ∈ t₀.changed t₁
      · exact .inl ⟨f, hchanged, hx⟩
      · obtain ⟨hold, hsame⟩ := SourceTree.unchanged hf hchanged o known
        refine .inr ⟨f, hold, hchanged, ?_⟩
        rwa [SourceTree.Leaves, hsame] at hx
    · obtain ⟨f', hf', hkey⟩ := List.mem_map.1 hmem
      obtain ⟨hold, hnew⟩ := SourceTree.mem_gone.1 hf'
      rw [h.apart.file_eq mem_first mem_second hold hf (hkey.trans hx.fileKey_eq)] at hnew
      exact hnew hf

/-! ## Relationships -/

theorem mem_relationships (h : Refresh s o known t₀ t₁ e p g) {r : Relationship} :
    r ∈ ((agenda s o e).foldl after g).relationships ↔
      ((∃ f ∈ t₀.files, r ∈ (t₀.extraction o known f).relationships) ∨
        ∃ f ∈ t₀.changed t₁, r ∈ (t₁.extraction o known f).relationships) ∧
          ¬ g.Loses (agenda s o e) r := by
  rw [mem_relationships_agenda s o h.planned h.itinerary h.reflects.keyed,
    h.reflects.relationships, h.tours.mem_relationships]

/-- The run takes the old relationships of a file that has changed away. -/
theorem loses_of_changed (h : Refresh s o known t₀ t₁ e p g) {f : DiscoveredFile}
    (hf : f ∈ t₀.files) (hchanged : f ∈ t₀.changed t₁) {r : Relationship}
    (hr : r ∈ (t₀.extraction o known f).relationships)
    (hnew : ∀ f' ∈ t₀.changed t₁, r ∉ (t₁.extraction o known f').relationships) :
    g.Loses (agenda s o e) r := by
  obtain ⟨z, hz, hzkey⟩ :=
    SourceTree.exists_leaves ((SourceTree.extraction_hangsOn o known f).target r hr)
  have hdelete : keyOfFile o f ∈ deletedKeys (agenda s o e) := by
    rw [deletedKeys_agenda s o h.planned, h.tours.keys]
    exact List.mem_map_of_mem hchanged
  obtain ⟨l₁, l₂, hl⟩ := List.append_of_mem (mem_deletedKeys.1 hdelete)
  have hwritten := written_agenda s o h.planned
  rw [hl, written_append] at hwritten
  refine ⟨l₁, _, l₂, hl, ⟨z, (h.reflects.symbols z).2 ⟨f, hf, hz⟩, hz.fileKey_eq, .inr hzkey,
    fun y hy hkey => ?_⟩, fun hmem => ?_⟩
  · -- A symbol written before the deletion would be one of the file, and come after it.
    have hfound : y ∈ (found p.visits).symbols := by
      rw [← hwritten]
      exact List.mem_append_left _ hy
    obtain ⟨f', hf', hy'⟩ := h.tours.mem_symbols.1 hfound
    obtain rfl := h.apart.file_eq_of_symbols mem_second mem_first
      (SourceTree.changed_subset hf') hf hy' hz.mem hkey
    have hlasting := lasting_agenda s o h.planned h.itinerary
    rw [hl] at hlasting
    exact hlasting.fileKey_ne hy ((SourceTree.extraction_hangsOn o known f').owned y hy')
  · have hfound : r ∈ (found p.visits).relationships := by
      rw [← hwritten]
      exact List.mem_append_right _ hmem
    obtain ⟨f', hf', hr'⟩ := h.tours.mem_relationships.1 hfound
    exact hnew f' hf' hr'

theorem connects_of_live {g : MemoryGraph} {t : SourceTree cwd o.root}
    (hlive : ∀ x, g.Live x ↔ ∃ f ∈ t.files, t.Leaves o known f x) {f : DiscoveredFile}
    (hf : f ∈ t.files) {r : Relationship} (hr : r ∈ (t.extraction o known f).relationships)
    (hmem : r ∈ g.relationships) : g.Connects r := by
  have hhangs := SourceTree.extraction_hangsOn (t := t) o known f
  have hnear : ∀ key ∈ (t.extraction o known f).symbols.map (·.key), g.IsNear key := by
    intro key hkey
    obtain ⟨x, hx, rfl⟩ := SourceTree.exists_leaves hkey
    exact ⟨x, (hlive x).2 ⟨f, hf, hx⟩, .inl rfl⟩
  refine ⟨hmem, (hhangs.source r hr).elim (fun hsource => ?_) (hnear _),
    hnear _ (hhangs.target r hr)⟩
  obtain ⟨x, hx, -⟩ := SourceTree.exists_leaves (hhangs.target r hr)
  refine ⟨x, (hlive x).2 ⟨f, hf, hx⟩, .inr ?_⟩
  rw [hx.fileKey_eq]
  exact (Option.some_inj.1 hsource).symm

/-- Where the relationships that connect come to those of the second tree: none of these is lost,
and none is left of a file that is gone. -/
theorem connects_iff (h : Refresh s o known t₀ t₁ e p g) (htrace : Traceable o t₀ t₁) :
    (∀ r, ((agenda s o e).foldl after g).Connects r ↔
      ∃ f ∈ t₁.files, r ∈ (t₁.extraction o known f).relationships) ↔
      (∀ f ∈ t₁.files, ∀ r ∈ (t₁.extraction o known f).relationships,
        ¬ g.Loses (agenda s o e) r) ∧
      ∀ f ∈ t₀.gone t₁, ∀ r ∈ (t₀.extraction o known f).relationships,
        ¬ ((agenda s o e).foldl after g).Connects r := by
  constructor
  · intro hall
    refine ⟨fun f hf r hr => (h.mem_relationships.1 ((hall r).2 ⟨f, hf, hr⟩).1).2,
      fun f hf r hr hconnects => ?_⟩
    obtain ⟨hold, hnew⟩ := SourceTree.mem_gone.1 hf
    obtain ⟨f', hf', hr'⟩ := (hall r).1 hconnects
    -- The target of a relationship in both files would be a symbol of both.
    obtain ⟨y, hy, hkey⟩ :=
      List.mem_map.1 ((SourceTree.extraction_hangsOn o known f).target r hr)
    obtain ⟨y', hy', hkey'⟩ :=
      List.mem_map.1 ((SourceTree.extraction_hangsOn o known f').target r hr')
    rw [h.apart.file_eq_of_symbols mem_first mem_second hold hf' hy hy'
      (hkey.trans hkey'.symm)] at hnew
    exact hnew hf'
  · rintro ⟨hkept, hgone⟩ r
    constructor
    · intro hconnects
      obtain ⟨⟨f, hf, hr⟩ | ⟨f, hf, hr⟩, hlost⟩ := h.mem_relationships.1 hconnects.1
      · by_cases hnew : f ∈ t₁.files
        · by_cases hchanged : f ∈ t₀.changed t₁
          · by_contra hnone
            exact hlost (h.loses_of_changed hf hchanged hr fun f' hf' hr' =>
              hnone ⟨f', SourceTree.changed_subset hf', hr'⟩)
          · refine ⟨f, hnew, ?_⟩
            rwa [(SourceTree.unchanged hnew hchanged o known).2]
        · exact absurd hconnects (hgone f (SourceTree.mem_gone.2 ⟨hf, hnew⟩) r hr)
      · exact ⟨f, SourceTree.changed_subset hf, hr⟩
    · rintro ⟨f, hf, hr⟩
      refine connects_of_live (fun _ => h.live_iff htrace) hf hr
        (h.mem_relationships.2 ⟨?_, hkept f hf r hr⟩)
      by_cases hchanged : f ∈ t₀.changed t₁
      · exact .inr ⟨f, hchanged, hr⟩
      · obtain ⟨hold, hsame⟩ := SourceTree.unchanged hf hchanged o known
        exact .inl ⟨f, hold, hsame ▸ hr⟩

/-- No relationship of the second tree is lost unless a symbol has the key of a file. -/
theorem not_loses (h : Refresh s o known t₀ t₁ e p g) (hplain : Plain o known [t₀, t₁])
    {f : DiscoveredFile} (hf : f ∈ t₁.files) {r : Relationship}
    (hr : r ∈ (t₁.extraction o known f).relationships) : ¬ g.Loses (agenda s o e) r := by
  intro hloses
  by_cases hchanged : f ∈ t₀.changed t₁
  · have hfound := h.tours.mem_relationships.2 ⟨f, hchanged, hr⟩
    obtain ⟨v, hv, -, -, x, hx, hkey⟩ := clash_of_loses s o h.planned h.itinerary hfound hloses
    obtain ⟨f₀, hf₀, hx⟩ := (h.reflects.symbols x).1 hx
    obtain ⟨f', hf', hkey'⟩ := h.exists_visit_iff.1 ⟨v, hv, rfl⟩
    exact hplain _ mem_first _ mem_second f₀ hf₀ f' (SourceTree.changed_subset hf') x hx.mem
      (hkey.trans hkey'.symm)
  · obtain ⟨hold, hsame⟩ := SourceTree.unchanged hf hchanged o known
    obtain ⟨l₁, fileKey, l₂, hl, ⟨x, hx, rfl, hend, -⟩, -⟩ := hloses
    obtain ⟨f₀, hf₀, hx⟩ := (h.reflects.symbols x).1 hx
    have hdelete : x.fileKey ∈ p.visits.map (·.node.key) := by
      rw [← deletedKeys_agenda s o h.planned, hl, mem_deletedKeys]
      exact List.mem_append_right _ List.mem_cons_self
    rw [h.tours.keys] at hdelete
    obtain ⟨f', hf', hkey'⟩ := List.mem_map.1 hdelete
    have hother : x.key ∉ (t₁.extraction o known f).symbols.map (·.key) := by
      intro hmem
      obtain ⟨y, hy, hkey⟩ := List.mem_map.1 hmem
      obtain rfl := h.apart.file_eq_of_symbols mem_second mem_first hf hf₀ hy hx.mem hkey
      obtain rfl := h.apart.file_eq mem_second mem_first (SourceTree.changed_subset hf') hf₀
        (hkey'.trans hx.fileKey_eq)
      exact hchanged hf'
    have hhangs := SourceTree.extraction_hangsOn (t := t₁) o known f
    rcases hend with hend | hend
    · have hsource := (hhangs.source r hr).resolve_right (hend ▸ hother)
      exact hplain _ mem_first _ mem_second f₀ hf₀ f hf x hx.mem
        (hend.trans (Option.some_inj.1 hsource))
    · exact hother (hend ▸ hhangs.target r hr)

theorem not_connects (h : Refresh s o known t₀ t₁ e p g) (htrace : Traceable o t₀ t₁)
    (hplain : Plain o known [t₀, t₁]) {f : DiscoveredFile} (hf : f ∈ t₀.gone t₁) {r : Relationship}
    (hr : r ∈ (t₀.extraction o known f).relationships) :
    ¬ ((agenda s o e).foldl after g).Connects r := by
  rintro ⟨-, -, x, hlive, hend⟩
  obtain ⟨hold, hnew⟩ := SourceTree.mem_gone.1 hf
  obtain ⟨f', hf', hx⟩ := (h.live_iff htrace).1 hlive
  obtain ⟨y, hy, hkey⟩ := List.mem_map.1 ((SourceTree.extraction_hangsOn o known f).target r hr)
  rcases hend with hend | hend
  · rw [h.apart.file_eq_of_symbols mem_first mem_second hold hf' hy hx.mem
      (hkey.trans hend.symm)] at hnew
    exact hnew hf'
  · exact hplain _ mem_first _ mem_second f hold f' hf' y hy
      (hkey.trans (hend.symm.trans hx.fileKey_eq))

theorem upToDate_iff (h : Refresh s o known t₀ t₁ e p g) {g' : MemoryGraph}
    (h' : Reflects o known t₁ g') :
    UpToDate o t₀ t₁ ((agenda s o e).foldl after g) g' ↔ Traceable o t₀ t₁ ∧
      (∀ r ∈ g'.relationships, ¬ g.Loses (agenda s o e) r) ∧
      ∀ f ∈ t₀.gone t₁, ∀ r ∈ (t₀.extraction o known f).relationships,
        ¬ ((agenda s o e).foldl after g).Connects r := by
  have hkept : (∀ r ∈ g'.relationships, ¬ g.Loses (agenda s o e) r) ↔
      ∀ f ∈ t₁.files, ∀ r ∈ (t₁.extraction o known f).relationships,
        ¬ g.Loses (agenda s o e) r := by
    simp only [h'.relationships, forall_exists_index, and_imp]
    exact ⟨fun hall f hf r => hall r f hf, fun hall r f hf => hall f hf r⟩
  rw [hkept]
  constructor
  · intro hdate
    have htrace := h.deleted_iff_traceable.1 hdate.tombstones
    refine ⟨htrace, (h.connects_iff htrace).1 fun r => ?_⟩
    rw [hdate.relationships, h'.relationships]
  · rintro ⟨htrace, hrest⟩
    refine ⟨h.deleted_iff_traceable.2 htrace, fun x => ?_, fun r => ?_⟩
    · rw [h.live_iff htrace, h'.symbols]
    · rw [(h.connects_iff htrace).2 hrest r, h'.relationships]

/-- As long as no symbol has the key of a file, nothing else matters than the paths. -/
theorem upToDate_iff_of_plain (h : Refresh s o known t₀ t₁ e p g) (hplain : Plain o known [t₀, t₁])
    {g' : MemoryGraph} (h' : Reflects o known t₁ g') :
    UpToDate o t₀ t₁ ((agenda s o e).foldl after g) g' ↔ Traceable o t₀ t₁ := by
  rw [h.upToDate_iff h']
  refine and_iff_left_of_imp fun htrace => ⟨fun r hr => ?_, fun f hf r hr => ?_⟩
  · obtain ⟨f, hf, hr⟩ := (h'.relationships r).1 hr
    exact h.not_loses hplain hf hr
  · exact h.not_connects htrace hplain hf hr

end Refresh

/-- What an incremental run makes of the store that a full run from another tree has left. It brings
the store up to date if and only if the files that are gone can be told by their paths, no
relationship is lost, and none of a file that is gone connects. Unless a symbol has the key of a
file, only the paths matter, and normalized paths are fine. -/
theorem incremental_run {ε₀ ε₁ ε₂ : Type} (version : String)
    (hversion : checkVersion version = .ok ()) (o : Options) {base : String}
    (hbase : o.base = some base) (hforce : o.force = false) {known : Knowledge}
    {t₀ t₁ : SourceTree cwd o.root} (hapart : Apart o known [t₀, t₁])
    {s₀ : Surroundings ε₀} {s₁ : Surroundings ε₁} {s₂ : Surroundings ε₂} {h : History ε₁}
    (hs₀ : s₀.Shows (Path.normalizeExtensions o.extensions) known t₀)
    (hs₁ : s₁.Shows (Path.normalizeExtensions o.extensions) known t₁)
    (hs₂ : s₂.Shows (Path.normalizeExtensions o.extensions) known t₁)
    (hh : s₁.history = some h)
    (htells : Tells h base (Path.normalizeExtensions o.extensions) t₀ t₁)
    (n₀ n₂ : Nat) (e₀ : ε₀) (e₁ : ε₁) (e₂ : ε₂) :
    ∃ report₀ e₀' g₀ report₁ e₁' g₁ report₂ e₂' g₂,
      synchronize ((MemoryGraph.store version).beside ε₀) (s₀.beside _)
          { o with base := none, batchSize := n₀ } (e₀, {}) = (.ok report₀, e₀', g₀) ∧
      synchronize ((MemoryGraph.store version).beside ε₁) (s₁.beside _) o (e₁, g₀) =
          (.ok report₁, e₁', g₁) ∧
      synchronize ((MemoryGraph.store version).beside ε₂) (s₂.beside _)
          { o with base := none, batchSize := n₂ } (e₂, {}) = (.ok report₂, e₂', g₂) ∧
      (UpToDate o t₀ t₁ g₁ g₂ ↔ Traceable o t₀ t₁ ∧
        (∀ r ∈ g₂.relationships, ¬ g₀.Loses (agenda s₁ o e₁) r) ∧
        ∀ f ∈ t₀.gone t₁, ∀ r ∈ (t₀.extraction o known f).relationships, ¬ g₁.Connects r) ∧
      (Plain o known [t₀, t₁] → (UpToDate o t₀ t₁ g₁ g₂ ↔ Traceable o t₀ t₁)) ∧
      ((∀ f ∈ t₀.gone t₁, Path.normalize cwd f.path = f.path) → Traceable o t₀ t₁) := by
  obtain ⟨report₀, e₀', g₀, hrun₀, h₀⟩ := reflects_full hapart Refresh.mem_first hs₀ hversion n₀ e₀
  obtain ⟨report₂, e₂', g₂, hrun₂, h₂⟩ :=
    reflects_full hapart Refresh.mem_second hs₂ hversion n₂ e₂
  obtain ⟨p, hp, hworklist, hturns, htombstones, htours⟩ :=
    plan_incremental hs₁ hh hbase hforce htells e₁
  obtain ⟨report₁, e₁', hrun₁⟩ := synchronize_of_plan version s₁ o hversion hp hturns g₀
  have hrefresh : Refresh s₁ o known t₀ t₁ e₁ p g₀ :=
    ⟨hapart, h₀, hs₁.cwd, hp, hworklist, hworklist ▸ htours, htombstones⟩
  exact ⟨report₀, e₀', g₀, report₁, e₁', _, report₂, e₂', g₂, hrun₀, hrun₁, hrun₂,
    hrefresh.upToDate_iff h₂, fun hplain => hrefresh.upToDate_iff_of_plain hplain h₂,
    traceable_of_normalized⟩

/-- A document gets another element, and a second one is removed. -/
theorem incremental_run_of_documents :
    let t₀ := SourceTree.ofTexts "/" "/w" [("/w/a.xml", "<x/>"), ("/w/b.xml", "<y/>")]
    let t₁ := SourceTree.ofTexts "/" "/w" [("/w/a.xml", "<z/>")]
    let known : Knowledge := fun _ _ => .ok []
    let o : Options := { root := "/w", repoKey := "r", base := some "HEAD", batchSize := 1 }
    ∃ report₀ e₀ g₀ report₁ e₁ g₁ report₂ e₂ g₂,
      synchronize ((MemoryGraph.store "5.26.0").beside Unit)
          ((t₀.surroundings known none).beside _) { o with base := none, batchSize := 2 } ((), {}) =
        (.ok report₀, e₀, g₀) ∧
      synchronize ((MemoryGraph.store "5.26.0").beside Unit)
          ((t₁.surroundings known (some (t₀.changes t₁))).beside _) o ((), g₀) =
        (.ok report₁, e₁, g₁) ∧
      synchronize ((MemoryGraph.store "5.26.0").beside Unit)
          ((t₁.surroundings known none).beside _) { o with base := none, batchSize := 3 } ((), {}) =
        (.ok report₂, e₂, g₂) ∧
      UpToDate o t₀ t₁ g₁ g₂ := by
  intro t₀ t₁ known o
  have hapart : Apart o known [t₀, t₁] := ⟨by decide +kernel, by decide +kernel⟩
  have hplain : Plain o known [t₀, t₁] := by
    unfold Plain
    decide +kernel
  have hpaths : ∀ f ∈ t₀.gone t₁, Path.normalize "/" f.path = f.path := by decide +kernel
  obtain ⟨report₀, e₀, g₀, report₁, e₁, g₁, report₂, e₂, g₂, hrun₀, hrun₁, hrun₂, -, hdate,
    htrace⟩ := incremental_run "5.26.0" rfl o rfl rfl hapart (t₀.shows_surroundings _ known none)
      (t₁.shows_surroundings _ known (some (t₀.changes t₁))) (t₁.shows_surroundings _ known none)
      rfl (t₀.tells_changes t₁ "HEAD" _) 2 3 () () ()
  exact ⟨report₀, e₀, g₀, report₁, e₁, g₁, report₂, e₂, g₂, hrun₀, hrun₁, hrun₂,
    (hdate hplain).2 (htrace hpaths)⟩

end Run

end CodeGraph
