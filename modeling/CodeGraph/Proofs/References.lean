import CodeGraph.Proofs.Cancellation
import CodeGraph.Proofs.Extensions
import CodeGraph.Proofs.KeysApart
import CodeGraph.Proofs.Visibility

/-!
# References to packages

A project file is read twice: for the dependencies, which a run passes on ahead of its first file,
and again when its turn comes. Both times the references in it are the same, except that a file with
ill-formed bytes has no dependencies. So what a full run passes on are the references it finds in
project files that are well-formed text (`dependencies_of_references`).
-/

namespace CodeGraph

open CodeGraph.Path (DiscoveredFile)

theorem DocumentKind.ofPath?_eq_project {path : String} :
    ofPath? path = some .project ↔ Path.hasExtension path [".csproj"] = true :=
  ofPath?_eq_some_iff

namespace ProjectFile

variable {f : SourceFile}

/-- The name and the version that the symbol of a package reference tells. -/
def told (x : Symbol) : Option (String × Option String) :=
  if x.kind = .packageReference then some (x.name, x.documentation) else none

theorem told_reference? (e : Markup.Element) :
    ((reference? f e).bind fun a => told a.symbol) =
      if e.name = "PackageReference" then (include? e).map fun name => (name, version? e)
      else none := by
  unfold reference? referenceKind?
  split_ifs with hpackage hproject
  · rcases include? e with _ | name <;> rfl
  · rcases include? e with _ | name <;> rfl
  · rfl

theorem filterMap_told_references (root : Markup.Element) :
    (references f root).filterMap (fun a => told a.symbol) =
      (root.descendants.filter fun e => e.name == "PackageReference").filterMap fun e =>
        (include? e).map fun name => (name, version? e) := by
  rw [references, List.filterMap_filterMap, List.filterMap_filter]
  refine List.filterMap_congr fun e _ => ?_
  rw [told_reference?]
  simp only [beq_iff_eq]

theorem told_property? {e : Markup.Element} {a : Attachment} (h : property? f e = some a) :
    told a.symbol = none := by
  simp only [property?] at h
  split_ifs at h
  obtain rfl := Option.some_inj.1 h
  rfl

theorem packageReferences_eq (f : SourceFile) :
    packageReferences f.content = (extract f).symbols.filterMap told := by
  unfold packageReferences extract
  rcases Markup.parse f.content with _ | root
  · rfl
  have hproperties : (properties f root).filterMap (fun a => told a.symbol) = [] := by
    refine List.filterMap_eq_nil_iff.2 fun a ha => ?_
    obtain ⟨e, -, h⟩ := List.mem_filterMap.1 ha
    exact told_property? h
  simp only [Extraction.ofAttachments, List.filterMap_map, Function.comp_def, List.filterMap_append,
    hproperties, filterMap_told_references, List.nil_append]

end ProjectFile

def StoreCall.dependencies : StoreCall → List Dependency
  | upsertDependencies _ l => l
  | _ => []

/-- The symbol is a reference to a package in a project file. -/
def Symbol.IsReference (x : Symbol) : Prop :=
  x.kind = .packageReference ∧ Path.hasExtension x.filePath [".csproj"] = true

instance (x : Symbol) : Decidable x.IsReference := inferInstanceAs (Decidable (_ ∧ _))

/-- The key of the dependency that a reference to a package stands for. -/
def Symbol.dependencyKey (x : Symbol) : String :=
  Key.dependency x.name (x.documentation.getD Run.anyVersion)

/-- The references in a file are those that a project file lists for the dependencies. -/
theorem SourceFile.exists_reference_iff (f : SourceFile) (minimum : Accessibility)
    (facts : Except FactError (List Declaration)) (key : String) :
    (∃ x ∈ (f.extract minimum facts).symbols, x.IsReference ∧ x.dependencyKey = key) ↔
      Path.hasExtension f.path [".csproj"] = true ∧
        ∃ r ∈ ProjectFile.packageReferences f.content, (Run.dependencyOf r).key = key := by
  have hproject : Path.hasExtension f.path [".csproj"] = true →
      f.extract minimum facts = ProjectFile.extract f := by
    intro h
    simp only [SourceFile.extract, DocumentKind.ofPath?_eq_project.2 h]
    refine Extraction.restrict_of_admitted fun x hx => ?_
    rw [ProjectFile.extract_public f hx, Accessibility.admits_pub]
  rw [ProjectFile.packageReferences_eq]
  constructor
  · rintro ⟨x, hx, ⟨hkind, hpath⟩, hkey⟩
    rw [f.filePath_of_mem_extract hx] at hpath
    rw [hproject hpath] at hx
    exact ⟨hpath, _, List.mem_filterMap.2 ⟨x, hx, if_pos hkind⟩, hkey⟩
  · rintro ⟨hpath, r, hr, hkey⟩
    obtain ⟨x, hx, htold⟩ := List.mem_filterMap.1 hr
    unfold ProjectFile.told at htold
    split_ifs at htold with hkind
    obtain rfl := Option.some_inj.1 htold
    rw [← hproject hpath] at hx
    refine ⟨x, hx, ⟨hkind, ?_⟩, hkey⟩
    rw [f.filePath_of_mem_extract hx]
    exact hpath

namespace Run

variable {ε σ : Type}

/-! ## Dependencies -/

theorem keys_insertDependency (d : Dependency) : ∀ l : List Dependency,
    (insertDependency d l).map (·.key) = Text.insertAscending d.key (l.map (·.key))
  | [] => rfl
  | e :: es => by
    simp only [insertDependency, List.map_cons, Text.insertAscending]
    split_ifs
    · rfl
    · rfl
    · rw [List.map_cons, keys_insertDependency d es]

/-- The dependencies that are passed on with these requests. -/
def passed (l : List StoreCall) : List Dependency := l.flatMap StoreCall.dependencies

/-- The bytes of a file are well-formed text. -/
def IsText (bytes : Option (List UInt8)) : Prop := (bytes.bind Text.decode?).isSome = true

theorem mem_referencesIn {bytes : Option (List UInt8)} {r : String × Option String} :
    r ∈ referencesIn bytes ↔ IsText bytes ∧
      ∃ b, bytes = some b ∧ r ∈ ProjectFile.packageReferences (Text.decodeLossy b) := by
  unfold referencesIn IsText
  rcases bytes with _ | b
  · simp
  rcases htext : Text.decode? b with _ | text
  · simp [htext]
  · simp [htext, Text.decodeLossy_of_decode? htext]

theorem keys_dependencies (read : String → Option (List UInt8)) (discovered : List DiscoveredFile) :
    (dependencies read discovered).map (·.key) = Text.ascending
      (((discovered.filter fun f => Path.hasExtension f.path [".csproj"]).flatMap fun f =>
        referencesIn (read f.path)).map fun r => (dependencyOf r).key) := by
  have hfoldl : ∀ (l acc : List Dependency),
      (l.foldl (fun acc d => insertDependency d acc) acc).map (·.key) =
        (l.map (·.key)).foldl (fun acc s => Text.insertAscending s acc) (acc.map (·.key)) := by
    intro l
    induction l with
    | nil => exact fun _ => rfl
    | cons d l ih =>
      intro acc
      rw [List.foldl_cons, ih, keys_insertDependency]
      rfl
  rw [dependencies, hfoldl, List.map_map]
  rfl

theorem mem_keys_dependencies {read : String → Option (List UInt8)}
    {discovered : List DiscoveredFile} {key : String} :
    key ∈ (dependencies read discovered).map (·.key) ↔
      ∃ f ∈ discovered, Path.hasExtension f.path [".csproj"] = true ∧ IsText (read f.path) ∧
        ∃ b, read f.path = some b ∧
          ∃ r ∈ ProjectFile.packageReferences (Text.decodeLossy b), (dependencyOf r).key = key := by
  rw [keys_dependencies, Text.mem_ascending]
  simp only [List.mem_map, List.mem_flatMap, List.mem_filter, mem_referencesIn]
  constructor
  · rintro ⟨r, ⟨f, ⟨hf, hpath⟩, htext, b, hb, hr⟩, hkey⟩
    exact ⟨f, hf, hpath, htext, b, hb, r, hr, hkey⟩
  · rintro ⟨f, hf, hpath, htext, b, hb, r, hr, hkey⟩
    exact ⟨r, ⟨f, ⟨hf, hpath⟩, htext, b, hb, hr⟩, hkey⟩

/-! ## Plans -/

section Plans

variable {s : Surroundings ε} {o : Options} {e : ε} {p : Plan}

theorem plan_discovered (hp : plan s o e = .ok p) :
    p.discovered = s.scan o.root (Path.normalizeExtensions o.extensions) e ∧
      ∃ e', p.dependencies = if o.skipDependencies then [] else
        dependencies (fun path => s.read path e') p.discovered := by
  unfold plan at hp
  rcases hc : changesOf s o e with ⟨_ | changes, e'⟩ <;> simp only [hc, reduceCtorEq] at hp
  obtain rfl := Except.ok.inj hp
  exact ⟨rfl, e', rfl⟩

/-- A run without a base, and one that is forced, takes every file that it has discovered. -/
theorem plan_worklist (hp : plan s o e = .ok p) (hfull : o.base = none ∨ o.force = true) :
    p.worklist = p.discovered := by
  obtain ⟨e', ts, hchanges, -⟩ := plan_eq_ok s o hp
  refine if_neg fun hmode => ?_
  obtain ⟨hforce, _, base, _, _, _, -, hbase, -⟩ := (changesOf_mode s o hchanges).2.2 hmode
  rcases hfull with hnone | hforced
  · rw [hnone] at hbase
    cases hbase
  · rw [hforced] at hforce
    cases hforce

theorem exists_reference_found (hp : plan s o e = .ok p)
    (hstill : ∀ path e₁ e₂, s.read path e₁ = s.read path e₂) {key : String} :
    (∃ x ∈ (found p.visits).symbols, x.IsReference ∧ IsText (s.read x.filePath e) ∧
        x.dependencyKey = key) ↔
      ∃ f ∈ p.turns, Path.hasExtension f.path [".csproj"] = true ∧ IsText (s.read f.path e) ∧
        ∃ b, s.read f.path e = some b ∧
          ∃ r ∈ ProjectFile.packageReferences (Text.decodeLossy b), (dependencyOf r).key = key := by
  obtain ⟨-, ts, -, -, hturns, hvisits, -⟩ := plan_eq_ok s o hp
  have hreferences (file : DiscoveredFile) (b : List UInt8) (e' : ε) :=
    (sourceOf o file b).exists_reference_iff o.minimum (factsAt s o file b e') key
  simp only [mem_found_symbols, hvisits, hturns]
  constructor
  · rintro ⟨x, ⟨v, hv, hx⟩, href, htext, hkey⟩
    obtain ⟨turn, hturn, hv⟩ := List.mem_filterMap.1 hv
    obtain ⟨b, hread, rfl⟩ := Option.map_eq_some_iff.1 hv
    rw [visit_extraction] at hx
    obtain ⟨hpath, hex⟩ := (hreferences _ _ _).1 ⟨x, hx, href, hkey⟩
    rw [SourceFile.filePath_of_mem_extract _ hx] at htext
    rw [hstill _ _ e] at hread
    exact ⟨turn.1, List.mem_map_of_mem hturn, hpath, htext, b, hread, hex⟩
  · rintro ⟨f, hf, hpath, htext, b, hread, hex⟩
    obtain ⟨turn, hturn, rfl⟩ := List.mem_map.1 hf
    obtain ⟨x, hx, href, hkey⟩ := (hreferences turn.1 b turn.2).2 ⟨hpath, hex⟩
    refine ⟨x, ⟨(visit s o turn.1 b turn.2).1, ?_, ?_⟩, href, ?_, hkey⟩
    · rw [hstill _ _ turn.2] at hread
      exact List.mem_filterMap.2 ⟨turn, hturn, by rw [visitAt, hread, Option.map_some]⟩
    · rwa [visit_extraction]
    · rwa [SourceFile.filePath_of_mem_extract _ hx]

end Plans

/-! ## Runs -/

section Runs

variable (store : GraphStore σ) (s : Surroundings ε) (o : Options) {e : ε} {g : σ} {p : Plan}

theorem passed_scaffolding (cwd : String) (p : Plan) :
    passed (scaffolding cwd o p) = p.dependencies := by
  have hmarks : passed ((tombstoneKeys cwd o p.changes).map .markFileAsDeleted) = [] := by
    simp [passed, StoreCall.dependencies]
  unfold scaffolding frame
  rcases hd : p.dependencies with _ | ⟨d, ds⟩ <;>
    rcases commitNodes cwd o p.changes with _ | ⟨c, cs⟩ <;>
    simp_all [passed, StoreCall.dependencies]

theorem passed_fileRequests (repoKey : String) (b : Buffer) (vs : List Visit) :
    passed (fileRequests repoKey b vs) = [] := by
  refine List.flatMap_eq_nil_iff.2 fun c hc => ?_
  rcases mem_fileRequests hc with ⟨v, -, rfl | rfl⟩ | ⟨symbols, relationships, rfl⟩ <;> rfl

theorem passed_isPrefix {l m : List StoreCall} (h : l <+: m) : passed l <+: passed m := by
  obtain ⟨t, rfl⟩ := h
  exact ⟨passed t, List.flatMap_append.symm⟩

theorem passed_agenda (hp : plan s o e = .ok p) :
    passed (.serverVersion :: agenda s o e) = p.dependencies := by
  rw [agenda_eq_scaffolding hp, passed, List.flatMap_append]
  show passed _ ++ passed _ = _
  rw [passed_scaffolding, passed_fileRequests, List.append_nil]

/-- A run that has written a symbol has passed on all its dependencies before. -/
theorem passed_of_written (hp : plan s o e = .ok p) {l : List StoreCall}
    (hl : l <+: .serverVersion :: agenda s o e) {x : Symbol} (hx : x ∈ (written l).symbols) :
    passed l = p.dependencies := by
  have hwhole := passed_agenda s o hp
  rw [agenda_eq_scaffolding hp] at hl hwhole
  rcases List.prefix_or_prefix_of_prefix hl (List.prefix_append _ _) with hshort | hlong
  · have haside : ∀ c ∈ l, IsAside c := by
      intro c hc
      rcases List.mem_cons.1 (hshort.subset hc) with rfl | hc
      · exact ⟨rfl, rfl, rfl⟩
      · exact frame_aside o _ _ _ c hc
    rw [written_of_aside haside] at hx
    exact absurd hx List.not_mem_nil
  · refine List.IsPrefix.eq_of_length_le ?_ ?_
    · rw [← hwhole]
      exact passed_isPrefix hl
    · rw [← passed_scaffolding o s.cwd p]
      exact (passed_isPrefix hlong).length_le

theorem requested_of_error {h : HistoryError} (hp : plan s o e = .error h) :
    passed (requested store s o e g) = [] ∧ written (requested store s o e g) = .empty := by
  have hprefix : requested store s o e g <+: [.serverVersion, .ensureSchema] :=
    agenda_of_error s o hp ▸ requested_isPrefix store s o e g
  refine ⟨List.prefix_nil.1 (passed_isPrefix hprefix), written_of_aside fun c hc => ?_⟩
  have hc := hprefix.subset hc
  simp only [List.mem_cons, List.not_mem_nil, or_false] at hc
  rcases hc with rfl | rfl <;> exact ⟨rfl, rfl, rfl⟩

section Still

variable (hskip : o.skipDependencies = false)
  (hstill : ∀ path e₁ e₂, s.read path e₁ = s.read path e₂)

include hskip hstill

theorem dependencies_of_plan (hp : plan s o e = .ok p) :
    p.dependencies = dependencies (fun path => s.read path e) p.discovered := by
  obtain ⟨-, e₁, hdependencies⟩ := plan_discovered hp
  have hread : (fun path => s.read path e₁) = fun path => s.read path e :=
    funext fun path => hstill path e₁ e
  rw [hdependencies, hskip, hread]
  rfl

/-- Dependencies are passed on ahead of the files, so a run that has written a reference has passed
on all of them. -/
theorem dependencyKey_mem_passed (hp : plan s o e = .ok p) (hworklist : p.worklist = p.discovered)
    {x : Symbol} (hx : x ∈ (written (requested store s o e g)).symbols) (href : x.IsReference)
    (hsound : IsText (s.read x.filePath e)) :
    x.dependencyKey ∈ (passed (requested store s o e g)).map (·.key) := by
  have hfound := symbol_of_requested s o store hp g x hx
  obtain ⟨f, hf, h⟩ := (exists_reference_found hp hstill).1 ⟨x, hfound, href, hsound, rfl⟩
  obtain ⟨e₂, ts, -, rfl, hturns, -⟩ := plan_eq_ok s o hp
  have hf : f ∈ p.discovered := by
    rw [← hworklist]
    exact (turns_isPrefix s o _ 0 _ e₂).subset (hturns ▸ hf)
  rw [passed_of_written s o hp (requested_isPrefix store s o e g) hx,
    dependencies_of_plan s o hskip hstill hp, mem_keys_dependencies]
  exact ⟨f, hf, h⟩

theorem mem_keys_dependencies_of_plan (hp : plan s o e = .ok p)
    (facts : Except FactError (List Declaration)) {key : String} :
    key ∈ p.dependencies.map (·.key) ↔
      ∃ f ∈ p.discovered, ∃ bytes, s.read f.path e = some bytes ∧ IsText (some bytes) ∧
        ∃ x ∈ ((sourceOf o f bytes).extract o.minimum facts).symbols,
          x.IsReference ∧ x.dependencyKey = key := by
  have hreferences (file : DiscoveredFile) (bytes : List UInt8) :=
    (sourceOf o file bytes).exists_reference_iff o.minimum facts key
  rw [dependencies_of_plan s o hskip hstill hp, mem_keys_dependencies]
  constructor
  · rintro ⟨f, hf, hpath, htext, bytes, hread, hex⟩
    rw [hread] at htext
    exact ⟨f, hf, bytes, hread, htext, (hreferences f bytes).2 ⟨hpath, hex⟩⟩
  · rintro ⟨f, hf, bytes, hread, htext, hex⟩
    obtain ⟨hpath, hex⟩ := (hreferences f bytes).1 hex
    rw [← hread] at htext
    exact ⟨f, hf, hpath, htext, bytes, hread, hex⟩

theorem mem_keys_passed (hp : plan s o e = .ok p) (hworklist : p.worklist = p.discovered)
    (hturns : p.turns = p.worklist)
    (hall : requested store s o e g = .serverVersion :: agenda s o e) {key : String} :
    key ∈ (passed (requested store s o e g)).map (·.key) ↔
      ∃ x ∈ (written (requested store s o e g)).symbols,
        x.IsReference ∧ IsText (s.read x.filePath e) ∧ x.dependencyKey = key := by
  have hwritten : written (requested store s o e g) = found p.visits := by
    rw [hall, ← written_agenda s o hp]
    rfl
  rw [hwritten, exists_reference_found hp hstill, hturns, hworklist, hall, passed_agenda s o hp,
    dependencies_of_plan s o hskip hstill hp, mem_keys_dependencies]

end Still

/-- What a full run passes on as dependencies while no file changes: each key once, in ascending
order. Whatever becomes of the run, the references that it has written are among them, as far as
their files are well-formed text. If it ends with a report, they are the references in the files of
the scan that are well-formed text, which have all been written; and then the keys are those of all
references just if each has the key of one in a well-formed file. -/
theorem dependencies_of_references (hfull : o.base = none ∨ o.force = true)
    (hskip : o.skipDependencies = false) (hstill : ∀ path e₁ e₂, s.read path e₁ = s.read path e₂) :
    let l := requested store s o e g
    let keys := (passed l).map (·.key)
    let IsSound (x : Symbol) : Prop := IsText (s.read x.filePath e)
    keys.Pairwise (· < ·) ∧
    (∀ x ∈ (written l).symbols, x.IsReference → IsSound x → x.dependencyKey ∈ keys) ∧
    ∀ report e' g', synchronize (store.beside ε) (s.beside σ) o (e, g) = (.ok report, e', g') →
      (∀ facts key, key ∈ keys ↔
        ∃ f ∈ s.scan o.root (Path.normalizeExtensions o.extensions) e, ∃ bytes,
          s.read f.path e = some bytes ∧ IsText (some bytes) ∧
            ∃ x ∈ ((sourceOf o f bytes).extract o.minimum facts).symbols,
              x.IsReference ∧ x.dependencyKey = key) ∧
      (∀ key, key ∈ keys ↔
        ∃ x ∈ (written l).symbols, x.IsReference ∧ IsSound x ∧ x.dependencyKey = key) ∧
      ((∀ key, key ∈ keys ↔ ∃ x ∈ (written l).symbols, x.IsReference ∧ x.dependencyKey = key) ↔
        ∀ x ∈ (written l).symbols, x.IsReference → ∃ y ∈ (written l).symbols,
          y.IsReference ∧ IsSound y ∧ y.dependencyKey = x.dependencyKey) := by
  intro l keys IsSound
  rcases hp : plan s o e with h | p
  · obtain ⟨hpassed, hwritten⟩ := requested_of_error store s o hp (g := g)
    have hkeys : keys = [] := congrArg (List.map (·.key)) hpassed
    refine ⟨hkeys ▸ List.Pairwise.nil, fun x hx => ?_, fun report e' g' hrun => ?_⟩
    · exact absurd (hwritten ▸ hx) List.not_mem_nil
    · obtain ⟨p, -, -, hp', -⟩ := synchronize_eq_ok store s o hrun
      rw [hp] at hp'
      cases hp'
  have hworklist := plan_worklist hp hfull
  have hlist : passed l <+: p.dependencies :=
    passed_agenda s o hp ▸ passed_isPrefix (requested_isPrefix store s o e g)
  have hascending : (p.dependencies.map (·.key)).Pairwise (· < ·) := by
    rw [dependencies_of_plan s o hskip hstill hp, keys_dependencies]
    exact Text.pairwise_ascending _
  refine ⟨hascending.sublist (hlist.sublist.map _), fun x hx href hsound =>
    dependencyKey_mem_passed store s o hskip hstill hp hworklist hx href hsound,
    fun report e' g' hrun => ?_⟩
  obtain ⟨p', -, -, hp', hturns, -, -, -, hall⟩ := synchronize_eq_ok store s o hrun
  obtain rfl := Except.ok.inj (hp.symm.trans hp')
  have hkeys : ∀ key, key ∈ keys ↔
      ∃ x ∈ (written l).symbols, x.IsReference ∧ IsSound x ∧ x.dependencyKey = key :=
    fun key => mem_keys_passed store s o hskip hstill hp hworklist hturns hall
  refine ⟨fun facts key => ?_, hkeys, ?_⟩
  · rw [← (plan_discovered hp).1, ← mem_keys_dependencies_of_plan s o hskip hstill hp]
    show key ∈ (passed (requested store s o e g)).map (·.key) ↔ _
    rw [hall, passed_agenda s o hp]
  constructor
  · intro h x hx href
    exact (hkeys _).1 ((h _).2 ⟨x, hx, href, rfl⟩)
  · intro h key
    rw [hkeys]
    constructor
    · rintro ⟨x, hx, href, -, hkey⟩
      exact ⟨x, hx, href, hkey⟩
    · rintro ⟨x, hx, href, rfl⟩
      exact h x hx href

/-- Two projects, of which the second has an ill-formed byte in a comment. Its reference is found,
but not passed on. -/
theorem dependencies_of_projects :
    let bytes (path : String) : List UInt8 :=
      if path = "/w/a.csproj" then
        "<P><PackageReference Include='A'/></P>".toUTF8.data.toList
      else "<P><PackageReference Include='B'/><!--".toUTF8.data.toList ++
        0xff :: "--></P>".toUTF8.data.toList
    let s : Surroundings Unit := {
      cwd := "/"
      scan := fun _ _ _ => [⟨"/w/a.csproj", "a.csproj"⟩, ⟨"/w/b.csproj", "b.csproj"⟩]
      read := fun path _ => some (bytes path)
      facts := ⟨fun _ _ w => (.ok [], w), fun _ _ => []⟩
      history := none
      announce := fun _ w => w
      isCancelled := fun _ => false }
    let o : Options := { root := "/w", repoKey := "r" }
    let store := MemoryGraph.store "5.26.0"
    let l := requested store s o () {}
    (∃ report e' g', synchronize (store.beside Unit) (s.beside _) o ((), {}) =
      (.ok report, e', g')) ∧
    (passed l).map (·.key) = ["pkg:A:*"] ∧
    ¬ ∀ key, key ∈ (passed l).map (·.key) ↔
      ∃ x ∈ (written l).symbols, x.IsReference ∧ x.dependencyKey = key := by
  intro bytes s o store l
  obtain ⟨p, hp, -⟩ := plan_of_base_eq_none s o rfl ()
  obtain ⟨e', ts, -, rfl, hturns, -⟩ := plan_eq_ok s o hp
  have hcomplete : p.turns = p.worklist :=
    hturns.trans ((turns_complete s o _ 0 _ e').resolve_right fun ⟨_, h⟩ => Bool.false_ne_true h)
  obtain ⟨report, e₁, hrun⟩ := synchronize_of_plan "5.26.0" s o rfl hp hcomplete {}
  obtain ⟨hkeys, x, hx, href, hkey⟩ : (passed l).map (·.key) = ["pkg:A:*"] ∧
      ∃ x ∈ (written l).symbols, x.IsReference ∧ x.dependencyKey = "pkg:B:*" := by
    rw [show l = .serverVersion :: agenda s o () from requested_memory s o () {}]
    decide +kernel
  refine ⟨⟨report, e₁, _, hrun⟩, hkeys, fun hall => ?_⟩
  obtain ⟨-, -, hreport⟩ := dependencies_of_references store s o (.inl rfl) rfl fun _ _ _ => rfl
  obtain ⟨-, hsound, hequal⟩ := hreport report e₁ _ hrun
  obtain ⟨y, hy, hyref, hytext, hykey⟩ := hequal.1 hall x hx href
  have hmem := (hsound "pkg:B:*").2 ⟨y, hy, hyref, hytext, hykey.trans hkey⟩
  rw [hkeys] at hmem
  exact absurd hmem (by decide)

end Runs

end Run

end CodeGraph
