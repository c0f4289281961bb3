import CodeGraph.Proofs.MemoryRun
import CodeGraph.Proofs.SourceTree

/-!
# Runs that are told to stop

A run asks at the boundary before each file whether it is to stop. If it is, then what it has asked
of the store from its first file on is what a run asks that nobody tells to stop and whose worklist
ends at this boundary (`cancelled_run`): the buffer is emptied at the end of either.
-/

namespace CodeGraph

open Run (FlushTotals keyOfFile)

/-- The keys of the files that a request names. A relationship names the file that it leads from,
unless it leads from a symbol of its batch. -/
def StoreCall.fileKeys : StoreCall → List String
  | upsertFile _ f => [f.key]
  | markFileAsDeleted key => [key]
  | upsertCommits _ commits => commits.flatMap (·.changedFileKeys)
  | deletePriorSymbols key => [key]
  | flush symbols relationships => symbols.map (·.fileKey) ++
      (relationships.map (·.source)).filter (· ∉ symbols.map (·.key))
  | _ => []

namespace Run

open CodeGraph.Path (DiscoveredFile)

variable {ε σ : Type}

/-! ## Boundaries -/

/-- The surroundings at the boundaries before the files that are left, if the run goes on. -/
def boundaries (s : Surroundings ε) (o : Options) (total : Nat) :
    (index : Nat) → List DiscoveredFile → ε → List ε
  | _, [], _ => []
  | index, file :: rest, e =>
    e :: boundaries s o total (index + 1) rest
      (afterTurn s o file (s.announce ⟨index + 1, total, file.relativePath⟩ e))

/-- The same surroundings with these files, of which the run hears that there are `total`, and
without anyone who tells it to stop. -/
def Surroundings.only (s : Surroundings ε) (files : List DiscoveredFile) (total : Nat) :
    Surroundings ε :=
  { s with
    scan := fun _ _ _ => files
    announce := fun a => s.announce { a with total }
    isCancelled := fun _ => false }

section Boundaries

variable (s : Surroundings ε) (o : Options) (total : Nat)

@[simp] theorem length_boundaries : ∀ (index : Nat) (files : List DiscoveredFile) (e : ε),
    (boundaries s o total index files e).length = files.length
  | _, [], _ => rfl
  | _, _ :: rest, _ => by simp [boundaries, length_boundaries _ rest]

theorem turns_only (files : List DiscoveredFile) (n index : Nat) (l : List DiscoveredFile) (e : ε) :
    (turns (s.only files total) o n index l e).map Prod.fst = l :=
  (turns_complete _ o n index l e).resolve_right fun ⟨_, h⟩ => Bool.false_ne_true h

/-- The turns of a run that is told to stop are those of a run whose worklist ends there. -/
theorem turns_of_stop (files : List DiscoveredFile) (n : Nat) :
    ∀ {l : List DiscoveredFile} {index i : Nat} {e : ε},
      (boundaries s o total index l e).findIdx? s.isCancelled = some i →
      turns s o total index l e = turns (s.only files total) o n index (l.take i) e
  | file :: rest, index, i, e, h => by
    rw [boundaries, List.findIdx?_cons] at h
    split_ifs at h with hc
    · obtain rfl := Option.some_inj.1 h
      simp [turns, hc]
    · obtain ⟨i, hi, rfl⟩ := Option.map_eq_some_iff.1 h
      have hrest := turns_of_stop files n hi
      simp only [turns, hc, if_false, Bool.false_eq_true, hrest]
      rfl

end Boundaries

/-! ## The requests of a tour -/

theorem mem_fileRequests {repoKey : String} {c : StoreCall} : ∀ {vs : List Visit} {b : Buffer},
    c ∈ fileRequests repoKey b vs →
      (∃ v ∈ vs, c = .upsertFile repoKey v.node ∨ c = .deletePriorSymbols v.node.key) ∨
        ∃ symbols relationships, c = .flush symbols relationships
  | [], b, h => by
    rcases b.isBatch_drain with hb | ⟨symbols, relationships, hb⟩ <;>
      rw [fileRequests, hb] at h
    · cases h
    · exact .inr ⟨_, _, List.mem_singleton.1 h⟩
  | v :: vs, b, h => by
    simp only [fileRequests, List.mem_cons, List.mem_append] at h
    rcases h with h | h | h | h
    · exact .inl ⟨v, List.mem_cons_self, .inl h⟩
    · exact .inl ⟨v, List.mem_cons_self, .inr h⟩
    · rcases b.isBatch_receive v.extraction with hb | ⟨symbols, relationships, hb⟩ <;> rw [hb] at h
      · cases h
      · exact .inr ⟨_, _, List.mem_singleton.1 h⟩
    · rcases mem_fileRequests h with ⟨w, hw, hc⟩ | hflush
      · exact .inl ⟨w, List.mem_cons_of_mem v hw, hc⟩
      · exact .inr hflush

/-- A tour names the files that it visits, and no other. -/
theorem fileKeys_fileRequests {repoKey : String} {n : Nat} {vs : List Visit}
    (hvs : ∀ v ∈ vs, v.extraction.HangsOn v.node.key v.node.key) {c : StoreCall}
    (hc : c ∈ fileRequests repoKey (.new n) vs) :
    ∀ key ∈ c.fileKeys, ∃ v ∈ vs, v.node.key = key := by
  intro key hkey
  rcases mem_fileRequests hc with ⟨v, hv, rfl | rfl⟩ | ⟨symbols, relationships, rfl⟩
  · exact ⟨v, hv, (List.mem_singleton.1 hkey).symm⟩
  · exact ⟨v, hv, (List.mem_singleton.1 hkey).symm⟩
  obtain ⟨l₁, l₂, hsplit⟩ := List.append_of_mem hc
  obtain ⟨visited, left, rfl, hbatch⟩ := batchBetween hsplit
  rcases List.mem_append.1 hkey with hkey | hkey
  · obtain ⟨x, hx, rfl⟩ := List.mem_map.1 hkey
    obtain ⟨v, hv, hxv⟩ := (hbatch.symbols x hx).resolve_left List.not_mem_nil
    have hv := List.mem_append_left left hv
    exact ⟨v, hv, ((hvs v hv).owned x hxv).symm⟩
  · obtain ⟨hkey, hnone⟩ := List.mem_filter.1 hkey
    obtain ⟨r, hr, rfl⟩ := List.mem_map.1 hkey
    obtain ⟨v, hv, hrv, hsub⟩ :=
      (hbatch.relationships r hr).resolve_left fun h => List.not_mem_nil h.1
    have hv := List.mem_append_left left hv
    refine ⟨v, hv, ?_⟩
    rcases (hvs v hv).source r hrv with hsource | hsource
    · exact (Option.some_inj.1 hsource).symm
    · simp only [decide_eq_true_eq] at hnone
      exact absurd (List.map_subset _ hsub hsource) hnone

/-! ## Runs -/

section Runs

variable (store : GraphStore σ) (s : Surroundings ε) (o : Options)

/-- A run whose requests are all accepted has made them all. -/
theorem accepted_run {e : ε} {g : σ}
    (h : ∀ x, (synchronize (store.beside ε) (s.beside σ) o (e, g)).1 ≠ .error (.graph x)) :
    (∃ t, (synchronize (store.beside ε) (s.beside σ) o (e, g)).1 = ending s o e t) ∧
      requested store s o e g = .serverVersion :: agenda s o e := by
  obtain ⟨e', hrun⟩ := synchronize_beside store s o e g
  rw [requested_eq]
  rcases hv : store.verifyVersion g with ⟨x | _, g'⟩ <;> simp only [hv] at hrun
  · exact absurd (congrArg Prod.fst hrun) (h x)
  rw [store.served_serverVersion hv]
  rcases hserve : store.serve (agenda s o e) {} g' with ⟨x | _, t, g''⟩ <;>
    simp only [hserve] at hrun
  · exact absurd (congrArg Prod.fst hrun) (h x)
  · exact ⟨⟨t, congrArg Prod.fst hrun⟩, by rw [store.served_of_serve hserve]⟩

/-- The requests ahead of the first file. -/
def scaffolding (cwd : String) (o : Options) (p : Plan) : List StoreCall :=
  .serverVersion :: .ensureSchema ::
    frame o p.dependencies (tombstoneKeys cwd o p.changes) (commitNodes cwd o p.changes)

variable {s o}

theorem agenda_eq_scaffolding {e : ε} {p : Plan} (hp : plan s o e = .ok p) :
    .serverVersion :: agenda s o e =
      scaffolding s.cwd o p ++ fileRequests o.repoKey (.new o.batchSize) p.visits := by
  simp only [agenda, hp, Plan.requests, scaffolding, List.cons_append]

theorem worklist_take (changes : ChangeSet) (l : List DiscoveredFile) (i : Nat) :
    changes.worklist ((changes.worklist l).take i) = (changes.worklist l).take i := by
  unfold ChangeSet.worklist
  split_ifs
  · rw [List.filter_eq_self]
    exact fun f hf => (List.mem_filter.1 (List.mem_of_mem_take hf)).2
  · rfl

theorem plan_only {e : ε} {p : Plan} {i : Nat} (hp : plan s o e = .ok p)
    (hstop : (boundaries s o p.worklist.length 0 p.worklist (changesOf s o e).2).findIdx?
      s.isCancelled = some i) :
    ∃ p', plan (s.only (p.worklist.take i) p.worklist.length) o e = .ok p' ∧
      p'.changes = p.changes ∧ p'.worklist = p.worklist.take i ∧ p'.turns = p'.worklist ∧
      p.turns = p'.turns ∧ p'.visits = p.visits := by
  obtain ⟨e₁, ts, hchanges, rfl, hturns, hvisits, -⟩ := plan_eq_ok s o hp
  let s' := s.only (p.worklist.take i) p.worklist.length
  have hchanges' : changesOf s' o e = (.ok p.changes, e₁) := hchanges
  obtain ⟨p', hp', hsame, hdiscovered⟩ := plan_of_changes s' o hchanges'
  have hworklist : p'.worklist = p.worklist.take i := by
    rw [Plan.worklist, hsame, hdiscovered]
    exact worklist_take _ _ _
  obtain ⟨e₁', ts, hchanges'', rfl, hturns', hvisits', -⟩ := plan_eq_ok s' o hp'
  obtain rfl : e₁ = e₁' := by
    rw [hchanges'] at hchanges''
    exact (Prod.mk.inj hchanges'').2
  rw [hchanges] at hstop
  have hcut : turns s o p.worklist.length 0 p.worklist e₁ =
      turns s' o p'.worklist.length 0 p'.worklist e₁ := by
    rw [hworklist]
    exact turns_of_stop s o _ _ _ hstop
  rw [hcut] at hturns hvisits
  exact ⟨p', hp', hsame, hworklist, hturns'.trans (turns_only s o _ _ _ _ _ _),
    hturns.trans hturns'.symm, hvisits'.trans hvisits.symm⟩

/-- A run that is told to stop at the boundary after `i` files asks what a run asks from its first
file on whose worklist is these files, at any store that accepts what the two of them ask. -/
theorem cancelled_run {e : ε} {g : σ} {p : Plan} {i : Nat} (hp : plan s o e = .ok p)
    (hstop : (boundaries s o p.worklist.length 0 p.worklist (changesOf s o e).2).findIdx?
      s.isCancelled = some i)
    (haccepted : ∀ x,
      (synchronize (store.beside ε) (s.beside σ) o (e, g)).1 ≠ .error (.graph x)) :
    i < p.worklist.length ∧
    (synchronize (store.beside ε) (s.beside σ) o (e, g)).1 =
      .error (.cancelled i p.worklist.length) ∧
    ∃ tour, requested store s o e g = scaffolding s.cwd o p ++ tour ∧
      (let s' := s.only (p.worklist.take i) p.worklist.length
      ∃ p', plan s' o e = .ok p' ∧ p'.worklist = p.worklist.take i ∧ p'.changes = p.changes ∧
        ∀ (σ' : Type) (store' : GraphStore σ') (g' : σ'),
          (∀ x, (synchronize (store'.beside ε) (s'.beside σ') o (e, g')).1 ≠ .error (.graph x)) →
          (∃ t, (synchronize (store'.beside ε) (s'.beside σ') o (e, g')).1 =
            .ok (p'.report s.cwd o t)) ∧
          requested store' s' o e g' = scaffolding s.cwd o p' ++ tour) ∧
      (∃ ts : List (DiscoveredFile × ε), ts.map Prod.fst = p.worklist.take i ∧
        p.visits = ts.filterMap (visitAt s o)) ∧
      tour.filterMap StoreCall.file? = p.visits.map (·.node) ∧ written tour = found p.visits ∧
      (∀ c ∈ tour, ∀ key ∈ c.fileKeys, key ∈ (p.worklist.take i).map (keyOfFile o)) ∧
      ((p.worklist.map (keyOfFile o)).Nodup →
        ∀ c ∈ tour, ∀ f ∈ p.worklist.drop i, keyOfFile o f ∉ c.fileKeys) := by
  obtain ⟨p', hp', hsame, hworklist, hturns', hturns, hvisits⟩ := plan_only hp hstop
  obtain ⟨-, ts, -, -, hts, hvs, -⟩ := plan_eq_ok s o hp
  have hi : i < p.worklist.length := by
    obtain ⟨hi, -⟩ := List.findIdx?_eq_some_iff_getElem.1 hstop
    simpa using hi
  have hlength : p.turns.length = i := by
    rw [hturns, hturns', hworklist, List.length_take, Nat.min_eq_left (Nat.le_of_lt hi)]
  obtain ⟨⟨t, hresult⟩, hrequested⟩ := accepted_run store s o haccepted
  have hcancelled : ending s o e t = .error (.cancelled i p.worklist.length) := by
    simp only [ending, hp, Plan.outcome, hlength, Nat.ne_of_lt hi, if_false]
  have hnames : ∀ c ∈ fileRequests o.repoKey (.new o.batchSize) p.visits, ∀ key ∈ c.fileKeys,
      key ∈ (p.worklist.take i).map (keyOfFile o) := by
    intro c hc key hkey
    obtain ⟨v, hv, rfl⟩ := fileKeys_fileRequests (hvs ▸ visits_hangsOn s o ts) hc key hkey
    have hmem : v.node.key ∈ p.visits.map (·.node.key) := List.mem_map_of_mem hv
    rw [hvs] at hmem
    rw [← hworklist, ← hturns', ← hturns, hts]
    exact (visits_keys s o ts).subset hmem
  refine ⟨hi, hresult.trans hcancelled, fileRequests o.repoKey (.new o.batchSize) p.visits,
    hrequested.trans (agenda_eq_scaffolding hp), ⟨p', hp', hworklist, hsame, ?_⟩,
    ⟨ts, by rw [← hts, hturns, hturns', hworklist], hvs⟩, files_fileRequests _ _,
    written_fileRequests _ _, hnames, ?_⟩
  · intro σ' store' g' haccepted'
    obtain ⟨⟨t', hresult'⟩, hrequested'⟩ := accepted_run store' _ o haccepted'
    refine ⟨⟨t', hresult'.trans ?_⟩, ?_⟩
    · simp only [ending, hp', Plan.outcome, hturns', if_true]
      rfl
    · rw [hrequested', agenda_eq_scaffolding hp', hvisits]
      rfl
  · intro hnodup c hc f hf hkey
    rw [← List.take_append_drop i p.worklist, List.map_append, List.nodup_append] at hnodup
    exact hnodup.2.2 _ (hnames c hc _ hkey) _ (List.mem_map_of_mem hf) rfl

/-- The store in memory accepts everything. -/
theorem accepted_store {version : String} (hversion : checkVersion version = .ok ())
    (s : Surroundings ε) (o : Options) (e : ε) (g : MemoryGraph) (x : GraphError) :
    (synchronize ((MemoryGraph.store version).beside ε) (s.beside _) o (e, g)).1 ≠
      .error (.graph x) := by
  obtain ⟨e', t, hrun⟩ := synchronize_store version s o e g
  rw [hrun, hversion]
  exact ending_ne_graph s o e t x

/-- A run over two documents that is told to stop once it has announced the first, and a run over
the first alone. -/
theorem cancelled_run_of_documents :
    let t := SourceTree.ofTexts "/" "/w" [("/w/a.xml", "<x/>"), ("/w/b.xml", "<y/>")]
    let s : Surroundings Nat := {
      cwd := "/"
      scan := fun _ _ _ => t.files
      read := fun path _ => some (t.bytes path)
      facts := ⟨fun _ _ n => (.ok [], n), fun _ _ => []⟩
      history := none
      announce := fun _ n => n + 1
      isCancelled := fun n => n == 1 }
    let s' := s.only [⟨"/w/a.xml", "a.xml"⟩] 2
    let o : Options := { root := "/w", repoKey := "r" }
    let store := MemoryGraph.store "5.26.0"
    (synchronize (store.beside Nat) (s.beside _) o (0, {})).1 = .error (.cancelled 1 2) ∧
    (∃ report, (synchronize (store.beside Nat) (s'.beside _) o (0, {})).1 = .ok report) ∧
    ∃ p p' tour, requested store s o 0 {} = scaffolding "/" o p ++ tour ∧
      requested store s' o 0 {} = scaffolding "/" o p' ++ tour ∧
      (tour.filterMap StoreCall.file?).map (·.key) = ["r:a.xml"] := by
  intro t s s' o store
  obtain ⟨p, hp, hworklist, -⟩ := plan_of_base_eq_none s o rfl 0
  have hfiles : p.worklist = [⟨"/w/a.xml", "a.xml"⟩, ⟨"/w/b.xml", "b.xml"⟩] := by
    rw [hworklist]
    decide +kernel
  have hstop : (boundaries s o p.worklist.length 0 p.worklist (changesOf s o 0).2).findIdx?
      s.isCancelled = some 1 := by
    rw [hfiles]
    decide +kernel
  have haccepted : ∀ x, (synchronize (store.beside Nat) (s.beside _) o (0, {})).1 ≠
      .error (.graph x) := accepted_store rfl s o 0 {}
  obtain ⟨-, hresult, tour, hrequested, ⟨p', -, -, -, hothers⟩, -, hasked, -⟩ :=
    cancelled_run store hp hstop haccepted
  rw [hfiles] at hresult hothers
  obtain ⟨⟨n, hreport⟩, hrequested'⟩ := hothers _ store {} (accepted_store rfl s' o 0 {})
  have hkeys : (plan s o 0).toOption.map (fun p => p.visits.map (·.node.key)) =
      some ["r:a.xml"] := by
    decide +kernel
  rw [hp] at hkeys
  refine ⟨hresult, ⟨_, hreport⟩, p, p', tour, hrequested, hrequested', ?_⟩
  rw [hasked, List.map_map]
  exact Option.some_inj.1 hkeys

end Runs

end Run

end CodeGraph
