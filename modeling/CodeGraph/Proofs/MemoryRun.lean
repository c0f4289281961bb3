import CodeGraph.Proofs.Merging
import CodeGraph.Proofs.Schedule

/-!
# Runs with the store in memory

The store in memory never fails, so a run with it that is neither refused nor told to stop makes all
the requests of its agenda. What the agenda writes and deletes is what was found in the visited
files and their keys, and neither depends on the size of a batch.
-/

namespace CodeGraph.Run

open MemoryGraph (after)
open CodeGraph.Path (DiscoveredFile)

variable {ε : Type}

/-- Whether a request leaves symbols, relationships and files as they are. -/
def IsAside (c : StoreCall) : Prop := c.batch = .empty ∧ c.deletedKey? = none ∧ c.file? = none

theorem written_of_aside : ∀ {l : List StoreCall}, (∀ c ∈ l, IsAside c) → written l = .empty
  | [], _ => rfl
  | c :: l, h => by
    rw [written, (h c List.mem_cons_self).1,
      written_of_aside fun d hd => h d (List.mem_cons_of_mem _ hd)]
    rfl

section Agenda

variable (s : Surroundings ε) (o : Options) {e : ε} {p : Plan}

theorem frame_aside (dependencies : List Dependency) (deleted : List String)
    (commits : List CommitNode) :
    ∀ c ∈ .ensureSchema :: frame o dependencies deleted commits, IsAside c := by
  intro c hc
  rcases List.mem_cons.1 hc with rfl | hc
  · exact ⟨rfl, rfl, rfl⟩
  rcases List.mem_cons.1 hc with rfl | hc
  · exact ⟨rfl, rfl, rfl⟩
  rcases List.mem_append.1 hc with hc | hc
  · split_ifs at hc
    · exact absurd hc List.not_mem_nil
    · obtain rfl := List.mem_singleton.1 hc
      exact ⟨rfl, rfl, rfl⟩
  rcases List.mem_append.1 hc with hc | hc
  · obtain ⟨key, -, rfl⟩ := List.mem_map.1 hc
    exact ⟨rfl, rfl, rfl⟩
  · split_ifs at hc
    · exact absurd hc List.not_mem_nil
    · obtain rfl := List.mem_singleton.1 hc
      exact ⟨rfl, rfl, rfl⟩

theorem agenda_eq_append (hp : plan s o e = .ok p) : ∃ l, (∀ c ∈ l, IsAside c) ∧
    agenda s o e = l ++ fileRequests o.repoKey (.new o.batchSize) p.visits := by
  refine ⟨_, frame_aside o p.dependencies (tombstoneKeys s.cwd o p.changes)
    (commitNodes s.cwd o p.changes), ?_⟩
  simp only [agenda, hp, Plan.requests, List.cons_append]

theorem written_agenda (hp : plan s o e = .ok p) : written (agenda s o e) = found p.visits := by
  obtain ⟨l, hl, h⟩ := agenda_eq_append s o hp
  rw [h, written_append, written_of_aside hl, written_fileRequests]
  rfl

theorem deletedKeys_agenda (hp : plan s o e = .ok p) :
    deletedKeys (agenda s o e) = p.visits.map (·.node.key) := by
  obtain ⟨l, hl, h⟩ := agenda_eq_append s o hp
  have hnil : deletedKeys l = [] := List.filterMap_eq_nil_iff.2 fun c hc => (hl c hc).2.1
  rw [h, deletedKeys_append, hnil, deletedKeys_fileRequests]
  rfl

theorem files_agenda (hp : plan s o e = .ok p) :
    (agenda s o e).filterMap StoreCall.file? = p.visits.map (·.node) := by
  obtain ⟨l, hl, h⟩ := agenda_eq_append s o hp
  have hnil : l.filterMap StoreCall.file? = [] :=
    List.filterMap_eq_nil_iff.2 fun c hc => (hl c hc).2.2
  rw [h, List.filterMap_append, hnil, files_fileRequests, List.nil_append]

theorem lasting_agenda (hp : plan s o e = .ok p) (hvs : Itinerary p.visits) :
    MemoryGraph.Lasting (agenda s o e) := by
  intro l₁ symbols relationships l₂ h x hx
  obtain ⟨l, -, hfile⟩ := flush_of_agenda s o hp h
  exact (delete_before_flush hvs hfile x hx).2

theorem joining_agenda (hp : plan s o e = .ok p) (g : MemoryGraph) :
    MemoryGraph.Joining g (agenda s o e) := by
  intro l₁ symbols relationships l₂ h r hr
  obtain ⟨l, hl, hfile⟩ := flush_of_agenda s o hp h
  obtain ⟨htarget, hsource⟩ := ends_before_flush (plan_hangsOn s o hp) hfile r hr
  have hnode : ∀ key, (key ∈ symbols.map (·.key) ∨
      ∃ node, .upsertFile o.repoKey node ∈ l ∧ node.key = key) →
      ((l₁.foldl after g).upsertSymbols symbols).hasNode key = true := by
    rintro key (hkey | ⟨node, hmem, rfl⟩)
    · exact Bool.or_eq_true_iff.2 (.inl (MemoryGraph.hasSymbol_upsertSymbols hkey))
    · refine Bool.or_eq_true_iff.2 (.inr (MemoryGraph.hasFile_foldl_after.2 (.inr ?_)))
      exact List.mem_map_of_mem (List.mem_filterMap.2 ⟨_, hl hmem, rfl⟩)
  exact Bool.and_eq_true_iff.2 ⟨hnode _ hsource, hnode _ (.inl htarget)⟩

theorem mark_mem_frame {dependencies : List Dependency} {deleted : List String}
    {commits : List CommitNode} {key : String} :
    .markFileAsDeleted key ∈ .ensureSchema :: frame o dependencies deleted commits ↔
      key ∈ deleted := by
  unfold frame
  split_ifs <;> simp only [List.mem_cons, List.mem_append, List.mem_map, List.not_mem_nil,
    reduceCtorEq, StoreCall.markFileAsDeleted.injEq, exists_eq_right, false_or, or_false]

theorem mark_not_mem_fileRequests {repoKey key : String} :
    ∀ (vs : List Visit) (b : Buffer), .markFileAsDeleted key ∉ fileRequests repoKey b vs
  | [], b => b.isBatch_drain.mark_not_mem
  | v :: vs, b => by
    simp only [fileRequests, List.mem_cons, reduceCtorEq, false_or, List.mem_append, not_or]
    exact ⟨(b.isBatch_receive _).mark_not_mem, mark_not_mem_fileRequests vs _⟩

/-- The files that are marked after a run that has made all its requests: those marked before and
those that the run deletes, apart from the visited ones. -/
theorem mem_deleted_agenda (hp : plan s o e = .ok p) {g : MemoryGraph} {key : String} :
    key ∈ ((agenda s o e).foldl after g).deleted ↔
      (key ∈ g.deleted ∨ key ∈ tombstoneKeys s.cwd o p.changes ∧ g.hasFile key = true) ∧
        key ∉ p.visits.map (·.node.key) := by
  have hagenda : agenda s o e = (.ensureSchema :: frame o p.dependencies
      (tombstoneKeys s.cwd o p.changes) (commitNodes s.cwd o p.changes)) ++
        fileRequests o.repoKey (.new o.batchSize) p.visits := by
    simp only [agenda, hp, Plan.requests, List.cons_append]
  rw [hagenda, List.foldl_append,
    MemoryGraph.mem_deleted_of_files (mark_not_mem_fileRequests _ _),
    MemoryGraph.mem_deleted_of_marks fun c hc => (frame_aside o _ _ _ c hc).2.2, mark_mem_frame,
    files_fileRequests, List.map_map]
  rfl

end Agenda

/-! ## Runs -/

section Runs

variable (version : String) (s : Surroundings ε) (o : Options) {e e' : ε} {p : Plan}
  {g g' : MemoryGraph} {report : Report}

theorem synchronize_store (e : ε) (g : MemoryGraph) :
    ∃ e' t, synchronize ((MemoryGraph.store version).beside ε) (s.beside _) o (e, g) =
      match checkVersion version with
      | .error x => (.error (.graph x), e', g)
      | .ok () => (ending s o e t, e', (agenda s o e).foldl after g) := by
  obtain ⟨e', hrun⟩ := synchronize_beside (MemoryGraph.store version) s o e g
  obtain ⟨t, hserve⟩ := MemoryGraph.serve_store version (agenda s o e) {} g
  refine ⟨e', t, ?_⟩
  have hversion : (MemoryGraph.store version).verifyVersion g = (checkVersion version, g) := rfl
  rw [hrun, hversion]
  rcases checkVersion version with x | _
  · rfl
  · simp only [hserve]

/-- What a run that ends with a report leaves in the store. -/
theorem plan_of_synchronize
    (h : synchronize ((MemoryGraph.store version).beside ε) (s.beside _) o (e, g) =
      (.ok report, e', g')) :
    checkVersion version = .ok () ∧ g' = (agenda s o e).foldl after g ∧
      ∃ p, plan s o e = .ok p ∧ p.turns = p.worklist := by
  obtain ⟨p, t, g₀, hp, hturns, -, hgate, hserve, -⟩ :=
    synchronize_eq_ok (MemoryGraph.store version) s o h
  have hgate : (checkVersion version, g) = (.ok (), g₀) := hgate
  obtain ⟨hversion, rfl⟩ := Prod.mk.inj hgate
  obtain ⟨t', hall⟩ := MemoryGraph.serve_store version (agenda s o e) {} g
  rw [hserve] at hall
  exact ⟨hversion, (Prod.mk.inj (Prod.mk.inj hall).2).2, p, hp, hturns⟩

theorem synchronize_of_plan (hversion : checkVersion version = .ok ()) (hp : plan s o e = .ok p)
    (hturns : p.turns = p.worklist) (g : MemoryGraph) :
    ∃ report e', synchronize ((MemoryGraph.store version).beside ε) (s.beside _) o (e, g) =
      (.ok report, e', (agenda s o e).foldl after g) := by
  obtain ⟨e', t, hrun⟩ := synchronize_store version s o e g
  rw [hrun, hversion]
  simp only [ending, hp, Plan.outcome, hturns, if_true]
  exact ⟨_, e', rfl⟩

theorem plan_of_changes {changes : ChangeSet} (h : changesOf s o e = (.ok changes, e')) :
    ∃ p, plan s o e = .ok p ∧ p.changes = changes ∧
      p.discovered = s.scan o.root (Path.normalizeExtensions o.extensions) e := by
  simp only [plan, h, Except.ok.injEq, exists_eq_left', and_self]

/-- A run without a base takes every file that a scan finds, and marks none as deleted. -/
theorem plan_of_base_eq_none (hbase : o.base = none) (e : ε) : ∃ p, plan s o e = .ok p ∧
    p.worklist = s.scan o.root (Path.normalizeExtensions o.extensions) e ∧
      p.changes.tombstones = [] := by
  have hchanges : changesOf s o e = (.ok .full, e) := by
    simp only [changesOf, ChangeSet.resolve, hbase]
  obtain ⟨p, hp, hchanges, hdiscovered⟩ := plan_of_changes s o hchanges
  refine ⟨p, hp, ?_, ?_⟩
  · rw [← hdiscovered, Plan.worklist, hchanges]
    rfl
  · rw [hchanges]
    rfl

theorem turns_batchSize (n total : Nat) : ∀ (index : Nat) (files : List DiscoveredFile) (e : ε),
    turns s { o with batchSize := n } total index files e = turns s o total index files e
  | _, [], _ => rfl
  | index, file :: rest, e => by
    simp only [turns, turns_batchSize n total (index + 1) rest]
    rfl

/-- What a run finds out does not depend on the size of a batch. -/
theorem plan_batchSize (n : Nat) (e : ε) :
    plan s { o with batchSize := n } e = plan s o e := by
  have hchanges : changesOf s { o with batchSize := n } e = changesOf s o e := rfl
  rw [plan, plan, hchanges]
  rcases changesOf s o e with ⟨h | changes, e'⟩
  · rfl
  · simp only [turns_batchSize]
    rfl

end Runs

end CodeGraph.Run
