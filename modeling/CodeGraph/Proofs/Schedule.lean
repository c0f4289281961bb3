import CodeGraph.Proofs.Batches

/-!
# The order of requests

A run makes its requests in a fixed order, up to the first that fails: the checks, the frame, then
file by file the file, the deletion of its symbols and at most one batch, and at most one batch in
the end. With distinct keys, no symbol is written before the symbols of its file have been deleted,
and they are not deleted again afterwards (`requested_in_order`).
-/

namespace CodeGraph.Run

open CodeGraph.Path (DiscoveredFile)

variable {ε σ : Type}

/-! ## Plans -/

section Plans

variable (s : Surroundings ε) (o : Options)

theorem plan_eq_ok {e : ε} {p : Plan} (h : plan s o e = .ok p) :
    ∃ (e' : ε) (ts : List (DiscoveredFile × ε)), changesOf s o e = (.ok p.changes, e') ∧
      ts = turns s o p.worklist.length 0 p.worklist e' ∧ p.turns = ts.map Prod.fst ∧
      p.visits = visits s o ts ∧ (o.skipDependencies = true → p.dependencies = []) := by
  unfold plan at h
  rcases hc : changesOf s o e with ⟨_ | changes, e'⟩ <;> simp only [hc, reduceCtorEq] at h
  obtain rfl := Except.ok.inj h
  exact ⟨e', _, rfl, rfl, rfl, rfl, fun hskip => if_pos hskip⟩

theorem Plan.worklist_sublist (p : Plan) : p.worklist.Sublist p.discovered := by
  unfold Plan.worklist ChangeSet.worklist
  split_ifs
  · exact List.filter_sublist
  · exact List.Sublist.refl _

/-- The history reports exactly the tombstones as deleted. -/
def ReportsDeleted (changes : ChangeSet) : Prop :=
  ∃ history base changed e₁ e₂, s.history = some history ∧ o.base = some base ∧
    history.changedFiles base o.root (Path.normalizeExtensions o.extensions) e₁ =
      (.ok changed, e₂) ∧
    ∀ path, path ∈ changes.tombstones ↔ path ∈ changed.deleted

theorem changesOf_mode {e e' : ε} {changes : ChangeSet}
    (h : changesOf s o e = (.ok changes, e')) :
    changes.tombstones.Pairwise (· < ·) ∧ (o.base = none → changes.mode = .full) ∧
      (changes.mode = .incremental → o.force = false ∧ ReportsDeleted s o changes) := by
  simp only [changesOf, ChangeSet.resolve] at h
  rcases hbase : o.base with _ | base <;> rw [hbase] at h
  · obtain rfl := Except.ok.inj (Prod.mk.inj h).1
    refine ⟨List.Pairwise.nil, fun _ => rfl, fun hmode => ?_⟩
    cases hmode
  rcases hhistory : s.history with _ | history <;> simp only [hhistory, ChangeSet.since] at h
  · cases (Prod.mk.inj h).1
  split_ifs at h with hwithin hforce
  · rcases hcommits : history.commitsSince base e with ⟨_ | commits, e₁⟩ <;>
      simp only [hcommits] at h
    · cases (Prod.mk.inj h).1
    obtain rfl := Except.ok.inj (Prod.mk.inj h).1
    refine ⟨List.Pairwise.nil, fun hnone => ?_, fun hmode => ?_⟩
    · cases hnone
    · cases hmode
  · rcases hcommits : history.commitsSince base e with ⟨_ | commits, e₁⟩ <;>
      simp only [hcommits] at h
    · cases (Prod.mk.inj h).1
    rcases hchanged : history.changedFiles base o.root (Path.normalizeExtensions o.extensions) e₁
      with ⟨_ | changed, e₂⟩ <;> simp only [hchanged] at h
    · cases (Prod.mk.inj h).1
    obtain rfl := Except.ok.inj (Prod.mk.inj h).1
    refine ⟨Text.pairwise_ascending _, fun hnone => ?_, fun _ => ?_⟩
    · cases hnone
    · exact ⟨Bool.eq_false_iff.2 hforce, history, base, changed, e₁, e₂, hhistory, hbase, hchanged,
        fun _ => Text.mem_ascending⟩
  · cases (Prod.mk.inj h).1

theorem changesOf_eq_ok {e e' : ε} {changes : ChangeSet}
    (h : changesOf s o e = (.ok changes, e')) :
    changes.tombstones.Pairwise (· < ·) ∧ (o.base = none → changes.mode = .full) ∧
      (changes.mode = .incremental → ReportsDeleted s o changes) := by
  obtain ⟨hascending, hfull, hincremental⟩ := changesOf_mode s o h
  exact ⟨hascending, hfull, fun hmode => (hincremental hmode).2⟩

/-- Turns end early only if the run is told to stop. -/
theorem turns_complete (total : Nat) :
    ∀ (index : Nat) (files : List DiscoveredFile) (e : ε),
      (turns s o total index files e).map Prod.fst = files ∨ ∃ e', s.isCancelled e' = true
  | _, [], _ => .inl rfl
  | index, file :: rest, e => by
    by_cases hc : s.isCancelled e = true
    · exact .inr ⟨e, hc⟩
    · simp only [turns, hc, if_false, Bool.false_eq_true, List.map_cons, List.cons.injEq, true_and]
      exact turns_complete total (index + 1) rest _

theorem plan_hangsOn {e : ε} {p : Plan} (h : plan s o e = .ok p) :
    ∀ v ∈ p.visits, v.extraction.HangsOn v.node.key v.node.key := by
  obtain ⟨e', ts, -, -, -, hvisits, -⟩ := plan_eq_ok s o h
  rw [hvisits]
  exact visits_hangsOn s o ts

theorem plan_itinerary {e : ε} {p : Plan} (h : plan s o e = .ok p)
    (hdistinct : (p.worklist.map (keyOfFile o)).Nodup) : Itinerary p.visits := by
  obtain ⟨e', ts, -, hts, hturns, hvisits, -⟩ := plan_eq_ok s o h
  have hfront : p.turns <+: p.worklist := hturns ▸ hts ▸ turns_isPrefix s o _ 0 _ e'
  refine ⟨?_, plan_hangsOn s o h⟩
  rw [hvisits]
  refine ((visits_keys s o ts).trans ?_).nodup hdistinct
  rw [← hturns]
  exact hfront.sublist.map _

end Plans

/-! ## Runs -/

section Runs

variable (store : GraphStore σ) (s : Surroundings ε) (o : Options)

theorem agenda_of_error {e : ε} {h : HistoryError} (hp : plan s o e = .error h) :
    agenda s o e = [.ensureSchema] := by
  simp only [agenda, hp]

theorem requested_isPrefix (e : ε) (g : σ) :
    requested store s o e g <+: .serverVersion :: agenda s o e := by
  rw [requested_eq]
  refine (store.served_isPrefix _ g).trans ?_
  split
  · exact List.prefix_refl _
  · exact (List.prefix_cons_inj _).2 List.nil_prefix

/-- A run that ends with a report has gone through its worklist, and its store has accepted all the
requests of its agenda. -/
theorem synchronize_eq_ok {e e' : ε} {g g₁ : σ} {report : Report}
    (h : synchronize (store.beside ε) (s.beside σ) o (e, g) = (.ok report, e', g₁)) :
    ∃ p t g', plan s o e = .ok p ∧ p.turns = p.worklist ∧ report = p.report s.cwd o t ∧
      store.verifyVersion g = (.ok (), g') ∧ store.serve (agenda s o e) {} g' = (.ok (), t, g₁) ∧
      requested store s o e g = .serverVersion :: agenda s o e := by
  obtain ⟨e'', hrun⟩ := synchronize_beside store s o e g
  have hrequested := requested_eq store s o e g
  rw [h] at hrun
  rcases hv : store.verifyVersion g with ⟨x | _, g'⟩ <;> simp only [hv] at hrun hrequested
  · cases (Prod.mk.inj hrun).1
  rcases hserve : store.serve (agenda s o e) {} g' with ⟨x | _, t, g''⟩ <;>
    simp only [hserve] at hrun
  · cases (Prod.mk.inj hrun).1
  obtain ⟨hending, hworld⟩ := Prod.mk.inj hrun
  obtain ⟨-, rfl⟩ := Prod.mk.inj hworld
  rcases hp : plan s o e with x | p <;> simp only [ending, hp] at hending
  · cases hending
  unfold Plan.outcome at hending
  split_ifs at hending with hlength
  obtain ⟨e₀, ts, -, hts, hturns, -⟩ := plan_eq_ok s o hp
  have hfront : p.turns <+: p.worklist := hturns ▸ hts ▸ turns_isPrefix s o _ 0 _ e₀
  refine ⟨p, t, g', rfl, hfront.eq_of_length hlength, Except.ok.inj hending, rfl, hserve, ?_⟩
  rw [hrequested, store.served_serverVersion hv, store.served_of_serve hserve]

theorem flush_not_mem_frame (dependencies : List Dependency) (deleted : List String)
    (commits : List CommitNode) (symbols : List Symbol) (relationships : List Relationship) :
    .flush symbols relationships ∉ frame o dependencies deleted commits := by
  unfold frame
  split_ifs <;> simp only [List.mem_cons, List.mem_append, List.mem_map, List.not_mem_nil,
    reduceCtorEq, and_false, exists_false, or_false, not_false_eq_true]

/-- A batch is asked for in the course of the tour. -/
theorem flush_of_agenda {e : ε} {p : Plan} (hp : plan s o e = .ok p) {l₁ l₂ : List StoreCall}
    {symbols : List Symbol} {relationships : List Relationship}
    (h : agenda s o e = l₁ ++ .flush symbols relationships :: l₂) :
    ∃ l, l ⊆ l₁ ∧ fileRequests o.repoKey (.new o.batchSize) p.visits =
      l ++ .flush symbols relationships :: l₂ := by
  simp only [agenda, hp, Plan.requests] at h
  rw [← List.cons_append] at h
  rcases append_eq_append_cons h with ⟨t, hframe, -⟩ | ⟨t, rfl, hrest⟩
  · have hmem := List.mem_append_right l₁ (List.mem_cons_self (l := t)
      (a := StoreCall.flush symbols relationships))
    rw [← hframe] at hmem
    simp only [List.mem_cons, reduceCtorEq, false_or] at hmem
    exact absurd hmem (flush_not_mem_frame o _ _ _ _ _)
  · exact ⟨t, List.subset_append_right _ _, hrest⟩

/-- The order in which a run makes its requests. The sequence of those it makes if all succeed is
cut right after the first that fails. -/
theorem requested_in_order (e : ε) (g : σ) :
    requested store s o e g = store.served (.serverVersion :: match (store.verifyVersion g).1 with
      | .ok () => agenda s o e
      | .error _ => []) g ∧
    (∀ x, (store.verifyVersion g).1 = .error x → requested store s o e g = [.serverVersion]) ∧
    (∀ h, plan s o e = .error h → requested store s o e g <+: [.serverVersion, .ensureSchema]) ∧
    ∀ p, plan s o e = .ok p →
      (∃ (batches : List (List StoreCall)) (last : List StoreCall),
        batches.length = p.visits.length ∧ (∀ l ∈ batches, IsBatch l) ∧ IsBatch last ∧
        agenda s o e = .ensureSchema :: .upsertProject ⟨o.repoKey, o.projectName⟩ ::
          ((if p.dependencies.isEmpty then []
              else [.upsertDependencies o.repoKey p.dependencies]) ++
            ((p.changes.tombstones.filterMap (keyOf? s.cwd o)).map .markFileAsDeleted ++
              (if (commitNodes s.cwd o p.changes).isEmpty then []
                else [.upsertCommits o.repoKey (commitNodes s.cwd o p.changes)]) ++
              ((p.visits.zip batches).flatMap (fun (v, batch) =>
                .upsertFile o.repoKey v.node :: .deletePriorSymbols v.node.key :: batch) ++
              last)))) ∧
      (o.skipDependencies = true → p.dependencies = []) ∧
      p.changes.tombstones.Pairwise (· < ·) ∧
      (p.changes.mode ≠ .incremental → p.changes.tombstones = []) ∧
      (p.changes.mode = .incremental → ReportsDeleted s o p.changes) ∧
      (o.base = none → commitNodes s.cwd o p.changes = []) ∧
      p.turns <+: p.worklist ∧
      (p.turns = p.worklist ∨ ∃ e', s.isCancelled e' = true) ∧
      (∃ ts : List (DiscoveredFile × ε), p.turns = ts.map Prod.fst ∧
        p.visits = ts.filterMap (visitAt s o)) ∧
      ((p.worklist.map (keyOfFile o)).Nodup → ∀ l₁ l₂ symbols relationships,
        requested store s o e g = l₁ ++ .flush symbols relationships :: l₂ → ∀ x ∈ symbols,
          (∃ v ∈ p.visits, x ∈ v.extraction.symbols ∧ .deletePriorSymbols v.node.key ∈ l₁) ∧
          .deletePriorSymbols x.fileKey ∈ l₁ ∧ .deletePriorSymbols x.fileKey ∉ l₂) := by
  have hcalls := requested_eq store s o e g
  refine ⟨hcalls, fun x hx => ?_, fun h hp => ?_, fun p hp => ?_⟩
  · rw [hcalls, hx]
    simp only [GraphStore.served]
    rcases store.request .serverVersion g with ⟨_ | _, _⟩ <;> rfl
  · rw [← agenda_of_error s o hp]
    exact requested_isPrefix store s o e g
  obtain ⟨e', ts, hchanges, hts, hturns, hvisits, hskip⟩ := plan_eq_ok s o hp
  obtain ⟨htombstones, hbase, hdeleted⟩ := changesOf_eq_ok s o hchanges
  refine ⟨?_, hskip, htombstones, fun hmode => if_neg hmode, hdeleted, fun hnone => ?_,
    ?_, ?_, ⟨ts, hturns, hvisits⟩, ?_⟩
  · obtain ⟨batches, last, hlength, hbatches, hlast, h⟩ :=
      fileRequests_eq_blocks o.repoKey p.visits (.new o.batchSize)
    refine ⟨batches, last, hlength, hbatches, hlast, ?_⟩
    simp only [agenda, hp, Plan.requests, frame, h, List.cons_append, List.append_assoc]
    rfl
  · rw [commitNodes, hbase hnone]
    rfl
  · rw [hturns, hts]
    exact turns_isPrefix s o _ 0 _ e'
  · rw [hturns, hts]
    exact turns_complete s o _ 0 _ e'
  · intro hnodup l₁ l₂ symbols relationships hsplit x hx
    obtain ⟨rest, hrest⟩ := requested_isPrefix store s o e g
    rw [hsplit, List.append_assoc, List.cons_append] at hrest
    rcases l₁ with _ | ⟨c, l₁⟩
    · cases (List.cons.inj hrest).1
    obtain ⟨l, hl, hfile⟩ := flush_of_agenda s o hp (List.cons.inj hrest).2.symm
    have hl : l ⊆ c :: l₁ := List.subset_cons_of_subset _ hl
    have hvs : Itinerary p.visits := plan_itinerary s o hp hnodup
    obtain ⟨⟨v, hv, hxv, hmem⟩, hafter⟩ := delete_before_flush hvs hfile x hx
    refine ⟨⟨v, hv, hxv, hl hmem⟩, ?_, fun hmem => hafter (mem_deletedKeys.2 ?_)⟩
    · rw [(hvs.hangs v hv).owned x hxv]
      exact hl hmem
    · exact List.mem_append_left _ hmem

end Runs

end CodeGraph.Run
