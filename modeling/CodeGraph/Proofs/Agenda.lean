import CodeGraph.Proofs.Tour
import Mathlib.Tactic.SplitIfs

/-!
# Agendas

What a run is going to ask of a store that has passed follows from the options and the surroundings:
this is its agenda. The run makes the requests of its agenda up to the first that fails, and if none
does, it comes to the end that its plan foresees (`synchronize_beside`).
-/

namespace CodeGraph.Run

open CodeGraph.Path (DiscoveredFile)

variable {ε σ : Type}

/-! ## Plans -/

/-- The change set of a run, and the surroundings once they have been asked for it. -/
def changesOf (s : Surroundings ε) (o : Options) (e : ε) : Except HistoryError ChangeSet × ε :=
  ChangeSet.resolve s.cwd s.history o.base o.force o.root (Path.normalizeExtensions o.extensions) e

/-- The requests ahead of the worklist. -/
def frame (o : Options) (dependencies : List Dependency) (deleted : List String)
    (commits : List CommitNode) : List StoreCall :=
  .upsertProject ⟨o.repoKey, o.projectName⟩ ::
    ((if dependencies.isEmpty then [] else [.upsertDependencies o.repoKey dependencies]) ++
      (deleted.map .markFileAsDeleted ++
        if commits.isEmpty then [] else [.upsertCommits o.repoKey commits]))

/-- What a run finds out. -/
structure Plan where
  discovered : List DiscoveredFile
  changes : ChangeSet
  dependencies : List Dependency
  /-- The files of the worklist that get their turn. -/
  turns : List DiscoveredFile
  visits : List Visit

namespace Plan

def worklist (p : Plan) : List DiscoveredFile := p.changes.worklist p.discovered

/-- The requests after the one for the schema. -/
def requests (cwd : String) (o : Options) (p : Plan) : List StoreCall :=
  frame o p.dependencies (tombstoneKeys cwd o p.changes) (commitNodes cwd o p.changes) ++
    fileRequests o.repoKey (.new o.batchSize) p.visits

/-- The report of a run that gets to the end of its worklist with these totals. -/
def report (cwd : String) (o : Options) (p : Plan) (t : FlushTotals) : Report where
  mode := p.changes.mode
  filesDiscovered := p.discovered.length
  filesSelected := p.worklist.length
  filesProcessed := p.visits.length
  filesFailed := p.turns.length - p.visits.length
  filesDeleted := (tombstoneKeys cwd o p.changes).length
  commits := (commitNodes cwd o p.changes).length
  dependencies := p.dependencies.length
  written := t
  extraction := p.visits.foldl (fun n v => n.record (v.kind.map (·.name))) .empty

/-- What the run comes to with these totals. -/
def outcome (cwd : String) (o : Options) (p : Plan) (t : FlushTotals) : Except Error Report :=
  if p.turns.length = p.worklist.length then .ok (p.report cwd o t)
  else .error (.cancelled p.turns.length p.worklist.length)

end Plan

/-- The plan of a run, if the history answers. -/
def plan (s : Surroundings ε) (o : Options) (e : ε) : Except HistoryError Plan :=
  match changesOf s o e with
  | (.error h, _) => .error h
  | (.ok changes, e') =>
    let discovered := s.scan o.root (Path.normalizeExtensions o.extensions) e
    let worklist := changes.worklist discovered
    let found :=
      if o.skipDependencies then [] else dependencies (fun path => s.read path e') discovered
    let ts := turns s o worklist.length 0 worklist e'
    .ok ⟨discovered, changes, found, ts.map Prod.fst, visits s o ts⟩

/-- The requests to a store that has passed. -/
def agenda (s : Surroundings ε) (o : Options) (e : ε) : List StoreCall :=
  .ensureSchema :: match plan s o e with
    | .error _ => []
    | .ok p => p.requests s.cwd o

/-- What a run comes to with these totals, if no request fails. -/
def ending (s : Surroundings ε) (o : Options) (e : ε) (t : FlushTotals) : Except Error Report :=
  match plan s o e with
  | .error h => .error (.history h)
  | .ok p => p.outcome s.cwd o t

/-! ## The steps of a run -/

section Courses

variable {store : GraphStore σ} (s : Surroundings ε) (o : Options)

theorem changesOf_beside (w : ε × σ) :
    changesOf (s.beside σ) o w = ((changesOf s o w.1).1, (changesOf s o w.1).2, w.2) := by
  simp only [changesOf, ChangeSet.resolve, Surroundings.beside]
  rcases o.base with _ | base
  · rfl
  rcases s.history with _ | history
  · rfl
  simp only [Option.map_some, ChangeSet.since, History.within]
  split_ifs
  · rcases h : history.commitsSince base w.1 with ⟨_ | commits, e⟩ <;> simp only [h]
  · rcases h : history.commitsSince base w.1 with ⟨_ | commits, e⟩ <;> simp only [h]
    rcases h' : history.changedFiles base o.root (Path.normalizeExtensions o.extensions) e with
      ⟨_ | changed, e'⟩ <;> simp only [h']
  · rfl

theorem takes_resolveChanges (x : Standing ε) :
    Takes store (resolveChanges (s.beside σ) o (Path.normalizeExtensions o.extensions)) x
      ⟨[], fun _ => (changesOf s o x.around).1.mapError .history,
        { x with around := (changesOf s o x.around).2 }⟩ := by
  refine .bind (l := []) (.onWorld (changesOf_beside s o) x) ?_
  rcases (changesOf s o x.around).1 with h | changes
  · exact .throw _ _
  · exact .pure _ _

theorem takes_marks (x : Standing ε) :
    ∀ keys : List String, Takes store
      (keys.forM fun key => Step.request (store.beside ε) (.markFileAsDeleted key)) x
      ⟨keys.map .markFileAsDeleted, fun _ => .ok (), x⟩
  | [] => .pure _ _
  | _ :: keys => .request_bind (fun _ _ => rfl) fun _ => takes_marks x keys

theorem takes_upsertCommits (commits : List CommitNode) (x : Standing ε) :
    Takes store
      (if commits.isEmpty then pure ()
        else Step.request (store.beside ε) (.upsertCommits o.repoKey commits)) x
      ⟨if commits.isEmpty then [] else [.upsertCommits o.repoKey commits],
        fun _ => .ok (), x⟩ := by
  rcases commits with _ | ⟨c, l⟩
  · exact .pure () x
  · have h : Takes store (Step.request (store.beside ε) (.upsertCommits o.repoKey (c :: l))) x
        ⟨[.upsertCommits o.repoKey (c :: l)], fun _ => .ok (), x⟩ := by
      intro t g
      simp only [GraphStore.serve, Step.request, Standing.state, GraphStore.beside_request]
      rcases store.request (.upsertCommits o.repoKey (c :: l)) g with ⟨e | a, g'⟩
      · exact ⟨x, rfl⟩
      · rfl
    exact h

theorem takes_writeFrame (dependencies : List Dependency) (deleted : List String)
    (commits : List CommitNode) (x : Standing ε) :
    Takes store (writeFrame (store.beside ε) o dependencies deleted commits) x
      ⟨frame o dependencies deleted commits, fun _ => .ok (), x⟩ := by
  have hmarks : Takes store _ x _ := takes_marks x deleted
  have hrest := hmarks.bind (f := fun _ => _) (takes_upsertCommits o commits x)
  refine .request_bind (fun _ _ => rfl) fun _ => ?_
  rcases dependencies with _ | ⟨d, ds⟩
  · exact hrest
  · exact .request_bind (fun _ _ => rfl) fun _ => hrest

theorem takes_work (e : ε) :
    ∃ y, Takes store (work (store.beside ε) (s.beside σ) o) (.start e o.batchSize)
      ⟨agenda s o e, ending s o e, y⟩ := by
  have hresolve : Takes store
      (resolveChanges (s.beside σ) o (Path.normalizeExtensions o.extensions))
      (.start e o.batchSize) ⟨[], fun _ => (changesOf s o e).1.mapError .history,
        .start (changesOf s o e).2 o.batchSize⟩ := takes_resolveChanges s o _
  rcases hc : changesOf s o e with ⟨h | changes, e'⟩ <;> simp only [hc] at hresolve
  · have hplan : plan s o e = .error h := by simp only [plan, hc]
    have hending : ending s o e = fun _ => .error (.history h) := by
      funext t
      simp only [ending, hplan]
    rw [agenda, hending]
    simp only [hplan]
    refine ⟨Standing.start e' o.batchSize,
      .request_bind (fun _ _ => rfl) fun _ => .get_bind fun t g => ?_⟩
    dsimp only
    exact .bind_error hresolve
  · let discovered := s.scan o.root (Path.normalizeExtensions o.extensions) e
    let found :=
      if o.skipDependencies then [] else dependencies (fun path => s.read path e') discovered
    let worklist := changes.worklist discovered
    let ts := turns s o worklist.length 0 worklist e'
    let p : Plan := ⟨discovered, changes, found, ts.map Prod.fst, visits s o ts⟩
    have hplan : plan s o e = .ok p := by simp only [plan, hc, p, discovered, found, worklist, ts]
    let report (processed failed : Nat) (extraction : ExtractionStats) (t : FlushTotals) : Report :=
      { p.report s.cwd o t with
        filesProcessed := processed, filesFailed := failed, extraction := extraction }
    obtain ⟨e'', htour⟩ : ∃ e'', Takes store _ _ _ := takes_processFrom s o worklist.length
      (k := get >>= fun x => pure (report x.processed x.failed x.extraction x.writer.totals))
      (r := fun y t => .ok (report y.processed y.failed y.extraction t)) (fun _ _ _ => rfl)
      0 worklist (.start e' o.batchSize)
    have hresult : ending s o e = fun t =>
        if ts.length = worklist.length then
          .ok (report (0 + p.visits.length) (0 + (ts.length - p.visits.length))
            (p.visits.foldl (fun n v => n.record (v.kind.map (·.name))) .empty) t)
        else .error (.cancelled (0 + ts.length) worklist.length) := by
      funext t
      simp only [ending, hplan, Plan.outcome, Plan.worklist, Plan.report, List.length_map, report,
        worklist, Nat.zero_add, p]
    have hrest := (takes_writeFrame o found (tombstoneKeys s.cwd o changes)
      (commitNodes s.cwd o changes) (.start e' o.batchSize)).bind (f := fun _ => _) htour
    rw [agenda, hresult]
    simp only [hplan]
    refine ⟨(Standing.start e' o.batchSize).afterTour p.visits (ts.length - p.visits.length) e'',
      .request_bind (fun _ _ => rfl) fun _ => .get_bind fun t g => ?_⟩
    dsimp only
    exact .bind (l := []) hresolve (.get_bind fun t g => hrest)

end Courses

/-! ## Runs -/

section Runs

variable (store : GraphStore σ) (s : Surroundings ε) (o : Options)

theorem steps_beside (e : ε) (g : σ) :
    steps (store.beside ε) (s.beside σ) o (.start (e, g) o.batchSize) =
      match store.verifyVersion g with
      | (.error x, g') => (.error (.graph x), (Standing.start e o.batchSize).state {} g')
      | (.ok (), g') =>
        work (store.beside ε) (s.beside σ) o ((Standing.start e o.batchSize).state {} g') := by
  unfold steps passGate
  simp only [Step.bind_apply, Step.request, GraphStore.verifyVersion, State.start,
    GraphStore.beside_request]
  rcases store.request .serverVersion g with ⟨x | version, g'⟩
  · rfl
  simp only []
  rcases checkVersion version with x | u <;> rfl

/-- The totals at the end of a run, be it at an error, are those of the requests it has made. -/
theorem totals_steps (e : ε) (g : σ) :
    (steps (store.beside ε) (s.beside σ) o (.start (e, g) o.batchSize)).2.writer.totals =
      match store.verifyVersion g with
      | (.error _, _) => {}
      | (.ok (), g') => (store.serve (agenda s o e) {} g').2.1 := by
  rw [steps_beside]
  rcases store.verifyVersion g with ⟨x | _, g'⟩
  · rfl
  · obtain ⟨y, hwork⟩ : ∃ y, Takes store _ _ _ := takes_work s o e
    have hwork := hwork {} g'
    simp only at hwork ⊢
    rcases h : store.serve (agenda s o e) {} g' with ⟨x | _, t, g''⟩ <;> rw [h] at hwork
    · obtain ⟨z, hz⟩ := hwork
      rw [hz]
      rfl
    · rw [hwork]
      rfl

theorem ending_ne_graph (e : ε) (t : FlushTotals) (x : GraphError) :
    ending s o e t ≠ .error (.graph x) := by
  unfold ending Plan.outcome
  split
  · simp
  · split <;> simp

/-- A run checks its store and goes through its agenda until a request fails. -/
theorem synchronize_beside (e : ε) (g : σ) :
    ∃ e', synchronize (store.beside ε) (s.beside σ) o (e, g) =
      match store.verifyVersion g with
      | (.error x, g') => (.error (.graph x), e', g')
      | (.ok (), g') =>
        match store.serve (agenda s o e) {} g' with
        | (.error x, _, g'') => (.error (.graph x), e', g'')
        | (.ok (), t, g'') => (ending s o e t, e', g'') := by
  have hrun : synchronize (store.beside ε) (s.beside σ) o (e, g) =
      (fun r : Except Error Report × State (ε × σ) => (r.1, r.2.world))
        (steps (store.beside ε) (s.beside σ) o (.start (e, g) o.batchSize)) := rfl
  rw [hrun, steps_beside]
  rcases store.verifyVersion g with ⟨x | _, g'⟩
  · exact ⟨e, rfl⟩
  · obtain ⟨y, hwork⟩ : ∃ y, Takes store _ _ _ := takes_work s o e
    have hwork := hwork {} g'
    simp only at hwork
    rcases h : store.serve (agenda s o e) {} g' with ⟨x | _, t, g''⟩ <;> rw [h] at hwork
    · obtain ⟨z, hz⟩ := hwork
      refine ⟨z.around, ?_⟩
      simp only [hz, h]
      rfl
    · refine ⟨y.around, ?_⟩
      simp only [hwork, h]
      rfl

/-- The requests that a run makes, in their order. -/
def requested (e : ε) (g : σ) : List StoreCall :=
  (synchronize (store.logged.beside ε) (s.beside _) o (e, g, [])).2.2.2.reverse

theorem requested_eq (e : ε) (g : σ) :
    requested store s o e g =
      store.served (.serverVersion :: match (store.verifyVersion g).1 with
        | .ok () => agenda s o e
        | .error _ => []) g := by
  obtain ⟨e', hrun⟩ := synchronize_beside store.logged s o e (g, [])
  simp only [requested, hrun, GraphStore.served, GraphStore.verifyVersion,
    GraphStore.logged_request]
  rcases store.request .serverVersion g with ⟨x | version, g'⟩
  · rfl
  simp only []
  rcases hv : checkVersion version with x | _
  · rfl
  simp only [GraphStore.serve_logged]
  rcases store.serve (agenda s o e) {} g' with ⟨x | _, t, g''⟩ <;>
    simp only [List.reverse_append, List.reverse_reverse, List.reverse_cons, List.reverse_nil,
      List.nil_append, List.singleton_append]

end Runs

end CodeGraph.Run
