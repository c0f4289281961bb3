import CodeGraph.Proofs.Course

/-!
# Tours

A run goes through its worklist turn by turn. A turn is a file and the surroundings in which it is
read; the files that can be read are visited. What a tour asks of the store follows from its visits
and from the size of a batch alone (`fileRequests`), and what a run does with its worklist is its
tour (`takes_processFrom`).
-/

namespace CodeGraph.Run

open CodeGraph.Path (DiscoveredFile)

variable {ε σ : Type}

/-! ## Turns and visits -/

/-- A file that has been read, and what a run writes of it. -/
structure Visit where
  node : FileNode
  kind : Option DocumentKind
  extraction : Extraction
deriving DecidableEq, Repr

/-- The visit of a file with these bytes. -/
def visit (s : Surroundings ε) (o : Options) (file : DiscoveredFile) (bytes : List UInt8) (e : ε) :
    Visit × ε :=
  let (past, e) := historyOf s file.path e
  let node := fileNode o file bytes past
  let source : SourceFile := ⟨o.repoKey, node.key, file.path, Text.decodeLossy bytes⟩
  let kind := DocumentKind.ofPath? file.path
  let (found, e) := declarationsOf s kind source e
  (⟨node, kind, source.extract o.minimum found⟩, e)

@[simp] theorem visit_path (s : Surroundings ε) (o : Options) (file : DiscoveredFile)
    (bytes : List UInt8) (e : ε) : (visit s o file bytes e).1.node.path = file.path := rfl

@[simp] theorem visit_kind (s : Surroundings ε) (o : Options) (file : DiscoveredFile)
    (bytes : List UInt8) (e : ε) :
    (visit s o file bytes e).1.kind = DocumentKind.ofPath? file.path := rfl

/-- What a turn makes of the surroundings. -/
def afterTurn (s : Surroundings ε) (o : Options) (file : DiscoveredFile) (e : ε) : ε :=
  match s.read file.path e with
  | some bytes => (visit s o file bytes e).2
  | none => e

/-- The turns of the files that are left of a worklist of which `index` are done. There are no more
turns once the run is told to stop. -/
def turns (s : Surroundings ε) (o : Options) (total : Nat) :
    (index : Nat) → List DiscoveredFile → ε → List (DiscoveredFile × ε)
  | _, [], _ => []
  | index, file :: rest, e =>
    if s.isCancelled e then []
    else
      let e := s.announce ⟨index + 1, total, file.relativePath⟩ e
      (file, e) :: turns s o total (index + 1) rest (afterTurn s o file e)

/-- The visit of a file whose turn it is, if the file can be read. -/
def visitAt (s : Surroundings ε) (o : Options) (turn : DiscoveredFile × ε) : Option Visit :=
  (s.read turn.1.path turn.2).map fun bytes => (visit s o turn.1 bytes turn.2).1

def visits (s : Surroundings ε) (o : Options) (l : List (DiscoveredFile × ε)) : List Visit :=
  l.filterMap (visitAt s o)

theorem length_visits_le (s : Surroundings ε) (o : Options) (l : List (DiscoveredFile × ε)) :
    (visits s o l).length ≤ l.length := List.length_filterMap_le _ _

theorem turns_isPrefix (s : Surroundings ε) (o : Options) (total : Nat) :
    ∀ (index : Nat) (files : List DiscoveredFile) (e : ε),
      (turns s o total index files e).map Prod.fst <+: files
  | _, [], _ => List.prefix_refl _
  | index, file :: rest, e => by
    simp only [turns]
    split
    · exact List.nil_prefix
    · exact List.prefix_cons_inj file |>.2 (turns_isPrefix s o total (index + 1) rest _)

/-! ## The requests of a tour -/

namespace Buffer

/-- The request that empties a buffer, unless it is empty. -/
def drain (b : Buffer) : List StoreCall :=
  if b.isEmpty then [] else [.flush b.pending.symbols b.pending.relationships]

/-- What an extraction makes a buffer ask of the store, and what it leaves in it. -/
def receive (b : Buffer) (e : Extraction) : List StoreCall × Buffer :=
  let b := b.push e
  if b.isFull then (b.drain, b.take.2) else ([], b)

theorem receive_threshold (b : Buffer) (e : Extraction) :
    (b.receive e).2.threshold = b.threshold := by
  simp only [receive]
  split <;> rfl

theorem take_of_isEmpty {b : Buffer} (h : b.isEmpty = true) : b.take.2 = b := by
  obtain ⟨n, symbols, relationships⟩ := b
  simp only [isEmpty, Extraction.isEmpty, Bool.and_eq_true, List.isEmpty_iff] at h
  obtain ⟨rfl, rfl⟩ := h
  rfl

end Buffer

/-- The requests for the visits that are left, and for what waits in the buffer. -/
def fileRequests (repoKey : String) : Buffer → List Visit → List StoreCall
  | b, [] => b.drain
  | b, v :: rest =>
    .upsertFile repoKey v.node :: .deletePriorSymbols v.node.key ::
      ((b.receive v.extraction).1 ++ fileRequests repoKey (b.receive v.extraction).2 rest)

/-! ## What a run does with its worklist -/

section Courses

variable {store : GraphStore σ} (s : Surroundings ε) (o : Options)

theorem takes_countKind (kind : Option DocumentKind) (x : Standing ε) :
    Takes store (Step.countKind kind) x
      ⟨[], fun _ => .ok (), { x with extraction := x.extraction.record (kind.map (·.name)) }⟩ :=
  .modify fun _ _ => rfl

theorem takes_countProcessed (x : Standing ε) :
    Takes store Step.countProcessed x
      ⟨[], fun _ => .ok (), { x with processed := x.processed + 1 }⟩ :=
  .modify fun _ _ => rfl

theorem takes_countFailed (x : Standing ε) :
    Takes store Step.countFailed x ⟨[], fun _ => .ok (), { x with failed := x.failed + 1 }⟩ :=
  .modify fun _ _ => rfl

theorem takes_flush (x : Standing ε) :
    Takes store (Step.write (Writer.flush (store.beside ε))) x
      ⟨x.buffer.drain, fun _ => .ok (), { x with buffer := x.buffer.take.2 }⟩ := by
  intro t g
  simp only [Step.write, Writer.flush, Buffer.drain, Standing.state]
  by_cases h : x.buffer.isEmpty = true
  · simp only [h, if_true, GraphStore.serve, Buffer.take_of_isEmpty h]
  · simp only [h, if_false, GraphStore.serve, Buffer.take, GraphStore.beside_request,
      Bool.false_eq_true]
    rcases store.request (.flush x.buffer.pending.symbols x.buffer.pending.relationships) g with
      ⟨e | outcome, g'⟩
    · exact ⟨{ x with buffer := x.buffer.take.2 }, rfl⟩
    · rfl

theorem takes_offer (e : Extraction) (x : Standing ε) :
    Takes store (Step.write fun w => w.offer (store.beside ε) e) x
      ⟨(x.buffer.receive e).1, fun _ => .ok (), { x with buffer := (x.buffer.receive e).2 }⟩ := by
  intro t g
  by_cases h : (x.buffer.push e).isFull = true
  · have hflush : Takes store _ _ _ := takes_flush { x with buffer := x.buffer.push e }
    simpa only [Step.write, Writer.offer, Buffer.receive, Standing.state, h, if_true]
      using hflush t g
  · simp only [Step.write, Writer.offer, Buffer.receive, Standing.state, h, if_false,
      GraphStore.serve, Bool.false_eq_true]

theorem historyOf_beside (path : String) (w : ε × σ) :
    historyOf (s.beside σ) path w =
      ((historyOf s path w.1).1, (historyOf s path w.1).2, w.2) := by
  simp only [historyOf, Surroundings.beside]
  cases s.history <;> rfl

theorem declarationsOf_beside (kind : Option DocumentKind) (f : SourceFile) (w : ε × σ) :
    declarationsOf (s.beside σ) kind f w =
      ((declarationsOf s kind f w.1).1, (declarationsOf s kind f w.1).2, w.2) := by
  simp only [declarationsOf]
  split <;> rfl

/-- Where the visit of a file leaves a run. -/
def Standing.afterVisit (x : Standing ε) (v : Visit) (e : ε) : Standing ε where
  around := e
  buffer := (x.buffer.receive v.extraction).2
  extraction := x.extraction.record (v.kind.map (·.name))
  processed := x.processed + 1
  failed := x.failed

theorem takes_processFile (file : DiscoveredFile) (bytes : List UInt8) (x : Standing ε) :
    let v := visit s o file bytes x.around
    Takes store (processFile (store.beside ε) (s.beside σ) o file bytes) x
      ⟨.upsertFile o.repoKey v.1.node :: .deletePriorSymbols v.1.node.key ::
        (x.buffer.receive v.1.extraction).1, fun _ => .ok (), x.afterVisit v.1 v.2⟩ := by
  unfold processFile
  refine .bind (l := []) (.onWorld (historyOf_beside s file.path) x) ?_
  refine .request_bind (fun _ _ => rfl) fun _ => .request_bind (fun _ _ => rfl) fun _ => ?_
  refine .bind (l := []) (.onWorld (declarationsOf_beside s _ _) _) ?_
  refine .bind (l := []) (takes_countKind _ _) ?_
  exact .bind_silent (takes_offer _ _) (takes_countProcessed _)

/-- A run that is not told to stop announces the next file, processes it or counts it as failed, and
goes on. -/
theorem processFrom_going (total index : Nat) (file : DiscoveredFile) (rest : List DiscoveredFile)
    (x : Standing ε) (hc : s.isCancelled x.around = false) (t : FlushTotals) (g : σ) :
    let e := s.announce ⟨index + 1, total, file.relativePath⟩ x.around
    processFrom (store.beside ε) (s.beside σ) o total index (file :: rest) (x.state t g) =
      ((match s.read file.path e with
        | some bytes => processFile (store.beside ε) (s.beside σ) o file bytes
        | none => Step.countFailed) >>= fun _ =>
          processFrom (store.beside ε) (s.beside σ) o total (index + 1) rest)
        (Standing.state { x with around := e } t g) := by
  intro e
  have hgo : ¬ (s.beside σ).isCancelled (x.state t g).world = true := by
    show ¬ s.isCancelled x.around = true
    rw [hc]
    exact Bool.false_ne_true
  have hcall : (s.beside σ).announce ⟨index + 1, total, file.relativePath⟩ (x.state t g).world
      = (e, g) := rfl
  have hread : (s.beside σ).read file.path (e, g) = s.read file.path e := rfl
  rw [processFrom, Step.bind_apply]
  simp only [Step.get_apply]
  rw [if_neg hgo, Step.bind_apply]
  simp only [Step.onWorld, hcall, hread, Step.bind_apply, Step.get_apply]
  cases s.read file.path e with
  | none => rfl
  | some bytes => exact Step.bind_apply _ _ _

/-- Where the turn of a file leaves a run. -/
def Standing.afterTurn (x : Standing ε) (v : Option Visit) (e : ε) : Standing ε :=
  match v with
  | some v => x.afterVisit v e
  | none => { x with around := e, failed := x.failed + 1 }

/-- The requests of the turn of a file. -/
def turnRequests (repoKey : String) (b : Buffer) : Option Visit → List StoreCall
  | some v =>
    .upsertFile repoKey v.node :: .deletePriorSymbols v.node.key :: (b.receive v.extraction).1
  | none => []

theorem takes_turn {α : Type} {total index : Nat} {file : DiscoveredFile}
    {rest : List DiscoveredFile} {k : Unit → Step (ε × σ) α} {x : Standing ε} {c : Course ε α}
    (hc : s.isCancelled x.around = false) :
    let e := s.announce ⟨index + 1, total, file.relativePath⟩ x.around
    let v := visitAt s o (file, e)
    Takes store (processFrom (store.beside ε) (s.beside σ) o total (index + 1) rest >>= k)
        (x.afterTurn v (Run.afterTurn s o file e)) c →
      Takes store (processFrom (store.beside ε) (s.beside σ) o total index (file :: rest) >>= k) x
        ⟨turnRequests o.repoKey x.buffer v ++ c.requests, c.result, c.standing⟩ := by
  intro e v hrest
  refine .of_eq (y := { x with around := e })
    (n := (match s.read file.path e with
      | some bytes => processFile (store.beside ε) (s.beside σ) o file bytes
      | none => Step.countFailed) >>= fun _ =>
        processFrom (store.beside ε) (s.beside σ) o total (index + 1) rest >>= k) ?_ ?_
  · intro t g
    rw [Step.bind_apply, processFrom_going s o total index file rest x hc, ← Step.bind_apply,
      bind_assoc]
  · simp only [v, visitAt, Run.afterTurn] at hrest ⊢
    rcases hread : s.read file.path e with _ | bytes <;> rw [hread] at hrest
    · exact .bind (takes_countFailed _) hrest
    · exact .bind (takes_processFile s o file bytes _) hrest

/-- Where a tour leaves a run that empties its buffer then. -/
def Standing.afterTour (x : Standing ε) (l : List Visit) (unread : Nat) (e : ε) : Standing ε where
  around := e
  buffer := { x.buffer with pending := .empty }
  extraction := l.foldl (fun n v => n.record (v.kind.map (·.name))) x.extraction
  processed := x.processed + l.length
  failed := x.failed + unread

theorem Standing.afterTour_afterTurn (x : Standing ε) (v : Option Visit) (l : List Visit)
    {n : Nat} (hn : l.length ≤ n) (e e' : ε) :
    (x.afterTurn v e').afterTour l (n - l.length) e =
      x.afterTour (v.toList ++ l) (n + 1 - (v.toList ++ l).length) e := by
  cases v with
  | none =>
    simp only [afterTurn, afterTour, Option.toList_none, List.nil_append, mk.injEq, true_and]
    omega
  | some v =>
    simp only [afterTurn, afterVisit, afterTour, Buffer.receive_threshold, Option.toList_some,
      List.singleton_append, List.foldl_cons, List.length_cons, mk.injEq, true_and]
    omega

theorem takes_stopped {α : Type} (total index : Nat) (file : DiscoveredFile)
    (rest : List DiscoveredFile) (k : Unit → Step (ε × σ) α) (x : Standing ε)
    (hc : s.isCancelled x.around = true) :
    Takes store (processFrom (store.beside ε) (s.beside σ) o total index (file :: rest) >>= k) x
      ⟨x.buffer.drain, fun _ => .error (.cancelled index total),
        { x with buffer := x.buffer.take.2 }⟩ := by
  have hstop : Takes store (Step.write (Writer.flush (store.beside ε)) >>= fun _ =>
      (throw (.cancelled index total) : Step (ε × σ) Unit)) x
      ⟨x.buffer.drain, fun _ => .error (.cancelled index total),
        { x with buffer := x.buffer.take.2 }⟩ := .bind_silent (takes_flush x) (.throw _ _)
  refine .bind_error (.of_eq (y := x) (fun t g => ?_) hstop)
  have hstate : (s.beside σ).isCancelled (x.state t g).world = true := hc
  rw [processFrom, Step.bind_apply]
  simp only [Step.get_apply]
  rw [if_pos hstate, Step.bind_apply, Step.bind_apply]
  rcases Step.write (Writer.flush (store.beside ε)) (x.state t g) with ⟨e | u, y⟩ <;> rfl

/-- What a run does with its worklist and what is left in the buffer then is a tour, whatever comes
after it without a request. It is cut short if the run is told to stop. -/
theorem takes_processFrom {α : Type} (total : Nat) {k : Step (ε × σ) α}
    {r : Standing ε → FlushTotals → Except Error α} (hk : ∀ y, Takes store k y ⟨[], r y, y⟩) :
    ∀ (index : Nat) (files : List DiscoveredFile) (x : Standing ε),
      let ts := turns s o total index files x.around
      let vs := visits s o ts
      ∃ e, Takes store
        (processFrom (store.beside ε) (s.beside σ) o total index files >>= fun _ =>
          Step.write (Writer.flush (store.beside ε)) >>= fun _ => k) x
        ⟨fileRequests o.repoKey x.buffer vs, fun t =>
          if ts.length = files.length then r (x.afterTour vs (ts.length - vs.length) e) t
          else .error (.cancelled (index + ts.length) total),
          x.afterTour vs (ts.length - vs.length) e⟩
  | index, [], x =>
    ⟨x.around, .bind (l := []) (.pure () x) (.bind_silent (takes_flush x) (hk _))⟩
  | index, file :: rest, x => by
    intro ts vs
    by_cases hc : s.isCancelled x.around = true
    · have hts : ts = [] := by simp only [ts, turns, hc, if_true]
      have hvs : vs = [] := by simp only [vs, hts, visits, List.filterMap_nil]
      refine ⟨x.around, ?_⟩
      rw [hts, hvs]
      exact takes_stopped s o total index file rest _ x hc
    · rw [Bool.not_eq_true] at hc
      let e := s.announce ⟨index + 1, total, file.relativePath⟩ x.around
      let v := visitAt s o (file, e)
      let y := x.afterTurn v (afterTurn s o file e)
      let ts' := turns s o total (index + 1) rest (afterTurn s o file e)
      have haround : y.around = afterTurn s o file e := by
        cases hv : v <;> simp only [y, hv] <;> rfl
      have hts : ts = (file, e) :: ts' := by
        simp only [ts, turns, hc, if_false, Bool.false_eq_true, e, ts']
      have hvs : vs = v.toList ++ visits s o ts' := by
        simp only [vs, hts, visits, List.filterMap_cons, v]
        cases visitAt s o (file, e) <;> rfl
      obtain ⟨e', hrest⟩ := takes_processFrom total hk (index + 1) rest y
      rw [haround] at hrest
      have hturn := takes_turn s o hc hrest
      have hrequests : turnRequests o.repoKey x.buffer v ++
          fileRequests o.repoKey y.buffer (visits s o ts') =
            fileRequests o.repoKey x.buffer vs := by
        rw [hvs]
        cases hv : v <;> simp only [y, hv] <;> rfl
      have hstanding : y.afterTour (visits s o ts') (ts'.length - (visits s o ts').length) e' =
          x.afterTour vs (ts.length - vs.length) e' := by
        rw [hvs, hts]
        exact x.afterTour_afterTurn v _ (length_visits_le s o ts') e' _
      refine ⟨e', ?_⟩
      simp only [v, e, ts'] at hrequests hstanding
      rw [hrequests, hstanding] at hturn
      simpa only [hts, List.length_cons, Nat.add_right_cancel_iff, Nat.add_assoc,
        Nat.add_comm 1, ts'] using hturn

end Courses

end CodeGraph.Run
