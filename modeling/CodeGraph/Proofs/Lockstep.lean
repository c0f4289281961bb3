import CodeGraph.Proofs.Course
import Mathlib.Tactic.SplitIfs

/-!
# Runs in lockstep

Two worlds may be related in such a way that all a run deals with answers the same in both and keeps
them related. Then a run comes to the same in both, and it leaves them related
(`synchronize_alike`). Of the store no more is asked than that it does so for symbols of the kind
that the run can find.
-/

namespace CodeGraph

variable {ω ω' α β : Type} (R : ω → ω' → Prop)

/-- The same answer, in worlds that are related. -/
def Agree (x : α × ω) (y : α × ω') : Prop := x.1 = y.1 ∧ R x.2 y.2

theorem Agree.answer {R : ω → ω' → Prop} {x : α × ω} {y : α × ω'} (h : Agree R x y) :
    ∃ a w w', x = (a, w) ∧ y = (a, w') ∧ R w w' := by
  obtain ⟨a, w⟩ := x
  obtain ⟨b, w'⟩ := y
  obtain ⟨rfl, hworld⟩ : a = b ∧ R w w' := h
  exact ⟨a, w, w', rfl, rfl, hworld⟩

structure History.Alike (h : History ω) (h' : History ω') : Prop where
  root : h.root = h'.root
  commitsSince : ∀ base {w w'}, R w w' →
    Agree R (h.commitsSince base w) (h'.commitsSince base w')
  changedFiles : ∀ base sourceRoot extensions {w w'}, R w w' →
    Agree R (h.changedFiles base sourceRoot extensions w)
      (h'.changedFiles base sourceRoot extensions w')
  fileHistory : ∀ path {w w'}, R w w' → Agree R (h.fileHistory path w) (h'.fileHistory path w')

namespace Run

open CodeGraph.Path (DiscoveredFile)

structure Surroundings.Alike (s : Surroundings ω) (s' : Surroundings ω') : Prop where
  cwd : s.cwd = s'.cwd
  scan : ∀ root extensions {w w'}, R w w' → s.scan root extensions w = s'.scan root extensions w'
  read : ∀ path {w w'}, R w w' → s.read path w = s'.read path w'
  declarations : ∀ path content {w w'}, R w w' →
    Agree R (s.facts.declarations path content w) (s'.facts.declarations path content w')
  history : Option.Rel (History.Alike R) s.history s'.history
  announce : ∀ a {w w'}, R w w' → R (s.announce a w) (s'.announce a w')
  isCancelled : ∀ {w w'}, R w w' → s.isCancelled w = s'.isCancelled w'

variable (P : Symbol → Prop)

/-- The stores agree on all requests, as far as the symbols that are written have the property. -/
def StoreAlike (store : GraphStore ω) (store' : GraphStore ω') : Prop :=
  ∀ c : StoreCall, (∀ x ∈ c.batch.symbols, P x) → ∀ {w w'}, R w w' →
    Agree R (store.request c w) (store'.request c w')

/-- The symbols that are found in files have the property. -/
def Finds (s : Surroundings ω) (o : Options) : Prop :=
  ∀ (f : SourceFile) (w : ω), ∀ x ∈ (f.extract o.minimum
    (declarationsOf s (DocumentKind.ofPath? f.path) f w).1).symbols, P x

/-- Two runs stand at the same point. -/
structure State.Alike (x : State ω) (y : State ω') : Prop where
  world : R x.world y.world
  writer : x.writer = y.writer
  pending : ∀ z ∈ x.writer.buffer.pending.symbols, P z
  extraction : x.extraction = y.extraction
  processed : x.processed = y.processed
  failed : x.failed = y.failed

/-- Two steps keep runs at the same point, and come to the same. -/
def Step.Alike (m : Step ω α) (n : Step ω' α) : Prop :=
  ∀ x y, State.Alike R P x y → Agree (State.Alike R P) (m x) (n y)

variable {R P}

namespace Step.Alike

theorem pure (a : α) : Alike R P (pure a : Step ω α) (pure a : Step ω' α) :=
  fun _ _ h => ⟨rfl, h⟩

theorem throw (e : Error) : Alike R P (throw e : Step ω α) (throw e : Step ω' α) :=
  fun _ _ h => ⟨rfl, h⟩

theorem throw_bind {k : α → Step ω β} {k' : α → Step ω' β} (e : Error) :
    Alike R P ((MonadExcept.throw e : Step ω α) >>= k) ((MonadExcept.throw e : Step ω' α) >>= k') :=
  fun _ _ h => ⟨rfl, h⟩

theorem bind {m : Step ω α} {n : Step ω' α} {f : α → Step ω β} {g : α → Step ω' β}
    (hm : Alike R P m n) (hf : ∀ a, Alike R P (f a) (g a)) : Alike R P (m >>= f) (n >>= g) := by
  intro x y h
  obtain ⟨r, x', y', hx, hy, h'⟩ := (hm x y h).answer
  rw [bind_apply, bind_apply, hx, hy]
  rcases r with e | a
  · exact ⟨rfl, h'⟩
  · exact hf a x' y' h'

theorem get_bind {f : State ω → Step ω α} {g : State ω' → Step ω' α}
    (hf : ∀ x y, State.Alike R P x y → Alike R P (f x) (g y)) :
    Alike R P (get >>= f) (get >>= g) := fun x y h => hf x y h x y h

/-- What is done with an answer has to be alike only for answers that there are. -/
theorem onWorld_bind {f : ω → α × ω} {g : ω' → α × ω'} {k : α → Step ω β} {k' : α → Step ω' β}
    (hf : ∀ {w w'}, R w w' → Agree R (f w) (g w'))
    (hk : ∀ w, Alike R P (k (f w).1) (k' (f w).1)) :
    Alike R P (Step.onWorld f >>= k) (Step.onWorld g >>= k') := by
  intro x y h
  obtain ⟨a, w, w', hx, hy, hworld⟩ := (hf h.world).answer
  have hk := hk x.world
  rw [hx] at hk
  rw [bind_apply, bind_apply]
  unfold Step.onWorld
  rw [hx, hy]
  exact hk _ _ { h with world := hworld }

theorem modify {f : State ω → State ω} {g : State ω' → State ω'}
    (hf : ∀ x y, State.Alike R P x y → State.Alike R P (f x) (g y)) :
    Alike R P (modify f : Step ω Unit) (modify g : Step ω' Unit) := fun x y h => ⟨rfl, hf x y h⟩

section Store

variable {store : GraphStore ω} {store' : GraphStore ω'} (hstore : StoreAlike R P store store')

include hstore

theorem request {c : StoreCall} (hc : ∀ x ∈ c.batch.symbols, P x) :
    Alike R P (Step.request store c) (Step.request store' c) := by
  intro x y h
  obtain ⟨r, w, w', hx, hy, hworld⟩ := (hstore c hc h.world).answer
  unfold Step.request
  rw [hx, hy]
  rcases r with e | a
  · exact ⟨rfl, { h with world := hworld }⟩
  · exact ⟨rfl, { h with world := hworld }⟩

theorem flush : Alike R P (Step.write (Writer.flush store)) (Step.write (Writer.flush store')) := by
  intro x y h
  unfold Step.write Writer.flush
  rw [← h.writer]
  by_cases hempty : x.writer.buffer.isEmpty = true
  · simp only [hempty, if_true]
    exact ⟨rfl, { h with writer := rfl }⟩
  simp only [hempty, if_false, Bool.false_eq_true, Buffer.take]
  obtain ⟨r, w, w', hx, hy, hworld⟩ := (hstore (.flush x.writer.buffer.pending.symbols
    x.writer.buffer.pending.relationships) h.pending h.world).answer
  rw [hx, hy]
  have hnone : ∀ z ∈ Extraction.empty.symbols, P z := fun z hz => absurd hz List.not_mem_nil
  rcases r with e | outcome
  · exact ⟨rfl, { h with world := hworld, writer := rfl, pending := hnone }⟩
  · exact ⟨rfl, { h with world := hworld, writer := rfl, pending := hnone }⟩

theorem offer {e : Extraction} (he : ∀ x ∈ e.symbols, P x) :
    Alike R P (Step.write fun w => w.offer store e) (Step.write fun w => w.offer store' e) := by
  intro x y h
  let pushed (b : Writer) : Writer := { b with buffer := b.buffer.push e }
  have hpushed : State.Alike R P { x with writer := pushed x.writer }
      { y with writer := pushed y.writer } := by
    refine { h with writer := congrArg pushed h.writer, pending := fun z hz => ?_ }
    rcases List.mem_append.1 hz with hz | hz
    · exact h.pending z hz
    · exact he z hz
  unfold Step.write Writer.offer
  rw [← h.writer] at hpushed ⊢
  by_cases hfull : (x.writer.buffer.push e).isFull = true
  · simp only [hfull, if_true]
    exact flush hstore _ _ hpushed
  · simp only [hfull, if_false, Bool.false_eq_true]
    exact ⟨rfl, hpushed⟩

omit hstore in
theorem forM {γ : Type} {f : γ → Step ω Unit} {g : γ → Step ω' Unit} :
    ∀ l : List γ, (∀ c ∈ l, Alike R P (f c) (g c)) → Alike R P (l.forM f) (l.forM g)
  | [], _ => pure ()
  | c :: l, h =>
    (h c List.mem_cons_self).bind fun _ => forM l fun d hd => h d (List.mem_cons_of_mem c hd)

end Store

end Step.Alike

/-- Surroundings act alike by themselves and next to something that only the store deals with. -/
theorem Surroundings.alike_beside {σ : Type} (s : Surroundings ω) (S : σ → Prop) :
    Surroundings.Alike (fun w (v : ω × σ) => v.1 = w ∧ S v.2) s (s.beside σ) where
  cwd := rfl
  scan := by
    rintro root extensions _ v ⟨rfl, -⟩
    rfl
  read := by
    rintro path _ v ⟨rfl, -⟩
    rfl
  declarations := by
    rintro path content _ v ⟨rfl, h⟩
    exact ⟨rfl, rfl, h⟩
  history := by
    unfold Surroundings.beside
    rcases s.history with _ | past
    · exact .none
    refine .some ⟨rfl, ?_, ?_, ?_⟩
    · rintro base _ v ⟨rfl, h⟩
      exact ⟨rfl, rfl, h⟩
    · rintro base sourceRoot extensions _ v ⟨rfl, h⟩
      exact ⟨rfl, rfl, h⟩
    · rintro path _ v ⟨rfl, h⟩
      exact ⟨rfl, rfl, h⟩
  announce := by
    rintro a _ v ⟨rfl, h⟩
    exact ⟨rfl, h⟩
  isCancelled := by
    rintro _ v ⟨rfl, -⟩
    rfl

/-! ## The steps of a run -/

section Runs

variable {store : GraphStore ω} {store' : GraphStore ω'} {s : Surroundings ω}
  {s' : Surroundings ω'} {o : Options}

theorem historyOf_alike (hs : s.Alike R s') (path : String) {w : ω} {w' : ω'} (h : R w w') :
    Agree R (historyOf s path w) (historyOf s' path w') := by
  have hhistory := hs.history
  unfold historyOf
  generalize s.history = past, s'.history = past' at hhistory
  rcases hhistory with hpast | _
  · obtain ⟨hfound, hworld⟩ := hpast.fileHistory path h
    exact ⟨congrArg (·.getD {}) hfound, hworld⟩
  · exact ⟨rfl, h⟩

theorem declarationsOf_alike (hs : s.Alike R s') (kind : Option DocumentKind) (f : SourceFile)
    {w : ω} {w' : ω'} (h : R w w') :
    Agree R (declarationsOf s kind f w) (declarationsOf s' kind f w') := by
  unfold declarationsOf
  split_ifs
  · exact hs.declarations f.path f.content h
  · exact ⟨rfl, h⟩

theorem since_alike {past : History ω} {past' : History ω'} (hpast : past.Alike R past')
    (base : String) (force : Bool) (root : String) (extensions : List String) {w : ω} {w' : ω'}
    (h : R w w') : Agree R (ChangeSet.since past base force root extensions w)
      (ChangeSet.since past' base force root extensions w') := by
  unfold ChangeSet.since
  obtain ⟨commits, w₁, w₁', hc, hc', h₁⟩ := (hpast.commitsSince base h).answer
  rw [hc, hc']
  rcases commits with x | commits
  · exact ⟨rfl, h₁⟩
  dsimp only
  split_ifs
  · exact ⟨rfl, h₁⟩
  obtain ⟨changed, w₂, w₂', hd, hd', h₂⟩ :=
    (hpast.changedFiles base root extensions h₁).answer
  rw [hd, hd']
  rcases changed with x | changed
  · exact ⟨rfl, h₂⟩
  · exact ⟨rfl, h₂⟩

theorem resolve_alike (hs : s.Alike R s') (o : Options) (extensions : List String) {w : ω} {w' : ω'}
    (h : R w w') :
    Agree R (ChangeSet.resolve s.cwd s.history o.base o.force o.root extensions w)
      (ChangeSet.resolve s'.cwd s'.history o.base o.force o.root extensions w') := by
  have hhistory := hs.history
  rw [← hs.cwd]
  unfold ChangeSet.resolve
  generalize s.history = past, s'.history = past' at hhistory
  rcases o.base with _ | base
  · exact ⟨rfl, h⟩
  rcases hhistory with hpast | _
  · simp only [← hpast.root]
    split_ifs
    · exact since_alike hpast base o.force o.root extensions h
    · exact ⟨rfl, h⟩
  · exact ⟨rfl, h⟩

variable (hstore : StoreAlike R P store store') (hs : s.Alike R s')

include hstore in
/-- A request that is no batch. -/
theorem request_alike {c : StoreCall} (hc : c.batch = .empty) :
    Step.Alike R P (Step.request store c) (Step.request store' c) :=
  .request hstore fun _ hx => absurd (hc ▸ hx) List.not_mem_nil

include hs in
theorem resolveChanges_alike (extensions : List String) :
    Step.Alike R P (resolveChanges s o extensions) (resolveChanges s' o extensions) := by
  refine .onWorld_bind (resolve_alike hs o extensions) fun w => ?_
  rcases (ChangeSet.resolve s.cwd s.history o.base o.force o.root extensions w).1 with x | changes
  · exact .throw _
  · exact .pure _

include hstore

theorem passGate_alike : Step.Alike R P (passGate store) (passGate store') := by
  refine .bind (request_alike hstore rfl) fun version => ?_
  rcases checkVersion version with x | _
  · exact .throw _
  · exact .pure _

theorem writeFrame_alike (dependencies : List Dependency) (deleted : List String)
    (commits : List CommitNode) :
    Step.Alike R P (writeFrame store o dependencies deleted commits)
      (writeFrame store' o dependencies deleted commits) := by
  have hcommits : Step.Alike R P
      (if commits.isEmpty then pure () else Step.request store (.upsertCommits o.repoKey commits))
      (if commits.isEmpty then pure ()
        else Step.request store' (.upsertCommits o.repoKey commits)) := by
    rcases commits with _ | ⟨c, l⟩
    · exact .pure ()
    · exact request_alike hstore (c := .upsertCommits o.repoKey (c :: l)) rfl
  have hmarks := Step.Alike.forM deleted fun key _ =>
    request_alike hstore (c := .markFileAsDeleted key) rfl
  refine .bind (request_alike hstore rfl) fun _ => ?_
  rcases dependencies with _ | ⟨d, ds⟩
  · exact hmarks.bind fun _ => hcommits
  · exact .bind (request_alike hstore rfl) fun _ => hmarks.bind fun _ => hcommits

include hs

theorem processFile_alike (hfinds : Finds P s o) (file : DiscoveredFile) (bytes : List UInt8) :
    Step.Alike R P (processFile store s o file bytes) (processFile store' s' o file bytes) := by
  refine .onWorld_bind (historyOf_alike hs file.path) fun w => ?_
  refine .bind (request_alike hstore rfl) fun _ => ?_
  refine .bind (request_alike hstore rfl) fun _ => ?_
  refine .onWorld_bind (declarationsOf_alike hs _ _) fun w => ?_
  refine .bind (.modify fun x y h => ?_) fun _ => ?_
  · exact { h with extraction := by rw [h.extraction] }
  refine .bind (.offer hstore (hfinds _ w)) fun _ => .modify fun x y h => ?_
  exact { h with processed := congrArg (· + 1) h.processed }

/-- The steps agree on each file, so they do on all. -/
theorem processFrom_alike (hfinds : Finds P s o) (total : Nat) :
    ∀ (index : Nat) (files : List DiscoveredFile),
      Step.Alike R P (processFrom store s o total index files)
        (processFrom store' s' o total index files)
  | _, [] => .pure ()
  | index, file :: rest => by
    have hrest := processFrom_alike hfinds total (index + 1) rest
    refine .get_bind fun x y h => ?_
    rw [← hs.isCancelled h.world]
    by_cases hc : s.isCancelled x.world = true
    · simp only [hc, if_true]
      exact .bind (.flush hstore) fun _ => .throw_bind _
    simp only [hc, if_false, Bool.false_eq_true]
    refine .onWorld_bind (fun h => ⟨rfl, hs.announce _ h⟩) fun w => .get_bind fun x y h => ?_
    rw [← hs.read file.path h.world]
    rcases s.read file.path x.world with _ | bytes
    · refine .bind (.modify fun x y h => ?_) fun _ => hrest
      exact { h with failed := congrArg (· + 1) h.failed }
    · exact (processFile_alike hstore hs hfinds file bytes).bind fun _ => hrest

theorem work_alike (hfinds : Finds P s o) : Step.Alike R P (work store s o) (work store' s' o) := by
  refine .bind (request_alike hstore rfl) fun _ => .get_bind fun x y h => ?_
  dsimp only
  rw [← hs.scan _ _ h.world]
  refine .bind (resolveChanges_alike hs _) fun changes => .get_bind fun x y h => ?_
  have hread : (fun path => s.read path x.world) = fun path => s'.read path y.world :=
    funext fun path => hs.read path h.world
  rw [← hs.cwd, ← hread]
  refine .bind (writeFrame_alike hstore _ _ _) fun _ => ?_
  refine .bind (processFrom_alike hstore hs hfinds _ 0 _) fun _ => ?_
  refine .bind (.flush hstore) fun _ => .get_bind fun x y h => ?_
  rw [← h.processed, ← h.failed, ← h.writer, ← h.extraction]
  exact .pure _

/-- A run comes to the same in two worlds where all that it deals with does, and it leaves them
related. -/
theorem synchronize_alike (hfinds : Finds P s o) {w : ω} {w' : ω'} (h : R w w') :
    Agree R (synchronize store s o w) (synchronize store' s' o w') := by
  have hsteps : Step.Alike R P (steps store s o) (steps store' s' o) :=
    (passGate_alike hstore).bind fun _ => work_alike hstore hs hfinds
  have hstart : State.Alike R P (.start w o.batchSize) (.start w' o.batchSize) :=
    ⟨h, rfl, fun _ hz => absurd hz List.not_mem_nil, rfl, rfl, rfl⟩
  obtain ⟨hresult, hstate⟩ := hsteps _ _ hstart
  exact ⟨hresult, hstate.world⟩

end Runs

end Run

end CodeGraph
