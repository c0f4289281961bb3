import CodeGraph.Command.Synchronize
import CodeGraph.Proofs.Lockstep
import CodeGraph.Proofs.SymbolKeys

/-!
# The order of a command

What a command does to its store, to git and to a language server, one thing after another. It looks
for a repository and starts a server only once the store has passed its check, and a server that was
started is shut down at the very end (`carryOut_in_order`).
-/

namespace CodeGraph

open LanguageServer (ServerError)

variable {ω : Type}

namespace Command

/-- What happens in the course of a command. -/
inductive Event where
  | asked (c : StoreCall) (answer : Except GraphError c.Reply)
  /-- A repository was looked for. -/
  | discovered
  | started (isRunning : Bool)
  | shutDown (answer : Except ServerError Unit)

/-- A request to the store, which writes only symbols with the property. -/
def Event.IsRequest (P : Symbol → Prop) : Event → Prop
  | asked c _ => ∀ x ∈ c.batch.symbols, P x
  | _ => False

end Command

open Command (Event)

/-- The store in a world that keeps what happens. -/
def GraphStore.watched (store : GraphStore ω) : GraphStore (ω × List Event) where
  request c := fun (w, log) =>
    let (r, w) := store.request c w
    (r, w, log ++ [.asked c r])

/-- The history in a world that keeps what happens. Its answers are not kept. -/
def History.watched (history : History ω) : History (ω × List Event) :=
  history.within Prod.fst fun w v => (v, w.2)

theorem GraphStore.verifyVersion_watched (store : GraphStore ω) (w : ω) (log : List Event) :
    ∃ answer, store.watched.verifyVersion (w, log) =
        ((store.verifyVersion w).1, (store.verifyVersion w).2,
          log ++ [.asked .serverVersion answer]) ∧
      ((store.verifyVersion w).1 = .ok () →
        ∃ version, answer = .ok version ∧ checkVersion version = .ok ()) := by
  unfold verifyVersion
  rcases hcall : store.request .serverVersion w with ⟨answer, w₁⟩
  have hwatched : store.watched.request .serverVersion (w, log) =
      (answer, w₁, log ++ [.asked .serverVersion answer]) := by
    simp only [watched, hcall]
  rw [hwatched]
  rcases answer with x | version
  · refine ⟨.error x, rfl, fun h => ?_⟩
    cases h
  · exact ⟨.ok version, rfl, fun h => ⟨version, rfl, h⟩⟩

namespace Command

def RunningServer.watched (server : RunningServer ω) : RunningServer (ω × List Event) where
  facts := server.facts.within Prod.fst fun w v => (v, w.2)
  shutdown := fun (w, log) =>
    let (r, w) := server.shutdown w
    (r, w, log ++ [.shutDown r])

namespace Environment

variable (env : Environment ω)

/-- The environment in a world that keeps what happens, in its order. -/
def watched : Environment (ω × List Event) where
  cwd := env.cwd
  canonicalize path w := env.canonicalize path w.1
  connect c := fun (w, log) =>
    let (r, w) := env.connect c w
    (r.map (·.watched), w, log)
  discover directory := fun (w, log) =>
    let (r, w) := env.discover directory w
    (r.map (·.watched), w, log ++ [.discovered])
  startServer command directory := fun (w, log) =>
    let (server, w) := env.startServer command directory w
    (server.map (·.watched), w, log ++ [.started server.isSome])
  scan root extensions w := env.scan root extensions w.1
  read path w := env.read path w.1
  announce a w := (env.announce a w.1, w.2)
  isCancelled w := env.isCancelled w.1

/-- The environment in which a server that knows nothing stands in for one that does not start. -/
def withStandIn : Environment ω :=
  { env with
    startServer := fun command directory w =>
      match env.startServer command directory w with
      | (none, w) => (some ⟨.none, fun w => (.ok (), w)⟩, w)
      | (some server, w) => (some server, w) }

/-- The environment whose servers shut down in this way. -/
def withShutdown (shutdown : RunningServer ω → ω → Except ServerError Unit × ω) : Environment ω :=
  { env with
    startServer := fun command directory w =>
      match env.startServer command directory w with
      | (none, w) => (none, w)
      | (some server, w) => (some { server with shutdown := shutdown server }, w) }

end Environment

end Command

namespace Run

variable (store : GraphStore ω) (s : Surroundings ω) (o : Options) {P : Symbol → Prop}

/-- All that happens in a run are requests, and it is of no account to the run that they are kept.
-/
theorem synchronize_watched (hfinds : Finds P s o) (w : ω) (log : List Event) :
    ∃ l, synchronize store.watched (s.beside (List Event)) o (w, log) =
        ((synchronize store s o w).1, (synchronize store s o w).2, log ++ l) ∧
      ∀ e ∈ l, e.IsRequest P := by
  let S (l' : List Event) : Prop := ∃ l, l' = log ++ l ∧ ∀ e ∈ l, e.IsRequest P
  have hstore : StoreAlike (fun w (v : ω × List Event) => v.1 = w ∧ S v.2) P store
      store.watched := by
    rintro c hc _ ⟨w, _⟩ ⟨rfl, l, rfl, hl⟩
    refine ⟨rfl, rfl, l ++ [.asked c (store.request c w).1], ?_, fun e he => ?_⟩
    · exact List.append_assoc log l _
    rcases List.mem_append.1 he with he | he
    · exact hl e he
    · obtain rfl := List.mem_singleton.1 he
      exact hc
  have halike : Agree (fun w (v : ω × List Event) => v.1 = w ∧ S v.2) (synchronize store s o w)
      (synchronize store.watched (s.beside (List Event)) o (w, log)) :=
    synchronize_alike hstore (s.alike_beside S) hfinds
      ⟨rfl, [], (List.append_nil log).symm, fun _ he => absurd he List.not_mem_nil⟩
  obtain ⟨r, w₁, v, hw, hv, hworld, l, hlog, hl⟩ := halike.answer
  refine ⟨l, ?_, hl⟩
  rw [hv, hw, ← hworld, ← hlog]

theorem finds_of_facts_eq_none (hfacts : s.facts = .none) :
    Finds (fun x => DocumentKind.ofPath? x.filePath ≠ some .source) s o := by
  intro f w x hx hsource
  rw [f.filePath_of_mem_extract hx] at hsource
  simp only [declarationsOf, hsource, hfacts, if_true, SourceFile.extract] at hx
  have hnothing : Source.extract f o.minimum (.ok []) = .empty := by
    rw [Source.extract, Source.visitAll]
  have hx : x ∈ ((Source.extract f o.minimum (.ok [])).restrict o.minimum).symbols := hx
  rw [hnothing] at hx
  exact List.not_mem_nil (Extraction.mem_symbols_restrict.1 hx).1

end Run

namespace Command

/-- What happens from the start of a language server on, be it there then or not. -/
inductive Served : Bool → List Event → Prop
  | without {l : List Event} :
    (∀ e ∈ l, e.IsRequest fun x => DocumentKind.ofPath? x.filePath ≠ some .source) →
      Served false (.started false :: l)
  | within {l : List Event} {answer : Except ServerError Unit} :
    (∀ e ∈ l, e.IsRequest fun _ => True) →
      Served true (.started true :: (l ++ [.shutDown answer]))

theorem Served.started_mem {b : Bool} {l : List Event} (h : Served b l) : .started b ∈ l := by
  cases h <;> exact List.mem_cons_self

/-- What happens in the course of a command, which may end early. -/
inductive InOrder : List Event → Prop
  | nothing : InOrder []
  | unfit (answer : Except GraphError String) : InOrder [.asked .serverVersion answer]
  | unrooted {version : String} : checkVersion version = .ok () →
      InOrder [.asked .serverVersion (.ok version), .discovered]
  | run {version : String} {b : Bool} {l : List Event} : checkVersion version = .ok () →
      Served b l → InOrder (.asked .serverVersion (.ok version) :: .discovered :: l)

namespace Environment

variable (env : Environment ω)

theorem watched_connect (c : Connection) (w : ω) (log : List Event) :
    env.watched.connect c (w, log) =
      ((env.connect c w).1.map (·.watched), (env.connect c w).2, log) := rfl

theorem watched_discover (directory : String) (w : ω) (log : List Event) :
    env.watched.discover directory (w, log) = ((env.discover directory w).1.map (·.watched),
      (env.discover directory w).2, log ++ [.discovered]) := rfl

theorem watched_startServer (command directory : String) (w : ω) (log : List Event) :
    env.watched.startServer command directory (w, log) =
      ((env.startServer command directory w).1.map (·.watched),
        (env.startServer command directory w).2,
        log ++ [.started (env.startServer command directory w).1.isSome]) := rfl

theorem runWithServer_watched (store : GraphStore ω) (history : Option (History ω))
    (command : String) (o : Run.Options) (w : ω) (log : List Event) :
    ∃ l, env.watched.runWithServer store.watched
        (history.map (·.watched)) command o (w, log) =
        ((env.runWithServer store history command o w).1,
          (env.runWithServer store history command o w).2, log ++ l) ∧
      Served (env.startServer command o.root w).1.isSome l := by
  unfold runWithServer
  rw [watched_startServer]
  rcases env.startServer command o.root w with ⟨_ | server, w₁⟩
  · obtain ⟨l, hrun, hl⟩ := Run.synchronize_watched store (env.surroundings history .none) o
      (Run.finds_of_facts_eq_none _ o rfl) w₁ (log ++ [.started false])
    refine ⟨.started false :: l, hrun.trans ?_, .without hl⟩
    rw [List.append_assoc]
    rfl
  · obtain ⟨l, hrun, hl⟩ := Run.synchronize_watched store (env.surroundings history server.facts) o
      (P := fun _ => True) (fun _ _ _ _ => trivial) w₁ (log ++ [.started true])
    rcases hsync : synchronize store (env.surroundings history server.facts) o w₁ with ⟨r, w₂⟩
    rw [hsync] at hrun
    have hrun : synchronize store.watched (env.watched.surroundings
        (history.map (·.watched)) server.watched.facts) o
        (w₁, log ++ [.started true]) = (r, w₂, log ++ [.started true] ++ l) := hrun
    refine ⟨.started true :: (l ++ [.shutDown (server.shutdown w₂).1]), ?_, ?_⟩
    · dsimp only [Option.map_some, Option.isSome_some]
      rw [hrun]
      simp only [hsync, RunningServer.watched, List.append_assoc, List.singleton_append]
      rfl
    · exact .within hl

theorem runWithServer_result (store : GraphStore ω) (history : Option (History ω))
    (command : String) (o : Run.Options) (w : ω) :
    (env.runWithServer store history command o w).1 = (synchronize store
      (env.surroundings history ((env.startServer command o.root w).1.elim .none (·.facts))) o
      (env.startServer command o.root w).2).1 := by
  unfold runWithServer
  rcases env.startServer command o.root w with ⟨_ | server, w₁⟩ <;> rfl

theorem openStore_watched (a : Arguments) (w : ω) :
    (∃ failure w₁ log, InOrder log ∧ env.openStore a w = (.error failure, w₁) ∧
      env.watched.openStore a (w, []) = (.error failure, w₁, log)) ∨
    ∃ store w₁ version, checkVersion version = .ok () ∧ env.openStore a w = (.ok store, w₁) ∧
      env.watched.openStore a (w, []) =
        (.ok store.watched, w₁, [.asked .serverVersion (.ok version)]) := by
  unfold openStore
  rw [watched_connect]
  rcases env.connect a.connection w with ⟨x | store, w₁⟩
  · exact .inl ⟨_, _, _, .nothing, rfl, rfl⟩
  dsimp only [Except.map]
  obtain ⟨answer, hverify, hanswer⟩ := store.verifyVersion_watched w₁ []
  rw [hverify]
  rcases hresult : store.verifyVersion w₁ with ⟨x | _, w₂⟩
  · exact .inl ⟨_, _, _, .unfit answer, rfl, rfl⟩
  · obtain ⟨version, rfl, hversion⟩ := hanswer (congrArg Prod.fst hresult)
    exact .inr ⟨store, w₂, version, hversion, rfl, rfl⟩

theorem openHistory_watched (required : Bool) (root : String) (w : ω) (log : List Event) :
    env.watched.openHistory required root (w, log) =
      ((env.openHistory required root w).1.map (Option.map (·.watched)),
        (env.openHistory required root w).2, log ++ [.discovered]) := by
  unfold openHistory
  rw [watched_discover]
  rcases env.discover root w with ⟨x | history, w₁⟩
  · dsimp only [Except.map]
    split_ifs <;> rfl
  · rfl

section Opened

variable {a : Arguments} {root : String} {store : GraphStore ω} {history : Option (History ω)}
  {w w₁ w₂ : ω} (hroot : env.canonicalize a.path w = .ok root)
  (hstore : env.openStore a w = (.ok store, w₁))
  (hhistory : env.openHistory a.base.isSome root w₁ = (.ok history, w₂))

include hroot hstore hhistory

/-- A command with a store and a history comes to what its run does, with a server or without. -/
theorem carryOut_of_opened :
    (env.carryOut a w).1 = (synchronize store
      (env.surroundings history
        ((env.startServer a.languageServer root w₂).1.elim .none (·.facts)))
      (a.options (fun path => (env.canonicalize path w).toOption) root)
      (env.startServer a.languageServer root w₂).2).1.mapError .run := by
  have hrun := env.runWithServer_result store history a.languageServer
    (a.options (fun path => (env.canonicalize path w).toOption) root) w₂
  refine Eq.trans ?_ (congrArg (Except.mapError Failure.run) hrun)
  simp only [carryOut, hroot, hstore, hhistory]
  rcases env.runWithServer store history a.languageServer _ w₂ with ⟨x | report, w₃⟩ <;> rfl

theorem carryOut_watched_of_opened :
    ∃ version l, env.watched.carryOut a (w, []) = ((env.carryOut a w).1, (env.carryOut a w).2,
        .asked .serverVersion (.ok version) :: .discovered :: l) ∧
      checkVersion version = .ok () ∧
      Served (env.startServer a.languageServer root w₂).1.isSome l := by
  have hcanonicalize (path : String) :
    env.watched.canonicalize path (w, []) = env.canonicalize path w := rfl
  rcases env.openStore_watched a w with
    ⟨failure, _, _, -, hopen, -⟩ | ⟨_, _, version, hversion, hopen, hwatched⟩ <;>
    rw [hstore] at hopen
  · cases (Prod.mk.inj hopen).1
  obtain ⟨hsame, rfl⟩ := Prod.mk.inj hopen
  obtain rfl := Except.ok.inj hsame
  obtain ⟨l, hrun, hl⟩ := env.runWithServer_watched store history a.languageServer
    (a.options (fun path => (env.canonicalize path w).toOption) root) w₂
    ([.asked .serverVersion (.ok version)] ++ [.discovered])
  refine ⟨version, l, ?_, hversion, hl⟩
  simp only [carryOut, hcanonicalize, hroot, hstore, hwatched, openHistory_watched, hhistory,
    Except.map, hrun]
  rcases env.runWithServer store history a.languageServer _ w₂ with ⟨x | report, w₃⟩ <;> rfl

end Opened

/-- It is of no account to a command what is kept of it, and what happens in it is in order. -/
theorem carryOut_watched (a : Arguments) (w : ω) :
    ∃ log, env.watched.carryOut a (w, []) =
      ((env.carryOut a w).1, (env.carryOut a w).2, log) ∧ InOrder log := by
  have hcanonicalize (path : String) :
    env.watched.canonicalize path (w, []) = env.canonicalize path w := rfl
  rcases hroot : env.canonicalize a.path w with reason | root
  · refine ⟨[], ?_, .nothing⟩
    simp only [carryOut, hcanonicalize, hroot]
  rcases env.openStore_watched a w with
    ⟨failure, w₁, log, hlog, hopen, hwatched⟩ | ⟨store, w₁, version, hversion, hopen, hwatched⟩
  · refine ⟨log, ?_, hlog⟩
    simp only [carryOut, hcanonicalize, hroot, hopen, hwatched]
  rcases hhistory : env.openHistory a.base.isSome root w₁ with ⟨failure | history, w₂⟩
  · refine ⟨[.asked .serverVersion (.ok version), .discovered], ?_, .unrooted hversion⟩
    simp only [carryOut, hcanonicalize, hroot, hopen, hwatched, openHistory_watched, hhistory]
    rfl
  · obtain ⟨version, l, hcarry, hversion, hl⟩ :=
      env.carryOut_watched_of_opened hroot hopen hhistory
    exact ⟨_, hcarry, .run hversion hl⟩

theorem carryOut_withStandIn (a : Arguments) (w : ω) :
    env.withStandIn.carryOut a w = env.carryOut a w := by
  have hrun : env.withStandIn.runWithServer = env.runWithServer := by
    funext store history command o w
    unfold runWithServer withStandIn
    dsimp only
    rcases env.startServer command o.root w with ⟨_ | server, w₁⟩ <;> rfl
  unfold carryOut
  rw [hrun]
  rfl

theorem carryOut_withShutdown (shutdown : RunningServer ω → ω → Except ServerError Unit × ω)
    (a : Arguments) (w : ω) :
    ((env.withShutdown shutdown).carryOut a w).1 = (env.carryOut a w).1 := by
  have hrun (store : GraphStore ω) (history : Option (History ω)) (command : String)
      (o : Run.Options) (w : ω) :
      ((env.withShutdown shutdown).runWithServer store history command o w).1 =
        (env.runWithServer store history command o w).1 := by
    unfold runWithServer withShutdown
    dsimp only
    rcases env.startServer command o.root w with ⟨_ | server, w₁⟩ <;> rfl
  have hcanonicalize : (env.withShutdown shutdown).canonicalize = env.canonicalize := rfl
  have hstore : (env.withShutdown shutdown).openStore = env.openStore := rfl
  have hhistory : (env.withShutdown shutdown).openHistory = env.openHistory := rfl
  unfold carryOut
  rw [hcanonicalize, hstore, hhistory]
  rcases env.canonicalize a.path w with reason | root
  · rfl
  dsimp only
  rcases env.openStore a w with ⟨failure | store, w₁⟩
  · rfl
  dsimp only
  rcases env.openHistory a.base.isSome root w₁ with ⟨failure | history, w₂⟩
  · rfl
  dsimp only
  have hrun := hrun store history a.languageServer
    (a.options (fun path => (env.canonicalize path w).toOption) root) w₂
  rcases h : env.runWithServer store history a.languageServer _ w₂ with ⟨r, w₃⟩
  rcases h' : (env.withShutdown shutdown).runWithServer store history a.languageServer _ w₂ with
    ⟨r', w₄⟩
  rw [h, h'] at hrun
  obtain rfl : r' = r := hrun
  rcases r' with x | report <;> rfl

end Environment

theorem Event.IsRequest.ne {P : Symbol → Prop} {e : Event} (h : e.IsRequest P) :
    (∀ b, e ≠ .started b) ∧ ∀ answer, e ≠ .shutDown answer := by
  cases e with
  | asked c answer => exact ⟨fun _ => nofun, fun _ => nofun⟩
  | _ => exact h.elim

namespace InOrder

variable {log : List Event}

theorem checked (h : InOrder log) {l₁ l₂ : List Event} {e : Event} (hlog : log = l₁ ++ e :: l₂)
    (he : e = .discovered ∨ ∃ b, e = .started b) :
    ∃ version, checkVersion version = .ok () ∧ .asked .serverVersion (.ok version) ∈ l₁ := by
  have hrequest (answer : Except GraphError String) : e ≠ .asked .serverVersion answer := by
    rintro rfl
    rcases he with he | ⟨b, he⟩ <;> cases he
  have hfirst {answer : Except GraphError String} {l : List Event}
      (hlog : .asked .serverVersion answer :: l = l₁ ++ e :: l₂) :
      .asked .serverVersion answer ∈ l₁ ∧ l ≠ [] := by
    rcases l₁ with _ | ⟨x, l₁⟩
    · exact absurd (List.cons.inj hlog).1.symm (hrequest answer)
    · obtain ⟨rfl, rfl⟩ := List.cons.inj hlog
      exact ⟨List.mem_cons_self, by simp⟩
  cases h with
  | nothing => exact absurd hlog (by simp)
  | unfit answer => exact absurd rfl (hfirst hlog).2
  | unrooted hversion => exact ⟨_, hversion, (hfirst hlog).1⟩
  | run hversion _ => exact ⟨_, hversion, (hfirst hlog).1⟩

theorem symbols (h : InOrder log) (hfailed : .started false ∈ log) {c : StoreCall}
    {answer : Except GraphError c.Reply} (hc : .asked c answer ∈ log) :
    ∀ x ∈ c.batch.symbols, DocumentKind.ofPath? x.filePath ≠ some .source := by
  cases h with
  | nothing => cases hc
  | unfit _ => simp at hfailed
  | unrooted _ => simp at hfailed
  | run _ hserved =>
    cases hserved with
    | @without l hl =>
      simp only [List.mem_cons, reduceCtorEq, false_or] at hc
      rcases hc with hc | hc
      · cases hc
        exact fun x hx => absurd hx List.not_mem_nil
      · exact hl _ hc
    | @within l _ hl =>
      simp only [List.mem_cons, List.mem_append, List.not_mem_nil, reduceCtorEq, false_or,
        or_false, Event.started.injEq, Bool.false_eq_true] at hfailed
      exact absurd rfl ((hl _ hfailed).ne.1 false)

theorem ended (h : InOrder log) (hstarted : .started true ∈ log) :
    ∃ l₁ l₂ answer, log = l₁ ++ .started true :: (l₂ ++ [.shutDown answer]) ∧
      ∀ e ∈ l₁ ++ l₂, (∀ b, e ≠ .started b) ∧ ∀ answer, e ≠ .shutDown answer := by
  cases h with
  | nothing => cases hstarted
  | unfit _ => simp at hstarted
  | unrooted _ => simp at hstarted
  | run _ hserved =>
    cases hserved with
    | @without l hl =>
      simp only [List.mem_cons, reduceCtorEq, false_or, Event.started.injEq, Bool.true_eq_false]
        at hstarted
      exact absurd rfl ((hl _ hstarted).ne.1 true)
    | @within l answer hl =>
      refine ⟨[_, .discovered], l, answer, rfl, fun e he => ?_⟩
      simp only [List.cons_append, List.nil_append, List.mem_cons] at he
      rcases he with rfl | rfl | he
      · simp
      · simp
      · exact (hl e he).ne

theorem not_shutDown (h : InOrder log) (hstarted : .started true ∉ log)
    (answer : Except ServerError Unit) : .shutDown answer ∉ log := by
  cases h with
  | nothing => exact List.not_mem_nil
  | unfit _ => simp
  | unrooted _ => simp
  | run _ hserved =>
    cases hserved with
    | @without l hl =>
      simp only [List.mem_cons, reduceCtorEq, false_or]
      exact fun he => absurd rfl ((hl _ he).ne.2 answer)
    | @within l _ hl => exact absurd (by simp) hstarted

end InOrder

/-- What happens in a command, whatever the store, git and the language server do. It is of no
account that it is kept. A repository is looked for, and a server is to be started, only after the
store has answered with a version that passes. With a store and a history a server is to be started,
and the command comes to what its run does, be the server there or not: one that does not start is
as good as one that knows nothing, and then no symbols of compiled sources are written. A server
that starts is the only one that is to be started, and it is shut down once, with nothing after
that; without it nothing is shut down. What the command comes to does not depend on how servers shut
down. -/
theorem carryOut_in_order (env : Environment ω) (a : Arguments) (w : ω) :
    let log := (env.watched.carryOut a (w, [])).2.2
    env.watched.carryOut a (w, []) = ((env.carryOut a w).1, (env.carryOut a w).2, log) ∧
    (∀ l₁ e l₂, log = l₁ ++ e :: l₂ → (e = .discovered ∨ ∃ b, e = .started b) →
      ∃ version, checkVersion version = .ok () ∧
        .asked .serverVersion (.ok version) ∈ l₁) ∧
    (∀ root store w₁ history w₂, env.canonicalize a.path w = .ok root →
      env.openStore a w = (.ok store, w₁) →
      env.openHistory a.base.isSome root w₁ = (.ok history, w₂) →
      ∃ server w₃, env.startServer a.languageServer root w₂ = (server, w₃) ∧
        .started server.isSome ∈ log ∧
        (env.carryOut a w).1 = (synchronize store
          (env.surroundings history (server.elim .none (·.facts)))
          (a.options (fun path => (env.canonicalize path w).toOption) root) w₃).1.mapError .run) ∧
    (env.withStandIn.carryOut a w = env.carryOut a w ∧
      (.started false ∈ log → ∀ c answer, .asked c answer ∈ log →
        ∀ x ∈ c.batch.symbols, DocumentKind.ofPath? x.filePath ≠ some .source)) ∧
    (.started true ∈ log → ∃ l₁ l₂ answer,
      log = l₁ ++ .started true :: (l₂ ++ [.shutDown answer]) ∧
        ∀ e ∈ l₁ ++ l₂, (∀ b, e ≠ .started b) ∧ ∀ answer, e ≠ .shutDown answer) ∧
    (.started true ∉ log → ∀ answer, .shutDown answer ∉ log) ∧
    ∀ shutdown, ((env.withShutdown shutdown).carryOut a w).1 = (env.carryOut a w).1 := by
  intro log
  obtain ⟨l, hcarry, horder⟩ := env.carryOut_watched a w
  have hlog : log = l := congrArg (·.2.2) hcarry
  rw [hlog]
  refine ⟨hcarry, fun l₁ e l₂ => horder.checked,
    fun root store w₁ history w₂ hroot hstore hhistory => ⟨_, _, rfl, ?_, ?_⟩,
    ⟨env.carryOut_withStandIn a w, fun h c answer => horder.symbols h⟩, horder.ended,
    horder.not_shutDown, fun shutdown => env.carryOut_withShutdown shutdown a w⟩
  · obtain ⟨version, l', hcarry', -, hl'⟩ := env.carryOut_watched_of_opened hroot hstore hhistory
    have hl : l = _ := congrArg (·.2.2) (hcarry.symm.trans hcarry')
    rw [hl]
    exact List.mem_cons_of_mem _ (List.mem_cons_of_mem _ hl'.started_mem)
  · exact env.carryOut_of_opened hroot hstore hhistory

/-- A store that fails once it has passed, with a server that does not agree to shut down. -/
example :
    let store : GraphStore Unit := {
      request := fun
        | .serverVersion, _ => (.ok "5.26.0", ())
        | _, _ => (.error (.connection "gone"), ()) }
    let env : Environment Unit := {
      canonicalize := fun path _ => .ok path
      connect := fun _ _ => (.ok store, ())
      discover := fun directory _ => (.error (.notARepository directory), ())
      startServer := fun _ _ _ => (some ⟨.none, fun _ => (.error .stopped, ())⟩, ())
      scan := fun _ _ _ => []
      read := fun _ _ => none
      announce := fun _ _ => ()
      isCancelled := fun _ => false }
    (env.watched.carryOut { path := "/w", password := "" } ((), [])).2.2 =
      [.asked .serverVersion (.ok "5.26.0"), .discovered, .started true,
        .asked .serverVersion (.ok "5.26.0"), .asked .ensureSchema (.error (.connection "gone")),
        .shutDown (.error .stopped)] := rfl

end Command

end CodeGraph
