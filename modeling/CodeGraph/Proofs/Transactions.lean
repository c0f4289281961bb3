import CodeGraph.Graph.Gateway
import CodeGraph.Proofs.Attempts
import Mathlib.Algebra.GroupWithZero.Nat

/-!
# Transactions

What reaches a server when a batch is written. Every attempt is a transaction of its own
(`Transaction`): it begins, sends the statements of the batch in turn up to the first that fails,
and commits if none does. So a batch that is written is committed once and as a whole, and one that
is not written is not committed at all (`flush_commits_once`).
-/

namespace CodeGraph

namespace Server

/-- Something sent to a server, with the answer to it. -/
inductive Event where
  | begin (answer : Except Failure Unit)
  | execute (statement : Statement) (answer : Except Failure Unit)
  | fetch (answer : Except Failure (List Json.Value))
  | commit (answer : Except Failure Unit)

variable {σ : Type}

/-- The server that keeps its events besides, the latest first. -/
def logged (server : Server σ) : Server (σ × List Event) where
  begin x := ((server.begin x.1).1, (server.begin x.1).2, .begin (server.begin x.1).1 :: x.2)
  execute q x :=
    ((server.execute q x.1).1, (server.execute q x.1).2, .execute q (server.execute q x.1).1 :: x.2)
  fetch x := ((server.fetch x.1).1, (server.fetch x.1).2, .fetch (server.fetch x.1).1 :: x.2)
  commit x := ((server.commit x.1).1, (server.commit x.1).2, .commit (server.commit x.1).1 :: x.2)

/-! ## One attempt -/

/-- The statements are executed in turn, each followed by the fetch of its rows, up to the first
failure. -/
inductive Sends : List Statement → List Event → Except Failure (List (List Json.Value)) → Prop
  | done : Sends [] [] (.ok [])
  | unexecuted (q : Statement) (rest : List Statement) (e : Failure) :
      Sends (q :: rest) [.execute q (.error e)] (.error e)
  | unfetched (q : Statement) (rest : List Statement) (e : Failure) :
      Sends (q :: rest) [.execute q (.ok ()), .fetch (.error e)] (.error e)
  | next (q : Statement) {rest : List Statement} (rows : List Json.Value) {l : List Event}
      {r : Except Failure (List (List Json.Value))} (h : Sends rest l r) :
      Sends (q :: rest) (.execute q (.ok ()) :: .fetch (.ok rows) :: l) (r.map (rows :: ·))

/-- The events of a transaction with these statements, and what it comes to. -/
inductive Transaction (statements : List Statement) :
    List Event → Except Failure (List (List Json.Value)) → Prop
  | refused (e : Failure) : Transaction statements [.begin (.error e)] (.error e)
  | broken {l : List Event} {e : Failure} (h : Sends statements l (.error e)) :
      Transaction statements (.begin (.ok ()) :: l) (.error e)
  | uncommitted {l : List Event} {rows : List (List Json.Value)}
      (h : Sends statements l (.ok rows)) (e : Failure) :
      Transaction statements (.begin (.ok ()) :: (l ++ [.commit (.error e)])) (.error e)
  | committed {l : List Event} {rows : List (List Json.Value)} (h : Sends statements l (.ok rows)) :
      Transaction statements (.begin (.ok ()) :: (l ++ [.commit (.ok ())])) (.ok rows)

theorem queries_logged (server : Server σ) : ∀ (statements : List Statement) (s : σ)
    (log : List Event), ∃ l r s', Sends statements l r ∧
      server.queries statements s = (r, s') ∧
      server.logged.queries statements (s, log) = (r, s', l.reverse ++ log)
  | [], s, log => ⟨[], .ok [], s, .done, rfl, rfl⟩
  | q :: rest, s, log => by
    simp only [queries, query, logged]
    rcases server.execute q s with ⟨e | u, s'⟩
    · exact ⟨_, _, s', .unexecuted q rest e, rfl, rfl⟩
    dsimp only
    rcases server.fetch s' with ⟨e | rows, s''⟩
    · exact ⟨_, _, s'', .unfetched q rest e, rfl, rfl⟩
    dsimp only
    obtain ⟨l, r, s₃, hsends, hplain, hlogged⟩ := queries_logged server rest s''
      (.fetch (.ok rows) :: .execute q (.ok ()) :: log)
    simp only [logged] at hlogged
    refine ⟨_, _, s₃, .next q rows hsends, ?_, ?_⟩
    · rw [hplain]
      cases r <;> rfl
    · rw [hlogged]
      cases r <;> simp [Except.map]

theorem attempt_logged (server : Server σ) (statements : List Statement) (s : σ)
    (log : List Event) : ∃ l r s', Transaction statements l r ∧
      server.attempt statements s = (r.mapError .exchange, s') ∧
      server.logged.attempt statements (s, log) =
        (r.mapError .exchange, s', l.reverse ++ log) := by
  obtain ⟨l, r, s₁, hsends, hplain, hlogged⟩ := queries_logged server statements
    (server.begin s).2 (.begin (.ok ()) :: log)
  simp only [attempt]
  rcases hbegin : server.begin s with ⟨e | u, s'⟩
  · exact ⟨_, _, s', .refused e, rfl, by simp only [logged, hbegin]; rfl⟩
  have hopen : server.logged.begin (s, log) = (.ok (), s', .begin (.ok ()) :: log) := by
    simp [logged, hbegin]
  rw [hbegin] at hplain hlogged
  simp only [hopen, hplain, hlogged]
  rcases r with e | rows
  · exact ⟨_, _, s₁, .broken hsends, rfl, by rw [List.reverse_cons, List.append_assoc]; rfl⟩
  dsimp only
  rcases hcommit : server.commit s₁ with ⟨e | u, s₂⟩
  · refine ⟨_, _, s₂, .uncommitted hsends e, rfl, ?_⟩
    simp only [logged, hcommit, List.reverse_cons, List.reverse_append, List.append_assoc]
    rfl
  · refine ⟨_, _, s₂, .committed hsends, rfl, ?_⟩
    simp only [logged, hcommit, List.reverse_cons, List.reverse_append, List.append_assoc]
    rfl

/-! ## What is seen of a transaction -/

namespace Event

/-- The statement that is sent. -/
def statement? : Event → Option Statement
  | execute q _ => some q
  | _ => none

/-- The rows that are answered. -/
def rows? : Event → Option (List Json.Value)
  | fetch (.ok rows) => some rows
  | _ => none

def isBegin : Event → Bool
  | begin _ => true
  | _ => false

/-- Whether a transaction is committed by it. -/
def isCommitted : Event → Bool
  | commit (.ok ()) => true
  | _ => false

end Event

section Seen

variable {statements : List Statement} {l : List Event}
  {r : Except Failure (List (List Json.Value))}

/-- Within a transaction nothing is begun or committed. -/
theorem Sends.inside (h : Sends statements l r) :
    ∀ x ∈ l, x.isBegin = false ∧ x.isCommitted = false := by
  induction h with
  | done => simp
  | unexecuted => simp [Event.isBegin, Event.isCommitted]
  | unfetched => simp [Event.isBegin, Event.isCommitted]
  | next q rows h ih => simpa [Event.isBegin, Event.isCommitted] using ih

theorem Sends.statements_isPrefix (h : Sends statements l r) :
    l.filterMap Event.statement? <+: statements := by
  induction h with
  | done => exact List.prefix_refl _
  | unexecuted q rest => exact ⟨rest, rfl⟩
  | unfetched q rest => exact ⟨rest, rfl⟩
  | next q rows h ih => exact (List.prefix_cons_inj q).2 ih

theorem Sends.of_ok {rows : List (List Json.Value)} (h : Sends statements l (.ok rows)) :
    l.filterMap Event.statement? = statements ∧ l.filterMap Event.rows? = rows := by
  generalize hr : Except.ok rows = r at h
  induction h generalizing rows with
  | done =>
    cases hr
    exact ⟨rfl, rfl⟩
  | unexecuted => cases hr
  | unfetched => cases hr
  | @next q rest rows' l r h ih =>
    rcases r with e | rows''
    · cases hr
    · cases hr
      obtain ⟨hstatements, hrows⟩ := ih rfl
      exact ⟨congrArg (q :: ·) hstatements, congrArg (rows' :: ·) hrows⟩

theorem Sends.isBegin_commit (h : Sends statements l r) (answer : Except Failure Unit) :
    ∀ x ∈ l ++ [.commit answer], x.isBegin = false := by
  intro x hx
  rcases List.mem_append.1 hx with hx | hx
  · exact (h.inside x hx).1
  · rw [List.mem_singleton.1 hx]
    rfl

theorem Transaction.begins (h : Transaction statements l r) :
    ∃ answer rest, l = .begin answer :: rest ∧ ∀ x ∈ rest, x.isBegin = false := by
  cases h with
  | refused e => exact ⟨_, _, rfl, by simp⟩
  | broken h => exact ⟨_, _, rfl, fun x hx => (h.inside x hx).1⟩
  | uncommitted h e => exact ⟨_, _, rfl, h.isBegin_commit _⟩
  | committed h => exact ⟨_, _, rfl, h.isBegin_commit _⟩

theorem Transaction.statements_isPrefix (h : Transaction statements l r) :
    l.filterMap Event.statement? <+: statements := by
  cases h with
  | refused e => exact List.nil_prefix
  | broken h => exact h.statements_isPrefix
  | uncommitted h e => simpa [List.filterMap_cons, Event.statement?] using h.statements_isPrefix
  | committed h => simpa [List.filterMap_cons, Event.statement?] using h.statements_isPrefix

theorem Transaction.of_ok {rows : List (List Json.Value)}
    (h : Transaction statements l (.ok rows)) :
    l.filterMap Event.statement? = statements ∧ l.filterMap Event.rows? = rows := by
  cases h with
  | committed h => simpa [List.filterMap_cons, Event.statement?, Event.rows?] using h.of_ok

theorem Sends.countP_isCommitted (h : Sends statements l r) :
    l.countP Event.isCommitted = 0 :=
  List.countP_eq_zero.2 fun x hx => by simp [(h.inside x hx).2]

theorem Transaction.countP_isCommitted (h : Transaction statements l r) :
    l.countP Event.isCommitted = if r.isOk then 1 else 0 := by
  cases h with
  | refused e => rfl
  | broken h => simpa [Event.isCommitted, Except.isOk, Except.toBool] using h.countP_isCommitted
  | uncommitted h e =>
    simp [Event.isCommitted, Except.isOk, Except.toBool, h.countP_isCommitted]
  | committed h => simp [Event.isCommitted, Except.isOk, Except.toBool, h.countP_isCommitted]

end Seen

/-! ## Attempts -/

theorem countP_isCommitted_of_failed {statements : List Statement}
    {failed : List (List Event × Failure)}
    (h : ∀ a ∈ failed, Transaction statements a.1 (.error a.2)) :
    (failed.map Prod.fst).flatten.countP Event.isCommitted = 0 := by
  rw [List.countP_eq_zero]
  intro x hx
  obtain ⟨l, hl, hx⟩ := List.mem_flatten.1 hx
  obtain ⟨a, ha, rfl⟩ := List.mem_map.1 hl
  exact List.countP_eq_zero.1 (h a ha).countP_isCommitted x hx

/-- Attempts in a row leave their transactions in the log, one after the other. -/
theorem transactions_of_attempts {server : Server σ} {statements : List Statement}
    {x y : σ × List Event} {errors : List GraphError}
    {r : Except GraphError (List (List Json.Value))}
    (h : Retry.Attempts (server.logged.attempt statements) x errors r y) :
    ∃ (failed : List (List Event × Failure)) (last : List Event)
      (result : Except Failure (List (List Json.Value))),
      y.2 = ((failed.map Prod.fst).flatten ++ last).reverse ++ x.2 ∧
        errors = failed.map (fun a => .exchange a.2) ∧
        (∀ a ∈ failed, Transaction statements a.1 (.error a.2)) ∧
        Transaction statements last result ∧ r = result.mapError .exchange := by
  induction h with
  | @last x y r h =>
    obtain ⟨l, result, s', htransaction, -, hlogged⟩ := attempt_logged server statements x.1 x.2
    obtain ⟨rfl, rfl⟩ := Prod.mk.inj (h.symm.trans hlogged)
    exact ⟨[], l, result, rfl, rfl, by simp, htransaction, rfl⟩
  | @again x y z e errors r h hrest ih =>
    obtain ⟨l, result, s', htransaction, -, hlogged⟩ := attempt_logged server statements x.1 x.2
    obtain ⟨herror, rfl⟩ := Prod.mk.inj (h.symm.trans hlogged)
    obtain ⟨failed, last, result', hlog, rfl, hfailed, hlast, rfl⟩ := ih
    rcases result with e' | rows
    · obtain rfl := Except.error.inj herror
      refine ⟨(l, e') :: failed, last, result', ?_, rfl, ?_, hlast, rfl⟩
      · simp [hlog]
      · exact List.forall_mem_cons.2 ⟨htransaction, hfailed⟩
    · cases herror

end Server

namespace Gateway

open Server (Event Transaction)

variable {σ : Type} (g : Gateway) (server : Server σ)

theorem transact_logged (statements : List Statement) (s : σ) :
    ∃ (failed : List (List Event × Failure)) (last : List Event)
      (result : Except Failure (List (List Json.Value)))
      (answer : Except GraphError (List (List Json.Value))) (s' : σ),
      g.transact server statements s = (answer, s') ∧
        g.transact server.logged statements (s, []) =
          (answer, s', ((failed.map Prod.fst).flatten ++ last).reverse) ∧
        (∀ a ∈ failed, Transaction statements a.1 (.error a.2) ∧
          (GraphError.exchange a.2).isTransient = true) ∧
        failed.length ≤ g.retry.maxRetries ∧ Transaction statements last result ∧
        ((∃ rows, result = .ok rows ∧ answer = .ok rows) ∨
          ∃ e x, result = .error e ∧ answer = .error x) := by
  have hbeside : ∀ s log, ∃ log', server.logged.attempt statements (s, log) =
      ((server.attempt statements s).1, (server.attempt statements s).2, log') := by
    intro s log
    obtain ⟨l, r, s', -, hplain, hlogged⟩ := Server.attempt_logged server statements s log
    exact ⟨l.reverse ++ log, by rw [hlogged, hplain]⟩
  obtain ⟨hending, hstate⟩ := g.retry.runFrom_beside GraphError.isTransient g.draw hbeside 0 s []
  obtain ⟨errors, r, hattempts, htransient, hlength, hfollows⟩ :=
    g.retry.runFrom_attempts GraphError.isTransient g.draw (server.logged.attempt statements) 0
      (s, [])
  obtain ⟨failed, last, result, hlog, rfl, hfailed, hlast, rfl⟩ :=
    Server.transactions_of_attempts hattempts
  have htransient : ∀ a ∈ failed, Transaction statements a.1 (.error a.2) ∧
      (GraphError.exchange a.2).isTransient = true :=
    fun a ha => ⟨hfailed a ha, htransient _ (List.mem_map_of_mem ha)⟩
  rw [List.length_map] at hlength
  simp only [transact, Retry.Policy.run, ← hending, ← hstate]
  generalize g.retry.runFrom GraphError.isTransient g.draw (server.logged.attempt statements) 0
    (s, []) = run at hlog hfollows ⊢
  obtain ⟨ending, delays, s', log⟩ := run
  obtain rfl : log = _ := hlog.trans (List.append_nil _)
  cases ending with
  | ok rows =>
    refine ⟨failed, last, result, .ok rows, s', rfl, rfl, htransient, hlength, hlast, ?_⟩
    rcases result with e | rows'
    · cases hfollows
    · exact .inl ⟨rows', rfl, congrArg _ (Except.ok.inj hfollows).symm⟩
  | failed e =>
    refine ⟨failed, last, result, .error e, s', rfl, rfl, htransient, hlength, hlast, ?_⟩
    rcases result with e' | rows'
    · exact .inr ⟨e', e, rfl, rfl⟩
    · cases hfollows
  | overflow =>
    refine ⟨failed, last, result, .error .delayOverflow, s', rfl, rfl, htransient, hlength, hlast,
      ?_⟩
    obtain ⟨e, he⟩ := hfollows
    rcases result with e' | rows'
    · exact .inr ⟨e', .delayOverflow, rfl, rfl⟩
    · cases he

theorem outcomeOf_eq (symbols : List Symbol) (rows : List (List Json.Value)) :
    outcomeOf symbols rows = ⟨symbols.length,
      ((rows.drop (if symbols.isEmpty then 0 else 1)).map mergedCount).sum⟩ := by
  rw [outcomeOf, List.sum, List.foldr_map]

/-- What the server sees of a batch that is not empty, whatever it answers. There is an attempt, and
as many more as are allowed at most; all but the last have failed for a passing reason. Each begins
a transaction of its own and sends the same statements, up to the first that fails. If the batch is
written, the last attempt alone is committed, with all the statements, and its rows make the
outcome. If not, none is committed. -/
theorem flush_commits_once {symbols : List Symbol} {relationships : List Relationship}
    (hbatch : (symbols.isEmpty && relationships.isEmpty) = false) (s : σ) :
    let statements := Statement.flushStatements symbols relationships
    let x := g.flush server.logged symbols relationships (s, [])
    let events := x.2.2.reverse
    (x.1, x.2.1) = g.flush server symbols relationships s ∧
    ∃ (failed : List (List Event × Failure)) (last : List Event)
      (result : Except Failure (List (List Json.Value))),
      events = (failed.map Prod.fst).flatten ++ last ∧
      failed.length ≤ g.retry.maxRetries ∧
      (∀ a ∈ failed, Transaction statements a.1 (.error a.2) ∧
        (GraphError.exchange a.2).isTransient = true) ∧
      Transaction statements last result ∧
      (∀ l ∈ failed.map Prod.fst ++ [last],
        (∃ answer rest, l = .begin answer :: rest ∧ ∀ y ∈ rest, y.isBegin = false) ∧
          l.filterMap Event.statement? <+: statements) ∧
      (∀ outcome, x.1 = .ok outcome →
        events.countP Event.isCommitted = 1 ∧ last.countP Event.isCommitted = 1 ∧
          last.filterMap Event.statement? = statements ∧
          outcome = ⟨symbols.length, (((last.filterMap Event.rows?).drop
            (if symbols.isEmpty then 0 else 1)).map mergedCount).sum⟩) ∧
      ∀ e, x.1 = .error e → events.countP Event.isCommitted = 0 := by
  intro statements x events
  obtain ⟨failed, last, result, answer, s', hplain, hlogged, hfailed, hlength, hlast, hanswer⟩ :=
    transact_logged g server statements s
  have hx : x = (answer.map (outcomeOf symbols), s',
      ((failed.map Prod.fst).flatten ++ last).reverse) := by
    simp only [x, flush, hbatch, Bool.false_eq_true, if_false, statements] at hlogged ⊢
    rw [hlogged]
    cases answer <;> rfl
  have hflush : g.flush server symbols relationships s = (answer.map (outcomeOf symbols), s') := by
    simp only [flush, hbatch, Bool.false_eq_true, if_false, statements] at hplain ⊢
    rw [hplain]
    cases answer <;> rfl
  have hevents : events = (failed.map Prod.fst).flatten ++ last := by
    simp only [events, hx, List.reverse_reverse]
  have hcount : events.countP Event.isCommitted = last.countP Event.isCommitted := by
    rw [hevents, List.countP_append,
      Server.countP_isCommitted_of_failed fun a ha => (hfailed a ha).1, Nat.zero_add]
  refine ⟨by rw [hx, hflush], failed, last, result, hevents, hlength, hfailed, hlast, ?_, ?_, ?_⟩
  · intro l hl
    obtain ⟨r, h⟩ : ∃ r, Transaction statements l r := by
      rcases List.mem_append.1 hl with hl | hl
      · obtain ⟨a, ha, rfl⟩ := List.mem_map.1 hl
        exact ⟨_, (hfailed a ha).1⟩
      · rw [List.mem_singleton.1 hl]
        exact ⟨result, hlast⟩
    exact ⟨h.begins, h.statements_isPrefix⟩
  · intro outcome houtcome
    rw [hx] at houtcome
    rcases hanswer with ⟨rows, rfl, rfl⟩ | ⟨e, e', -, rfl⟩
    · obtain ⟨hstatements, hrows⟩ := hlast.of_ok
      have hcommitted : last.countP Event.isCommitted = 1 := hlast.countP_isCommitted
      refine ⟨hcount.trans hcommitted, hcommitted, hstatements, ?_⟩
      rw [hrows, ← outcomeOf_eq]
      exact (Except.ok.inj houtcome).symm
    · cases houtcome
  · intro e herror
    rw [hx] at herror
    rcases hanswer with ⟨rows, -, rfl⟩ | ⟨e', e'', rfl, -⟩
    · cases herror
    · exact hcount.trans hlast.countP_isCommitted

/-- The connection breaks in the middle of the first attempt, and the second is committed. -/
theorem flush_commits_once_of_broken_connection :
    let g : Gateway := { retry := { maxRetries := 1, baseDelay := 0 } }
    let server : Server Nat :=
      { begin n := (.ok (), n)
        execute _ n := (if n = 1 then .error (.io "broken pipe") else .ok (), n + 1)
        fetch n := (.ok [.number (.integer 1)], n)
        commit n := (.ok (), n) }
    let symbol : Symbol := { (default : Symbol) with key := "r:a.json:JsonProperty:x" }
    let relationship : Relationship := ⟨"r:a.json", "r:a.json:JsonProperty:x", .contains⟩
    let x := g.flush server.logged [symbol] [relationship] (0, [])
    ([symbol].isEmpty && [relationship].isEmpty) = false ∧ x.1 = .ok ⟨1, 1⟩ ∧
      x.2.2.reverse.countP Event.isBegin = 2 ∧ x.2.2.reverse.countP Event.isCommitted = 1 := by
  intro g server symbol relationship x
  have hx : x.1 = .ok ⟨1, 1⟩ := by
    have hsome : x.1.toOption = some ⟨1, 1⟩ := by decide +kernel
    rcases hresult : x.1 with e | outcome <;> rw [hresult] at hsome
    · cases hsome
    · exact congrArg Except.ok (Option.some.inj hsome)
  have hbatch : ([symbol].isEmpty && [relationship].isEmpty) = false := rfl
  obtain ⟨-, failed, last, result, -, -, -, -, -, hcommitted, -⟩ :=
    flush_commits_once g server hbatch 0
  exact ⟨hbatch, hx, by decide +kernel, (hcommitted _ hx).1⟩

end Gateway

end CodeGraph
