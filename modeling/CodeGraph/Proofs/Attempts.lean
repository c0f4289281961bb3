import CodeGraph.Proofs.Delays
import Mathlib.Order.Bounds.Basic

/-!
# Attempts

What a policy makes of an operation, whatever the operation is like: it attempts it until it
succeeds, fails for good or has been retried as often as the policy allows (`runFrom_attempts`).

Attempted over and over, the operation would come to one outcome after the other. The run makes the
attempts up to the first outcome that settles it and no more, and sleeps once between two of them
(`runFrom_settled`, `events_runFrom`, `run_settled`).
-/

namespace CodeGraph.Retry

variable {σ τ ε α : Type}

/-- From state to state the operation fails with these errors, and then it comes to the result. -/
inductive Attempts (attempt : σ → Except ε α × σ) : σ → List ε → Except ε α → σ → Prop
  | last {s s' : σ} {r : Except ε α} (h : attempt s = (r, s')) : Attempts attempt s [] r s'
  | again {s s' s'' : σ} {e : ε} {errors : List ε} {r : Except ε α}
      (h : attempt s = (.error e, s')) (hrest : Attempts attempt s' errors r s'') :
      Attempts attempt s (e :: errors) r s''

/-- The end of a run whose last attempt has come to this. -/
def Ending.ofLast : Except ε α → Ending ε α
  | .ok a => .ok a
  | .error e => .failed e

/-- Attempts from the one with number `k` on, with a sleep between any two. -/
def course (outcomes : Nat → Except ε α) : Nat → List Nat → List (Event ε α)
  | k, [] => [.attempted (outcomes k)]
  | k, d :: delays => .attempted (outcomes k) :: .slept d :: course outcomes (k + 1) delays

/-- What the last attempt has come to if a run ends like this. -/
def Ending.Follows (last : Except ε α) : Ending ε α → Prop
  | .ok a => last = .ok a
  | .failed e => last = .error e
  | .overflow => ∃ e, last = .error e

namespace Policy

variable (p : Policy) (retriable : ε → Bool) (draw : Nat → Nat)

theorem runFrom_attempts (attempt : σ → Except ε α × σ) (retry : Nat) (s : σ) :
    ∃ errors last, Attempts attempt s errors last (p.runFrom retriable draw attempt retry s).state ∧
      (∀ e ∈ errors, retriable e = true) ∧ errors.length ≤ p.maxRetries - retry ∧
      (p.runFrom retriable draw attempt retry s).ending.Follows last := by
  fun_induction p.runFrom retriable draw attempt retry s with
  | case1 retry s a s' h => exact ⟨[], .ok a, .last h, by simp, Nat.zero_le _, rfl⟩
  | case2 retry s e s' h hc d hd r ih =>
    obtain ⟨errors, last, hattempts, hretriable, hlength, hending⟩ := ih
    refine ⟨e :: errors, last, .again h hattempts, ?_, ?_, hending⟩
    · exact List.forall_mem_cons.2 ⟨hc.2, hretriable⟩
    · rw [List.length_cons]
      omega
  | case3 retry s e s' h hc hd => exact ⟨[], .error e, .last h, by simp, Nat.zero_le _, e, rfl⟩
  | case4 retry s e s' h hc => exact ⟨[], .error e, .last h, by simp, Nat.zero_le _, rfl⟩

/-- What is kept besides the state makes no difference to a run. -/
theorem runFrom_beside {attempt : σ → Except ε α × σ} {attempt' : σ × τ → Except ε α × σ × τ}
    (hattempt : ∀ s t, ∃ t', attempt' (s, t) = ((attempt s).1, (attempt s).2, t')) (retry : Nat)
    (s : σ) (t : τ) :
    (p.runFrom retriable draw attempt' retry (s, t)).ending =
        (p.runFrom retriable draw attempt retry s).ending ∧
      (p.runFrom retriable draw attempt' retry (s, t)).state.1 =
        (p.runFrom retriable draw attempt retry s).state := by
  obtain ⟨t', h'⟩ := hattempt s t
  fun_induction p.runFrom retriable draw attempt retry s generalizing t t' with
  | case1 retry s a s' h =>
    rw [h] at h'
    rw [runFrom, h']
    exact ⟨rfl, rfl⟩
  | case2 retry s e s' h hc d hd r ih =>
    rw [h] at h'
    obtain ⟨t'', h''⟩ := hattempt s' t'
    rw [runFrom, h']
    simp only [hc, and_self, dite_true, hd]
    exact ih t' t'' h''
  | case3 retry s e s' h hc hd =>
    rw [h] at h'
    rw [runFrom, h']
    simp only [hc, and_self, dite_true, hd]
  | case4 retry s e s' h hc =>
    rw [h] at h'
    rw [runFrom, h']
    simp only [hc, dite_false, and_self]

/-! ## Attempts without end -/

/-- The state after this many attempts in a row. -/
def stateAfter (attempt : σ → Except ε α × σ) (s : σ) : Nat → σ
  | 0 => s
  | n + 1 => (attempt (stateAfter attempt s n)).2

/-- The outcome of the attempt after this many. -/
def outcomeAfter (attempt : σ → Except ε α × σ) (s : σ) (n : Nat) : Except ε α :=
  (attempt (stateAfter attempt s n)).1

/-- No attempt is made after this outcome. -/
def Settles : Except ε α → Prop
  | .ok _ => True
  | .error e => retriable e = false

theorem stateAfter_succ {attempt : σ → Except ε α × σ} {s s' : σ} {r : Except ε α}
    (h : attempt s = (r, s')) : ∀ n, stateAfter attempt s (n + 1) = stateAfter attempt s' n
  | 0 => by simp [stateAfter, h]
  | n + 1 => by rw [stateAfter, stateAfter_succ h n, stateAfter]

theorem outcomeAfter_zero {attempt : σ → Except ε α × σ} {s s' : σ} {r : Except ε α}
    (h : attempt s = (r, s')) : outcomeAfter attempt s 0 = r := by
  rw [outcomeAfter, stateAfter, h]

theorem outcomeAfter_succ {attempt : σ → Except ε α × σ} {s s' : σ} {r : Except ε α}
    (h : attempt s = (r, s')) (n : Nat) :
    outcomeAfter attempt s (n + 1) = outcomeAfter attempt s' n := by
  rw [outcomeAfter, stateAfter_succ h, outcomeAfter]

/-- The run stops after the first attempt that settles the operation or uses up the retries. Its
delays are those of the retries in between, and none of them is too long for its word. -/
theorem runFrom_settled (hjitter : p.jitter = true → p.maxDelay < Bits.limit64)
    (attempt : σ → Except ε α × σ) {retry : Nat} (hretry : retry ≤ p.maxRetries) (s : σ) :
    ∃ n, IsLeast {i | Settles retriable (outcomeAfter attempt s i) ∨ retry + i = p.maxRetries} n ∧
      (p.runFrom retriable draw attempt retry s).state = stateAfter attempt s (n + 1) ∧
      (p.runFrom retriable draw attempt retry s).ending = .ofLast (outcomeAfter attempt s n) ∧
      (p.runFrom retriable draw attempt retry s).delays.map some =
        (List.range' (retry + 1) n).map fun k => p.jittered (p.backoff k) (draw k) := by
  fun_induction p.runFrom retriable draw attempt retry s with
  | case1 retry s a s' h =>
    have hfirst := outcomeAfter_zero h
    refine ⟨0, ⟨.inl ?_, fun i _ => Nat.zero_le i⟩, ?_, ?_, rfl⟩
    · rw [hfirst]
      trivial
    · simp [stateAfter, h]
    · rw [hfirst]
      rfl
  | case2 retry s e s' h hc d hd r ih =>
    have hfirst := outcomeAfter_zero h
    obtain ⟨n, ⟨hn, hleast⟩, hstate, hending, hdelays⟩ := ih (by omega)
    refine ⟨n + 1, ⟨hn.imp (fun hn => ?_) (fun hn => by omega), fun i hi => ?_⟩, ?_, ?_, ?_⟩
    · rwa [outcomeAfter_succ h]
    · cases i with
      | zero =>
        rcases hi with hi | hi
        · rw [hfirst, Settles, hc.2] at hi
          cases hi
        · omega
      | succ i =>
        refine Nat.succ_le_succ (hleast (hi.imp (fun hi => ?_) (fun hi => by omega)))
        rwa [outcomeAfter_succ h] at hi
    · rw [stateAfter_succ h]
      exact hstate
    · rw [outcomeAfter_succ h]
      exact hending
    · show (d :: r.delays).map some = _
      rw [List.map_cons, hdelays, ← hd, List.range'_succ, List.map_cons]
  | case3 retry s e s' h hc hd =>
    obtain ⟨d, hsome, -⟩ := exists_jittered p
      (fun hon => Nat.lt_of_le_of_lt (backoff_le p (retry + 1)) (hjitter hon)) (draw (retry + 1))
    rw [hd] at hsome
    cases hsome
  | case4 retry s e s' h hc =>
    have hfirst := outcomeAfter_zero h
    refine ⟨0, ⟨?_, fun i _ => Nat.zero_le i⟩, ?_, ?_, rfl⟩
    · rcases Nat.lt_or_eq_of_le hretry with hlt | heq
      · have hlasting : retriable e = false := by simpa [hlt] using hc
        exact .inl (hfirst ▸ hlasting)
      · exact .inr heq
    · simp [stateAfter, h]
    · rw [hfirst]
      rfl

theorem course_succ (outcomes : Nat → Except ε α) : ∀ (k : Nat) (delays : List Nat),
    course outcomes (k + 1) delays = course (fun i => outcomes (i + 1)) k delays
  | _, [] => rfl
  | k, d :: delays => by rw [course, course_succ outcomes (k + 1) delays, course]

/-- The delays of a run lie between its attempts, none before the first or after the last one. -/
theorem events_runFrom (attempt : σ → Except ε α × σ) (retry : Nat) (s : σ) :
    (p.runFrom retriable draw attempt retry s).events =
      course (outcomeAfter attempt s) 0 (p.runFrom retriable draw attempt retry s).delays := by
  fun_induction p.runFrom retriable draw attempt retry s with
  | case1 retry s a s' h =>
    show _ = course (outcomeAfter attempt s) 0 []
    rw [course, outcomeAfter_zero h]
  | case2 retry s e s' h hc d hd r ih =>
    have hlater : (fun i => outcomeAfter attempt s (i + 1)) = outcomeAfter attempt s' :=
      funext fun i => outcomeAfter_succ h i
    show _ = course (outcomeAfter attempt s) 0 (d :: r.delays)
    rw [course, outcomeAfter_zero h, course_succ, hlater, ← ih]
  | case3 retry s e s' h hc hd =>
    show _ = course (outcomeAfter attempt s) 0 []
    rw [course, outcomeAfter_zero h]
  | case4 retry s e s' h hc =>
    show _ = course (outcomeAfter attempt s) 0 []
    rw [course, outcomeAfter_zero h]

/-- An operation that comes to these outcomes, the first attempt having number one. Its state is the
number of attempts made. -/
def told (outcomes : Nat → Except ε α) (n : Nat) : Except ε α × Nat := (outcomes (n + 1), n + 1)

theorem stateAfter_told (outcomes : Nat → Except ε α) : ∀ n, stateAfter (told outcomes) 0 n = n
  | 0 => rfl
  | n + 1 => by rw [stateAfter, stateAfter_told outcomes n, told]

theorem outcomeAfter_told (outcomes : Nat → Except ε α) (n : Nat) :
    outcomeAfter (told outcomes) 0 n = outcomes (n + 1) := by
  rw [outcomeAfter, stateAfter_told, told]

/-- The operation is attempted as often as the number of the first attempt that succeeds, fails for
good or comes after all retries, and the run ends as that attempt does. It sleeps once less, before
the second attempt and each later one, for the delays of the retries in turn. -/
theorem run_settled (hretries : p.maxRetries < Bits.limit32)
    (hjitter : p.jitter = true → p.maxDelay < Bits.limit64) (outcomes : Nat → Except ε α) :
    ∃ n, IsLeast {k | 0 < k ∧ (Settles retriable (outcomes k) ∨ k = p.maxRetries + 1)} n ∧
      (p.run retriable draw (told outcomes) 0).state = n ∧
      (p.run retriable draw (told outcomes) 0).ending = .ofLast (outcomes n) ∧
      (p.run retriable draw (told outcomes) 0).delays.map some =
        (List.range' 1 (n - 1)).map (fun k => p.jittered (p.backoff k) (draw k)) ∧
      (p.run retriable draw (told outcomes) 0).events =
        course outcomes 1 (p.run retriable draw (told outcomes) 0).delays ∧
      n - 1 < Bits.limit32 := by
  obtain ⟨n, ⟨hn, hleast⟩, hstate, hending, hdelays⟩ :=
    runFrom_settled p retriable draw hjitter (told outcomes) (Nat.zero_le p.maxRetries) 0
  simp only [outcomeAfter_told, stateAfter_told] at hn hleast hstate hending
  refine ⟨n + 1, ⟨⟨Nat.succ_pos n, hn.imp_right fun h => by omega⟩, ?_⟩, hstate, hending, hdelays,
    ?_, ?_⟩
  · rintro (_ | k) ⟨hpos, hk⟩
    · omega
    · exact Nat.succ_le_succ (hleast (hk.imp_right fun h => by omega))
  · have houtcomes : outcomeAfter (told outcomes) 0 = fun i => outcomes (i + 1) :=
      funext (outcomeAfter_told outcomes)
    rw [run, events_runFrom, course_succ, houtcomes]
  · have hlast : n ≤ p.maxRetries := hleast (.inr (Nat.zero_add _))
    omega

/-- Two failures that may pass, and one that lasts. -/
theorem run_settled_of_lasting :
    let p : Policy := {}
    let outcomes : Nat → Except Bool Unit := fun k => .error (decide (k < 3))
    let r := p.run id (1000 * ·) (told outcomes) 0
    p.maxRetries < Bits.limit32 ∧ (p.jitter = true → p.maxDelay < Bits.limit64) ∧
    r.state = 3 ∧ r.ending = .failed false ∧
    r.events = [.attempted (.error true), .slept 500001000, .attempted (.error true),
      .slept 1000002000, .attempted (.error false)] := by
  intro p outcomes r
  have hretries : p.maxRetries < Bits.limit32 := by decide
  have hjitter : p.jitter = true → p.maxDelay < Bits.limit64 := by decide
  obtain ⟨n, hn, hstate, hending, hdelays, hevents, -⟩ :=
    run_settled p id (1000 * ·) hretries hjitter outcomes
  have hthird : IsLeast {k | 0 < k ∧ (Settles id (outcomes k) ∨ k = p.maxRetries + 1)} 3 := by
    refine ⟨⟨by decide, .inl rfl⟩, fun k ⟨_, hk⟩ => ?_⟩
    rcases hk with hk | rfl
    · exact Nat.le_of_not_lt (of_decide_eq_false hk)
    · decide
  obtain rfl := hn.unique hthird
  have hboth : r.delays.map some = [500001000, 1000002000].map some := by
    rw [hdelays]
    decide
  have hdelays : r.delays = [500001000, 1000002000] :=
    (List.map_inj_right fun _ _ => Option.some.inj).1 hboth
  refine ⟨hretries, hjitter, hstate, hending, ?_⟩
  rw [show r.events = course outcomes 1 r.delays from hevents, hdelays]
  rfl

end Policy

end CodeGraph.Retry
