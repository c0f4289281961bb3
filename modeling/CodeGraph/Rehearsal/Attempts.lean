import CodeGraph.Retry

/-!
# Attempts for rehearsals

An operation whose attempts end as told, and when each of them begins if every delay is slept in
full.
-/

namespace CodeGraph.Rehearsal

inductive Outcome where
  | success
  /-- A failure that may pass. -/
  | passing
  | lasting
deriving DecidableEq, Repr

/-- The outcome of the attempt with this number, counted from zero. The last one repeats. -/
def outcomeAt (outcomes : List Outcome) (n : Nat) : Outcome :=
  (outcomes[n]?.or outcomes.getLast?).getD .success

/-- Runs the operation. Errors are outcomes with the numbers of their attempts, counted from one,
and the state is the number of attempts. -/
def attempts (p : Retry.Policy) (outcomes : List Outcome) :
    Retry.Run Nat (Outcome × Nat) Unit :=
  let attempt (n : Nat) : Except (Outcome × Nat) Unit × Nat :=
    (match outcomeAt outcomes n with
      | .success => .ok ()
      | outcome => .error (outcome, n + 1), n + 1)
  p.run (fun e => e.1 == .passing) (fun _ => 0) attempt 0

/-- Whole milliseconds that a delay takes. -/
def milliseconds (delay : Nat) : Nat := (delay + 999999) / 1000000

/-- When the attempts begin, in milliseconds since the first. -/
def beginnings (delays : List Nat) : List Nat :=
  (delays.foldl (fun acc d => (acc.headD 0 + milliseconds d) :: acc) [0]).reverse

/-- Whether each delay lies between half the delay without jitter and that delay. -/
def areWithinBounds (p : Retry.Policy) (delays : List Nat) : Bool :=
  (delays.zipIdx 1).all fun (d, retry) => p.backoff retry / 2 ≤ d && d ≤ p.backoff retry

end CodeGraph.Rehearsal
