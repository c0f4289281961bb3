import CodeGraph.Bits

/-!
# Retrying

An operation that fails for a passing reason is tried again, after a delay that doubles from one
retry to the next up to a maximum. Durations are in nanoseconds. `Policy.run` keeps the state that
the attempts change, and what it does in turn.
-/

namespace CodeGraph.Retry

/-- The longest duration: seconds of 64 bits, and the nanoseconds after them. -/
def maxDuration : Nat := (Bits.limit64 - 1) * 1000000000 + 999999999

def maxWord : Nat := Bits.limit64 - 1

structure Policy where
  /-- Retries after the first attempt. -/
  maxRetries : Nat := 5
  /-- The delay before the first retry. -/
  baseDelay : Nat := 1000000000
  /-- No delay is longer. -/
  maxDelay : Nat := 30000000000
  /-- Whether a delay `d` is drawn at random from `d / 2` to `d`. -/
  jitter : Bool := true
deriving DecidableEq, Repr

namespace Policy

/-- The policy that never retries. -/
def once : Policy := { maxRetries := 0 }

/-- The factor of a retry's delay, a power of two that stays within 32 bits. -/
def factor (retry : Nat) : Nat := min (Nat.pow 2 (min (retry - 1) 32)) (Bits.limit32 - 1)

/-- The delay before a retry, the first of which has number one. -/
def backoff (p : Policy) (retry : Nat) : Nat :=
  let d := p.baseDelay * factor retry
  min (if d ≤ maxDuration then d else p.maxDelay) p.maxDelay

/-- The delay after jitter with a random draw of 64 bits. There is none if the number of delays to
choose from, or the delay, does not fit its word. -/
def jittered (p : Policy) (delay draw : Nat) : Option Nat :=
  if !p.jitter || delay == 0 then some delay
  else
    let half := delay / 2
    let spread := min half maxWord
    if spread == 0 then some delay
    else if spread == maxWord then none
    else
      let d := half + draw % (spread + 1)
      if d ≤ maxDuration then some d else none

end Policy

/-- How a run of attempts ends. -/
inductive Ending (ε α : Type) where
  | ok (a : α)
  | failed (e : ε)
  /-- A delay did not fit its word. -/
  | overflow
deriving Repr

/-- An attempt with its outcome, or a sleep. -/
inductive Event (ε α : Type) where
  | attempted (outcome : Except ε α)
  | slept (delay : Nat)
deriving Repr

def Event.delay? {ε α : Type} : Event ε α → Option Nat
  | attempted _ => none
  | slept delay => some delay

structure Run (σ ε α : Type) where
  ending : Ending ε α
  /-- What the run has done in turn. -/
  events : List (Event ε α)
  state : σ

/-- The delays between the attempts, the first one first. -/
def Run.delays {σ ε α : Type} (r : Run σ ε α) : List Nat := r.events.filterMap Event.delay?

/-- Makes an attempt when `retry` retries have been made, and retries after it. -/
def Policy.runFrom {σ ε α : Type} (p : Policy) (retriable : ε → Bool) (draw : Nat → Nat)
    (attempt : σ → Except ε α × σ) (retry : Nat) (s : σ) : Run σ ε α :=
  match attempt s with
  | (.ok a, s) => ⟨.ok a, [.attempted (.ok a)], s⟩
  | (.error e, s) =>
    if _ : retry < p.maxRetries ∧ retriable e = true then
      match p.jittered (p.backoff (retry + 1)) (draw (retry + 1)) with
      | some d =>
        let r := p.runFrom retriable draw attempt (retry + 1) s
        { r with events := .attempted (.error e) :: .slept d :: r.events }
      | none => ⟨.overflow, [.attempted (.error e)], s⟩
    else ⟨.failed e, [.attempted (.error e)], s⟩
termination_by p.maxRetries - retry
decreasing_by omega

/-- Attempts the operation until it succeeds, fails for good, or runs out of retries. -/
def Policy.run {σ ε α : Type} (p : Policy) (retriable : ε → Bool) (draw : Nat → Nat)
    (attempt : σ → Except ε α × σ) (s : σ) : Run σ ε α :=
  p.runFrom retriable draw attempt 0 s

end CodeGraph.Retry
