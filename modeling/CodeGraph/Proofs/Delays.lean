import CodeGraph.Retry
import Mathlib.Algebra.Group.Nat.Defs
import Mathlib.Order.Monotone.Basic

/-!
# Delays between attempts

The delay before a retry doubles from one retry to the next until it meets the maximum. The factor
stops at the largest number of 32 bits, and a product that no duration holds gives way to the
maximum. Neither shows as long as the maximum is met before the factor stops: the delay is then what
exact numbers give (`backoff_saturates`).

Jitter makes a delay shorter by up to half of it. It counts the delays to choose from, and their
number has to fit in 64 bits (`jittered_within_iff`).
-/

namespace CodeGraph.Retry.Policy

/-! ## Backoff -/

/-- Cutting the exponent at 32 makes no difference, the factor being cut below that power. -/
theorem factor_eq (retry : Nat) : factor retry = min (2 ^ (retry - 1)) (Bits.limit32 - 1) := by
  show min (2 ^ min (retry - 1) 32) (Bits.limit32 - 1) = _
  rcases Nat.le_total (retry - 1) 32 with h | h
  · rw [Nat.min_eq_left h]
  · have hlarge : 2 ^ 32 ≤ 2 ^ (retry - 1) := Nat.pow_le_pow_right (by decide) h
    have hcut : Bits.limit32 - 1 ≤ 2 ^ 32 := by decide
    rw [Nat.min_eq_right h, Nat.min_eq_right hcut, Nat.min_eq_right (hcut.trans hlarge)]

theorem factor_lt (retry : Nat) : factor retry < Bits.limit32 := by
  have hle : factor retry ≤ Bits.limit32 - 1 := by
    rw [factor_eq]
    exact Nat.min_le_right _ _
  exact Nat.lt_of_le_of_lt hle (by decide)

theorem factor_le (retry : Nat) : factor retry ≤ 2 ^ (retry - 1) := by
  rw [factor_eq]
  exact Nat.min_le_left _ _

theorem factor_mono : Monotone factor := by
  intro r s h
  have hpow : 2 ^ (r - 1) ≤ 2 ^ (s - 1) :=
    Nat.pow_le_pow_right (by decide) (Nat.sub_le_sub_right h 1)
  rw [factor_eq, factor_eq]
  omega

theorem factor_eq_pow {retry : Nat} (h : retry ≤ 32) : factor retry = 2 ^ (retry - 1) := by
  rw [factor_eq, Nat.min_eq_left]
  calc 2 ^ (retry - 1) ≤ 2 ^ 31 := Nat.pow_le_pow_right (by decide) (by omega)
    _ ≤ Bits.limit32 - 1 := by decide

variable (p : Policy)

theorem backoff_le (retry : Nat) : p.backoff retry ≤ p.maxDelay := Nat.min_le_right _ _

/-- A product that no duration holds is above the maximum as well. -/
theorem backoff_eq (hmax : p.maxDelay ≤ maxDuration) (retry : Nat) :
    p.backoff retry = min p.maxDelay (p.baseDelay * factor retry) := by
  simp only [backoff]
  split
  · exact Nat.min_comm _ _
  · omega

/-- If the maximum is met before the factor stops, so is it by every longer delay. -/
theorem min_factor {retry : Nat}
    (h : retry ≤ 32 ∨ p.maxDelay ≤ p.baseDelay * (Bits.limit32 - 1)) :
    min p.maxDelay (p.baseDelay * factor retry) =
      min p.maxDelay (p.baseDelay * 2 ^ (retry - 1)) := by
  rcases h with h | h
  · rw [factor_eq_pow h]
  · rw [factor_eq]
    rcases Nat.le_total (2 ^ (retry - 1)) (Bits.limit32 - 1) with hpow | hpow
    · rw [Nat.min_eq_left hpow]
    · have hlonger := h.trans (Nat.mul_le_mul_left p.baseDelay hpow)
      rw [Nat.min_eq_right hpow, Nat.min_eq_left h, Nat.min_eq_left hlonger]

/-- The delay before a retry, the first of which has number one, is no longer than the maximum, no
longer than the base delay doubled for each retry before, and no shorter than the delay before an
earlier retry. It is exactly the smaller of the two up to the retry with number 32, and for all
retries if the maximum is met before the factor stops. On the way the factor fits in 32 bits, a
product is taken only if a duration holds it, and so is the delay a duration. -/
theorem backoff_saturates (hmax : p.maxDelay ≤ maxDuration) :
    (∀ r, p.backoff r ≤ p.maxDelay) ∧
    Monotone p.backoff ∧
    (∀ r, 1 ≤ r → p.backoff r ≤ p.baseDelay * 2 ^ (r - 1)) ∧
    (∀ r, 1 ≤ r → r ≤ 32 ∨ p.maxDelay ≤ p.baseDelay * (2 ^ 32 - 1) →
      p.backoff r = min p.maxDelay (p.baseDelay * 2 ^ (r - 1))) ∧
    p.backoff 0 = p.backoff 1 ∧
    ∀ r, factor r < Bits.limit32 ∧ p.backoff r ≤ maxDuration ∧
      (p.baseDelay * factor r ≤ maxDuration ∨ p.backoff r = p.maxDelay) := by
  refine ⟨backoff_le p, fun r s hrs => ?_, fun r _ => ?_, fun r _ h => ?_, ?_, fun r => ?_⟩
  · have hproduct := Nat.mul_le_mul_left p.baseDelay (factor_mono hrs)
    rw [backoff_eq p hmax, backoff_eq p hmax]
    omega
  · rw [backoff_eq p hmax]
    exact (Nat.min_le_right _ _).trans (Nat.mul_le_mul_left _ (factor_le r))
  · rw [backoff_eq p hmax]
    exact min_factor p h
  · rw [backoff_eq p hmax, backoff_eq p hmax]
    rfl
  · refine ⟨factor_lt r, (backoff_le p r).trans hmax, or_iff_not_imp_left.2 fun hlong => ?_⟩
    rw [backoff_eq p hmax]
    exact Nat.min_eq_left (hmax.trans (Nat.le_of_not_le hlong))

/-- A base delay whose double no duration holds, under the longest maximum. -/
theorem backoff_saturates_of_long :
    let p : Policy := { baseDelay := maxDuration / 2 + 1, maxDelay := maxDuration }
    p.maxDelay ≤ maxDuration ∧ p.maxDelay ≤ p.baseDelay * (2 ^ 32 - 1) ∧
    p.backoff 1 = maxDuration / 2 + 1 ∧ p.backoff 4294967295 = maxDuration ∧
    Monotone p.backoff := by
  intro p
  have hmax : p.maxDelay ≤ maxDuration := Nat.le_refl _
  have hmet : p.maxDelay ≤ p.baseDelay * (2 ^ 32 - 1) := by decide
  obtain ⟨hle, hmono, -, hexact, -⟩ := backoff_saturates p hmax
  have hsecond : p.backoff 2 = maxDuration := by
    rw [hexact 2 (by decide) (.inr hmet)]
    decide
  refine ⟨hmax, hmet, ?_, ?_, hmono⟩
  · rw [hexact 1 (by decide) (.inr hmet)]
    decide
  · have hlast := hmono (show 2 ≤ 4294967295 by decide)
    rw [hsecond] at hlast
    exact Nat.le_antisymm (hle _) hlast

/-! ## Jitter -/

variable {p} {delay : Nat}

theorem jittered_of_plain (h : p.jitter = false ∨ delay = 0) (draw : Nat) :
    p.jittered delay draw = some delay := by
  rw [jittered, if_pos]
  rcases h with h | h <;> simp [h]

/-- There is no choice where half the delay is nothing. -/
theorem jittered_of_lt_two (h : delay < 2) (draw : Nat) : p.jittered delay draw = some delay := by
  have hhalf : delay / 2 = 0 := by omega
  simp only [jittered, hhalf, Nat.zero_min, beq_self_eq_true, if_true]
  split <;> rfl

/-- The delays to choose from are counted, and their number has to fit in 64 bits. -/
theorem jittered_of_two_le (hon : p.jitter = true) (h : 2 ≤ delay) (hdelay : delay ≤ maxDuration)
    (draw : Nat) : p.jittered delay draw =
      if delay / 2 < maxWord then some (delay / 2 + draw % (delay / 2 + 1)) else none := by
  have hzero : (!p.jitter || delay == 0) = false := by
    rw [hon, Bool.not_true, Bool.false_or]
    exact beq_eq_false_iff_ne.2 (by omega)
  have hword : maxWord ≠ 0 := by decide
  rw [jittered, hzero]
  simp only [Bool.false_eq_true, if_false, beq_iff_eq]
  by_cases hfits : delay / 2 < maxWord
  · have hchoice : draw % (delay / 2 + 1) < delay / 2 + 1 := Nat.mod_lt _ (Nat.succ_pos _)
    have hsum : delay / 2 + draw % (delay / 2 + 1) ≤ maxDuration := by omega
    rw [Nat.min_eq_left (Nat.le_of_lt hfits), if_neg (by omega), if_neg (Nat.ne_of_lt hfits),
      if_pos hsum, if_pos hfits]
  · rw [Nat.min_eq_right (Nat.le_of_not_lt hfits), if_neg hword, if_pos rfl, if_neg hfits]

/-- A delay stays between its half and itself if the number of choices fits in 64 bits. -/
theorem jittered_bounds (hdelay : delay ≤ maxDuration) (h : p.jitter = true → delay / 2 < maxWord)
    (draw : Nat) : ∃ d, p.jittered delay draw = some d ∧ delay / 2 ≤ d ∧ d ≤ delay := by
  by_cases hplain : p.jitter = false ∨ delay < 2
  · refine ⟨delay, ?_, Nat.div_le_self _ _, Nat.le_refl _⟩
    rcases hplain with hoff | hshort
    · exact jittered_of_plain (.inl hoff) draw
    · exact jittered_of_lt_two hshort draw
  · rw [not_or, Bool.not_eq_false, Nat.not_lt] at hplain
    have hchoice : draw % (delay / 2 + 1) < delay / 2 + 1 := Nat.mod_lt _ (Nat.succ_pos _)
    rw [jittered_of_two_le hplain.1 hplain.2 hdelay, if_pos (h hplain.1)]
    exact ⟨_, rfl, by omega, by omega⟩

/-- A delay below the limit of 64 bits can be jittered. -/
theorem exists_jittered (p : Policy) {delay : Nat} (h : p.jitter = true → delay < Bits.limit64)
    (draw : Nat) : ∃ d, p.jittered delay draw = some d ∧ delay / 2 ≤ d ∧ d ≤ delay := by
  have hlong : Bits.limit64 ≤ maxDuration := by decide
  rcases hjitter : p.jitter with _ | _
  · exact ⟨delay, jittered_of_plain (.inl hjitter) draw, Nat.div_le_self _ _, Nat.le_refl _⟩
  · have hdelay : delay < Bits.limit64 := h hjitter
    refine jittered_bounds (by omega) (fun _ => ?_) draw
    have : maxWord = Bits.limit64 - 1 := rfl
    have : 2 < Bits.limit64 := by decide
    omega

/-- What jitter makes of a delay that a duration holds. It is left as it is without jitter, and so
is no delay at all. With jitter a draw makes of it a delay between its half and itself, as long as
its half is below the largest number of 64 bits; the draws of 64 bits then yield the half and all
delays up to twice the half, except that a single nanosecond stays. From there on the number of
choices does not fit in 64 bits, whatever the draw. -/
theorem jittered_within_iff (p : Policy) {delay : Nat} (hdelay : delay ≤ maxDuration) :
    (∀ draw, (∃ d, p.jittered delay draw = some d ∧ delay / 2 ≤ d ∧ d ≤ delay) ↔
      (p.jitter = true → delay / 2 < 2 ^ 64 - 1)) ∧
    (∀ draw, p.jittered delay draw = none ↔ p.jitter = true ∧ 2 ^ 64 - 1 ≤ delay / 2) ∧
    (p.jitter = false ∨ delay = 0 → ∀ draw, p.jittered delay draw = some delay) ∧
    (p.jitter = true → 2 ≤ delay → delay / 2 < 2 ^ 64 - 1 → ∀ d,
      (∃ draw < 2 ^ 64, p.jittered delay draw = some d) ↔
        delay / 2 ≤ d ∧ d ≤ delay / 2 + delay / 2) := by
  have hword : maxWord = 2 ^ 64 - 1 := by decide
  have hnone : ∀ draw, p.jittered delay draw = none ↔ p.jitter = true ∧ maxWord ≤ delay / 2 := by
    refine fun draw => ⟨fun h => ?_, fun ⟨hon, hlong⟩ => ?_⟩
    · by_contra hfits
      obtain ⟨d, hd, -⟩ := jittered_bounds hdelay
        (fun hon => Nat.lt_of_not_le fun hlong => hfits ⟨hon, hlong⟩) draw
      rw [h] at hd
      cases hd
    · rw [jittered_of_two_le hon (by omega) hdelay, if_neg (Nat.not_lt.2 hlong)]
  rw [← hword]
  refine ⟨fun draw => ⟨fun ⟨d, hd, _⟩ hon => ?_, fun h => jittered_bounds hdelay h draw⟩, hnone,
    jittered_of_plain, fun hon htwo hfits d => ?_⟩
  · by_contra hlong
    rw [(hnone draw).2 ⟨hon, Nat.le_of_not_lt hlong⟩] at hd
    cases hd
  · simp only [jittered_of_two_le hon htwo hdelay, if_pos hfits, Option.some.injEq]
    constructor
    · rintro ⟨draw, -, rfl⟩
      have hchoice : draw % (delay / 2 + 1) < delay / 2 + 1 := Nat.mod_lt _ (Nat.succ_pos _)
      omega
    · rintro ⟨hle, hge⟩
      refine ⟨d - delay / 2, by omega, ?_⟩
      rw [Nat.mod_eq_of_lt (by omega)]
      omega

/-- The shortest delay whose half is too long, one nanosecond less, and a single nanosecond. -/
theorem jittered_within_iff_of_long :
    let p : Policy := {}
    let delay := 2 * (2 ^ 64 - 1)
    delay ≤ maxDuration ∧ p.jittered delay 7 = none ∧
    (∃ d, p.jittered (delay - 1) 7 = some d ∧ (delay - 1) / 2 ≤ d ∧ d ≤ delay - 1) ∧
    ∃ d, p.jittered 1 7 = some d ∧ 1 / 2 ≤ d ∧ d ≤ 1 := by
  intro p delay
  have hdelay : delay ≤ maxDuration := by decide
  have hshorter : delay - 1 ≤ maxDuration := by decide
  refine ⟨hdelay, ((jittered_within_iff p hdelay).2.1 7).2 ⟨rfl, by decide⟩, ?_, ?_⟩
  · exact ((jittered_within_iff p hshorter).1 7).2 fun _ => by decide
  · exact ((jittered_within_iff p (by decide)).1 7).2 fun _ => by decide

end CodeGraph.Retry.Policy
