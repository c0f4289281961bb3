import CodeGraph.Proofs.Requests
import Mathlib.Algebra.GroupWithZero.Nat

/-!
# What a writer does with its offers

A writer takes extractions and now and then hands a batch to its store. However the store answers,
the batches and what is pending are the offers in their order, cut between offers, and no batch is
empty. Less than a batch is pending, and the totals count the batches that the store has accepted
(`batches_of_offers`). One order keeps all this (`Conserves.carryOut`), and so do orders in a row.

A store may answer with any counts, so a total may grow out of its word, where the program stops.
That comes to pass exactly if the counts do not fit when they are added up without a bound
(`carryOutAll?_eq`).
-/

namespace CodeGraph

namespace Extraction

/-- Extractions one after the other. -/
def concat (l : List Extraction) : Extraction := l.foldr (· ++ ·) empty

theorem concat_append : ∀ l m : List Extraction, concat (l ++ m) = concat l ++ concat m
  | [], _ => rfl
  | e :: l, m => (congrArg (e ++ ·) (concat_append l m)).trans (append_assoc e _ _).symm

theorem concat_singleton (e : Extraction) : concat [e] = e := append_empty e

end Extraction

/-- A request to a store and the reply to it. -/
structure Exchange where
  call : StoreCall
  reply : Except GraphError call.Reply

namespace Exchange

def isAccepted (x : Exchange) : Bool := x.reply.isOk

/-- The symbols that an accepted batch has written. -/
def symbolsWritten : Exchange → Nat
  | ⟨.flush _ _, .ok outcome⟩ => FlushOutcome.symbolsWritten outcome
  | _ => 0

/-- The relationships that an accepted batch has merged. -/
def relationshipsMerged : Exchange → Nat
  | ⟨.flush _ _, .ok outcome⟩ => FlushOutcome.relationshipsMerged outcome
  | _ => 0

/-- The relationships of an accepted batch that have not been merged. -/
def dangling : Exchange → Nat
  | ⟨.flush _ relationships, .ok outcome⟩ =>
    relationships.length - FlushOutcome.relationshipsMerged outcome
  | _ => 0

/-- What the exchanges add up to. -/
def tally (l : List Exchange) : Run.FlushTotals where
  flushes := (l.filter (·.isAccepted)).length
  symbols := (l.map (·.symbolsWritten)).sum
  relationships := (l.map (·.relationshipsMerged)).sum
  dangling := (l.map (·.dangling)).sum

theorem tally_reverse (l : List Exchange) : tally l.reverse = tally l := by
  simp [tally, List.filter_reverse, List.map_reverse]

end Exchange

/-- The store that keeps its exchanges besides, the latest first. -/
def GraphStore.recorded {σ : Type} (store : GraphStore σ) : GraphStore (σ × List Exchange) where
  request c := fun (s, log) =>
    let (r, s) := store.request c s
    (r, s, ⟨c, r⟩ :: log)

theorem GraphStore.recorded_request {σ : Type} (store : GraphStore σ) (c : StoreCall) (s : σ)
    (log : List Exchange) : store.recorded.request c (s, log) =
      ((store.request c s).1, (store.request c s).2, ⟨c, (store.request c s).1⟩ :: log) := rfl

namespace Run

open Exchange (tally)
open Extraction (concat)

variable {σ : Type}

/-- The request that writes a batch of extractions. -/
def batchCall (l : List Extraction) : StoreCall :=
  .flush (concat l).symbols (concat l).relationships

theorem written_map_batchCall : ∀ batches : List (List Extraction),
    written (batches.map batchCall) = concat batches.flatten
  | [] => rfl
  | b :: batches => by
    rw [List.map_cons, written, written_map_batchCall, List.flatten_cons, Extraction.concat_append]
    rfl

namespace Writer

/-- What a writer may be told. -/
inductive Order where
  | offer (e : Extraction)
  | flush

/-- What the order offers, if it is an offer. -/
def Order.offers : Order → List Extraction
  | offer e => [e]
  | flush => []

def carryOut (store : GraphStore σ) (o : Order) (w : Writer) (s : σ) :
    Except GraphError Unit × Writer × σ :=
  match o with
  | .offer e => w.offer store e s
  | .flush => w.flush store s

/-- What is left when the orders have been carried out in turn, whatever has come of each. -/
def carryOutAll (store : GraphStore σ) : List Order → Writer × σ → Writer × σ
  | [], x => x
  | o :: orders, x => carryOutAll store orders (carryOut store o x.1 x.2).2

/-- Carries out an order with totals in words. -/
def carryOut? (store : GraphStore σ) (o : Order) (w : Writer) (s : σ) :
    Option (Except GraphError Unit × Writer × σ) :=
  match o with
  | .offer e => w.offer? store e s
  | .flush => w.flush? store s

/-- What is left when the orders have been carried out in turn with totals in words, unless that
stops the program. -/
def carryOutAll? (store : GraphStore σ) : List Order → Writer × σ → Option (Writer × σ)
  | [], x => some x
  | o :: orders, x => (carryOut? store o x.1 x.2).bind fun y => carryOutAll? store orders y.2

section Recorded

variable (store : GraphStore σ) (w : Writer) (s : σ) (log : List Exchange)

/-- The writer after a batch has been handed over and answered. -/
def afterReply (w : Writer) (r : Except GraphError FlushOutcome) : Writer where
  buffer := w.buffer.take.2
  totals := match r with
    | .ok outcome => w.totals.add w.buffer.pending.relationships.length outcome
    | .error _ => w.totals

theorem flush_of_isEmpty (h : w.buffer.isEmpty = true) : w.flush store s = (.ok (), w, s) := by
  simp [flush, h]

theorem flush_recorded (h : w.buffer.isEmpty = false) : ∃ (r : Except GraphError FlushOutcome)
    (s' : σ), w.flush store s = (r.map fun _ => (), w.afterReply r, s') ∧
      w.flush store.recorded (s, log) = (r.map fun _ => (), w.afterReply r, s',
        ⟨.flush w.buffer.pending.symbols w.buffer.pending.relationships, r⟩ :: log) := by
  simp only [flush, h, Bool.false_eq_true, if_false, Buffer.take, store.recorded_request]
  rcases store.request (.flush w.buffer.pending.symbols w.buffer.pending.relationships) s with
    ⟨e | outcome, s'⟩
  · exact ⟨.error e, s', rfl, rfl⟩
  · exact ⟨.ok outcome, s', rfl, rfl⟩

end Recorded

/-- A writer that has been offered these extractions, with the exchanges made since, the latest
first. -/
structure Conserves (n : Nat) (offers : List Extraction) (w : Writer) (log : List Exchange) :
    Prop where
  threshold : w.buffer.threshold = max n 1
  symbols_lt : w.buffer.pending.symbols.length < max n 1
  relationships_lt : w.buffer.pending.relationships.length < max n 1
  grouped : ∃ (batches : List (List Extraction)) (waiting : List Extraction),
    offers = batches.flatten ++ waiting ∧ log.reverse.map (·.call) = batches.map batchCall ∧
      w.buffer.pending = concat waiting ∧ ∀ b ∈ batches, (concat b).isEmpty = false
  totals : w.totals = tally log

namespace Conserves

variable {n : Nat} {offers : List Extraction} {w : Writer} {log : List Exchange}

theorem new (n : Nat) : Conserves n [] (.new n) [] where
  threshold := rfl
  symbols_lt := by
    show 0 < max n 1
    omega
  relationships_lt := by
    show 0 < max n 1
    omega
  grouped := ⟨[], [], rfl, rfl, rfl, by simp⟩
  totals := rfl

/-- A batch is handed over, be it that less is pending than the threshold or not. -/
theorem afterReply {waiting : List Extraction} {batches : List (List Extraction)}
    (htotals : w.totals = tally log) (hthreshold : w.buffer.threshold = max n 1)
    (hoffers : offers = batches.flatten ++ waiting)
    (hcalls : log.reverse.map (·.call) = batches.map batchCall)
    (hpending : w.buffer.pending = concat waiting)
    (hfull : ∀ b ∈ batches, (concat b).isEmpty = false) (hempty : w.buffer.isEmpty = false)
    (r : Except GraphError FlushOutcome) :
    Conserves n offers (w.afterReply r)
      (⟨.flush w.buffer.pending.symbols w.buffer.pending.relationships, r⟩ :: log) where
  threshold := hthreshold
  symbols_lt := by
    show 0 < max n 1
    omega
  relationships_lt := by
    show 0 < max n 1
    omega
  grouped := by
    refine ⟨batches ++ [waiting], [], by simp [hoffers], ?_, rfl, fun b hb => ?_⟩
    · simp [hcalls, hpending, batchCall]
    · rcases List.mem_append.1 hb with hb | hb
      · exact hfull b hb
      · rw [List.mem_singleton.1 hb, ← hpending]
        exact hempty
  totals := by
    cases r <;> simp [Writer.afterReply, htotals, tally, FlushTotals.add, Exchange.isAccepted,
      Exchange.symbolsWritten, Exchange.relationshipsMerged, Exchange.dangling, Except.isOk,
      Except.toBool, Nat.add_comm]

theorem flush (h : Conserves n offers w log) (store : GraphStore σ) (s : σ) :
    let x := w.flush store.recorded (s, log)
    Conserves n offers x.2.1 x.2.2.2 := by
  rcases hempty : w.buffer.isEmpty with _ | _
  · obtain ⟨r, s', -, hflush⟩ := flush_recorded store w s log hempty
    obtain ⟨batches, waiting, hoffers, hcalls, hpending, hfull⟩ := h.grouped
    rw [hflush]
    exact afterReply h.totals h.threshold hoffers hcalls hpending hfull hempty r
  · rw [flush_of_isEmpty _ _ _ hempty]
    exact h

theorem offer (h : Conserves n offers w log) (store : GraphStore σ) (e : Extraction)
    (s : σ) :
    let x := w.offer store.recorded e (s, log)
    Conserves n (offers ++ [e]) x.2.1 x.2.2.2 := by
  obtain ⟨batches, waiting, hoffers, hcalls, hpending, hfull⟩ := h.grouped
  have hthreshold := h.threshold
  have hoffers' : offers ++ [e] = batches.flatten ++ (waiting ++ [e]) := by
    rw [hoffers, List.append_assoc]
  have hpending' : (w.buffer.push e).pending = concat (waiting ++ [e]) := by
    rw [Extraction.concat_append, Extraction.concat_singleton, ← hpending]
    rfl
  rcases hpush : (w.buffer.push e).isFull with _ | _
  · simp only [Writer.offer, hpush, Bool.false_eq_true, if_false]
    have hmax : (w.buffer.push e).threshold = max n 1 := hthreshold
    rw [Buffer.isFull_eq_false, hmax] at hpush
    exact ⟨hthreshold, hpush.1, hpush.2, ⟨batches, waiting ++ [e], hoffers', hcalls, hpending',
      hfull⟩, h.totals⟩
  · -- A full buffer is not empty, since its threshold is not zero.
    have hempty : (w.buffer.push e).isEmpty = false := by
      rcases hempty : (w.buffer.push e).isEmpty with _ | _
      · rfl
      · have hmax : (w.buffer.push e).threshold = max n 1 := hthreshold
        simp only [Buffer.isEmpty, Extraction.isEmpty, Bool.and_eq_true, List.isEmpty_iff] at hempty
        simp only [Buffer.isFull, hempty, hmax, List.length_nil, Nat.le_zero_eq, Bool.or_self,
          decide_eq_true_eq] at hpush
        omega
    simp only [Writer.offer, hpush, if_true]
    obtain ⟨r, s', -, hflush⟩ :=
      flush_recorded store { w with buffer := w.buffer.push e } s log hempty
    rw [hflush]
    exact afterReply (w := { w with buffer := w.buffer.push e }) h.totals hthreshold hoffers'
      hcalls hpending' hfull hempty r

/-- What one order preserves. -/
theorem carryOut (h : Conserves n offers w log) (store : GraphStore σ) (o : Order) (s : σ) :
    let x := Writer.carryOut store.recorded o w (s, log)
    Conserves n (offers ++ o.offers) x.2.1 x.2.2.2 := by
  cases o with
  | offer e => exact h.offer store e s
  | flush =>
    rw [Order.offers, List.append_nil]
    exact h.flush store s

/-- What orders in a row preserve. -/
theorem carryOutAll (store : GraphStore σ) : ∀ (orders : List Order) {offers : List Extraction}
    {w : Writer} {log : List Exchange} (s : σ), Conserves n offers w log →
      let x := Writer.carryOutAll store.recorded orders (w, s, log)
      Conserves n (offers ++ orders.flatMap Order.offers) x.1 x.2.2
  | [], offers, w, log, s, h => by
    rw [List.flatMap_nil, List.append_nil]
    exact h
  | o :: orders, offers, w, log, s, h => by
    rw [List.flatMap_cons, ← List.append_assoc]
    exact carryOutAll store orders _ (h.carryOut store o s)

end Conserves

/-- An order has what is then pending written, or nothing. -/
theorem carryOut_cases (o : Order) (w : Writer) : ∃ w' : Writer, w'.totals = w.totals ∧
    ((∀ {σ : Type} (store : GraphStore σ) (s : σ), carryOut store o w s = w'.flush store s ∧
        carryOut? store o w s = w'.flush? store s) ∨
      ∀ {σ : Type} (store : GraphStore σ) (s : σ), carryOut store o w s = (.ok (), w', s) ∧
        carryOut? store o w s = some (.ok (), w', s)) := by
  cases o with
  | offer e =>
    refine ⟨{ w with buffer := w.buffer.push e }, rfl, ?_⟩
    by_cases hfull : (w.buffer.push e).isFull = true
    · refine .inl fun store s => ⟨?_, ?_⟩
      · simp only [carryOut, offer, if_pos hfull]
      · simp only [carryOut?, offer?, if_pos hfull]
    · refine .inr fun store s => ⟨?_, ?_⟩
      · simp only [carryOut, offer, if_neg hfull]
      · simp only [carryOut?, offer?, if_neg hfull]
  | flush => exact ⟨w, rfl, .inl fun _ _ => ⟨rfl, rfl⟩⟩

theorem totals_of_error {store : GraphStore σ} {o : Order} {w : Writer} {s : σ} {e : GraphError}
    (h : (carryOut store o w s).1 = .error e) : (carryOut store o w s).2.1.totals = w.totals := by
  obtain ⟨w', htotals, hw' | hw'⟩ := carryOut_cases o w
  · rw [(hw' store s).1] at h ⊢
    rw [← htotals]
    rcases hempty : w'.buffer.isEmpty with _ | _
    · obtain ⟨r, s', hflush, -⟩ := flush_recorded store w' s [] hempty
      rw [hflush] at h ⊢
      cases r with
      | error e => rfl
      | ok outcome => cases h
    · rw [flush_of_isEmpty _ _ _ hempty]
  · rw [(hw' store s).1] at h
    cases h

/-- To keep the exchanges changes nothing else. -/
theorem carryOut_recorded (store : GraphStore σ) (o : Order) (w : Writer) (s : σ)
    (log : List Exchange) : ∃ log', carryOut store.recorded o w (s, log) =
      ((carryOut store o w s).1, (carryOut store o w s).2.1, (carryOut store o w s).2.2, log') := by
  obtain ⟨w', -, hw' | hw'⟩ := carryOut_cases o w
  · rw [(hw' store s).1, (hw' store.recorded (s, log)).1]
    rcases hempty : w'.buffer.isEmpty with _ | _
    · obtain ⟨r, s', hplain, hrecorded⟩ := flush_recorded store w' s log hempty
      exact ⟨_, by rw [hplain, hrecorded]⟩
    · exact ⟨log, by rw [flush_of_isEmpty _ _ _ hempty, flush_of_isEmpty _ _ _ hempty]⟩
  · exact ⟨log, by rw [(hw' store s).1, (hw' store.recorded (s, log)).1]⟩

theorem carryOutAll_recorded (store : GraphStore σ) : ∀ (orders : List Order) (w : Writer) (s : σ)
    (log : List Exchange), ∃ log', carryOutAll store.recorded orders (w, s, log) =
      ((carryOutAll store orders (w, s)).1, (carryOutAll store orders (w, s)).2, log')
  | [], _, _, log => ⟨log, rfl⟩
  | o :: orders, w, s, log => by
    obtain ⟨log', h⟩ := carryOut_recorded store o w s log
    rw [carryOutAll, carryOutAll, h]
    exact carryOutAll_recorded store orders _ _ log'

/-! ## Totals in words -/

/-- Totals that fit did so before a batch was counted. -/
theorem fits_of_afterReply {w : Writer} {r : Except GraphError FlushOutcome}
    (h : (w.afterReply r).totals.fits = true) : w.totals.fits = true := by
  cases r with
  | error e => exact h
  | ok outcome =>
    simp only [FlushTotals.fits_iff, afterReply, FlushTotals.add] at h ⊢
    omega

theorem fits_of_carryOut {store : GraphStore σ} {o : Order} {w : Writer} {s : σ}
    (h : (carryOut store o w s).2.1.totals.fits = true) : w.totals.fits = true := by
  obtain ⟨w', htotals, hw' | hw'⟩ := carryOut_cases o w <;> rw [(hw' store s).1] at h <;>
    rw [← htotals]
  · rcases hempty : w'.buffer.isEmpty with _ | _
    · obtain ⟨r, s', hflush, -⟩ := flush_recorded store w' s [] hempty
      rw [hflush] at h
      exact fits_of_afterReply h
    · rwa [flush_of_isEmpty _ _ _ hempty] at h
  · exact h

theorem fits_of_carryOutAll {store : GraphStore σ} : ∀ {orders : List Order} {w : Writer} {s : σ},
    (carryOutAll store orders (w, s)).1.totals.fits = true → w.totals.fits = true
  | [], _, _, h => h
  | _ :: _, _, _, h => fits_of_carryOut (fits_of_carryOutAll h)

/-- Words count like numbers as long as they hold the totals. -/
theorem carryOut?_eq (store : GraphStore σ) (o : Order) {w : Writer} (s : σ)
    (hw : w.totals.fits = true) : carryOut? store o w s =
      if (carryOut store o w s).2.1.totals.fits then some (carryOut store o w s) else none := by
  obtain ⟨w', htotals, hw' | hw'⟩ := carryOut_cases o w <;>
    rw [(hw' store s).1, (hw' store s).2]
  · rfl
  · rw [if_pos (htotals ▸ hw)]

theorem carryOutAll?_eq (store : GraphStore σ) : ∀ (orders : List Order) {w : Writer} (s : σ),
    w.totals.fits = true → carryOutAll? store orders (w, s) =
      if (carryOutAll store orders (w, s)).1.totals.fits then some (carryOutAll store orders (w, s))
      else none
  | [], w, s, hw => (if_pos hw).symm
  | o :: orders, w, s, hw => by
    rw [carryOutAll?, carryOut?_eq store o s hw, carryOutAll]
    rcases hnext : (carryOut store o w s).2.1.totals.fits with _ | _
    · -- Later orders do not bring a total back into its word.
      have hlast : ¬ (carryOutAll store orders (carryOut store o w s).2).1.totals.fits = true := by
        intro h
        rw [fits_of_carryOutAll h] at hnext
        cases hnext
      rw [if_neg hlast]
      rfl
    · exact carryOutAll?_eq store orders _ hnext

theorem fits_of_carryOutAll? {store : GraphStore σ} {orders : List Order} {w : Writer} {s : σ}
    {x : Writer × σ} (hw : w.totals.fits = true) (h : carryOutAll? store orders (w, s) = some x) :
    x = carryOutAll store orders (w, s) ∧ x.1.totals.fits = true := by
  rw [carryOutAll?_eq store orders s hw, Option.ite_none_right_eq_some] at h
  obtain ⟨hfits, hx⟩ := h
  obtain rfl := Option.some.inj hx
  exact ⟨rfl, hfits⟩

theorem eq_of_carryOut? {store : GraphStore σ} {o : Order} {w : Writer} {s : σ}
    {y : Except GraphError Unit × Writer × σ} (hw : w.totals.fits = true)
    (h : carryOut? store o w s = some y) : y = carryOut store o w s := by
  rw [carryOut?_eq store o s hw, Option.ite_none_right_eq_some] at h
  exact (Option.some.inj h.2).symm

/-- The program stops at one of the orders, behind those that it has carried out. -/
theorem carryOutAll?_eq_none_iff (store : GraphStore σ) : ∀ (orders : List Order) (x : Writer × σ),
    carryOutAll? store orders x = none ↔ ∃ l o l' y, orders = l ++ o :: l' ∧
      carryOutAll? store l x = some y ∧ carryOut? store o y.1 y.2 = none
  | [], x => by simp [carryOutAll?]
  | o :: orders, x => by
    rw [carryOutAll?]
    rcases ho : carryOut? store o x.1 x.2 with _ | y
    · exact iff_of_true rfl ⟨[], o, orders, x, rfl, rfl, ho⟩
    · rw [Option.bind_some, carryOutAll?_eq_none_iff store orders y.2]
      constructor
      · rintro ⟨l, o', l', z, rfl, hl, hz⟩
        exact ⟨o :: l, o', l', z, rfl, by rw [carryOutAll?, ho, Option.bind_some, hl], hz⟩
      · rintro ⟨l, o', l', z, horders, hl, hz⟩
        cases l with
        | nil =>
          obtain ⟨rfl, rfl⟩ := List.cons.inj horders
          obtain rfl := Option.some.inj hl
          rw [ho] at hz
          cases hz
        | cons o'' l =>
          obtain ⟨rfl, rfl⟩ := List.cons.inj horders
          rw [carryOutAll?, ho, Option.bind_some] at hl
          exact ⟨l, o', l', z, rfl, hl, hz⟩

/-- The program stops at an order if the exchanges up to its own add up to more than words hold. -/
theorem carryOut?_eq_none_iff {store : GraphStore σ} {n : Nat} {offers : List Extraction}
    {w : Writer} {s : σ} {log : List Exchange} (h : Conserves n offers w log)
    (hw : w.totals.fits = true) (o : Order) : carryOut? store.recorded o w (s, log) = none ↔
      (tally (carryOut store.recorded o w (s, log)).2.2.2).fits = false := by
  rw [carryOut?_eq _ o _ hw, (h.carryOut store o s).totals]
  simp

/-- What a writer has done with its offers after any orders to it, whatever its store replies.
Whole offers make up the batches and what is pending, in their order, and no batch is empty. After
an offer that succeeds, less than a batch is pending. The totals are what the accepted batches add
up to, and an order that fails leaves them as they are. All this is so unless the program stops,
and it stops exactly at an order with which they add up to more than words of 64 bits hold. To keep
the exchanges changes nothing else. -/
theorem batches_of_offers (store : GraphStore σ) (threshold : Nat) (orders : List Order) (s : σ) :
    let offers := orders.flatMap Order.offers
    (∀ x, carryOutAll? store.recorded orders (.new threshold, s, []) = some x →
      let exchanges := x.2.2.reverse
      (∃ (batches : List (List Extraction)) (waiting : List Extraction),
        offers = batches.flatten ++ waiting ∧ exchanges.map (·.call) = batches.map batchCall ∧
          x.1.buffer.pending = concat waiting) ∧
      written (exchanges.map (·.call)) ++ x.1.buffer.pending = concat offers ∧
      (∀ y ∈ exchanges, y.call.batch.isEmpty = false) ∧
      (∀ e y, x.1.offer? store.recorded e x.2 = some y → y.1 = .ok () →
        y.2.1.buffer.pending.symbols.length < max threshold 1 ∧
          y.2.1.buffer.pending.relationships.length < max threshold 1) ∧
      x.1.totals.flushes = (exchanges.filter (·.isAccepted)).length ∧
      x.1.totals.symbols = (exchanges.map (·.symbolsWritten)).sum ∧
      x.1.totals = tally exchanges ∧
      ∀ o y e, carryOut? store.recorded o x.1 x.2 = some y → y.1 = .error e →
        y.2.1.totals = x.1.totals) ∧
    (carryOutAll? store.recorded orders (.new threshold, s, []) = none ↔
      ∃ l o l' x, orders = l ++ o :: l' ∧
        carryOutAll? store.recorded l (.new threshold, s, []) = some x ∧
        (tally (carryOut store.recorded o x.1 x.2).2.2.2).fits = false) ∧
    carryOutAll? store orders (.new threshold, s) =
      (carryOutAll? store.recorded orders (.new threshold, s, [])).map fun x => (x.1, x.2.1) := by
  intro offers
  have hnew : (Writer.new threshold).totals.fits = true := rfl
  have hall (l : List Order) : Conserves threshold (l.flatMap Order.offers) _ _ :=
    Conserves.carryOutAll store l s (.new threshold)
  refine ⟨fun x hx => ?_, ?_, ?_⟩
  · have h : Conserves threshold offers _ _ := hall orders
    obtain ⟨hsame, hfits⟩ := fits_of_carryOutAll? hnew hx
    rw [← hsame] at h
    intro exchanges
    obtain ⟨batches, waiting, hoffers, hcalls, hpending, hfull⟩ := h.grouped
    have htotals : x.1.totals = tally exchanges := by rw [h.totals, Exchange.tally_reverse]
    refine ⟨⟨batches, waiting, hoffers, hcalls, hpending⟩, ?_, ?_, fun e y hy _ => ?_, ?_, ?_,
      htotals, fun o y e hy => ?_⟩
    · rw [hcalls, hpending, written_map_batchCall, hoffers, Extraction.concat_append]
    · intro y hy
      have hmem : y.call ∈ batches.map batchCall := hcalls ▸ List.mem_map_of_mem hy
      obtain ⟨b, hb, hcall⟩ := List.mem_map.1 hmem
      rw [← hcall]
      exact hfull b hb
    · obtain rfl := eq_of_carryOut? (o := .offer e) hfits hy
      have hnext := h.offer store e x.2.1
      exact ⟨hnext.symbols_lt, hnext.relationships_lt⟩
    · rw [htotals, tally]
    · rw [htotals, tally]
    · obtain rfl := eq_of_carryOut? hfits hy
      exact totals_of_error
  · rw [carryOutAll?_eq_none_iff]
    refine exists₄_congr fun l o l' x => and_congr_right fun _ => and_congr_right fun hx => ?_
    obtain ⟨rfl, hfits⟩ := fits_of_carryOutAll? hnew hx
    exact carryOut?_eq_none_iff (hall l) hfits o
  · obtain ⟨log, hplain⟩ := carryOutAll_recorded store orders (.new threshold) s []
    rw [carryOutAll?_eq store orders s hnew, carryOutAll?_eq store.recorded orders _ hnew, hplain]
    split <;> rfl

/-- A store that says of each batch that it has merged `2 ^ 63 - 1` relationships stops the program
with the third. -/
theorem stops_of_counts :
    let store : GraphStore Unit :=
      { request c s := (match c with
          | .flush _ _ => .ok ⟨0, 2 ^ 63 - 1⟩
          | _ => .error .unknownVersion, s) }
    let e : Extraction := ⟨[], [⟨"r:a.json", "r:a.json:JsonProperty:x", .contains⟩]⟩
    let x := carryOutAll? store.recorded [.offer e, .offer e] (.new 1, (), [])
    (x.map fun x => (x.1.totals.flushes, x.1.totals.relationships)) = some (2, 2 ^ 64 - 2) ∧
      carryOutAll? store.recorded [.offer e, .offer e, .offer e] (.new 1, (), []) = none := by
  intro store e x
  exact ⟨by decide +kernel, Option.isNone_iff_eq_none.1 (by decide +kernel)⟩

end Writer

end Run

end CodeGraph
