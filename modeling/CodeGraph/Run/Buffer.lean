import CodeGraph.Bits
import CodeGraph.Extract.Extraction
import CodeGraph.Graph.Store

/-!
# Buffered writing

Extractions wait in a buffer and reach the store in batches. What was found in one file stays in one
batch, so a batch may grow beyond the threshold. A batch that the store refuses is lost.

What has been written is counted in words of 64 bits, and a count that its word does not hold stops
the program (`Writer.flush?`, `Writer.offer?`). `Writer.flush` and `Writer.offer` count without a
bound.
-/

namespace CodeGraph.Run

structure Buffer where
  /-- The number of symbols, or of relationships, that makes a batch. -/
  threshold : Nat
  pending : Extraction
deriving DecidableEq, Repr

namespace Buffer

/-- The empty buffer. A threshold of zero is as good as one. -/
def new (threshold : Nat) : Buffer := ⟨max threshold 1, .empty⟩

def push (b : Buffer) (e : Extraction) : Buffer := { b with pending := b.pending ++ e }

def isFull (b : Buffer) : Bool :=
  b.threshold ≤ b.pending.symbols.length || b.threshold ≤ b.pending.relationships.length

theorem isFull_eq_false {b : Buffer} : b.isFull = false ↔
    b.pending.symbols.length < b.threshold ∧ b.pending.relationships.length < b.threshold := by
  simp only [isFull, Bool.or_eq_false_iff, decide_eq_false_iff_not, Nat.not_le]

def isEmpty (b : Buffer) : Bool := b.pending.isEmpty

/-- What is pending, and the buffer without it. -/
def take (b : Buffer) : Extraction × Buffer := (b.pending, { b with pending := .empty })

end Buffer

/-- What has been written so far. -/
structure FlushTotals where
  flushes : Nat := 0
  symbols : Nat := 0
  relationships : Nat := 0
  /-- Relationships that lacked an end. -/
  dangling : Nat := 0
deriving DecidableEq, Repr, Inhabited

/-- Counts a batch with so many relationships. -/
def FlushTotals.add (t : FlushTotals) (relationships : Nat) (o : FlushOutcome) : FlushTotals where
  flushes := t.flushes + 1
  symbols := t.symbols + o.symbolsWritten
  relationships := t.relationships + o.relationshipsMerged
  dangling := t.dangling + (relationships - o.relationshipsMerged)

/-- Whether words of 64 bits hold the totals. -/
def FlushTotals.fits (t : FlushTotals) : Bool :=
  t.flushes < Bits.limit64 && t.symbols < Bits.limit64 && t.relationships < Bits.limit64
    && t.dangling < Bits.limit64

theorem FlushTotals.fits_iff {t : FlushTotals} : t.fits = true ↔
    t.flushes < Bits.limit64 ∧ t.symbols < Bits.limit64 ∧ t.relationships < Bits.limit64 ∧
      t.dangling < Bits.limit64 := by
  simp only [fits, Bool.and_eq_true, decide_eq_true_eq, and_assoc]

/-- A buffer in front of a store. -/
structure Writer where
  buffer : Buffer
  totals : FlushTotals := {}
deriving DecidableEq, Repr

namespace Writer

variable {σ : Type}

def new (threshold : Nat) : Writer := ⟨.new threshold, {}⟩

/-- Writes what is pending, if anything is. -/
def flush (store : GraphStore σ) (w : Writer) (s : σ) : Except GraphError Unit × Writer × σ :=
  if w.buffer.isEmpty then (.ok (), w, s)
  else
    let (batch, buffer) := w.buffer.take
    match store.request (.flush batch.symbols batch.relationships) s with
    | (.ok outcome, s) =>
      (.ok (), ⟨buffer, w.totals.add batch.relationships.length outcome⟩, s)
    | (.error e, s) => (.error e, { w with buffer }, s)

/-- Takes what was found in a file, and writes if that fills the buffer. -/
def offer (store : GraphStore σ) (w : Writer) (e : Extraction) (s : σ) :
    Except GraphError Unit × Writer × σ :=
  let w := { w with buffer := w.buffer.push e }
  if w.buffer.isFull then w.flush store s else (.ok (), w, s)

/-- Writes what is pending, if anything is. There is no result if a total grows out of its word,
which stops the program when the batch has been written. -/
def flush? (store : GraphStore σ) (w : Writer) (s : σ) :
    Option (Except GraphError Unit × Writer × σ) :=
  let x := w.flush store s
  if x.2.1.totals.fits then some x else none

/-- Takes what was found in a file, and writes with `flush?` if that fills the buffer. -/
def offer? (store : GraphStore σ) (w : Writer) (e : Extraction) (s : σ) :
    Option (Except GraphError Unit × Writer × σ) :=
  let w := { w with buffer := w.buffer.push e }
  if w.buffer.isFull then w.flush? store s else some (.ok (), w, s)

end Writer

end CodeGraph.Run
