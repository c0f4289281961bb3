import CodeGraph.Run.Buffer

/-!
# Requests in a row

A store that is given a list of requests gets them one after the other, up to the first that fails.
`serve` says what comes of it, and `served` which requests the store has got by then. A store that
keeps its requests has kept exactly those (`serve_logged`).
-/

namespace CodeGraph

/-- Counts the reply to a request. Only batches count. -/
def Run.FlushTotals.count (t : Run.FlushTotals) : (c : StoreCall) → c.Reply → Run.FlushTotals
  | .flush _ relationships, outcome => t.add relationships.length outcome
  | _, _ => t

namespace Extraction

theorem append_empty (e : Extraction) : e ++ empty = e := by
  obtain ⟨symbols, relationships⟩ := e
  show Extraction.mk (symbols ++ []) (relationships ++ []) = _
  rw [List.append_nil, List.append_nil]

theorem append_assoc (c d e : Extraction) : c ++ d ++ e = c ++ (d ++ e) := by
  show Extraction.mk (_ ++ _ ++ _) (_ ++ _ ++ _) = Extraction.mk _ _
  rw [List.append_assoc, List.append_assoc]
  rfl

end Extraction

namespace StoreCall

/-- What a batch holds. -/
def batch : StoreCall → Extraction
  | flush symbols relationships => ⟨symbols, relationships⟩
  | _ => .empty

/-- The file that is written. -/
def file? : StoreCall → Option FileNode
  | upsertFile _ f => some f
  | _ => none

/-- The key of the file whose symbols are deleted. -/
def deletedKey? : StoreCall → Option String
  | deletePriorSymbols key => some key
  | _ => none

/-- Whether the request is for a batch. -/
def isFlush : StoreCall → Bool
  | flush _ _ => true
  | _ => false

theorem deletedKey?_eq_some {c : StoreCall} {key : String} :
    c.deletedKey? = some key ↔ c = .deletePriorSymbols key := by
  cases c <;> simp only [deletedKey?, Option.some.injEq, reduceCtorEq, deletePriorSymbols.injEq]

end StoreCall

/-- What is written by the requests, in its order. -/
def written : List StoreCall → Extraction
  | [] => .empty
  | c :: l => c.batch ++ written l

theorem written_append : ∀ l m : List StoreCall, written (l ++ m) = written l ++ written m
  | [], _ => rfl
  | c :: l, m => by
    rw [List.cons_append, written, written_append l, written, Extraction.append_assoc]

theorem mem_written_symbols {x : Symbol} : ∀ {l : List StoreCall},
    x ∈ (written l).symbols ↔ ∃ c ∈ l, x ∈ c.batch.symbols
  | [] => by simp only [written, Extraction.empty, List.not_mem_nil, false_and, exists_false]
  | c :: l => by
    rw [written, Extraction.symbols_append, List.mem_append, mem_written_symbols]
    simp only [List.mem_cons, exists_eq_or_imp]

theorem mem_written_relationships {r : Relationship} : ∀ {l : List StoreCall},
    r ∈ (written l).relationships ↔ ∃ c ∈ l, r ∈ c.batch.relationships
  | [] => by simp only [written, Extraction.empty, List.not_mem_nil, false_and, exists_false]
  | c :: l => by
    rw [written, Extraction.relationships_append, List.mem_append, mem_written_relationships]
    simp only [List.mem_cons, exists_eq_or_imp]

theorem flush_of_mem_written_symbols {x : Symbol} {l : List StoreCall}
    (h : x ∈ (written l).symbols) : ∃ l₁ symbols relationships l₂,
      l = l₁ ++ .flush symbols relationships :: l₂ ∧ x ∈ symbols := by
  obtain ⟨c, hc, hx⟩ := mem_written_symbols.1 h
  obtain ⟨l₁, l₂, rfl⟩ := List.append_of_mem hc
  cases c with
  | flush symbols relationships => exact ⟨l₁, symbols, relationships, l₂, rfl, hx⟩
  | _ => exact absurd hx List.not_mem_nil

theorem flush_of_mem_written_relationships {r : Relationship} {l : List StoreCall}
    (h : r ∈ (written l).relationships) : ∃ l₁ symbols relationships l₂,
      l = l₁ ++ .flush symbols relationships :: l₂ ∧ r ∈ relationships := by
  obtain ⟨c, hc, hr⟩ := mem_written_relationships.1 h
  obtain ⟨l₁, l₂, rfl⟩ := List.append_of_mem hc
  cases c with
  | flush symbols relationships => exact ⟨l₁, symbols, relationships, l₂, rfl, hr⟩
  | _ => exact absurd hr List.not_mem_nil

/-- The keys of the files whose symbols are deleted, in their order. -/
def deletedKeys (l : List StoreCall) : List String := l.filterMap StoreCall.deletedKey?

theorem mem_deletedKeys {l : List StoreCall} {key : String} :
    key ∈ deletedKeys l ↔ .deletePriorSymbols key ∈ l := by
  simp only [deletedKeys, List.mem_filterMap, StoreCall.deletedKey?_eq_some, exists_eq_right]

theorem deletedKeys_append (l m : List StoreCall) :
    deletedKeys (l ++ m) = deletedKeys l ++ deletedKeys m := List.filterMap_append

namespace GraphStore

open Run (FlushTotals)

variable {σ : Type} (store : GraphStore σ)

/-- Makes the requests until one fails, and counts the batches. -/
def serve : List StoreCall → FlushTotals → σ → Except GraphError Unit × FlushTotals × σ
  | [], t, g => (.ok (), t, g)
  | c :: l, t, g =>
    match store.request c g with
    | (.ok r, g) => serve l (t.count c r) g
    | (.error e, g) => (.error e, t, g)

/-- The requests that are made then: all of them, or those up to the first that fails. -/
def served : List StoreCall → σ → List StoreCall
  | [], _ => []
  | c :: l, g =>
    match store.request c g with
    | (.ok _, g) => c :: served l g
    | (.error _, _) => [c]

theorem serve_append (l m : List StoreCall) (t : FlushTotals) (g : σ) :
    store.serve (l ++ m) t g = match store.serve l t g with
      | (.ok (), t, g) => store.serve m t g
      | (.error e, t, g) => (.error e, t, g) := by
  induction l generalizing t g with
  | nil => rfl
  | cons c l ih =>
    simp only [List.cons_append, serve]
    rcases store.request c g with ⟨e | r, g'⟩
    · rfl
    · exact ih _ g'

/-- What every request that is accepted carries on is carried through to the end. -/
theorem serve_preserves {I : List StoreCall → FlushTotals → σ → Prop}
    (hstep : ∀ {c l t g r g'}, store.request c g = (.ok r, g') → I (c :: l) t g →
      I l (t.count c r) g') {t' : FlushTotals} {g' : σ} :
    ∀ {l : List StoreCall} {t : FlushTotals} {g : σ},
      store.serve l t g = (.ok (), t', g') → I l t g → I [] t' g'
  | [], _, _, h, hI => by
    obtain ⟨rfl, rfl⟩ := Prod.mk.inj (Prod.mk.inj h).2
    exact hI
  | c :: l, t, g, h, hI => by
    simp only [serve] at h
    rcases hc : store.request c g with ⟨x | r, g₁⟩ <;> simp only [hc] at h
    · cases (Prod.mk.inj h).1
    · exact serve_preserves hstep h (hstep hc hI)

theorem serve_flushes {l : List StoreCall} {t t' : FlushTotals} {g g' : σ}
    (h : store.serve l t g = (.ok (), t', g')) :
    t'.flushes = t.flushes + l.countP StoreCall.isFlush := by
  refine store.serve_preserves
    (I := fun m u _ => u.flushes + m.countP StoreCall.isFlush = _) (fun {c m u g r g'} _ hI => ?_)
    h rfl
  rw [← hI, List.countP_cons]
  cases c with
  | flush symbols relationships =>
    show u.flushes + 1 + _ = u.flushes + (_ + 1)
    omega
  | _ => rfl

theorem served_isPrefix (l : List StoreCall) (g : σ) : store.served l g <+: l := by
  induction l generalizing g with
  | nil => exact List.prefix_refl _
  | cons c l ih =>
    simp only [served]
    rcases store.request c g with ⟨e | r, g'⟩
    · exact ⟨l, rfl⟩
    · exact List.prefix_cons_inj c |>.2 (ih g')

theorem served_of_serve {t' : FlushTotals} {g' : σ} : ∀ {l : List StoreCall} {t : FlushTotals}
    {g : σ}, store.serve l t g = (.ok (), t', g') → store.served l g = l
  | [], _, _, _ => rfl
  | c :: l, t, g, h => by
    simp only [serve] at h
    rw [served]
    rcases hc : store.request c g with ⟨x | r, g₁⟩ <;> simp only [hc] at h ⊢
    · cases (Prod.mk.inj h).1
    · rw [served_of_serve h]

theorem served_serverVersion {g g' : σ} (h : store.verifyVersion g = (.ok (), g'))
    (l : List StoreCall) :
    store.served (.serverVersion :: l) g = .serverVersion :: store.served l g' := by
  simp only [verifyVersion] at h
  rw [served]
  rcases hc : store.request .serverVersion g with ⟨x | version, g₁⟩ <;> simp only [hc] at h ⊢
  · cases (Prod.mk.inj h).1
  · rw [(Prod.mk.inj h).2]

/-- Requests end at the first that fails. -/
theorem serve_error {x : GraphError} {t' : FlushTotals} {g' : σ} :
    ∀ {l : List StoreCall} {t : FlushTotals} {g : σ}, store.serve l t g = (.error x, t', g') →
      ∃ l₁ c l₂ g₁, l = l₁ ++ c :: l₂ ∧ store.serve l₁ t g = (.ok (), t', g₁) ∧
        store.request c g₁ = (.error x, g') ∧ store.served l g = l₁ ++ [c]
  | [], _, _, h => by cases (Prod.mk.inj h).1
  | c :: l, t, g, h => by
    simp only [serve] at h
    rcases hc : store.request c g with ⟨y | r, g₁⟩ <;> simp only [hc] at h
    · obtain ⟨h, h'⟩ := Prod.mk.inj h
      obtain rfl := Except.error.inj h
      obtain ⟨rfl, rfl⟩ := Prod.mk.inj h'
      exact ⟨[], c, l, g, rfl, rfl, hc, by simp only [served, hc, List.nil_append]⟩
    · obtain ⟨l₁, d, l₂, g₂, rfl, hserve, hd, hserved⟩ := serve_error h
      refine ⟨c :: l₁, d, l₂, g₂, rfl, ?_, hd, ?_⟩
      · simp only [serve, hc, hserve]
      · simp only [served, hc, hserved, List.cons_append]

theorem logged_request (c : StoreCall) (g : σ) (log : List StoreCall) :
    store.logged.request c (g, log) =
      ((store.request c g).1, (store.request c g).2, c :: log) := rfl

/-- What a store has kept of a list of requests is what it was given before the first failure. -/
theorem serve_logged (l : List StoreCall) (t : FlushTotals) (g : σ) (log : List StoreCall) :
    store.logged.serve l t (g, log) =
      ((store.serve l t g).1, (store.serve l t g).2.1, (store.serve l t g).2.2,
        (store.served l g).reverse ++ log) := by
  induction l generalizing t g log with
  | nil => rfl
  | cons c l ih =>
    simp only [serve, served, logged_request]
    rcases store.request c g with ⟨e | r, g'⟩
    · rfl
    · simp only [ih, List.reverse_cons, List.append_assoc, List.singleton_append]

end GraphStore

end CodeGraph
