import CodeGraph.Proofs.Requests
import CodeGraph.Run.Basic

/-!
# Courses

In a world of two parts, surroundings and a store that have nothing to do with each other, what a
run asks of the store depends on the surroundings alone, as long as the store answers. The course of
a part of a run lists its requests, what it comes to and where it leaves the run. `Takes` says that
the part takes that course whatever the store is like: it makes these requests up to the first that
fails, and if none does, it comes to that result.

Surroundings go from state to state as they are asked, so what happens around a run while it waits
for its store is not left out: it is seen at the next question.
-/

namespace CodeGraph

/-- A source of facts as a part of something larger. -/
def FactSource.within {σ ω : Type} (f : FactSource σ) (part : ω → σ) (replace : ω → σ → ω) :
    FactSource ω where
  declarations path content w :=
    let (r, s) := f.declarations path content (part w)
    (r, replace w s)
  diagnostics path w := f.diagnostics path (part w)

/-- The store next to surroundings with states of type `ε`. -/
def GraphStore.beside {σ : Type} (store : GraphStore σ) (ε : Type) : GraphStore (ε × σ) :=
  store.within Prod.snd fun w g => (w.1, g)

theorem GraphStore.beside_request {σ ε : Type} (store : GraphStore σ) (c : StoreCall) (e : ε)
    (g : σ) : (store.beside ε).request c (e, g) =
      ((store.request c g).1, e, (store.request c g).2) := rfl

namespace Run

variable {ε σ α β : Type}

/-- The surroundings next to a store with states of type `σ`. -/
def Surroundings.beside (s : Surroundings ε) (σ : Type) : Surroundings (ε × σ) where
  cwd := s.cwd
  scan root extensions w := s.scan root extensions w.1
  read path w := s.read path w.1
  facts := s.facts.within Prod.fst fun w e => (e, w.2)
  history := s.history.map fun h => h.within Prod.fst fun w e => (e, w.2)
  announce a w := (s.announce a w.1, w.2)
  isCancelled w := s.isCancelled w.1

/-- Where a run stands, apart from its store and from what the store has replied. -/
structure Standing (ε : Type) where
  around : ε
  buffer : Buffer
  extraction : ExtractionStats
  processed : Nat
  failed : Nat

/-- Where a run stands before its first step. -/
def Standing.start (e : ε) (batchSize : Nat) : Standing ε := ⟨e, .new batchSize, .empty, 0, 0⟩

/-- The state of a run that stands there, with these totals and this state of the store. -/
def Standing.state (x : Standing ε) (t : FlushTotals) (g : σ) : State (ε × σ) :=
  ⟨(x.around, g), ⟨x.buffer, t⟩, x.extraction, x.processed, x.failed⟩

/-- What a part of a run does if no request fails. -/
structure Course (ε α : Type) where
  requests : List StoreCall
  /-- What it comes to, given the totals at its end. -/
  result : FlushTotals → Except Error α
  /-- Where it leaves the run. -/
  standing : Standing ε

variable {store : GraphStore σ}

/-- From where the run stands, the part of a run takes the course. -/
def Takes (store : GraphStore σ) (m : Step (ε × σ) α) (x : Standing ε) (c : Course ε α) : Prop :=
  ∀ t g, match store.serve c.requests t g with
    | (.ok (), t', g') => m (x.state t g) = (c.result t', c.standing.state t' g')
    | (.error e, t', g') => ∃ y : Standing ε, m (x.state t g) = (.error (.graph e), y.state t' g')

theorem Step.bind_apply {ω : Type} (m : Step ω α) (f : α → Step ω β) (s : State ω) :
    (m >>= f) s = match m s with
      | (.ok a, s) => f a s
      | (.error e, s) => (.error e, s) := by
  show (match m s with | (r, s) => ExceptT.bindCont f r s) = _
  rcases m s with ⟨e | a, s'⟩ <;> rfl

theorem Step.get_apply {ω : Type} (s : State ω) : (get : Step ω (State ω)) s = (.ok s, s) := rfl

namespace Takes

theorem pure (a : α) (x : Standing ε) :
    Takes store (pure a : Step (ε × σ) α) x ⟨[], fun _ => .ok a, x⟩ := fun _ _ => rfl

theorem throw (e : Error) (x : Standing ε) :
    Takes store (throw e : Step (ε × σ) α) x ⟨[], fun _ => .error e, x⟩ := fun _ _ => rfl

theorem bind {m : Step (ε × σ) α} {f : α → Step (ε × σ) β} {x y z : Standing ε}
    {l l' : List StoreCall} {a : α} {r : FlushTotals → Except Error β}
    (hm : Takes store m x ⟨l, fun _ => .ok a, y⟩) (hf : Takes store (f a) y ⟨l', r, z⟩) :
    Takes store (m >>= f) x ⟨l ++ l', r, z⟩ := by
  intro t g
  have hm := hm t g
  simp only [GraphStore.serve_append, Step.bind_apply]
  rcases h : store.serve l t g with ⟨e | u, t', g'⟩ <;> simp only [h] at hm ⊢
  · obtain ⟨y', hy⟩ := hm
    exact ⟨y', by rw [hy]⟩
  · rw [hm]
    exact hf t' g'

theorem bind_silent {m : Step (ε × σ) α} {f : α → Step (ε × σ) β} {x y z : Standing ε}
    {l : List StoreCall} {a : α} {r : FlushTotals → Except Error β}
    (hm : Takes store m x ⟨l, fun _ => .ok a, y⟩) (hf : Takes store (f a) y ⟨[], r, z⟩) :
    Takes store (m >>= f) x ⟨l, r, z⟩ := by
  have h := hm.bind hf
  rwa [List.append_nil] at h

theorem bind_error {m : Step (ε × σ) α} {f : α → Step (ε × σ) β} {x y : Standing ε}
    {l : List StoreCall} {e : Error} (hm : Takes store m x ⟨l, fun _ => .error e, y⟩) :
    Takes store (m >>= f) x ⟨l, fun _ => .error e, y⟩ := by
  intro t g
  have hm := hm t g
  simp only [Step.bind_apply]
  rcases h : store.serve l t g with ⟨e | u, t', g'⟩ <;> simp only [h] at hm ⊢
  · obtain ⟨y', hy⟩ := hm
    exact ⟨y', by rw [hy]⟩
  · rw [hm]

/-- What acts like a part that takes a course takes it too, be it from elsewhere. -/
theorem of_eq {m n : Step (ε × σ) α} {x y : Standing ε} {c : Course ε α}
    (h : ∀ t g, m (x.state t g) = n (y.state t g)) (hn : Takes store n y c) :
    Takes store m x c := by
  intro t g
  rw [h]
  exact hn t g

/-- What is done with the state of a run may depend on the store and the totals, as long as it takes
the same course. -/
theorem get_bind {f : State (ε × σ) → Step (ε × σ) α} {x : Standing ε} {c : Course ε α}
    (hf : ∀ t g, Takes store (f (x.state t g)) x c) :
    Takes store (get >>= f) x c := by
  intro t g
  rw [Step.bind_apply]
  exact hf t g t g

/-- A request that is no batch, whatever is done with the reply. -/
theorem request_bind {c : StoreCall} {f : c.Reply → Step (ε × σ) α} {x z : Standing ε}
    {l : List StoreCall} {r : FlushTotals → Except Error α}
    (hc : ∀ (t : FlushTotals) (a : c.Reply), t.count c a = t)
    (hf : ∀ a, Takes store (f a) x ⟨l, r, z⟩) :
    Takes store (Step.request (store.beside ε) c >>= f) x ⟨c :: l, r, z⟩ := by
  intro t g
  simp only [GraphStore.serve, Step.bind_apply, Step.request, Standing.state,
    GraphStore.beside_request]
  rcases store.request c g with ⟨e | a, g'⟩
  · exact ⟨x, rfl⟩
  · simp only [hc]
    exact hf a t g'

/-- What asks or changes the surroundings leaves the store as it is. -/
theorem onWorld {f : ε × σ → α × ε × σ} {f' : ε → α × ε}
    (hf : ∀ w, f w = ((f' w.1).1, (f' w.1).2, w.2)) (x : Standing ε) :
    Takes store (Step.onWorld f) x
      ⟨[], fun _ => .ok (f' x.around).1, { x with around := (f' x.around).2 }⟩ := by
  intro t g
  simp only [GraphStore.serve, Step.onWorld, Standing.state, hf]

theorem modify {f : State (ε × σ) → State (ε × σ)} {x y : Standing ε}
    (hf : ∀ t g, f (x.state t g) = y.state t g) :
    Takes store (modify f : Step (ε × σ) Unit) x ⟨[], fun _ => .ok (), y⟩ := by
  intro t g
  show (Except.ok (), f (x.state t g)) = _
  rw [hf]

end Takes

end Run

end CodeGraph
