import CodeGraph.Extract.Filter
import Mathlib.Logic.Relation

/-!
# What the filter removes

A key falls under a minimum if it is reached over containments from the key of a symbol below the
minimum. The filter removes what has such a key or leads from or to it, and nothing else
(`restrict_exactly`). What falls takes along all it contains, so no way from a symbol to a key that
stays is lost with what is removed: filtering twice is filtering once under the higher minimum
(`restrict_restrict`).
-/

namespace CodeGraph.Extraction

open Relation (ReflTransGen)

/-- The node with the key `outer` contains the one with the key `inner` directly. -/
def Contains (l : List Relationship) (outer inner : String) : Prop := ⟨outer, inner, .contains⟩ ∈ l

/-- The key is that of a symbol below the minimum, or such a symbol contains it, directly or not. -/
def Falls (e : Extraction) (minimum : Accessibility) (key : String) : Prop :=
  ∃ x ∈ e.symbols, x.accessibility.admits minimum = false ∧
    ReflTransGen (Contains e.relationships) x.key key

/-! ## The removed keys -/

section Removing

variable {l : List Relationship} {removed pending : List String} {key outer inner : String}

theorem mem_containedIn : inner ∈ containedIn l outer ↔ Contains l outer inner := by
  simp only [containedIn, List.mem_map, List.mem_filter, Bool.and_eq_true, beq_iff_eq]
  constructor
  · rintro ⟨⟨source, target, type⟩, ⟨hmem, rfl, rfl⟩, rfl⟩
    exact hmem
  · intro h
    exact ⟨_, ⟨h, rfl, rfl⟩, rfl⟩

theorem mem_removeFrom (h : key ∈ removed ∨ key ∈ pending) :
    key ∈ removeFrom l removed pending := by
  fun_induction removeFrom l removed pending with
  | case1 removed => exact h.resolve_right List.not_mem_nil
  | case2 removed next pending hgone ih =>
    refine ih ?_
    rcases h with h | h
    · exact .inl h
    rcases List.mem_cons.1 h with rfl | h
    · exact .inl (List.contains_iff_mem.1 hgone)
    · exact .inr h
  | case3 removed next pending hnew ih =>
    refine ih ?_
    rcases h with h | h
    · exact .inl (List.mem_cons_of_mem _ h)
    rcases List.mem_cons.1 h with rfl | h
    · exact .inl List.mem_cons_self
    · exact .inr (List.mem_append_right _ h)

/-- Nothing is removed that no pending key leads to. -/
theorem reached_of_mem_removeFrom (h : key ∈ removeFrom l removed pending) :
    key ∈ removed ∨ ∃ start ∈ pending, ReflTransGen (Contains l) start key := by
  fun_induction removeFrom l removed pending with
  | case1 removed => exact .inl h
  | case2 removed next pending hgone ih =>
    refine (ih h).imp_right ?_
    rintro ⟨start, hstart, hway⟩
    exact ⟨start, List.mem_cons_of_mem _ hstart, hway⟩
  | case3 removed next pending hnew ih =>
    rcases ih h with h | ⟨start, hstart, hway⟩
    · rcases List.mem_cons.1 h with rfl | h
      · exact .inr ⟨key, List.mem_cons_self, .refl⟩
      · exact .inl h
    rcases List.mem_append.1 hstart with hstart | hstart
    · exact .inr ⟨next, List.mem_cons_self, .head (mem_containedIn.1 hstart) hway⟩
    · exact .inr ⟨start, List.mem_cons_of_mem _ hstart, hway⟩

/-- A removed key takes along what it contains, if each of those removed at first has what it
contains removed or pending. -/
theorem removeFrom_closed
    (h : ∀ a ∈ removed, ∀ b, Contains l a b → b ∈ removed ∨ b ∈ pending) :
    ∀ a ∈ removeFrom l removed pending, ∀ b, Contains l a b → b ∈ removeFrom l removed pending := by
  fun_induction removeFrom l removed pending with
  | case1 removed => exact fun a ha b hab => (h a ha b hab).resolve_right List.not_mem_nil
  | case2 removed next pending hgone ih =>
    refine ih fun a ha b hab => ?_
    rcases h a ha b hab with hb | hb
    · exact .inl hb
    rcases List.mem_cons.1 hb with rfl | hb
    · exact .inl (List.contains_iff_mem.1 hgone)
    · exact .inr hb
  | case3 removed next pending hnew ih =>
    refine ih fun a ha b hab => ?_
    rcases List.mem_cons.1 ha with rfl | ha
    · exact .inr (List.mem_append_left _ (mem_containedIn.2 hab))
    rcases h a ha b hab with hb | hb
    · exact .inl (List.mem_cons_of_mem _ hb)
    rcases List.mem_cons.1 hb with rfl | hb
    · exact .inl List.mem_cons_self
    · exact .inr (List.mem_append_right _ hb)

end Removing

section Falling

variable {e : Extraction} {minimum m n : Accessibility} {key outer inner : String}

theorem mem_removedKeys : key ∈ e.removedKeys minimum ↔ e.Falls minimum key := by
  have hstart : ∀ start, (start ∈ (e.symbols.filter fun x => !x.accessibility.admits minimum).map
      (·.key)) ↔ ∃ x ∈ e.symbols, x.accessibility.admits minimum = false ∧ x.key = start := by
    intro start
    simp only [List.mem_map, List.mem_filter, Bool.not_eq_true', and_assoc]
  unfold removedKeys
  constructor
  · intro h
    obtain ⟨start, hpending, hway⟩ :=
      (reached_of_mem_removeFrom h).resolve_left List.not_mem_nil
    obtain ⟨x, hx, hbelow, rfl⟩ := (hstart start).1 hpending
    exact ⟨x, hx, hbelow, hway⟩
  · rintro ⟨x, hx, hbelow, hway⟩
    induction hway with
    | refl => exact mem_removeFrom (.inr ((hstart _).2 ⟨x, hx, hbelow, rfl⟩))
    | tail _ hab ih => exact removeFrom_closed (List.forall_mem_nil _) _ ih _ hab

instance : Decidable (e.Falls minimum key) := decidable_of_iff _ mem_removedKeys

theorem symbols_restrict (e : Extraction) (minimum : Accessibility) :
    (e.restrict minimum).symbols = e.symbols.filter fun x => ¬ e.Falls minimum x.key := by
  simp only [restrict, List.contains_eq_mem, mem_removedKeys, decide_not]

theorem relationships_restrict (e : Extraction) (minimum : Accessibility) :
    (e.restrict minimum).relationships = e.relationships.filter fun r =>
      ¬ e.Falls minimum r.source ∧ ¬ e.Falls minimum r.target := by
  simp only [restrict, List.contains_eq_mem, mem_removedKeys, Bool.decide_and, decide_not]

theorem mem_symbols_restrict {x : Symbol} :
    x ∈ (e.restrict minimum).symbols ↔ x ∈ e.symbols ∧ ¬ e.Falls minimum x.key := by
  rw [symbols_restrict, List.mem_filter, decide_eq_true_eq]

theorem mem_relationships_restrict {r : Relationship} : r ∈ (e.restrict minimum).relationships ↔
    r ∈ e.relationships ∧ ¬ e.Falls minimum r.source ∧ ¬ e.Falls minimum r.target := by
  rw [relationships_restrict, List.mem_filter, decide_eq_true_eq]

/-- What the filter leaves is admitted. -/
theorem admits_of_mem_restrict {x : Symbol} (h : x ∈ (e.restrict minimum).symbols) :
    x.accessibility.admits minimum = true := by
  obtain ⟨hx, hstays⟩ := mem_symbols_restrict.1 h
  rw [← Bool.not_eq_false]
  exact fun hbelow => hstays ⟨x, hx, hbelow, .refl⟩

/-- The filter leaves what is admitted as it is. -/
theorem restrict_of_admitted (h : ∀ x ∈ e.symbols, x.accessibility.admits minimum = true) :
    e.restrict minimum = e := by
  have hnone : ∀ key, ¬ e.Falls minimum key := by
    rintro key ⟨x, hx, hbelow, -⟩
    rw [h x hx] at hbelow
    cases hbelow
  have hsymbols : (e.restrict minimum).symbols = e.symbols := by
    rw [symbols_restrict, List.filter_eq_self]
    exact fun x _ => decide_eq_true (hnone x.key)
  have hrelationships : (e.restrict minimum).relationships = e.relationships := by
    rw [relationships_restrict, List.filter_eq_self]
    exact fun r _ => decide_eq_true ⟨hnone r.source, hnone r.target⟩
  exact congrArg₂ Extraction.mk hsymbols hrelationships

theorem Falls.of_contains (h : e.Falls minimum outer)
    (hway : ReflTransGen (Contains e.relationships) outer inner) : e.Falls minimum inner := by
  obtain ⟨x, hx, hbelow, hfirst⟩ := h
  exact ⟨x, hx, hbelow, hfirst.trans hway⟩

theorem falls_max : e.Falls (max m n) key ↔ e.Falls m key ∨ e.Falls n key := by
  simp only [Falls, Accessibility.admits_max, Bool.and_eq_false_iff, or_and_right, and_or_left,
    exists_or]

/-- A way to a key that stays is left whole: whatever lies on it contains the key, so it stays as
well. -/
theorem way_restrict (hkey : ¬ e.Falls m key)
    (hway : ReflTransGen (Contains e.relationships) outer key) :
    ReflTransGen (Contains (e.restrict m).relationships) outer key := by
  induction hway using ReflTransGen.head_induction_on with
  | refl => exact .refl
  | head hab hrest ih =>
    have hsource := fun h => hkey (Falls.of_contains h (.head hab hrest))
    have htarget := fun h => hkey (Falls.of_contains h hrest)
    exact .head (mem_relationships_restrict.2 ⟨hab, hsource, htarget⟩) ih

/-- Of what stays under a minimum, the same falls under another one before and after. -/
theorem falls_restrict (hkey : ¬ e.Falls m key) :
    (e.restrict m).Falls n key ↔ e.Falls n key := by
  constructor
  · rintro ⟨x, hx, hbelow, hway⟩
    refine ⟨x, (mem_symbols_restrict.1 hx).1, hbelow, ReflTransGen.mono ?_ _ _ hway⟩
    exact fun _ _ hab => (mem_relationships_restrict.1 hab).1
  · rintro ⟨x, hx, hbelow, hway⟩
    have hstays : ¬ e.Falls m x.key := fun h => hkey (h.of_contains hway)
    exact ⟨x, mem_symbols_restrict.2 ⟨hx, hstays⟩, hbelow, way_restrict hkey hway⟩

theorem restrict_max (e : Extraction) (m n : Accessibility) :
    e.restrict (max m n) = (e.restrict m).restrict n := by
  have hkey : ∀ key, ¬ e.Falls (max m n) key ↔ ¬ (e.restrict m).Falls n key ∧ ¬ e.Falls m key := by
    intro key
    rw [falls_max, not_or, and_comm (a := ¬ (e.restrict m).Falls n key)]
    exact (and_congr_right fun hstays => not_congr (falls_restrict hstays)).symm
  have hsymbols : (e.restrict (max m n)).symbols = ((e.restrict m).restrict n).symbols := by
    rw [symbols_restrict, symbols_restrict (e.restrict m), symbols_restrict e m, List.filter_filter]
    refine List.filter_congr fun x _ => ?_
    rw [← Bool.decide_and, decide_eq_decide]
    exact hkey x.key
  have hrelationships :
      (e.restrict (max m n)).relationships = ((e.restrict m).restrict n).relationships := by
    rw [relationships_restrict, relationships_restrict (e.restrict m), relationships_restrict e m,
      List.filter_filter]
    refine List.filter_congr fun r _ => ?_
    rw [← Bool.decide_and, decide_eq_decide, and_and_and_comm, hkey, hkey]
  exact congrArg₂ Extraction.mk hsymbols hrelationships

end Falling

/-! ## Filtering -/

/-- The filter keeps, in their order, the symbols whose keys do not fall and the relationships
neither end of which falls. Only containments matter for that: with the same symbols and the same
containments, the same is kept. -/
theorem restrict_exactly (e : Extraction) (minimum : Accessibility) :
    (e.restrict minimum).symbols = e.symbols.filter (fun x => ¬ e.Falls minimum x.key) ∧
    (e.restrict minimum).relationships = e.relationships.filter (fun r =>
      ¬ e.Falls minimum r.source ∧ ¬ e.Falls minimum r.target) ∧
    ∀ d : Extraction, d.symbols = e.symbols →
      (∀ outer inner, Contains d.relationships outer inner ↔ Contains e.relationships outer inner) →
      (d.restrict minimum).symbols = (e.restrict minimum).symbols ∧
      ∀ r ∈ d.relationships, r ∈ e.relationships →
        (r ∈ (d.restrict minimum).relationships ↔ r ∈ (e.restrict minimum).relationships) := by
  refine ⟨e.symbols_restrict minimum, e.relationships_restrict minimum,
    fun d hsymbols hcontains => ?_⟩
  have hfalls : ∀ key, d.Falls minimum key ↔ e.Falls minimum key := by
    intro key
    have hsame : Contains d.relationships = Contains e.relationships := by
      funext outer inner
      exact propext (hcontains outer inner)
    rw [Falls, hsymbols, hsame]
    rfl
  refine ⟨?_, fun r hd he => ?_⟩
  · rw [symbols_restrict, symbols_restrict, hsymbols]
    simp only [hfalls]
  · rw [mem_relationships_restrict, mem_relationships_restrict, hfalls, hfalls]
    simp only [hd, he]

/-- Filtering under two minima, in whatever order, is filtering under the higher one. So filtering
again changes nothing, and a higher minimum leaves nothing that a lower one removes. -/
theorem restrict_restrict (e : Extraction) (m n : Accessibility) :
    (e.restrict m).restrict n = e.restrict (max m n) ∧
    (e.restrict m).restrict m = e.restrict m ∧
    (e.restrict m).restrict n = (e.restrict n).restrict m ∧
    (m ≤ n → (e.restrict n).symbols.Sublist (e.restrict m).symbols ∧
      (e.restrict n).relationships.Sublist (e.restrict m).relationships) := by
  refine ⟨(restrict_max e m n).symm, ?_, ?_, fun hle => ?_⟩
  · rw [← restrict_max, Accessibility.max_eq_right (Nat.le_refl _)]
  · rw [← restrict_max, ← restrict_max, Accessibility.max_comm]
  · rw [← Accessibility.max_eq_right hle, restrict_max]
    exact ⟨List.filter_sublist, List.filter_sublist⟩

end CodeGraph.Extraction
