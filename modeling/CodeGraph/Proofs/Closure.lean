import CodeGraph.Proofs.FailedRun
import CodeGraph.Proofs.Filtering

/-!
# Extractions are closed

What is found in a file refers to nothing outside: each relationship has its ends among the symbols
found there and the file itself, and all symbols are admitted. So whatever the batches are cut into,
a store that merges by key finds both ends of every relationship (`nothing_dangles`).
-/

namespace CodeGraph

open MemoryGraph (after)

theorem SourceFile.extract_admitted (f : SourceFile) (minimum : Accessibility)
    (facts : Except FactError (List Declaration)) :
    ∀ x ∈ (f.extract minimum facts).symbols, x.accessibility.admits minimum = true := by
  intro x hx
  unfold SourceFile.extract at hx
  rcases hkind : DocumentKind.ofPath? f.path with _ | k <;> simp only [hkind] at hx
  · exact absurd hx List.not_mem_nil
  · exact Extraction.admits_of_mem_restrict hx

namespace GraphStore

open Run (FlushTotals)

variable {σ : Type} {store : GraphStore σ} {graph : σ → MemoryGraph}

/-- A store that merges by key tells of a batch how many relationships have found both ends. -/
structure TellsMerged (store : GraphStore σ) (graph : σ → MemoryGraph) : Prop where
  flush : ∀ {symbols relationships g g'} {outcome : FlushOutcome},
    store.request (.flush symbols relationships) g = (.ok outcome, g') →
      outcome.relationshipsMerged =
        (relationships.filter ((graph g).upsertSymbols symbols).joins).length

theorem tellsMerged_memory (version : String) : (MemoryGraph.store version).TellsMerged id where
  flush {symbols relationships g g' outcome} h := by
    have h : (Except.ok (g.flush symbols relationships).1, _) = (Except.ok outcome, g') := h
    obtain rfl := Except.ok.inj (Prod.mk.inj h).1
    rfl

theorem merges_memory (version : String) : (MemoryGraph.store version).Merges id where
  accepts {c g r g'} h := by
    obtain ⟨r', hr⟩ := MemoryGraph.request_store version c g
    rw [hr] at h
    exact (Prod.mk.inj h).2.symm
  refuses {c g x g'} h := by
    obtain ⟨r', hr⟩ := MemoryGraph.request_store version c g
    rw [hr] at h
    cases (Prod.mk.inj h).1

/-- Nothing dangles that is sent when its ends are there. -/
theorem TellsMerged.serve (htells : store.TellsMerged graph) (hmerges : store.Merges graph)
    {l : List StoreCall} {t t' : FlushTotals} {g g' : σ}
    (h : store.serve l t g = (.ok (), t', g')) (hl : MemoryGraph.Joining (graph g) l) :
    t'.dangling = t.dangling := by
  refine (store.serve_preserves
    (I := fun m u g => u.dangling = t.dangling ∧ MemoryGraph.Joining (graph g) m)
    (fun {c m u g r g'} hc hI => ?_) h ⟨rfl, hl⟩).1
  obtain ⟨hdangling, hjoining⟩ := hI
  refine ⟨?_, hmerges.accepts hc ▸ hjoining.tail⟩
  cases c with
  | flush symbols relationships =>
    have hall : relationships.filter ((graph g).upsertSymbols symbols).joins = relationships :=
      List.filter_eq_self.2 (hjoining [] symbols relationships m rfl)
    have hmerged := htells.flush hc
    rw [hall] at hmerged
    simp only [FlushTotals.count, FlushTotals.add, hmerged]
    omega
  | _ => exact hdangling

end GraphStore

namespace Run

/-- Whatever the path, the content, the declarations and the minimum: what is found in a file
belongs to it, is admitted, and is only related to itself and to the file. So a successful run with
a store that merges by key reports no relationship that lacks an end. -/
theorem nothing_dangles :
    (∀ (f : SourceFile) (minimum : Accessibility) (facts : Except FactError (List Declaration)),
      let e := f.extract minimum facts
      (∀ r ∈ e.relationships, ∀ key ∈ [r.source, r.target],
        key = f.key ∨ ∃ x ∈ e.symbols, x.key = key) ∧
      ∀ x ∈ e.symbols, x.fileKey = f.key ∧ x.accessibility.admits minimum = true) ∧
    ∀ {ε σ : Type} {store : GraphStore σ} {graph : σ → MemoryGraph} (s : Surroundings ε)
      (o : Options) {e e' : ε} {g g' : σ} {report : Report},
      store.Merges graph → store.TellsMerged graph →
      synchronize (store.beside ε) (s.beside σ) o (e, g) = (.ok report, e', g') →
      report.written.dangling = 0 := by
  refine ⟨fun f minimum facts => ?_, fun {ε σ store graph} s o {e e' g g' report} hmerges htells
    hrun => ?_⟩
  · have hhangs := f.extract_hangsOn minimum facts
    refine ⟨fun r hr key hkey => ?_, fun x hx =>
      ⟨hhangs.owned x hx, f.extract_admitted minimum facts x hx⟩⟩
    have htarget := List.mem_map.1 (hhangs.target r hr)
    rcases List.mem_cons.1 hkey with rfl | hkey
    · rcases hhangs.source r hr with hsource | hsource
      · exact .inl (Option.some_inj.1 hsource)
      · exact .inr (List.mem_map.1 hsource)
    · obtain rfl := List.mem_singleton.1 hkey
      exact .inr htarget
  · obtain ⟨p, t, g₀, hp, -, rfl, -, hserve, -⟩ := synchronize_eq_ok store s o hrun
    exact htells.serve hmerges hserve (joining_agenda s o hp (graph g₀))

/-- A view with a handler, and a class with a private member, under a minimum that leaves out both.
-/
theorem nothing_dangles_of_view :
    let known : Knowledge := fun _ _ => .ok [⟨"C", .classDecl, "C", "C", .pub, 1, 1, none,
      [⟨"f", .field, "C.f", "C.f", .priv, 1, 1, none, []⟩]⟩]
    let t := SourceTree.ofTexts "/" "/w"
      [("/w/A.xaml", "<A Click=\"h\"><B/></A>"), ("/w/C.cs", "class C { int f; }")]
    let s := t.surroundings known none
    ∃ report e g,
      synchronize ((MemoryGraph.store "5.26.0").beside Unit) (s.beside _)
        { root := "/w", repoKey := "r", minimum := .pub } ((), {}) = (.ok report, e, g) ∧
      g.relationships.length = 2 ∧ report.written.dangling = 0 := by
  intro known t s
  let o : Options := { root := "/w", repoKey := "r", minimum := .pub }
  have hs := t.shows_surroundings (Path.normalizeExtensions o.extensions) known none
  obtain ⟨p, hp, -, hturns, -⟩ := plan_full (o := o) hs rfl ()
  obtain ⟨report, e, hrun⟩ := synchronize_of_plan "5.26.0" s o rfl hp hturns {}
  refine ⟨report, e, _, hrun, by decide +kernel, ?_⟩
  exact nothing_dangles.2 s o (GraphStore.merges_memory "5.26.0")
    (GraphStore.tellsMerged_memory "5.26.0") hrun

end Run

end CodeGraph
