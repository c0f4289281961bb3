import CodeGraph.Proofs.SourceTree
import Mathlib.Algebra.GroupWithZero.Nat

/-!
# The report adds up

The numbers of a report come from four places: the loop over the worklist, the counts of kinds, the
batches, and the replies of the store. In the report of a successful run they agree with each other,
with the requests, and with what was found (`report_adds_up`). If the store accounts for what it is
given, then the totals are no more than that, and they fit their words if it does
(`synchronize?_eq`).
-/

namespace CodeGraph

/-! ## Counts of kinds -/

namespace ExtractionStats

variable {s : ExtractionStats} {l : List (Option String)}

theorem lookup_eq_none_of_lt {kind : String} {h : List (String × Nat)}
    (hlt : ∀ k ∈ h.map Prod.fst, kind < k) : h.lookup kind = none := by
  rw [List.lookup_eq_none_iff]
  intro p hp
  have hne : kind ≠ p.1 := fun heq =>
    String.lt_irrefl kind (heq ▸ hlt p.1 (List.mem_map_of_mem hp))
  simpa using hne

theorem mem_keys_increment {kind k : String} {h : List (String × Nat)} :
    k ∈ (increment kind h).map Prod.fst ↔ k = kind ∨ k ∈ h.map Prod.fst := by
  induction h with
  | nil => simp [increment]
  | cons p h ih =>
    simp only [increment]
    by_cases hlt : kind < p.1
    · simp [hlt]
    by_cases heq : kind = p.1
    · simp [heq]
    · simp only [hlt, heq, if_false, List.map_cons, List.mem_cons, ih]
      exact or_left_comm

theorem pairwise_increment {kind : String} {h : List (String × Nat)}
    (hh : (h.map Prod.fst).Pairwise (· < ·)) :
    ((increment kind h).map Prod.fst).Pairwise (· < ·) := by
  induction h with
  | nil => simp [increment]
  | cons p h ih =>
    obtain ⟨hp, hrest⟩ := List.pairwise_cons.1 hh
    simp only [increment]
    by_cases hlt : kind < p.1
    · rw [if_pos hlt]
      refine List.pairwise_cons.2 ⟨fun k hk => ?_, hh⟩
      rcases List.mem_cons.1 hk with rfl | hk
      · exact hlt
      · exact String.lt_trans hlt (hp k hk)
    rw [if_neg hlt]
    by_cases heq : kind = p.1
    · rw [if_pos heq]
      exact hh
    · rw [if_neg heq]
      refine List.pairwise_cons.2 ⟨fun k hk => ?_, ih hrest⟩
      rcases mem_keys_increment.1 hk with rfl | hk
      · exact Std.lt_of_le_of_ne (String.not_lt.1 hlt) (Ne.symm heq)
      · exact hp k hk

theorem lookup_increment (kind k : String) {h : List (String × Nat)}
    (hh : (h.map Prod.fst).Pairwise (· < ·)) :
    ((increment kind h).lookup k).getD 0 =
      (h.lookup k).getD 0 + if kind = k then 1 else 0 := by
  induction h with
  | nil =>
    by_cases hk : kind = k
    · simp [increment, hk]
    · have hne : (k == kind) = false := by simpa using Ne.symm hk
      simp [increment, List.lookup_cons, hne, hk]
  | cons p h ih =>
    obtain ⟨hp, hrest⟩ := List.pairwise_cons.1 hh
    simp only [increment]
    by_cases hlt : kind < p.1
    · rw [if_pos hlt]
      by_cases hk : kind = k
      · -- The kind is new, since all others come after it.
        have hnone : (p :: h).lookup k = none := by
          refine lookup_eq_none_of_lt fun k' hk' => ?_
          rcases List.mem_cons.1 hk' with rfl | hk'
          · exact hk ▸ hlt
          · exact hk ▸ String.lt_trans hlt (hp k' hk')
        rw [hnone]
        simp [hk]
      · have hne : (k == kind) = false := by simpa using Ne.symm hk
        rw [List.lookup_cons, hne]
        simp [hk]
    rw [if_neg hlt]
    by_cases heq : kind = p.1
    · rw [if_pos heq, List.lookup_cons, List.lookup_cons]
      by_cases hk : k = p.1
      · simp [hk, heq]
      · have hne : (k == p.1) = false := by simpa using hk
        simp [hne, heq, Ne.symm hk]
    · rw [if_neg heq, List.lookup_cons, List.lookup_cons]
      by_cases hk : k = p.1
      · simp [hk, heq]
      · have hne : (k == p.1) = false := by simpa using hk
        simp only [hne]
        exact ih hrest

theorem sum_increment (kind : String) (h : List (String × Nat)) :
    (increment kind h).foldr (fun p n => p.2 + n) 0 = h.foldr (fun p n => p.2 + n) 0 + 1 := by
  induction h with
  | nil => rfl
  | cons p h ih =>
    simp only [increment]
    split_ifs <;> simp only [List.foldr_cons, ih] <;> omega

/-- The counts are those of these files, of which some are of no kind. -/
structure Counts (s : ExtractionStats) (l : List (Option String)) : Prop where
  ascending : (s.handled.map Prod.fst).Pairwise (· < ·)
  total : s.total + s.unhandled = l.length
  count : ∀ kind, s.count kind = l.count (some kind)

theorem counts_empty : empty.Counts [] := ⟨.nil, rfl, fun _ => rfl⟩

theorem Counts.record (hs : s.Counts l) (kind : Option String) :
    (s.record kind).Counts (l ++ [kind]) := by
  have htotal := hs.total
  rcases kind with _ | kind
  · refine ⟨hs.ascending, ?_, fun k => ?_⟩
    · rw [List.length_append, List.length_singleton, ← htotal]
      rfl
    · rw [List.count_append, ← hs.count k]
      rfl
  · refine ⟨pairwise_increment hs.ascending, ?_, fun k => ?_⟩
    · have hsum := sum_increment kind s.handled
      simp only [ExtractionStats.record, ExtractionStats.total, List.length_append,
        List.length_singleton] at hsum htotal ⊢
      omega
    · have hlookup := lookup_increment kind k hs.ascending
      have hcount := hs.count k
      simp only [ExtractionStats.record, ExtractionStats.count, List.count_append,
        List.count_singleton, beq_iff_eq, Option.some.injEq] at hlookup hcount ⊢
      omega

theorem Counts.foldl : ∀ (m : List (Option String)) {s : ExtractionStats}
    {l : List (Option String)}, s.Counts l → (m.foldl ExtractionStats.record s).Counts (l ++ m)
  | [], _, l, hs => by rwa [List.append_nil]
  | kind :: m, _, l, hs => by
    rw [List.append_cons, List.foldl_cons]
    exact Counts.foldl m (hs.record kind)

end ExtractionStats

theorem DocumentKind.name_injective : Function.Injective name := fun k k' h =>
  (by decide : ∀ k ∈ all, ∀ k' ∈ all, k.name = k'.name → k = k') k k.mem_all k' k'.mem_all h

/-! ## Replies -/

namespace GraphStore

open Run (FlushTotals)

variable {σ : Type} {store : GraphStore σ}

/-- A store that writes all the symbols it is given and no relationship that it is not. -/
structure Accounts (store : GraphStore σ) : Prop where
  flush : ∀ {symbols relationships g g'} {outcome : FlushOutcome},
    store.request (.flush symbols relationships) g = (.ok outcome, g') →
      outcome.symbolsWritten = symbols.length ∧
        outcome.relationshipsMerged ≤ relationships.length

theorem accounts_memory (version : String) : (MemoryGraph.store version).Accounts where
  flush {symbols relationships g g' outcome} h := by
    have h : (Except.ok (g.flush symbols relationships).1, _) = (Except.ok outcome, g') := h
    obtain rfl := Except.ok.inj (Prod.mk.inj h).1
    exact ⟨rfl, List.length_filter_le _ _⟩

theorem Accounts.count (hstore : store.Accounts) {c : StoreCall} {t : FlushTotals} {g g' : σ}
    {r : c.Reply} (h : store.request c g = (.ok r, g')) :
    (t.count c r).symbols = t.symbols + c.batch.symbols.length ∧
      (t.count c r).relationships + (t.count c r).dangling =
        t.relationships + t.dangling + c.batch.relationships.length := by
  cases c with
  | flush symbols relationships =>
    obtain ⟨hsymbols, hmerged⟩ := hstore.flush h
    simp only [FlushTotals.count, FlushTotals.add, StoreCall.batch]
    omega
  | _ => exact ⟨rfl, rfl⟩

/-- What is sent is written, merged or dangling. -/
theorem Accounts.serve (hstore : store.Accounts) {l : List StoreCall} {t t' : FlushTotals}
    {g g' : σ} (h : store.serve l t g = (.ok (), t', g')) :
    t'.symbols = t.symbols + (written l).symbols.length ∧
      t'.relationships + t'.dangling =
        t.relationships + t.dangling + (written l).relationships.length := by
  refine store.serve_preserves (I := fun m u _ =>
    u.symbols + (written m).symbols.length = t.symbols + (written l).symbols.length ∧
      u.relationships + u.dangling + (written m).relationships.length =
        t.relationships + t.dangling + (written l).relationships.length)
    (fun {c m u g r g'} hc hI => ?_) h ⟨rfl, rfl⟩
  obtain ⟨hsymbols, hrelationships⟩ := hstore.count (t := u) hc
  simp only [written, Extraction.symbols_append, Extraction.relationships_append,
    List.length_append] at hI
  omega

/-- The totals are no more than was to be written, wherever the requests end. -/
theorem Accounts.serve_le (hstore : store.Accounts) : ∀ (l : List StoreCall) (t : FlushTotals)
    (g : σ),
    (store.serve l t g).2.1.flushes ≤ t.flushes + l.length ∧
      (store.serve l t g).2.1.symbols ≤ t.symbols + (written l).symbols.length ∧
      (store.serve l t g).2.1.relationships + (store.serve l t g).2.1.dangling ≤
        t.relationships + t.dangling + (written l).relationships.length
  | [], t, g => ⟨Nat.le_add_right .., Nat.le_add_right .., Nat.le_add_right ..⟩
  | c :: l, t, g => by
    simp only [GraphStore.serve, written, Extraction.symbols_append,
      Extraction.relationships_append, List.length_append, List.length_cons]
    rcases h : store.request c g with ⟨e | r, g'⟩
    · dsimp only
      omega
    · obtain ⟨hsymbols, hrelationships⟩ := hstore.count (t := t) h
      have hflushes : (t.count c r).flushes ≤ t.flushes + 1 := by
        cases c <;> simp [FlushTotals.count, FlushTotals.add]
      have hrest := hstore.serve_le l (t.count c r) g'
      dsimp only
      omega

end GraphStore

namespace Run

open CodeGraph.Path (DiscoveredFile)

variable {ε σ : Type}

section Numbers

variable (s : Surroundings ε) (o : Options)

theorem visits_kind (ts : List (DiscoveredFile × ε)) :
    ∀ v ∈ visits s o ts, v.kind = DocumentKind.ofPath? v.node.path := by
  intro v hv
  obtain ⟨turn, -, hv⟩ := List.mem_filterMap.1 hv
  obtain ⟨bytes, -, rfl⟩ := Option.map_eq_some_iff.1 hv
  rw [visit_kind, visit_path]

/-- A turn ends with a visit unless the file cannot be read. -/
theorem length_visits : ∀ ts : List (DiscoveredFile × ε),
    ts.length = (visits s o ts).length +
      ts.countP fun turn => (s.read turn.1.path turn.2).isNone
  | [] => rfl
  | turn :: ts => by
    have hrest := length_visits ts
    rcases hread : s.read turn.1.path turn.2 with _ | bytes
    · have hvisit : visitAt s o turn = none := by rw [visitAt, hread]; rfl
      rw [visits, List.filterMap_cons_none hvisit, List.countP_cons, hread]
      simp only [visits, Option.isNone_none, if_true, List.length_cons] at hrest ⊢
      omega
    · have hvisit : visitAt s o turn = some (visit s o turn.1 bytes turn.2).1 := by
        rw [visitAt, hread]; rfl
      rw [visits, List.filterMap_cons_some hvisit, List.countP_cons, hread]
      simp only [visits, Option.isNone_some, Bool.false_eq_true, if_false, List.length_cons]
        at hrest ⊢
      omega

theorem length_found : ∀ vs : List Visit,
    (found vs).symbols.length = (vs.map (·.extraction.symbols.length)).sum ∧
      (found vs).relationships.length = (vs.map (·.extraction.relationships.length)).sum
  | [] => ⟨rfl, rfl⟩
  | v :: vs => by
    obtain ⟨hsymbols, hrelationships⟩ := length_found vs
    simp only [found, Extraction.symbols_append, Extraction.relationships_append,
      List.length_append, List.map_cons, List.sum_cons, hsymbols, hrelationships, and_self]

theorem counts_report {p : Plan} (cwd : String) (t : FlushTotals) :
    (p.report cwd o t).extraction.Counts (p.visits.map fun v => v.kind.map (·.name)) := by
  have h := ExtractionStats.counts_empty.foldl (p.visits.map fun v => v.kind.map (·.name))
  rwa [List.foldl_map, List.nil_append] at h

theorem count_kind {vs : List Visit} (hvs : ∀ v ∈ vs, v.kind = DocumentKind.ofPath? v.node.path)
    (k : DocumentKind) : (vs.map fun v => v.kind.map (·.name)).count (some k.name) =
      (vs.map (·.node)).countP fun f => DocumentKind.ofPath? f.path = some k := by
  rw [List.count, List.countP_map, List.countP_map]
  refine List.countP_congr fun v hv => ?_
  have hkind := hvs v hv
  simp only [Function.comp_apply, beq_iff_eq, decide_eq_true_eq, ← hkind]
  constructor
  · intro h
    obtain ⟨k', hk', hname⟩ := Option.map_eq_some_iff.1 h
    rw [hk', DocumentKind.name_injective hname]
  · intro h
    rw [h, Option.map_some]

end Numbers

/-- A run is not stopped by its totals if its store accounts for what it is given and words hold the
numbers of what there is to write. -/
theorem synchronize?_eq {store : GraphStore σ} (hstore : store.Accounts) (s : Surroundings ε)
    (o : Options) (e : ε) (g : σ) (hrequests : (agenda s o e).length < Bits.limit64)
    (hsymbols : (written (agenda s o e)).symbols.length < Bits.limit64)
    (hrelationships : (written (agenda s o e)).relationships.length < Bits.limit64) :
    synchronize? (store.beside ε) (s.beside σ) o (e, g) =
      some (synchronize (store.beside ε) (s.beside σ) o (e, g)) := by
  have hfits : (steps (store.beside ε) (s.beside σ) o
      (.start (e, g) o.batchSize)).2.writer.totals.fits = true := by
    rw [totals_steps]
    rcases store.verifyVersion g with ⟨x | _, g'⟩
    · rfl
    · have h := hstore.serve_le (agenda s o e) {} g'
      simp only [FlushTotals.fits_iff] at h ⊢
      omega
  exact if_pos hfits

/-- The report of a successful run. A file of the worklist is processed or cannot be read, the
processed files are those that the store is asked to write, and each of them counts for the kind
that its path has. If the store accounts for what it is given, then its replies add up to what was
found, whatever the size of a batch. -/
theorem report_adds_up (store : GraphStore σ) (s : Surroundings ε) (o : Options) {e e' : ε}
    {g g' : σ} {report : Report}
    (hrun : synchronize (store.beside ε) (s.beside σ) o (e, g) = (.ok report, e', g')) :
    let files := (requested store s o e g).filterMap StoreCall.file?
    ∃ (p : Plan) (ts : List (DiscoveredFile × ε)),
      (∀ n, plan s { o with batchSize := n } e = .ok p) ∧
      p.worklist = ts.map Prod.fst ∧ p.visits = ts.filterMap (visitAt s o) ∧
      files = p.visits.map (·.node) ∧
      report.filesProcessed = files.length ∧
      report.filesFailed = (ts.countP fun turn => (s.read turn.1.path turn.2).isNone) ∧
      report.filesProcessed + report.filesFailed = report.filesSelected ∧
      report.filesSelected = p.worklist.length ∧
      report.filesSelected ≤ report.filesDiscovered ∧
      report.filesDiscovered = p.discovered.length ∧
      report.extraction.total + report.extraction.unhandled = report.filesProcessed ∧
      (∀ k : DocumentKind, report.extraction.count k.name =
        files.countP fun f => DocumentKind.ofPath? f.path = some k) ∧
      report.written.flushes = (requested store s o e g).countP StoreCall.isFlush ∧
      (store.Accounts →
        report.written.symbols = (p.visits.map (·.extraction.symbols.length)).sum ∧
        report.written.relationships + report.written.dangling =
          (p.visits.map (·.extraction.relationships.length)).sum) := by
  intro files
  obtain ⟨p, t, g₀, hp, hcomplete, rfl, -, hserve, hrequested⟩ := synchronize_eq_ok store s o hrun
  obtain ⟨e₀, ts, -, -, hturns, hvisits, -⟩ := plan_eq_ok s o hp
  have hworklist : p.worklist = ts.map Prod.fst := hcomplete.symm.trans hturns
  have hfiles : (requested store s o e g).filterMap StoreCall.file? = p.visits.map (·.node) := by
    rw [hrequested]
    exact files_agenda s o hp
  have hlength : ts.length = p.visits.length + _ := hvisits ▸ length_visits s o ts
  have hcounts := counts_report o (p := p) s.cwd t
  have hkinds : ∀ v ∈ p.visits, v.kind = DocumentKind.ofPath? v.node.path :=
    hvisits ▸ visits_kind s o ts
  have hdiscovered : p.worklist.length ≤ p.discovered.length := p.worklist_sublist.length_le
  have hturned : p.turns.length = ts.length := by rw [hturns, List.length_map]
  have hselected : p.worklist.length = ts.length := by rw [hworklist, List.length_map]
  have hprocessed : p.visits.length = files.length := by
    rw [show files = _ from hfiles, List.length_map]
  refine ⟨p, ts, fun n => (plan_batchSize s o n e).trans hp, hworklist, hvisits, hfiles, hprocessed,
    ?_, ?_, rfl, hdiscovered, rfl, ?_, fun k => ?_, ?_, fun hstore => ?_⟩
  · show p.turns.length - p.visits.length = _
    omega
  · show p.visits.length + (p.turns.length - p.visits.length) = p.worklist.length
    omega
  · rw [hcounts.total, List.length_map]
    rfl
  · rw [hcounts.count, count_kind hkinds k, show files = _ from hfiles]
  · have hflushes := store.serve_flushes hserve
    rw [hrequested, List.countP_cons]
    show t.flushes = _
    rw [hflushes]
    show 0 + _ = _ + 0
    omega
  · obtain ⟨hsymbols, hrelationships⟩ := hstore.serve hserve
    obtain ⟨hfound, hfound'⟩ := length_found p.visits
    rw [written_agenda s o hp] at hsymbols hrelationships
    show t.symbols = _ ∧ t.relationships + t.dangling = _
    simp only [hfound, hfound'] at hsymbols hrelationships
    omega

/-- Of three files one is a document with two elements, one cannot be read, and one is of no kind.
-/
theorem report_of_three_files :
    let t := SourceTree.ofTexts "/" "/w"
      [("/w/a.xml", "<x><y/></x>"), ("/w/b.xml", "<x/>"), ("/w/c.txt", "c")]
    let readable := t.surroundings (fun _ _ => .ok []) none
    let s : Surroundings Unit := { readable with
      read := fun path e => if path = "/w/b.xml" then none else readable.read path e }
    ∃ report e g,
      synchronize ((MemoryGraph.store "5.26.0").beside Unit) (s.beside _)
        { root := "/w", repoKey := "r" } ((), {}) = (.ok report, e, g) ∧
      report.filesFailed + 2 = report.filesSelected ∧ report.extraction.count "xml" = 1 ∧
      report.written.symbols = 2 ∧ report.written.relationships + report.written.dangling = 2 := by
  intro t readable s
  let o : Options := { root := "/w", repoKey := "r" }
  have hok : (synchronize ((MemoryGraph.store "5.26.0").beside Unit) (s.beside _) o
      ((), {})).1.toOption.isSome = true := by decide +kernel
  rcases hrun : synchronize ((MemoryGraph.store "5.26.0").beside Unit) (s.beside _) o ((), {}) with
    ⟨_ | report, e, g⟩
  · rw [hrun] at hok
    cases hok
  obtain ⟨p, ts, hp, -, -, -, hprocessed, -, hselected, -, -, -, -, hcount, -, haccounts⟩ :=
    report_adds_up (MemoryGraph.store "5.26.0") s o hrun
  obtain ⟨hsymbols, hrelationships⟩ := haccounts (GraphStore.accounts_memory "5.26.0")
  have hfound : (plan s o ()).toOption.map (fun p =>
      ((p.visits.map (·.extraction.symbols.length)).sum,
        (p.visits.map (·.extraction.relationships.length)).sum)) = some (2, 2) := by decide +kernel
  rw [show plan s o () = .ok p from hp o.batchSize] at hfound
  obtain ⟨hfound, hfound'⟩ := Prod.mk.inj (Option.some_inj.1 hfound)
  have hasked : ((requested (MemoryGraph.store "5.26.0") s o () {}).filterMap
      StoreCall.file?).map (·.path) = ["/w/a.xml", "/w/c.txt"] := by decide +kernel
  refine ⟨report, e, g, rfl, ?_, ?_, hsymbols.trans hfound, hrelationships.trans hfound'⟩
  · have hlength := congrArg List.length hasked
    rw [List.length_map, ← hprocessed, List.length_cons, List.length_singleton] at hlength
    omega
  · have hxml := congrArg (List.countP fun path => DocumentKind.ofPath? path = some .xml) hasked
    rw [List.countP_map] at hxml
    exact (hcount .xml).trans (hxml.trans (by decide +kernel))

end Run

end CodeGraph
