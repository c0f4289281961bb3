import CodeGraph.Proofs.SourceTree

/-!
# Full runs

What a store that merges by key holds after a full run. The symbols follow from what was found, and
neither the size of a batch nor a second run makes a difference to them (`full_run`). A second run
may lose relationships, but only such as lead from a file whose key is also that of a symbol
(`clash_of_loses`).
-/

namespace CodeGraph.Run

open MemoryGraph (after)

variable {ε : Type}

section Agenda

variable (s : Surroundings ε) (o : Options) {e : ε} {p : Plan} {g : MemoryGraph}

theorem mem_symbols_agenda (hp : plan s o e = .ok p) (hvs : Itinerary p.visits) (hg : g.Keyed)
    {x : Symbol} : x ∈ ((agenda s o e).foldl after g).symbols ↔
      lastWith (found p.visits).symbols x.key = some x ∨
        x ∈ g.symbols ∧ (∀ y ∈ (found p.visits).symbols, y.key ≠ x.key) ∧
          ∀ v ∈ p.visits, v.node.key ≠ x.fileKey := by
  rw [MemoryGraph.mem_symbols_foldl_after hg (lasting_agenda s o hp hvs), written_agenda s o hp,
    deletedKeys_agenda s o hp]
  simp only [List.mem_map, not_exists, not_and, ne_eq]

theorem mem_relationships_agenda (hp : plan s o e = .ok p) (hvs : Itinerary p.visits)
    (hg : g.Keyed) {r : Relationship} :
    r ∈ ((agenda s o e).foldl after g).relationships ↔
      (r ∈ g.relationships ∨ r ∈ (found p.visits).relationships) ∧
        ¬ g.Loses (agenda s o e) r := by
  have hdistinct := hvs.distinct
  rw [← deletedKeys_agenda s o hp] at hdistinct
  rw [MemoryGraph.mem_relationships_iff_not_loses hg (lasting_agenda s o hp hvs)
    (joining_agenda s o hp g) hdistinct, written_agenda s o hp]

theorem mem_symbols_again (hp : plan s o e = .ok p) {o' : Options} {e' : ε}
    (hp' : plan s o' e' = .ok p) (hvs : Itinerary p.visits) (hg : g.Keyed) {x : Symbol} :
    x ∈ ((agenda s o' e').foldl after ((agenda s o e).foldl after g)).symbols ↔
      x ∈ ((agenda s o e).foldl after g).symbols := by
  rw [mem_symbols_agenda s o' hp' hvs (MemoryGraph.keyed_foldl_after _ hg),
    mem_symbols_agenda s o hp hvs hg]
  constructor
  · rintro (h | ⟨h, -⟩)
    · exact .inl h
    · exact h
  · rintro (h | h)
    · exact .inl h
    · exact .inr ⟨.inr h, h.2⟩

/-- What a run leaves in an empty store are the relationships that it found. -/
theorem mem_relationships_of_empty (hp : plan s o e = .ok p) (hvs : Itinerary p.visits)
    {r : Relationship} : r ∈ ((agenda s o e).foldl after {}).relationships ↔
      r ∈ (found p.visits).relationships := by
  rw [mem_relationships_agenda s o hp hvs MemoryGraph.keyed_empty]
  have hkept : ¬ MemoryGraph.Loses {} (agenda s o e) r := by
    rintro ⟨_, _, _, _, ⟨x, hx, -⟩, -⟩
    exact List.not_mem_nil hx
  exact ⟨fun h => h.1.resolve_left List.not_mem_nil, fun h => ⟨.inr h, hkept⟩⟩

/-- A relationship that a run finds is only lost if it leads from a file whose key is that of a
symbol. -/
theorem clash_of_loses (hp : plan s o e = .ok p) {r : Relationship} (hvs : Itinerary p.visits)
    (hr : r ∈ (found p.visits).relationships) (hloses : g.Loses (agenda s o e) r) :
    ∃ v ∈ p.visits, r ∈ v.extraction.relationships ∧ r.source = v.node.key ∧
      ∃ x ∈ g.symbols, x.key = v.node.key := by
  obtain ⟨l₁, fileKey, l₂, hl, ⟨x, hx, -, hend, hfresh⟩, hlater⟩ := hloses
  have hwritten : r ∈ (written l₁).relationships := by
    rw [← written_agenda s o hp, hl, written_append] at hr
    exact (List.mem_append.1 hr).resolve_right hlater
  obtain ⟨m₁, symbols, relationships, m₂, rfl, hmem⟩ := flush_of_mem_written_relationships hwritten
  rw [List.append_assoc, List.cons_append] at hl
  obtain ⟨l, -, hfile⟩ := flush_of_agenda s o hp hl
  obtain ⟨visited, left, hvisits, hbatch⟩ := batchBetween hfile
  obtain ⟨v, hv, hrv, hsub⟩ :=
    (hbatch.relationships r hmem).resolve_left fun hr => List.not_mem_nil hr.1
  have hvmem : v ∈ p.visits := hvisits ▸ List.mem_append_left left hv
  have hhangs := hvs.hangs v hvmem
  -- The batch with the relationship holds the symbols of the file, so none of them is at the end.
  have hother : x.key ∉ v.extraction.symbols.map (·.key) := by
    intro hkey
    obtain ⟨y, hy, hyx⟩ := List.mem_map.1 hkey
    refine hfresh y (mem_written_symbols.2 ⟨.flush symbols relationships, ?_, hsub hy⟩) hyx
    exact List.mem_append_right _ List.mem_cons_self
  rcases hend with hend | hend
  · have hsource : r.source = v.node.key :=
      Option.some_inj.1 ((hhangs.source r hrv).resolve_right (hend ▸ hother))
    exact ⟨v, hvmem, hrv, hsource, x, hx, hend.trans hsource⟩
  · exact absurd (hend ▸ hhangs.target r hrv) hother

end Agenda

/-- What a successful full run leaves in a store that merges by key. The symbols are those found
last with their keys, and besides those of the store that neither share such a key nor belong to a
visited file. A run with batches of another size, and a second run that finds out the same, leaves
the same symbols. In a store that was empty the relationships are those found, and a second run
leaves them as they are unless it loses one, which takes a symbol with the key of a visited file. -/
theorem full_run (version : String) (s : Surroundings ε) (o : Options) {e e₁ : ε}
    {g g₁ : MemoryGraph} {report : Report} (hbase : o.base = none) (hg : g.Keyed)
    (hkeys : ((s.scan o.root (Path.normalizeExtensions o.extensions) e).map (keyOfFile o)).Nodup)
    (hrun : synchronize ((MemoryGraph.store version).beside ε) (s.beside _) o (e, g) =
      (.ok report, e₁, g₁)) :
    ∃ p, (∀ n, plan s { o with batchSize := n } e = .ok p) ∧
      p.turns = s.scan o.root (Path.normalizeExtensions o.extensions) e ∧
      (∀ x, x ∈ g₁.symbols ↔ lastWith (found p.visits).symbols x.key = some x ∨
        x ∈ g.symbols ∧ (∀ y ∈ (found p.visits).symbols, y.key ≠ x.key) ∧
          ∀ v ∈ p.visits, v.node.key ≠ x.fileKey) ∧
      (∀ n, ∃ report' e' g', synchronize ((MemoryGraph.store version).beside ε) (s.beside _)
          { o with batchSize := n } (e, g) = (.ok report', e', g') ∧
        ∀ x, x ∈ g'.symbols ↔ x ∈ g₁.symbols) ∧
      (g = {} → ∀ r, r ∈ g₁.relationships ↔ r ∈ (found p.visits).relationships) ∧
      ∀ n e₂, plan s { o with batchSize := n } e₂ = .ok p →
        ∃ report' e' g₂, synchronize ((MemoryGraph.store version).beside ε) (s.beside _)
            { o with batchSize := n } (e₂, g₁) = (.ok report', e', g₂) ∧
          (∀ x, x ∈ g₂.symbols ↔ x ∈ g₁.symbols) ∧
          (g = {} → ((∀ r, r ∈ g₂.relationships ↔ r ∈ g₁.relationships) ↔
            ∀ r ∈ g₁.relationships, ¬ g₁.Loses (agenda s { o with batchSize := n } e₂) r)) ∧
          (g = {} → (∀ x ∈ (found p.visits).symbols, ∀ v ∈ p.visits, x.key ≠ v.node.key) →
            ∀ r, r ∈ g₂.relationships ↔ r ∈ g₁.relationships) := by
  obtain ⟨hversion, rfl, p, hp, hturns⟩ := plan_of_synchronize version s o hrun
  obtain ⟨p', hp', hscan, -⟩ := plan_of_base_eq_none s o hbase e
  obtain rfl := Except.ok.inj (hp.symm.trans hp')
  have hvs : Itinerary p.visits := plan_itinerary s o hp (hscan ▸ hkeys)
  have hplan : ∀ n, plan s { o with batchSize := n } e = .ok p :=
    fun n => (plan_batchSize s o n e).trans hp
  have hg₁ := MemoryGraph.keyed_foldl_after (agenda s o e) hg
  refine ⟨p, hplan, hturns.trans hscan, fun x => mem_symbols_agenda s o hp hvs hg, fun n => ?_, ?_,
    fun n e₂ hp₂ => ?_⟩
  · obtain ⟨report', e', hrun'⟩ := synchronize_of_plan version s { o with batchSize := n } hversion
      (hplan n) hturns g
    refine ⟨report', e', _, hrun', fun x => ?_⟩
    rw [mem_symbols_agenda s _ (hplan n) hvs hg, mem_symbols_agenda s o hp hvs hg]
  · rintro rfl r
    exact mem_relationships_of_empty s o hp hvs
  · obtain ⟨report', e', hrun'⟩ := synchronize_of_plan version s { o with batchSize := n } hversion
      hp₂ hturns ((agenda s o e).foldl after g)
    refine ⟨report', e', _, hrun', fun x => mem_symbols_again s o hp hp₂ hvs hg, ?_, ?_⟩
    · rintro rfl
      refine forall_congr' fun r => ?_
      rw [mem_relationships_agenda s _ hp₂ hvs hg₁, mem_relationships_of_empty s o hp hvs,
        or_self]
      exact and_iff_left_iff_imp
    · rintro rfl hclash r
      rw [mem_relationships_agenda s _ hp₂ hvs hg₁, mem_relationships_of_empty s o hp hvs,
        or_self]
      refine and_iff_left_of_imp fun hr hloses => ?_
      obtain ⟨v, hv, -, -, x, hx, hkey⟩ := clash_of_loses s _ hp₂ hvs hr hloses
      have hfound := (mem_symbols_agenda s o hp hvs hg).1 hx
      have hlast := hfound.resolve_right fun h => List.not_mem_nil h.1
      exact hclash x (lastWith_eq_some hlast).1 v hv hkey

/-- Two full runs over two files that declare one class and a document with one element. The store
has symbols of the class, of one of the files and of a file that is not there. -/
theorem full_run_of_partial_class :
    let known : Knowledge := fun path _ =>
      let line := if path = "/w/A.cs" then 1 else 2
      .ok [⟨"C", .classDecl, "C", "C", .pub, line, 3, none,
        [⟨"M", .method, "C.M", "C.M()", .pub, line, line, none, []⟩]⟩]
    let t := SourceTree.ofTexts "/" "/w" [("/w/A.cs", "partial class C\n{ void M(); }\n"),
      ("/w/B.cs", "\npartial class C\n{ void M() { } }\n"), ("/w/c.xml", "<x/>")]
    let s := t.surroundings known none
    let o : Options := { root := "/w", repoKey := "r" }
    let stored (key fileKey : String) : Symbol := { (default : Symbol) with key, fileKey }
    let g : MemoryGraph := { symbols :=
      [stored "r:Old" "r:Old.cs", stored "r:Gone" "r:A.cs", stored "r:C" "r:Old.cs"] }
    let symbols (name : String) := (t.extraction o known ⟨"/w/" ++ name, name⟩).symbols
    (∃ report₁ e₁ g₁ report₂ e₂ g₂,
      synchronize ((MemoryGraph.store "5.26.0").beside Unit) (s.beside _) o ((), g) =
        (.ok report₁, e₁, g₁) ∧
      synchronize ((MemoryGraph.store "5.26.0").beside Unit) (s.beside _)
        { o with batchSize := 1 } ((), g₁) = (.ok report₂, e₂, g₂) ∧
      (symbols "B.cs").map (·.key) = ["r:C", "r:C.M()"] ∧
      ∀ x, x ∈ g₂.symbols ↔
        x = stored "r:Old" "r:Old.cs" ∨ x ∈ symbols "B.cs" ∨ x ∈ symbols "c.xml") ∧
    ∃ report₁ e₁ g₁ report₂ e₂ g₂,
      synchronize ((MemoryGraph.store "5.26.0").beside Unit) (s.beside _) o ((), {}) =
        (.ok report₁, e₁, g₁) ∧
      synchronize ((MemoryGraph.store "5.26.0").beside Unit) (s.beside _)
        { o with batchSize := 1 } ((), g₁) = (.ok report₂, e₂, g₂) ∧
      ∀ r, r ∈ g₂.relationships ↔ r = ⟨"r:C", "r:C.M()", .contains⟩ ∨
        r = ⟨"r:c.xml", "r:c.xml:XmlElement:x:1", .contains⟩ := by
  intro known t s o stored g symbols
  let l := t.files.flatMap fun f => (t.extraction o known f).symbols
  have hs := t.shows_surroundings (Path.normalizeExtensions o.extensions) known none
  obtain ⟨p, hp, hworklist, hturns, -, htours⟩ := plan_full (o := o) hs rfl ()
  rw [hworklist] at htours
  have hkeys : (t.files.map (keyOfFile o)).Nodup := by decide +kernel
  have hfound : (found p.visits).symbols = l := htours.found_symbols
  refine ⟨?_, ?_⟩
  · have hkeyed : (g.symbols.map (·.key)).Nodup := by decide +kernel
    obtain ⟨report₁, e₁, hrun⟩ := synchronize_of_plan "5.26.0" s o rfl hp hturns g
    obtain ⟨p', hplan, -, hsymbols, -, -, hagain⟩ :=
      full_run "5.26.0" s o rfl hkeyed hkeys hrun
    obtain rfl := Except.ok.inj (hp.symm.trans (hplan o.batchSize))
    obtain ⟨report₂, e₂, g₂, hrun₂, hsame, -, -⟩ := hagain 1 () (hplan 1)
    refine ⟨report₁, e₁, _, report₂, e₂, g₂, hrun, hrun₂, by decide +kernel, fun x => ?_⟩
    have hlast : ∀ x ∈ l, lastWith l x.key = some x ↔ x ∈ symbols "B.cs" ∨ x ∈ symbols "c.xml" := by
      decide +kernel
    have hwritten : ∀ x, lastWith l x.key = some x ↔ x ∈ symbols "B.cs" ∨ x ∈ symbols "c.xml" := by
      have hsub : symbols "B.cs" ++ symbols "c.xml" ⊆ l := by decide +kernel
      refine fun x => ⟨fun h => (hlast x (lastWith_eq_some h).1).1 h, fun h => ?_⟩
      exact (hlast x (hsub (List.mem_append.2 h))).2 h
    have hkept : ∀ x ∈ g.symbols, ((∀ y ∈ l, y.key ≠ x.key) ∧
        ∀ k ∈ t.files.map (keyOfFile o), k ≠ x.fileKey) ↔ x = stored "r:Old" "r:Old.cs" := by
      decide +kernel
    have hleft : (x ∈ g.symbols ∧ (∀ y ∈ l, y.key ≠ x.key) ∧
        ∀ k ∈ t.files.map (keyOfFile o), k ≠ x.fileKey) ↔ x = stored "r:Old" "r:Old.cs" := by
      refine ⟨fun h => (hkept x h.1).1 h.2, ?_⟩
      rintro rfl
      exact ⟨List.mem_cons_self, (hkept _ List.mem_cons_self).2 rfl⟩
    rw [← htours.keys, List.forall_mem_map] at hleft
    rw [hsame, hsymbols, hfound, hwritten, hleft, or_comm]
  · obtain ⟨report₁, e₁, hrun⟩ := synchronize_of_plan "5.26.0" s o rfl hp hturns {}
    obtain ⟨p', hplan, -, -, -, hrelationships, hagain⟩ :=
      full_run "5.26.0" s o rfl MemoryGraph.keyed_empty hkeys hrun
    obtain rfl := Except.ok.inj (hp.symm.trans (hplan o.batchSize))
    obtain ⟨report₂, e₂, g₂, hrun₂, -, -, hsame⟩ := hagain 1 () (hplan 1)
    have hplain : ∀ x ∈ (found p.visits).symbols, ∀ v ∈ p.visits, x.key ≠ v.node.key := by
      have hfiles : ∀ x ∈ l, ∀ k ∈ t.files.map (keyOfFile o), x.key ≠ k := by decide +kernel
      rw [hfound]
      rw [← htours.keys] at hfiles
      exact fun x hx v hv => hfiles x hx _ (List.mem_map_of_mem hv)
    refine ⟨report₁, e₁, _, report₂, e₂, g₂, hrun, hrun₂, fun r => ?_⟩
    have hlinks : (t.files.flatMap fun f => (t.extraction o known f).relationships) =
        [⟨"r:C", "r:C.M()", .contains⟩, ⟨"r:C", "r:C.M()", .contains⟩,
          ⟨"r:c.xml", "r:c.xml:XmlElement:x:1", .contains⟩] := by decide +kernel
    rw [hsame rfl hplain, hrelationships rfl, htours.mem_relationships, ← List.mem_flatMap, hlinks]
    simp

end CodeGraph.Run
