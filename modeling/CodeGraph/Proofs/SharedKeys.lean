import CodeGraph.Proofs.FullRun

/-!
# Shared keys

Several files may declare the same symbol. The store holds the one declared last, as a symbol of
the file that declares it. When that file is visited again and declares the symbol no more, the
symbol is gone, even if another file that has not changed still declares it (`kept_iff`).
-/

namespace CodeGraph.Run

open MemoryGraph (after)

variable {ε : Type}

section Agenda

variable (s : Surroundings ε) (o : Options) {e : ε} {p : Plan} {g : MemoryGraph}

theorem visits_worklist (hp : plan s o e = .ok p) : ∀ v ∈ p.visits, ∃ f ∈ p.worklist,
    v.node.path = f.path ∧ v.node.key = keyOfFile o f := by
  intro v hv
  obtain ⟨e', ts, -, hts, -, hvisits, -⟩ := plan_eq_ok s o hp
  rw [hvisits] at hv
  obtain ⟨turn, hturn, hv⟩ := List.mem_filterMap.1 hv
  have hfront := turns_isPrefix s o p.worklist.length 0 p.worklist e'
  rw [← hts] at hfront
  refine ⟨turn.1, hfront.subset (List.mem_map_of_mem hturn), ?_⟩
  obtain ⟨bytes, -, rfl⟩ := Option.map_eq_some_iff.1 hv
  exact ⟨rfl, rfl⟩

theorem plan_worklist_sublist (hp : plan s o e = .ok p) :
    p.worklist.Sublist (s.scan o.root (Path.normalizeExtensions o.extensions) e) := by
  rcases hc : changesOf s o e with ⟨x | changes, e'⟩
  · simp only [plan, hc, reduceCtorEq] at hp
  · obtain ⟨p', hp', -, hdiscovered⟩ := plan_of_changes s o hc
    obtain rfl := Except.ok.inj (hp.symm.trans hp')
    rw [← hdiscovered]
    exact p.worklist_sublist

theorem visits_modified (hp : plan s o e = .ok p) (hmode : p.changes.mode = .incremental) :
    ∀ v ∈ p.visits, v.node.path ∈ p.changes.modified := by
  intro v hv
  obtain ⟨f, hf, hpath, -⟩ := visits_worklist s o hp v hv
  rw [Plan.worklist, ChangeSet.worklist, if_pos hmode] at hf
  rw [hpath, ← List.contains_iff_mem]
  exact (List.mem_filter.1 hf).2

/-- The key of a symbol stays in the store if the file of the symbol is not visited, or else if the
key is found again. -/
theorem kept_iff (hp : plan s o e = .ok p) (hvs : Itinerary p.visits) (hg : g.Keyed) {z : Symbol}
    (hz : z ∈ g.symbols) :
    (∃ y ∈ ((agenda s o e).foldl after g).symbols, y.key = z.key) ↔
      (∀ v ∈ p.visits, v.node.key ≠ z.fileKey) ∨
        ∃ v ∈ p.visits, ∃ y ∈ v.extraction.symbols, y.key = z.key := by
  rw [MemoryGraph.holds_foldl_after hg (lasting_agenda s o hp hvs), written_agenda s o hp,
    deletedKeys_agenda s o hp, or_comm]
  refine or_congr ⟨?_, fun h => ⟨z, hz, rfl, by simpa using h⟩⟩ ?_
  · rintro ⟨y, hy, hkey, hfile⟩
    obtain rfl := hg.eq_of_key hy hz hkey
    simpa using hfile
  · constructor
    · rintro ⟨y, hy, hkey⟩
      obtain ⟨v, hv, hyv⟩ := mem_found_symbols.1 hy
      exact ⟨v, hv, y, hyv, hkey⟩
    · rintro ⟨v, hv, y, hyv, hkey⟩
      exact ⟨y, mem_found_symbols.2 ⟨v, hv, hyv⟩, hkey⟩

end Agenda

/-- What becomes of the keys that the files of a tree declare, after a full run into an empty store
and another run, whatever the latter comes to. A key stays if the file that declared it last is not
visited, or else if a visited file declares it. So it stays if no file that declared it is visited.
An incremental run visits only files that are reported as modified. -/
theorem key_kept_iff {ε₀ ε₁ : Type} (version : String) (s₀ : Surroundings ε₀)
    (s₁ : Surroundings ε₁) (o₀ o₁ : Options) {e₀ e₀' : ε₀} {e₁ e₁' : ε₁} {g₀ g₁ : MemoryGraph}
    {report : Report} {result : Except Error Report} (hbase : o₀.base = none)
    (hkeys₀ : ((s₀.scan o₀.root (Path.normalizeExtensions o₀.extensions) e₀).map
      (keyOfFile o₀)).Nodup)
    (hkeys₁ : ((s₁.scan o₁.root (Path.normalizeExtensions o₁.extensions) e₁).map
      (keyOfFile o₁)).Nodup)
    (hrun₀ : synchronize ((MemoryGraph.store version).beside ε₀) (s₀.beside _) o₀ (e₀, {}) =
      (.ok report, e₀', g₀))
    (hrun₁ : synchronize ((MemoryGraph.store version).beside ε₁) (s₁.beside _) o₁ (e₁, g₀) =
      (result, e₁', g₁)) :
    ∃ p₀, plan s₀ o₀ e₀ = .ok p₀ ∧ (∀ x, plan s₁ o₁ e₁ = .error x → g₁ = g₀) ∧
      ∀ p₁, plan s₁ o₁ e₁ = .ok p₁ →
        (p₁.changes.mode = .incremental → ∀ w ∈ p₁.visits, w.node.path ∈ p₁.changes.modified) ∧
        ∀ v ∈ p₀.visits, ∀ x ∈ v.extraction.symbols,
          (∃ u ∈ p₀.visits, ∃ z ∈ u.extraction.symbols, z.fileKey = u.node.key ∧
            lastWith (found p₀.visits).symbols x.key = some z ∧
            ((∃ y ∈ g₁.symbols, y.key = x.key) ↔
              (∀ w ∈ p₁.visits, w.node.key ≠ u.node.key) ∨
                ∃ w ∈ p₁.visits, ∃ y ∈ w.extraction.symbols, y.key = x.key)) ∧
          ((∀ u ∈ p₀.visits, ∀ z ∈ u.extraction.symbols, z.key = x.key →
            ∀ w ∈ p₁.visits, w.node.key ≠ u.node.key) → ∃ y ∈ g₁.symbols, y.key = x.key) := by
  obtain ⟨hversion, rfl, p₀, hp₀, -⟩ := plan_of_synchronize version s₀ o₀ hrun₀
  obtain ⟨p, hp, hscan, -⟩ := plan_of_base_eq_none s₀ o₀ hbase e₀
  obtain rfl := Except.ok.inj (hp₀.symm.trans hp)
  have hvs₀ : Itinerary p₀.visits := plan_itinerary s₀ o₀ hp₀ (hscan ▸ hkeys₀)
  have hg₁ : g₁ = (agenda s₁ o₁ e₁).foldl after ((agenda s₀ o₀ e₀).foldl after {}) := by
    obtain ⟨e', t, hrun⟩ := synchronize_store version s₁ o₁ e₁ ((agenda s₀ o₀ e₀).foldl after {})
    rw [hrun₁, hversion] at hrun
    exact (Prod.mk.inj (Prod.mk.inj hrun).2).2
  refine ⟨p₀, hp₀, fun x hx => ?_, fun p₁ hp₁ => ⟨visits_modified s₁ o₁ hp₁, fun v hv x hx => ?_⟩⟩
  · rw [hg₁, agenda_of_error s₁ o₁ hx]
    rfl
  have hvs₁ : Itinerary p₁.visits := by
    refine plan_itinerary s₁ o₁ hp₁ ((List.Sublist.map _ ?_).nodup hkeys₁)
    exact plan_worklist_sublist s₁ o₁ hp₁
  obtain ⟨z, hz⟩ := lastWith_isSome (mem_found_symbols.2 ⟨v, hv, hx⟩)
  obtain ⟨hzfound, hzkey⟩ := lastWith_eq_some hz
  obtain ⟨u, hu, hzu⟩ := mem_found_symbols.1 hzfound
  have hzg : z ∈ ((agenda s₀ o₀ e₀).foldl after {}).symbols :=
    (mem_symbols_agenda s₀ o₀ hp₀ hvs₀ MemoryGraph.keyed_empty).2 (.inl (hzkey ▸ hz))
  have hkept := kept_iff s₁ o₁ hp₁ hvs₁
    (MemoryGraph.keyed_foldl_after _ MemoryGraph.keyed_empty) hzg
  have howned := (hvs₀.hangs u hu).owned z hzu
  rw [← hg₁, hzkey, howned] at hkept
  exact ⟨⟨u, hu, z, hzu, howned, hz, hkept⟩, fun hall => hkept.2 (.inl (hall u hu z hzu hzkey))⟩

/-- Two files declare a class. The one that declared it last declares it no more, and the class is
gone. -/
theorem shared_key_lost :
    let known : Knowledge := fun _ content => .ok (if content = "partial class C;" then
      [⟨"C", .classDecl, "C", "C", .pub, 1, 1, none, []⟩] else [])
    let t₀ := SourceTree.ofTexts "/" "/w"
      [("/w/A.cs", "partial class C;"), ("/w/B.cs", "partial class C;")]
    let t₁ := SourceTree.ofTexts "/" "/w" [("/w/A.cs", "partial class C;"), ("/w/B.cs", "")]
    let o : Options := { root := "/w", repoKey := "r", base := some "HEAD" }
    ∃ report₀ e₀ g₀ report₁ e₁ g₁,
      synchronize ((MemoryGraph.store "5.26.0").beside Unit)
          ((t₀.surroundings known none).beside _) { o with base := none } ((), {}) =
        (.ok report₀, e₀, g₀) ∧
      synchronize ((MemoryGraph.store "5.26.0").beside Unit)
          ((t₁.surroundings known (some (t₀.changes t₁))).beside _) o ((), g₀) =
        (.ok report₁, e₁, g₁) ∧
      ¬ ∃ y ∈ g₁.symbols, y.key = "r:C" := by
  intro known t₀ t₁ o
  let o₀ : Options := { o with base := none }
  have hs₀ := t₀.shows_surroundings (Path.normalizeExtensions o.extensions) known none
  have hs₁ := t₁.shows_surroundings (Path.normalizeExtensions o.extensions) known
    (some (t₀.changes t₁))
  obtain ⟨p₀, hp₀, hworklist, hturns₀, -, htours₀⟩ := plan_full (o := o₀) hs₀ rfl ()
  obtain ⟨p₁, hp₁, hworklist₁, hturns₁, -, htours₁⟩ :=
    plan_incremental hs₁ rfl rfl rfl (t₀.tells_changes t₁ "HEAD" _) ()
  obtain ⟨report₀, e₀, hrun₀⟩ := synchronize_of_plan "5.26.0" _ o₀ rfl hp₀ hturns₀ {}
  obtain ⟨report₁, e₁, hrun₁⟩ := synchronize_of_plan "5.26.0" _ o rfl hp₁ hturns₁
    ((agenda (t₀.surroundings known none) o₀ ()).foldl after {})
  obtain ⟨p, hp, -, hkept⟩ := key_kept_iff "5.26.0" _ _ o₀ o rfl (by decide +kernel)
    (by decide +kernel) hrun₀ hrun₁
  obtain rfl := Except.ok.inj (hp₀.symm.trans hp)
  rw [hworklist] at htours₀
  rw [hworklist₁] at htours₁
  have hdeclared : ∃ f ∈ t₀.files, ∃ x ∈ (t₀.extraction o₀ known f).symbols, x.key = "r:C" := by
    decide +kernel
  obtain ⟨v, hv, x, hx, hkey⟩ :=
    (htours₀.exists_visit_iff fun _ e => ∃ x ∈ e.symbols, x.key = "r:C").2 hdeclared
  obtain ⟨u, -, z, -, hfile, hlast, hiff⟩ := ((hkept p₁ hp₁).2 v hv x hx).1
  have hlastFile : (lastWith (t₀.files.flatMap fun f => (t₀.extraction o₀ known f).symbols)
      "r:C").map (·.fileKey) = some "r:B.cs" := by decide +kernel
  rw [hkey] at hlast hiff
  rw [← htours₀.found_symbols, hlast, Option.map_some, hfile] at hlastFile
  refine ⟨report₀, e₀, _, report₁, e₁, _, hrun₀, hrun₁, fun hstays => ?_⟩
  rcases hiff.1 hstays with hother | hagain
  · have hvisited : ∃ f ∈ t₀.changed t₁, keyOfFile o f = "r:B.cs" := by decide +kernel
    obtain ⟨w, hw, hwkey⟩ := (htours₁.exists_visit_iff fun k _ => k = "r:B.cs").2 hvisited
    exact hother w hw (hwkey.trans (Option.some_inj.1 hlastFile).symm)
  · have hsilent : ¬ ∃ f ∈ t₀.changed t₁,
        ∃ y ∈ (t₁.extraction o known f).symbols, y.key = "r:C" := by decide +kernel
    exact hsilent ((htours₁.exists_visit_iff fun _ e => ∃ y ∈ e.symbols, y.key = "r:C").1 hagain)

end CodeGraph.Run
