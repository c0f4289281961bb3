import CodeGraph.Proofs.FullRun
import CodeGraph.Rehearsal.Store

/-!
# Runs that fail

The symbols that a file had are deleted at once, while those found in it wait in the buffer for the
next batch. If a request fails in the meantime, what waits is not written: nothing of these files is
left in the store (`failed_run`). The files whose batch has been written are not affected.
-/

namespace CodeGraph

open MemoryGraph (after)

namespace MemoryGraph

def symbolsOf (g : MemoryGraph) (fileKey : String) : List Symbol :=
  g.symbols.filter (·.fileKey == fileKey)

/-- There are symbols with the keys of all these. -/
def Holds (g : MemoryGraph) (l : List Symbol) : Prop := ∀ x ∈ l, ∃ y ∈ g.symbols, y.key = x.key

end MemoryGraph

namespace GraphStore

open Run (FlushTotals)

variable {σ : Type} {store : GraphStore σ} {graph : σ → MemoryGraph}

/-- A store that merges by key what it accepts. What it refuses changes nothing. -/
structure Merges (store : GraphStore σ) (graph : σ → MemoryGraph) : Prop where
  accepts : ∀ {c g r g'}, store.request c g = (.ok r, g') → graph g' = (graph g).after c
  refuses : ∀ {c g x g'}, store.request c g = (.error x, g') → graph g' = graph g

theorem Merges.serve (hstore : store.Merges graph) {l : List StoreCall} {t t' : FlushTotals}
    {g g' : σ} (h : store.serve l t g = (.ok (), t', g')) :
    graph g' = l.foldl after (graph g) := by
  refine store.serve_preserves (I := fun m _ g => m.foldl after (graph g) = _)
    (fun hc hI => ?_) h rfl
  rw [← hI, List.foldl_cons, hstore.accepts hc]

theorem Merges.verifyVersion (hstore : store.Merges graph) {g g' : σ}
    (h : store.verifyVersion g = (.ok (), g')) : graph g' = graph g := by
  simp only [GraphStore.verifyVersion] at h
  rcases hc : store.request .serverVersion g with ⟨x | version, g₁⟩ <;> simp only [hc] at h
  · cases (Prod.mk.inj h).1
  · rw [← (Prod.mk.inj h).2]
    exact hstore.accepts hc

theorem merges_rehearsal : Rehearsal.Store.requests.Merges Rehearsal.Store.graph where
  accepts {c g r g'} h := by
    obtain ⟨r', hr⟩ := MemoryGraph.request_store g.version c g.graph
    simp only [Rehearsal.Store.requests, hr] at h
    split at h
    · cases (Prod.mk.inj h).1
    · rw [← (Prod.mk.inj h).2]
  refuses {c g x g'} h := by
    obtain ⟨r', hr⟩ := MemoryGraph.request_store g.version c g.graph
    simp only [Rehearsal.Store.requests, hr] at h
    split at h
    · rw [← (Prod.mk.inj h).2]
    · cases (Prod.mk.inj h).1

end GraphStore

namespace Run

variable {ε σ : Type}

/-! ## What waits and what has been written -/

theorem found_append : ∀ vs ws : List Visit, found (vs ++ ws) = found vs ++ found ws
  | [], _ => rfl
  | v :: vs, ws => by rw [List.cons_append, found, found_append vs, found, Extraction.append_assoc]

namespace Buffer

theorem isFull_receive {b : Buffer} (hb : 0 < b.threshold) (e : Extraction) :
    (b.receive e).2.isFull = false := by
  simp only [receive]
  split
  · exact isFull_eq_false.2 ⟨hb, hb⟩
  · exact Bool.eq_false_iff.2 ‹_›

/-- The requests for visits in a row, and what they leave in the buffer. -/
def receiveAll (repoKey : String) : Buffer → List Visit → List StoreCall × Buffer
  | b, [] => ([], b)
  | b, v :: vs =>
    let rest := (b.receive v.extraction).2.receiveAll repoKey vs
    (.upsertFile repoKey v.node :: .deletePriorSymbols v.node.key ::
      ((b.receive v.extraction).1 ++ rest.1), rest.2)

variable {repoKey : String}

theorem fileRequests_append (ws : List Visit) : ∀ (vs : List Visit) (b : Buffer),
    fileRequests repoKey b (vs ++ ws) =
      (b.receiveAll repoKey vs).1 ++ fileRequests repoKey (b.receiveAll repoKey vs).2 ws
  | [], _ => rfl
  | v :: vs, b => by
    simp only [List.cons_append, fileRequests, receiveAll, fileRequests_append ws vs,
      List.append_assoc]

theorem files_receiveAll (vs : List Visit) (b : Buffer) :
    (b.receiveAll repoKey vs).1.filterMap StoreCall.file? = vs.map (·.node) := by
  have h : (fileRequests repoKey b (vs ++ [])).filterMap StoreCall.file? = _ :=
    files_fileRequests (vs ++ []) b
  rw [fileRequests_append, List.filterMap_append, fileRequests,
    (isBatch_drain _).files_eq_nil] at h
  simpa using h

theorem deletedKeys_receiveAll (vs : List Visit) (b : Buffer) :
    deletedKeys (b.receiveAll repoKey vs).1 = vs.map (·.node.key) := by
  have h : deletedKeys (fileRequests repoKey b (vs ++ [])) = _ :=
    deletedKeys_fileRequests (vs ++ []) b
  rw [fileRequests_append, deletedKeys_append, fileRequests,
    (isBatch_drain _).deletedKeys_eq_nil] at h
  simpa using h

variable (repoKey)

theorem receiveAll_slack : ∀ (vs : List Visit) {b : Buffer}, 0 < b.threshold → b.isFull = false →
    (b.receiveAll repoKey vs).2.threshold = b.threshold ∧
      (b.receiveAll repoKey vs).2.isFull = false
  | [], _, _, h => ⟨rfl, h⟩
  | v :: vs, b, hb, _ => by
    have hthreshold := b.receive_threshold v.extraction
    rw [← hthreshold] at hb ⊢
    exact receiveAll_slack vs hb (isFull_receive (hthreshold ▸ hb) _)

/-- What waits was found in the last files, and what was found before has been written. -/
theorem receiveAll_split : ∀ (vs ws : List Visit) {b : Buffer},
    b.pending = found ws → ∃ flushed waiting, ws ++ vs = flushed ++ waiting ∧
      written (b.receiveAll repoKey vs).1 = found flushed ∧
        (b.receiveAll repoKey vs).2.pending = found waiting
  | [], ws, b, h => ⟨[], ws, List.append_nil ws, rfl, h⟩
  | v :: vs, ws, b, h => by
    have hpush : (b.push v.extraction).pending = found (ws ++ [v]) := by
      rw [found_append, ← h, found, found, Extraction.append_empty]
      rfl
    have hhead : written (b.receiveAll repoKey (v :: vs)).1 = written (b.receive v.extraction).1 ++
        written ((b.receive v.extraction).2.receiveAll repoKey vs).1 :=
      written_append _ _
    have htail : (b.receiveAll repoKey (v :: vs)).2 =
        ((b.receive v.extraction).2.receiveAll repoKey vs).2 := rfl
    rw [hhead, htail]
    rcases b.receive_cases v.extraction with hreceive | hreceive <;> rw [hreceive]
    · obtain ⟨flushed, waiting, hsplit, hwritten, hwaiting⟩ := receiveAll_split vs _ hpush
      exact ⟨flushed, waiting, by simpa using hsplit, hwritten, hwaiting⟩
    · obtain ⟨flushed, waiting, hsplit, hwritten, hwaiting⟩ :=
        receiveAll_split vs [] (b := (b.push v.extraction).take.2) rfl
      refine ⟨ws ++ v :: flushed, waiting, by simp_all, ?_, hwaiting⟩
      rw [hwritten, written_drain, hpush, ← found_append, List.append_assoc]
      rfl

end Buffer

/-! ## Where a run fails -/

section Failing

variable {repoKey : String} {c : StoreCall} {l l₂ : List StoreCall}

/-- If no file is written up to a request, there is none left, and the request comes first. -/
theorem eq_nil_of_files {ws : List Visit} {b : Buffer}
    (h : fileRequests repoKey b ws = l ++ c :: l₂)
    (hfiles : (l ++ [c]).filterMap StoreCall.file? = []) : l = [] ∧ ws = [] := by
  rcases ws with _ | ⟨w, ws⟩
  · rcases b.isBatch_drain with hb | ⟨_, _, hb⟩ <;> rw [fileRequests, hb] at h
    · simp at h
    · rcases List.singleton_eq_append_iff.1 h with ⟨h, -⟩ | ⟨-, h⟩
      · exact ⟨h, rfl⟩
      · cases h
  · rcases l with _ | ⟨d, l⟩
    · obtain ⟨rfl, -⟩ := List.cons.inj h
      cases hfiles
    · obtain ⟨rfl, -⟩ := List.cons.inj h
      cases hfiles

theorem written_ahead {v : Visit} {rest : List Visit} {b : Buffer}
    (h : fileRequests repoKey b (v :: rest) = l ++ c :: l₂)
    (hfiles : (l ++ [c]).filterMap StoreCall.file? = [v.node]) :
    written l = .empty ∧ deletedKeys l ⊆ [v.node.key] := by
  rcases l with _ | ⟨d, _ | ⟨d', l⟩⟩
  · exact ⟨rfl, List.nil_subset _⟩
  · obtain ⟨rfl, -⟩ := List.cons.inj h
    exact ⟨rfl, List.nil_subset _⟩
  obtain ⟨hd, h⟩ := List.cons.inj h
  obtain ⟨hd', h⟩ := List.cons.inj h
  rw [← hd, ← hd'] at hfiles ⊢
  have hfiles : (l ++ [c]).filterMap StoreCall.file? = [] := (List.cons.inj hfiles).2
  suffices hl : l = [] by
    rw [hl]
    exact ⟨rfl, List.Subset.refl _⟩
  rcases b.receive_cases v.extraction with hreceive | hreceive <;> rw [hreceive] at h
  · exact (eq_nil_of_files h hfiles).1
  rcases (b.push v.extraction).isBatch_drain with hb | ⟨_, _, hb⟩ <;> rw [hb] at h
  · exact (eq_nil_of_files h hfiles).1
  rcases l with _ | ⟨d, l⟩
  · rfl
  -- After this batch the buffer is empty, so there is no other one before the next file.
  · obtain ⟨-, h⟩ := List.cons.inj h
    obtain ⟨rfl, rfl⟩ := eq_nil_of_files h (List.filterMap_eq_nil_iff.2 fun d hd =>
      List.filterMap_eq_nil_iff.1 hfiles d (List.mem_cons_of_mem _ hd))
    cases h

variable (s : Surroundings ε) (o : Options) {e : ε} {p : Plan} {done rest : List Visit} {v : Visit}

/-- The requests of a run up to one for the file `v`. -/
theorem cut_agenda (hp : plan s o e = .ok p) (hvisits : p.visits = done ++ v :: rest)
    (h : agenda s o e = l ++ c :: l₂)
    (hfiles : (l ++ [c]).filterMap StoreCall.file? = (done ++ [v]).map (·.node)) :
    ∃ flushed waiting, done = flushed ++ waiting ∧ written l = found flushed ∧
      (found waiting).symbols.length < max o.batchSize 1 ∧
      (found waiting).relationships.length < max o.batchSize 1 ∧
      done.map (·.node.key) ⊆ deletedKeys l ∧
      deletedKeys l ⊆ (done ++ [v]).map (·.node.key) := by
  obtain ⟨head, hhead, hagenda⟩ := agenda_eq_append s o hp
  have hheadfiles : head.filterMap StoreCall.file? = [] :=
    List.filterMap_eq_nil_iff.2 fun c hc => (hhead c hc).2.2
  have hheadkeys : deletedKeys head = [] :=
    List.filterMap_eq_nil_iff.2 fun c hc => (hhead c hc).2.1
  have hpositive : 0 < (Buffer.new o.batchSize).threshold := by
    show 0 < max o.batchSize 1
    omega
  have hempty : (Buffer.new o.batchSize).isFull = false :=
    Buffer.isFull_eq_false.2 ⟨hpositive, hpositive⟩
  obtain ⟨hthreshold, hslack⟩ :=
    Buffer.receiveAll_slack o.repoKey done hpositive hempty
  obtain ⟨flushed, waiting, hsplit, hwritten, hwaiting⟩ :=
    Buffer.receiveAll_split o.repoKey done [] (b := .new o.batchSize) rfl
  let r := (Buffer.new o.batchSize).receiveAll o.repoKey done
  have hr : (head ++ r.1).filterMap StoreCall.file? = done.map (·.node) := by
    rw [List.filterMap_append, hheadfiles, Buffer.files_receiveAll, List.nil_append]
  rw [hvisits, Buffer.fileRequests_append, ← List.append_assoc] at hagenda
  rcases append_eq_append_cons (hagenda.symm.trans h) with ⟨t, hearly, -⟩ | ⟨t, rfl, hlate⟩
  · -- There are too few files before the first request for `v`.
    rw [hearly, List.append_cons, List.filterMap_append, hfiles] at hr
    simpa using congrArg List.length hr
  rw [List.append_assoc, List.filterMap_append, hr, List.map_append, List.append_cancel_left_eq]
    at hfiles
  obtain ⟨hquiet, hkeys⟩ := written_ahead hlate hfiles
  have hslack : (found waiting).symbols.length < max o.batchSize 1 ∧
      (found waiting).relationships.length < max o.batchSize 1 := by
    rw [Buffer.isFull_eq_false, hthreshold, hwaiting] at hslack
    exact hslack
  have hdeleted : deletedKeys (head ++ r.1 ++ t) = done.map (·.node.key) ++ deletedKeys t := by
    rw [deletedKeys_append, deletedKeys_append, hheadkeys, Buffer.deletedKeys_receiveAll,
      List.nil_append]
  refine ⟨flushed, waiting, hsplit, ?_, ?_, ?_, ?_, ?_⟩
  · rw [written_append, written_append, written_of_aside hhead, hwritten, hquiet,
      Extraction.append_empty]
    rfl
  · exact hslack.1
  · exact hslack.2
  · rw [hdeleted]
    exact List.subset_append_left _ _
  · rw [hdeleted, List.map_append]
    exact List.append_subset.2 ⟨List.subset_append_left _ _,
      List.Subset.trans hkeys (List.subset_append_right _ _)⟩

theorem failed_at {store : GraphStore σ} {graph : σ → MemoryGraph} (hstore : store.Merges graph)
    {g : σ} {x : GraphError}
    (hrun : (synchronize (store.beside ε) (s.beside σ) o (e, g)).1 = .error (.graph x))
    (hfiles : (requested store s o e g).filterMap StoreCall.file? ≠ []) :
    ∃ l c l₂, agenda s o e = l ++ c :: l₂ ∧
      requested store s o e g = .serverVersion :: (l ++ [c]) ∧
      graph (synchronize (store.beside ε) (s.beside σ) o (e, g)).2.2 =
        l.foldl after (graph g) := by
  obtain ⟨e', h⟩ := synchronize_beside store s o e g
  rw [requested_eq] at hfiles ⊢
  rcases hv : store.verifyVersion g with ⟨y | _, g₁⟩ <;> simp only [hv] at h hfiles ⊢
  · refine absurd ?_ hfiles
    simp only [GraphStore.served]
    split <;> rfl
  rw [store.served_serverVersion hv] at hfiles ⊢
  rcases hserve : store.serve (agenda s o e) {} g₁ with ⟨y | _, t, g₂⟩ <;> simp only [hserve] at h
  · obtain ⟨l, c, l₂, g₃, hagenda, haccepted, hrefused, hserved⟩ := store.serve_error hserve
    refine ⟨l, c, l₂, hagenda, by rw [hserved], ?_⟩
    rw [h]
    exact (hstore.refuses hrefused).trans ((hstore.serve haccepted).trans
      (by rw [hstore.verifyVersion hv]))
  · rw [h] at hrun
    exact absurd hrun (ending_ne_graph s o e t x)

end Failing

/-! ## What is left then -/

section Left

variable {g : MemoryGraph} {l : List StoreCall} {fileKey : String}

/-- The old symbols of a file, once deleted, keep the keys that are written again. -/
theorem holds_symbolsOf (hg : g.Keyed) (hl : MemoryGraph.Lasting l)
    (hgone : fileKey ∈ deletedKeys l) : (l.foldl after g).Holds (g.symbolsOf fileKey) ↔
      ∀ y ∈ g.symbolsOf fileKey, ∃ z ∈ (written l).symbols, z.key = y.key := by
  refine forall₂_congr fun y hy => (MemoryGraph.holds_foldl_after hg hl).trans (or_iff_left ?_)
  rintro ⟨z, hz, hkey, hfile⟩
  obtain ⟨hy, hyfile⟩ := List.mem_filter.1 hy
  obtain rfl := hg.eq_of_key hz hy hkey
  exact hfile (beq_iff_eq.1 hyfile ▸ hgone)

theorem symbolsOf_eq_nil (hg : g.Keyed) (hl : MemoryGraph.Lasting l)
    (hgone : fileKey ∈ deletedKeys l) (hwritten : ∀ z ∈ (written l).symbols, z.fileKey ≠ fileKey) :
    (l.foldl after g).symbolsOf fileKey = [] := by
  refine List.filter_eq_nil_iff.2 fun y hy hkey => ?_
  rcases (MemoryGraph.mem_symbols_foldl_after hg hl).1 hy with hlast | ⟨-, -, hfile⟩
  · exact hwritten y (lastWith_eq_some hlast).1 (beq_iff_eq.1 hkey)
  · exact hfile (beq_iff_eq.1 hkey ▸ hgone)

end Left

/-- What a run leaves that fails over the file `v` after the files `done`. Those whose batch has
been written have their new symbols. Of those that waited nothing is left, so that a key of theirs
is only there if it is also that of another file. -/
theorem failed_run {store : GraphStore σ} {graph : σ → MemoryGraph} (hstore : store.Merges graph)
    {s : Surroundings ε} {o : Options} {e : ε} {g : σ} {p : Plan} {x : GraphError}
    {done rest : List Visit} {v : Visit} (hg : (graph g).Keyed) (hp : plan s o e = .ok p)
    (hdistinct : (p.worklist.map (keyOfFile o)).Nodup)
    (hrun : (synchronize (store.beside ε) (s.beside σ) o (e, g)).1 = .error (.graph x))
    (hvisits : p.visits = done ++ v :: rest)
    (hfiles : (requested store s o e g).filterMap StoreCall.file? = (done ++ [v]).map (·.node)) :
    let g' := graph (synchronize (store.beside ε) (s.beside σ) o (e, g)).2.2
    let deleted := deletedKeys (requested store s o e g).dropLast
    ∃ flushed waiting, done = flushed ++ waiting ∧
      written (requested store s o e g).dropLast = found flushed ∧
      (found waiting).symbols.length < max o.batchSize 1 ∧
      (found waiting).relationships.length < max o.batchSize 1 ∧
      done.map (·.node.key) ⊆ deleted ∧ deleted ⊆ (done ++ [v]).map (·.node.key) ∧
      (∀ y, y ∈ g'.symbols ↔ lastWith (found flushed).symbols y.key = some y ∨
        y ∈ (graph g).symbols ∧ (∀ z ∈ (found flushed).symbols, z.key ≠ y.key) ∧
          y.fileKey ∉ deleted) ∧
      (∀ u ∈ flushed, g'.Holds u.extraction.symbols) ∧
      (∀ u ∈ waiting, g'.symbolsOf u.node.key = []) ∧
      ((∀ u ∈ done, g'.Holds ((graph g).symbolsOf u.node.key) ∨ g'.Holds u.extraction.symbols) ↔
        ∀ u ∈ waiting,
          (∀ y ∈ (graph g).symbolsOf u.node.key, ∃ z ∈ (found flushed).symbols, z.key = y.key) ∨
          ∀ y ∈ u.extraction.symbols, (∃ z ∈ (found flushed).symbols, z.key = y.key) ∨
            ∃ z ∈ (graph g).symbols, z.key = y.key ∧ z.fileKey ∉ deleted) ∧
      (o.batchSize ≤ 1 → ∀ u ∈ done, g'.Holds u.extraction.symbols) := by
  intro g' deleted
  obtain ⟨l, c, l₂, hagenda, hrequested, hg'⟩ := failed_at s o hstore hrun (by rw [hfiles]; simp)
  have hcut : (l ++ [c]).filterMap StoreCall.file? = (done ++ [v]).map (·.node) := by
    rw [hrequested] at hfiles
    exact hfiles
  obtain ⟨flushed, waiting, rfl, hwritten, hsymbols, hrelationships, hsub, hsub'⟩ :=
    cut_agenda s o hp hvisits hagenda hcut
  have haccepted : (requested store s o e g).dropLast = .serverVersion :: l := by
    rw [hrequested, ← List.cons_append, List.dropLast_concat]
  have hdeleted : deleted = deletedKeys l := by
    simp only [deleted, haccepted]
    rfl
  have hvs : Itinerary p.visits := plan_itinerary s o hp hdistinct
  have hl : MemoryGraph.Lasting l := (hagenda ▸ lasting_agenda s o hp hvs).left
  have hgone : ∀ u ∈ waiting, u.node.key ∈ deletedKeys l := fun u hu =>
    hsub (List.mem_map_of_mem (List.mem_append_right _ hu))
  have hkeys : (((flushed ++ waiting).map (·.node.key)) ++ (v :: rest).map (·.node.key)).Nodup := by
    have hdistinct := hvs.distinct
    rwa [hvisits, List.map_append] at hdistinct
  have hleft : g' = l.foldl after (graph g) := hg'
  rw [hdeleted, hleft, haccepted]
  have hflushed : ∀ u ∈ flushed, (l.foldl after (graph g)).Holds u.extraction.symbols :=
    fun u hu y hy => (MemoryGraph.holds_foldl_after hg hl).2 (.inl
      ⟨y, hwritten ▸ mem_found_symbols.2 ⟨u, hu, hy⟩, rfl⟩)
  refine ⟨flushed, waiting, rfl, hwritten, hsymbols, hrelationships, hsub, hsub',
    hwritten ▸ fun y => MemoryGraph.mem_symbols_foldl_after hg hl, hflushed, fun u hu => ?_,
    hwritten ▸ ⟨fun h u hu => ?_, fun h u hu => ?_⟩, fun hone u hu => ?_⟩
  · refine symbolsOf_eq_nil hg hl (hgone u hu) fun z hz => ?_
    rw [hwritten] at hz
    obtain ⟨w, hw, hzw⟩ := mem_found_symbols.1 hz
    have hwp : w ∈ p.visits := hvisits ▸ List.mem_append_left _ (List.mem_append_left _ hw)
    rw [(hvs.hangs w hwp).owned z hzw]
    rw [List.map_append] at hkeys
    exact (List.nodup_append.1 (List.nodup_append.1 hkeys).1).2.2 _ (List.mem_map_of_mem hw) _
      (List.mem_map_of_mem hu)
  · exact (h u (List.mem_append_right _ hu)).imp (holds_symbolsOf hg hl (hgone u hu)).1
      fun h y hy => (MemoryGraph.holds_foldl_after hg hl).1 (h y hy)
  · rcases List.mem_append.1 hu with hu | hu
    · exact .inr (hflushed u hu)
    · exact (h u hu).imp (holds_symbolsOf hg hl (hgone u hu)).2
        fun h y hy => (MemoryGraph.holds_foldl_after hg hl).2 (h y hy)
  · rcases List.mem_append.1 hu with hu | hu
    · exact hflushed u hu
    · -- A file that waits for a batch of one has no symbols.
      intro y hy
      have hlength := List.length_pos_of_mem (mem_found_symbols.2 ⟨u, hu, hy⟩)
      omega

/-- Two documents that a second run would leave as they are. The store refuses the second one, and
what it had of the first is gone. -/
theorem failed_run_of_documents :
    let t := SourceTree.ofTexts "/" "/w" [("/w/a.xml", "<x/>"), ("/w/b.xml", "<y/>")]
    let s := t.surroundings (fun _ _ => .ok []) none
    let o : Options := { root := "/w", repoKey := "r" }
    ∃ report e₀ g₀ x e₁ g₁,
      synchronize ((MemoryGraph.store "5.26.0").beside Unit) (s.beside _) o ((), {}) =
        (.ok report, e₀, g₀) ∧
      synchronize (Rehearsal.Store.requests.beside Unit) (s.beside _) o
        ((), { graph := g₀, mishaps := [⟨"upsert_file", 2, .query "refused"⟩] }) =
          (.error (.graph x), e₁, g₁) ∧
      g₀.symbolsOf "r:a.xml" ≠ [] ∧ g₁.graph.symbolsOf "r:a.xml" = [] := by
  intro t s o
  have hs := t.shows_surroundings (Path.normalizeExtensions o.extensions) (fun _ _ => .ok []) none
  obtain ⟨p, hp, hworklist, hturns, -, htours⟩ := plan_full (o := o) hs rfl ()
  obtain ⟨report, e₀, hrun₀⟩ := synchronize_of_plan "5.26.0" s o rfl hp hturns {}
  let g₀ := (agenda s o ()).foldl after {}
  let g : Rehearsal.Store :=
    { graph := g₀, mishaps := [⟨"upsert_file", 2, .query "refused"⟩] }
  have hrun : (synchronize (Rehearsal.Store.requests.beside Unit) (s.beside _) o ((), g)).1 =
      .error (.graph (.query "refused")) := by
    decide +kernel
  have hfiles : t.files = [⟨"/w/a.xml", "a.xml"⟩, ⟨"/w/b.xml", "b.xml"⟩] := by decide +kernel
  rw [hworklist, hfiles] at htours
  obtain ⟨u, vs, hvisits, hu, hvs⟩ := List.map_eq_cons_iff.1 htours
  obtain ⟨v, vs, rfl, -, hvs⟩ := List.map_eq_cons_iff.1 hvs
  obtain rfl := List.map_eq_nil_iff.1 hvs
  obtain ⟨hkey, hextraction⟩ := Prod.mk.inj hu
  have hasked : (requested Rehearsal.Store.requests s o () g).filterMap StoreCall.file? =
      ([u] ++ [v]).map (·.node) := by
    have hprefix := (requested_isPrefix Rehearsal.Store.requests s o () g).filterMap StoreCall.file?
    have hall : (.serverVersion :: agenda s o ()).filterMap StoreCall.file? = _ :=
      files_agenda s o hp
    rw [hall, hvisits] at hprefix
    have hlength : ((requested Rehearsal.Store.requests s o () g).filterMap
        StoreCall.file?).length = 2 := by decide +kernel
    exact hprefix.eq_of_length hlength
  have hkeyed : g.graph.Keyed := MemoryGraph.keyed_foldl_after _ MemoryGraph.keyed_empty
  have hdistinct : (p.worklist.map (keyOfFile o)).Nodup := by
    rw [hworklist]
    decide +kernel
  obtain ⟨flushed, waiting, hsplit, hwritten, -, -, -, -, -, -, hgone, -⟩ :=
    failed_run GraphStore.merges_rehearsal (g := g) hkeyed hp hdistinct hrun hvisits hasked
  -- No batch has been written, though there are symbols in the first document.
  have hnone : (written (requested Rehearsal.Store.requests s o () g).dropLast).symbols = [] := by
    decide +kernel
  have hsome : (t.extraction o (fun _ _ => .ok []) ⟨"/w/a.xml", "a.xml"⟩).symbols ≠ [] := by
    decide +kernel
  have hwaiting : u ∈ waiting := by
    refine (List.mem_append.1 (hsplit ▸ List.mem_singleton_self u)).resolve_left fun hu => ?_
    obtain ⟨y, hy⟩ := List.exists_mem_of_ne_nil _ (hextraction ▸ hsome)
    have hmem : y ∈ (found flushed).symbols := mem_found_symbols.2 ⟨u, hu, hy⟩
    rw [← hwritten, hnone] at hmem
    cases hmem
  have hbefore : g₀.symbolsOf "r:a.xml" ≠ [] := by decide +kernel
  have hfile : u.node.key = "r:a.xml" := hkey.trans (by decide +kernel)
  have hleft := hgone u hwaiting
  rw [hfile] at hleft
  rcases hsecond : synchronize (Rehearsal.Store.requests.beside Unit) (s.beside _) o ((), g) with
    ⟨result, e₁, g₁⟩
  rw [hsecond] at hrun hleft
  obtain rfl : result = _ := hrun
  exact ⟨report, e₀, g₀, _, e₁, g₁, hrun₀, hsecond, hbefore, hleft⟩

end Run

end CodeGraph
