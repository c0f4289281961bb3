import CodeGraph.Proofs.Agenda
import CodeGraph.Proofs.Ownership

/-!
# Batches

The requests of a tour, taken apart: each visit asks for its file, for the deletion of its symbols
and for at most one batch. A batch holds what was found in files visited before it, and what was
found in one file is in one batch. With distinct keys, no symbol is written before the symbols of
its file are deleted, and they are not deleted again afterwards.
-/

namespace CodeGraph.Run

open CodeGraph.Path (DiscoveredFile)

variable {ε : Type}

/-! ## Visits -/

/-- The key of a file of a worklist. -/
def keyOfFile (o : Options) (f : DiscoveredFile) : String := Key.file o.repoKey f.relativePath

section Visits

variable (s : Surroundings ε) (o : Options)

theorem visit_hangsOn (file : DiscoveredFile) (bytes : List UInt8) (e : ε) :
    (visit s o file bytes e).1.extraction.HangsOn
      (visit s o file bytes e).1.node.key (visit s o file bytes e).1.node.key :=
  SourceFile.extract_hangsOn _ _ _

theorem visitAt_eq_some {turn : DiscoveredFile × ε} {v : Visit} (h : visitAt s o turn = some v) :
    v.node.key = keyOfFile o turn.1 ∧ v.extraction.HangsOn v.node.key v.node.key := by
  obtain ⟨bytes, -, rfl⟩ := Option.map_eq_some_iff.1 h
  exact ⟨rfl, visit_hangsOn s o turn.1 bytes turn.2⟩

theorem visits_hangsOn (l : List (DiscoveredFile × ε)) :
    ∀ v ∈ visits s o l, v.extraction.HangsOn v.node.key v.node.key := by
  intro v hv
  obtain ⟨turn, -, h⟩ := List.mem_filterMap.1 hv
  exact (visitAt_eq_some s o h).2

theorem visits_keys : ∀ l : List (DiscoveredFile × ε),
    ((visits s o l).map (·.node.key)).Sublist ((l.map Prod.fst).map (keyOfFile o))
  | [] => List.Sublist.slnil
  | turn :: l => by
    rcases h : visitAt s o turn with _ | v
    · rw [visits, List.filterMap_cons_none h]
      exact (visits_keys l).cons _
    · rw [visits, List.filterMap_cons_some h, List.map_cons, List.map_cons,
        (visitAt_eq_some s o h).1]
      exact (visits_keys l).cons_cons _

end Visits

/-! ## Batches -/

/-- At most one batch. -/
def IsBatch (l : List StoreCall) : Prop :=
  l = [] ∨ ∃ symbols relationships, l = [.flush symbols relationships]

theorem Buffer.isBatch_drain (b : Buffer) : IsBatch b.drain := by
  unfold drain
  split
  · exact .inl rfl
  · exact .inr ⟨_, _, rfl⟩

theorem Buffer.isBatch_receive (b : Buffer) (e : Extraction) : IsBatch (b.receive e).1 := by
  simp only [receive]
  split
  · exact isBatch_drain _
  · exact .inl rfl

/-- The requests for a file, with the batch that it sets off. -/
def fileBlock (repoKey : String) (v : Visit × List StoreCall) : List StoreCall :=
  .upsertFile repoKey v.1.node :: .deletePriorSymbols v.1.node.key :: v.2

theorem fileRequests_eq_blocks (repoKey : String) :
    ∀ (vs : List Visit) (b : Buffer), ∃ (batches : List (List StoreCall)) (last : List StoreCall),
      batches.length = vs.length ∧ (∀ l ∈ batches, IsBatch l) ∧ IsBatch last ∧
        fileRequests repoKey b vs = (vs.zip batches).flatMap (fileBlock repoKey) ++ last
  | [], b => ⟨[], b.drain, rfl, List.forall_mem_nil _, b.isBatch_drain, rfl⟩
  | v :: vs, b => by
    obtain ⟨batches, last, hlength, hbatches, hlast, h⟩ :=
      fileRequests_eq_blocks repoKey vs (b.receive v.extraction).2
    refine ⟨(b.receive v.extraction).1 :: batches, last, by simp only [List.length_cons, hlength],
      List.forall_mem_cons.2 ⟨b.isBatch_receive _, hbatches⟩, hlast, ?_⟩
    rw [fileRequests, h, List.zip_cons_cons, List.flatMap_cons, fileBlock, List.cons_append,
      List.cons_append, List.append_assoc]
    rfl

/-! ## What is written and deleted -/

/-- What was found in the visited files, in its order. -/
def found : List Visit → Extraction
  | [] => .empty
  | v :: vs => v.extraction ++ found vs

theorem found_symbols_eq : ∀ vs : List Visit,
    (found vs).symbols = vs.flatMap (·.extraction.symbols)
  | [] => rfl
  | v :: vs => by
    rw [found, Extraction.symbols_append, found_symbols_eq vs, List.flatMap_cons]

theorem mem_found_symbols {x : Symbol} {vs : List Visit} :
    x ∈ (found vs).symbols ↔ ∃ v ∈ vs, x ∈ v.extraction.symbols := by
  rw [found_symbols_eq, List.mem_flatMap]

theorem mem_found_relationships {r : Relationship} : ∀ {vs : List Visit},
    r ∈ (found vs).relationships ↔ ∃ v ∈ vs, r ∈ v.extraction.relationships
  | [] => by simp only [found, Extraction.empty, List.not_mem_nil, false_and, exists_false]
  | v :: vs => by
    rw [found, Extraction.relationships_append, List.mem_append, mem_found_relationships]
    simp only [List.mem_cons, exists_eq_or_imp]

theorem Buffer.written_drain (b : Buffer) : written b.drain = b.pending := by
  obtain ⟨n, symbols, relationships⟩ := b
  simp only [drain, isEmpty, Extraction.isEmpty, Bool.and_eq_true, List.isEmpty_iff]
  split_ifs with h
  · obtain ⟨rfl, rfl⟩ := h
    rfl
  · exact Extraction.append_empty _

theorem Buffer.receive_cases (b : Buffer) (e : Extraction) :
    b.receive e = ([], b.push e) ∨ b.receive e = ((b.push e).drain, (b.push e).take.2) := by
  simp only [receive]
  split
  · exact .inr rfl
  · exact .inl rfl

theorem Buffer.written_receive (b : Buffer) (e : Extraction) :
    written (b.receive e).1 ++ (b.receive e).2.pending = b.pending ++ e := by
  rcases b.receive_cases e with h | h <;> rw [h]
  · rfl
  · rw [written_drain]
    exact Extraction.append_empty _

section Requests

variable {repoKey : String}

/-- A tour writes what waits and what it finds, in that order. -/
theorem written_fileRequests : ∀ (vs : List Visit) (b : Buffer),
    written (fileRequests repoKey b vs) = b.pending ++ found vs
  | [], b => b.written_drain.trans (Extraction.append_empty _).symm
  | v :: vs, b => by
    have hcons : written (fileRequests repoKey b (v :: vs)) =
        written ((b.receive v.extraction).1 ++
          fileRequests repoKey (b.receive v.extraction).2 vs) :=
      rfl
    rw [hcons, written_append, written_fileRequests vs, ← Extraction.append_assoc,
      b.written_receive, Extraction.append_assoc, found]

theorem IsBatch.deletedKeys_eq_nil {l : List StoreCall} (h : IsBatch l) : deletedKeys l = [] := by
  rcases h with rfl | ⟨_, _, rfl⟩ <;> rfl

theorem deletedKeys_fileRequests : ∀ (vs : List Visit) (b : Buffer),
    deletedKeys (fileRequests repoKey b vs) = vs.map (·.node.key)
  | [], b => b.isBatch_drain.deletedKeys_eq_nil
  | v :: vs, b => by
    have hcons : deletedKeys (fileRequests repoKey b (v :: vs)) = v.node.key ::
        deletedKeys ((b.receive v.extraction).1 ++
          fileRequests repoKey (b.receive v.extraction).2 vs) :=
      rfl
    rw [hcons, deletedKeys_append, (b.isBatch_receive _).deletedKeys_eq_nil,
      deletedKeys_fileRequests vs, List.nil_append, List.map_cons]

theorem IsBatch.files_eq_nil {l : List StoreCall} (h : IsBatch l) :
    l.filterMap StoreCall.file? = [] := by
  rcases h with rfl | ⟨_, _, rfl⟩ <;> rfl

theorem IsBatch.mark_not_mem {l : List StoreCall} (h : IsBatch l) {key : String} :
    .markFileAsDeleted key ∉ l := by
  rcases h with rfl | ⟨_, _, rfl⟩
  · exact List.not_mem_nil
  · intro h
    cases List.mem_singleton.1 h

theorem files_fileRequests : ∀ (vs : List Visit) (b : Buffer),
    (fileRequests repoKey b vs).filterMap StoreCall.file? = vs.map (·.node)
  | [], b => b.isBatch_drain.files_eq_nil
  | v :: vs, b => by
    have hcons : (fileRequests repoKey b (v :: vs)).filterMap StoreCall.file? = v.node ::
        ((b.receive v.extraction).1 ++ fileRequests repoKey (b.receive v.extraction).2 vs).filterMap
          StoreCall.file? := rfl
    rw [hcons, List.filterMap_append, (b.isBatch_receive _).files_eq_nil, files_fileRequests vs,
      List.nil_append, List.map_cons]

/-- A place in a list that is put together is in one of its parts. -/
theorem append_eq_append_cons {α : Type} {l m l₁ l₂ : List α} {a : α}
    (h : l ++ m = l₁ ++ a :: l₂) :
    (∃ t, l = l₁ ++ a :: t ∧ l₂ = t ++ m) ∨ ∃ t, l₁ = l ++ t ∧ m = t ++ a :: l₂ := by
  rcases List.append_eq_append_iff.1 h with ⟨t, h₁, h₂⟩ | ⟨t, h₁, h₂⟩
  · exact .inr ⟨t, h₁, h₂⟩
  · rcases t with _ | ⟨b, t⟩
    · exact .inr ⟨[], by rw [h₁, List.append_nil, List.append_nil], h₂.symm⟩
    · obtain ⟨rfl, h₃⟩ := List.cons.inj h₂
      exact .inl ⟨t, h₁, h₃⟩

theorem Buffer.drain_eq_append {b : Buffer} {l₁ l₂ : List StoreCall} {symbols : List Symbol}
    {relationships : List Relationship} (h : b.drain = l₁ ++ .flush symbols relationships :: l₂) :
    l₁ = [] ∧ ⟨symbols, relationships⟩ = b.pending ∧ l₂ = [] := by
  unfold drain at h
  split_ifs at h
  · exact absurd h.symm (List.append_ne_nil_of_right_ne_nil _ (List.cons_ne_nil _ _))
  · rcases List.singleton_eq_append_iff.1 h with ⟨h₁, h₂⟩ | ⟨-, h₂⟩
    · simp only [List.cons.injEq, StoreCall.flush.injEq] at h₂
      obtain ⟨⟨rfl, rfl⟩, h₂⟩ := h₂
      exact ⟨h₁, rfl, h₂⟩
    · exact absurd h₂ (List.cons_ne_nil _ _)

/-- A batch between the requests `l₁` and `l₂` holds what was found in the files visited by then,
and in the buffer from the start. What was found in one file is in one batch. -/
structure BatchBetween (repoKey : String) (waiting : Extraction) (visited left : List Visit)
    (l₁ : List StoreCall) (batch : Extraction) (l₂ : List StoreCall) : Prop where
  symbols : ∀ x ∈ batch.symbols, x ∈ waiting.symbols ∨ ∃ v ∈ visited, x ∈ v.extraction.symbols
  relationships : ∀ r ∈ batch.relationships,
    (r ∈ waiting.relationships ∧ waiting.symbols ⊆ batch.symbols) ∨
      ∃ v ∈ visited, r ∈ v.extraction.relationships ∧ v.extraction.symbols ⊆ batch.symbols
  asked : ∀ v ∈ visited, .upsertFile repoKey v.node ∈ l₁ ∧ .deletePriorSymbols v.node.key ∈ l₁
  ahead : deletedKeys l₂ = left.map (·.node.key)

namespace BatchBetween

variable {waiting batch : Extraction} {visited left : List Visit} {l₁ l₂ : List StoreCall}

theorem of_empty (h : BatchBetween repoKey .empty visited left l₁ batch l₂) :
    BatchBetween repoKey waiting visited left l₁ batch l₂ where
  symbols x hx := .inr ((h.symbols x hx).resolve_left List.not_mem_nil)
  relationships r hr :=
    .inr ((h.relationships r hr).resolve_left fun hr => List.not_mem_nil hr.1)
  asked := h.asked
  ahead := h.ahead

theorem cons {v : Visit} {b : Buffer} {l : List StoreCall}
    (h : BatchBetween repoKey (b.push v.extraction).pending visited left l₁ batch l₂)
    (hl : .upsertFile repoKey v.node :: .deletePriorSymbols v.node.key :: l₁ ⊆ l) :
    BatchBetween repoKey b.pending (v :: visited) left l batch l₂ where
  symbols x hx := by
    rcases h.symbols x hx with hx | ⟨w, hw, hx⟩
    · exact (List.mem_append.1 hx).imp_right fun hx => ⟨v, List.mem_cons_self, hx⟩
    · exact .inr ⟨w, List.mem_cons_of_mem _ hw, hx⟩
  relationships r hr := by
    rcases h.relationships r hr with ⟨hr, hsub⟩ | ⟨w, hw, hr⟩
    · have hsub := List.append_subset.1 hsub
      exact (List.mem_append.1 hr).imp (fun hr => ⟨hr, hsub.1⟩)
        fun hr => ⟨v, List.mem_cons_self, hr, hsub.2⟩
    · exact .inr ⟨w, List.mem_cons_of_mem _ hw, hr⟩
  asked w hw := by
    have hl₁ : l₁ ⊆ l := (List.cons_subset.1 (List.cons_subset.1 hl).2).2
    rcases List.mem_cons.1 hw with rfl | hw
    · exact ⟨hl List.mem_cons_self, hl (List.mem_cons_of_mem _ List.mem_cons_self)⟩
    · exact (h.asked w hw).imp (fun h => hl₁ h) fun h => hl₁ h
  ahead := h.ahead

end BatchBetween

theorem batchBetween {l₂ : List StoreCall} {symbols : List Symbol}
    {relationships : List Relationship} :
    ∀ {vs : List Visit} {b : Buffer} {l₁ : List StoreCall},
      fileRequests repoKey b vs = l₁ ++ .flush symbols relationships :: l₂ →
      ∃ visited left, vs = visited ++ left ∧
        BatchBetween repoKey b.pending visited left l₁ ⟨symbols, relationships⟩ l₂
  | [], b, l₁, h => by
    obtain ⟨-, hpending, rfl⟩ := Buffer.drain_eq_append h
    rw [← hpending]
    exact ⟨[], [], rfl, fun _ => .inl, fun r hr => .inl ⟨hr, List.Subset.refl _⟩,
      List.forall_mem_nil _, rfl⟩
  | v :: vs, b, l₁, h => by
    rcases l₁ with _ | ⟨c, _ | ⟨d, l₁⟩⟩
    · cases (List.cons.inj h).1
    · cases (List.cons.inj (List.cons.inj h).2).1
    obtain ⟨hc, hrest⟩ := List.cons.inj h
    obtain ⟨hd, hrest⟩ := List.cons.inj hrest
    rw [← hc, ← hd]
    -- The first file sets off no batch, or the batch in question, or an earlier one.
    rcases b.receive_cases v.extraction with hreceive | hreceive <;> rw [hreceive] at hrest
    · obtain ⟨visited, left, rfl, hbatch⟩ := batchBetween hrest
      exact ⟨v :: visited, left, rfl, hbatch.cons (List.Subset.refl _)⟩
    · rcases append_eq_append_cons hrest with ⟨t, hdrain, rfl⟩ | ⟨t, rfl, hafter⟩
      · obtain ⟨rfl, hpending, rfl⟩ := Buffer.drain_eq_append hdrain
        have hfirst : BatchBetween repoKey (b.push v.extraction).pending [] vs []
            ⟨symbols, relationships⟩ (fileRequests repoKey (b.push v.extraction).take.2 vs) := by
          rw [← hpending]
          exact ⟨fun _ => .inl, fun r hr => .inl ⟨hr, List.Subset.refl _⟩, List.forall_mem_nil _,
            deletedKeys_fileRequests vs _⟩
        exact ⟨[v], vs, rfl, hfirst.cons (List.Subset.refl _)⟩
      · obtain ⟨visited, left, rfl, hbatch⟩ := batchBetween hafter
        refine ⟨v :: visited, left, rfl, hbatch.of_empty.cons ?_⟩
        exact List.cons_subset_cons _ (List.cons_subset_cons _ (List.subset_append_right _ _))

/-- Files that are visited have keys of their own, and what is found in them is theirs. -/
structure Itinerary (vs : List Visit) : Prop where
  distinct : (vs.map (·.node.key)).Nodup
  hangs : ∀ v ∈ vs, v.extraction.HangsOn v.node.key v.node.key

section Order

variable {vs : List Visit} {n : Nat} {l₁ l₂ : List StoreCall} {symbols : List Symbol}
  {relationships : List Relationship}

/-- A symbol is written after the symbols of its file are deleted, and they are not deleted again.
-/
theorem delete_before_flush (hvs : Itinerary vs)
    (h : fileRequests repoKey (.new n) vs = l₁ ++ .flush symbols relationships :: l₂) :
    ∀ x ∈ symbols, (∃ v ∈ vs, x ∈ v.extraction.symbols ∧ .deletePriorSymbols v.node.key ∈ l₁) ∧
      x.fileKey ∉ deletedKeys l₂ := by
  intro x hx
  obtain ⟨visited, left, rfl, hbatch⟩ := batchBetween h
  obtain ⟨v, hv, hxv⟩ := (hbatch.symbols x hx).resolve_left List.not_mem_nil
  have hmem := List.mem_append_left left hv
  refine ⟨⟨v, hmem, hxv, (hbatch.asked v hv).2⟩, ?_⟩
  rw [(hvs.hangs v hmem).owned x hxv, hbatch.ahead]
  have hdistinct := hvs.distinct
  rw [List.map_append, List.nodup_append] at hdistinct
  exact fun hleft => hdistinct.2.2 _ (List.mem_map_of_mem hv) _ hleft rfl

/-- A relationship is written together with the symbol it leads to, and after what it leads from. -/
theorem ends_before_flush (hvs : ∀ v ∈ vs, v.extraction.HangsOn v.node.key v.node.key)
    (h : fileRequests repoKey (.new n) vs = l₁ ++ .flush symbols relationships :: l₂) :
    ∀ r ∈ relationships, r.target ∈ symbols.map (·.key) ∧
      (r.source ∈ symbols.map (·.key) ∨
        ∃ node, .upsertFile repoKey node ∈ l₁ ∧ node.key = r.source) := by
  intro r hr
  obtain ⟨visited, left, rfl, hbatch⟩ := batchBetween h
  obtain ⟨v, hv, hrv, hsub⟩ :=
    (hbatch.relationships r hr).resolve_left fun hr => List.not_mem_nil hr.1
  have hhangs := hvs v (List.mem_append_left left hv)
  have hkey : ∀ key ∈ v.extraction.symbols.map (·.key), key ∈ symbols.map (·.key) :=
    fun key hkey => List.map_subset _ hsub hkey
  refine ⟨hkey _ (hhangs.target r hrv), ?_⟩
  rcases hhangs.source r hrv with hsource | hsource
  · exact .inr ⟨v.node, (hbatch.asked v hv).1, (Option.some_inj.1 hsource).symm⟩
  · exact .inl (hkey _ hsource)

end Order

end Requests

end CodeGraph.Run
