import CodeGraph.Proofs.Transactions

/-!
# Relationships grouped by type

A batch of relationships goes to the server in groups, one statement for each type, since the type
is part of the text of a statement. The types come in ascending order, each once, and the groups
together are the batch in another order (`perm_byType`). Of the rows that come back, those of the
statements with relationships are counted and no others, as far as the count fits a word
(`flush_grouped`).
-/

namespace CodeGraph

namespace RelType

theorem before_iff {t u : RelType} : t.before u = true ↔
    t.rank < u.rank ∨ ∃ m n, t = other m ∧ u = other n ∧ m < n := by
  cases t <;> cases u <;> simp [before, rank]

theorem eq_of_rank {t u : RelType} (h : t.rank = u.rank) :
    t = u ∨ ∃ m n, t = other m ∧ u = other n := by
  cases t <;> cases u <;> simp [rank] at h ⊢

theorem before_irrefl (t : RelType) : t.before t = false := by
  rw [Bool.eq_false_iff]
  intro h
  obtain h | ⟨m, n, rfl, heq, hlt⟩ := before_iff.1 h
  · omega
  · exact String.lt_irrefl m (other.inj heq ▸ hlt)

theorem before_trans {t u v : RelType} (htu : t.before u = true) (huv : u.before v = true) :
    t.before v = true := by
  rw [before_iff] at htu huv ⊢
  obtain htu | ⟨m, n, rfl, rfl, hmn⟩ := htu <;>
    obtain huv | ⟨n', k, hu, rfl, hnk⟩ := huv
  · exact .inl (htu.trans huv)
  · rw [hu] at htu
    exact .inl htu
  · exact .inl huv
  · exact .inr ⟨m, k, rfl, rfl, String.lt_trans hmn (other.inj hu ▸ hnk)⟩

theorem before_of_not_before {t u : RelType} (hne : t ≠ u) (h : ¬ t.before u = true) :
    u.before t = true := by
  rw [before_iff] at h ⊢
  by_cases hrank : u.rank < t.rank
  · exact .inl hrank
  · have hsame : t.rank = u.rank := by omega
    obtain rfl | ⟨m, n, rfl, rfl⟩ := eq_of_rank hsame
    · exact absurd rfl hne
    · have hnames : m ≠ n := fun heq => hne (congrArg other heq)
      have hle : n ≤ m := String.not_lt.1 fun hlt => h (.inr ⟨m, n, rfl, rfl, hlt⟩)
      exact .inr ⟨n, m, rfl, rfl, Std.lt_of_le_of_ne hle hnames.symm⟩

end RelType

namespace Statement

/-! ## The types of a batch -/

theorem mem_insertType {t u : RelType} {l : List RelType} :
    u ∈ insertType t l ↔ u = t ∨ u ∈ l := by
  induction l with
  | nil => simp [insertType]
  | cons v l ih =>
    simp only [insertType]
    split_ifs with heq hbefore
    · simp [heq]
    · simp
    · simp only [List.mem_cons, ih]
      exact or_left_comm

theorem pairwise_insertType {t : RelType} {l : List RelType}
    (h : l.Pairwise fun a b => a.before b = true) :
    (insertType t l).Pairwise fun a b => a.before b = true := by
  induction l with
  | nil => simp [insertType]
  | cons v l ih =>
    obtain ⟨hv, hl⟩ := List.pairwise_cons.1 h
    simp only [insertType]
    split_ifs with heq hbefore
    · exact h
    · refine List.pairwise_cons.2 ⟨fun u hu => ?_, h⟩
      rcases List.mem_cons.1 hu with rfl | hu
      · exact hbefore
      · exact RelType.before_trans hbefore (hv u hu)
    · refine List.pairwise_cons.2 ⟨fun u hu => ?_, ih hl⟩
      rcases mem_insertType.1 hu with rfl | hu
      · exact RelType.before_of_not_before heq hbefore
      · exact hv u hu

theorem mem_typesOf {t : RelType} {l : List Relationship} :
    t ∈ typesOf l ↔ ∃ r ∈ l, r.type = t := by
  have h (types : List RelType) :
      t ∈ l.foldl (fun types r => insertType r.type types) types ↔
        (∃ r ∈ l, r.type = t) ∨ t ∈ types := by
    induction l generalizing types with
    | nil => simp
    | cons r l ih =>
      simp only [List.foldl_cons, ih, mem_insertType, List.mem_cons, exists_eq_or_imp,
        eq_comm (a := t)]
      rw [or_left_comm, or_assoc]
  simpa [typesOf] using h []

theorem pairwise_typesOf (l : List Relationship) :
    (typesOf l).Pairwise fun a b => a.before b = true := by
  have h (types : List RelType) (htypes : types.Pairwise fun a b => a.before b = true) :
      (l.foldl (fun types r => insertType r.type types) types).Pairwise
        fun a b => a.before b = true := by
    induction l generalizing types with
    | nil => exact htypes
    | cons r l ih => exact ih _ (pairwise_insertType htypes)
  exact h [] .nil

theorem nodup_typesOf (l : List Relationship) : (typesOf l).Nodup :=
  (pairwise_typesOf l).imp fun {t u} h heq => by
    rw [heq, RelType.before_irrefl] at h
    cases h

/-! ## The groups of a batch -/

/-- The groups of different types are the part of the batch that has one of these types. -/
theorem perm_flatMap_filter {types : List RelType} (htypes : types.Nodup)
    (l : List Relationship) :
    (types.flatMap fun t => l.filter fun r => r.type = t).Perm
      (l.filter fun r => r.type ∈ types) := by
  induction types with
  | nil => simp
  | cons t types ih =>
    obtain ⟨ht, htypes⟩ := List.nodup_cons.1 htypes
    have hfirst : l.filter (fun r => r.type = t)
        = (l.filter fun r => r.type ∈ t :: types).filter fun r => r.type = t := by
      rw [List.filter_filter]
      refine List.filter_congr fun r _ => ?_
      by_cases h : r.type = t <;> simp [h]
    have hrest : l.filter (fun r => r.type ∈ types)
        = (l.filter fun r => r.type ∈ t :: types).filter fun r => !decide (r.type = t) := by
      rw [List.filter_filter]
      refine List.filter_congr fun r _ => ?_
      by_cases h : r.type = t <;> simp [h, ht]
    rw [List.flatMap_cons]
    refine (List.Perm.append_left _ (ih htypes)).trans ?_
    rw [hfirst, hrest]
    exact List.filter_append_perm _ _

theorem perm_byType (l : List Relationship) : ((byType l).flatMap Prod.snd).Perm l := by
  have hall : (l.filter fun r => r.type ∈ typesOf l) = l :=
    List.filter_eq_self.2 fun r hr => decide_eq_true (mem_typesOf.2 ⟨r, hr, rfl⟩)
  have h := perm_flatMap_filter (nodup_typesOf l) l
  rwa [hall, ← List.flatMap_map (f := fun t => (t, l.filter fun r => r.type = t))
    (g := Prod.snd)] at h

/-! ## What the statements carry -/

/-- Whether the statement has a parameter with this name. -/
def carries (q : Statement) (name : String) : Bool := (q.parameters.lookup name).isSome

/-- The rows that the statement carries under this name. -/
def rows (q : Statement) (name : String) : List Row :=
  match q.parameters.lookup name with
  | some (.rows l) => l
  | _ => []

theorem parameters_mergeSymbols (l : List Symbol) :
    (mergeSymbols l).parameters = [("symbols", .rows (l.map Symbol.toRow))] := rfl

theorem parameters_mergeRelationships (t : RelType) (l : List Relationship) :
    (mergeRelationships t l).parameters = [("rels", .rows (l.map Relationship.toRow))] := rfl

theorem carries_mergeSymbols (l : List Symbol) : (mergeSymbols l).carries "rels" = false := by
  simp [carries, parameters_mergeSymbols, List.lookup_cons]

theorem carries_mergeRelationships (t : RelType) (l : List Relationship) :
    (mergeRelationships t l).carries "rels" = true := by
  simp [carries, parameters_mergeRelationships]

theorem rows_mergeSymbols (l : List Symbol) :
    (mergeSymbols l).rows "symbols" = l.map Symbol.toRow ∧ (mergeSymbols l).rows "rels" = [] := by
  simp [rows, parameters_mergeSymbols, List.lookup_cons]

theorem rows_mergeRelationships (t : RelType) (l : List Relationship) :
    (mergeRelationships t l).rows "rels" = l.map Relationship.toRow ∧
      (mergeRelationships t l).rows "symbols" = [] := by
  simp [rows, parameters_mergeRelationships, List.lookup_cons]

theorem flushStatements_eq (symbols : List Symbol) (relationships : List Relationship) :
    flushStatements symbols relationships = (if symbols = [] then [] else [mergeSymbols symbols]) ++
      (byType relationships).map fun b => mergeRelationships b.1 b.2 := by
  cases symbols <;> rfl

theorem rows_flushStatements (symbols : List Symbol) (relationships : List Relationship) :
    ((flushStatements symbols relationships).flatMap fun q => q.rows "symbols") =
        symbols.map Symbol.toRow ∧
      ((flushStatements symbols relationships).flatMap fun q => q.rows "rels") =
        ((byType relationships).flatMap Prod.snd).map Relationship.toRow := by
  rw [flushStatements_eq]
  cases symbols <;>
    simp [List.flatMap_map, List.map_flatMap, rows_mergeSymbols, rows_mergeRelationships]

end Statement

/-! ## What comes back -/

namespace Server

variable {statements : List Statement} {l : List Event} {rows : List (List Json.Value)}

theorem Sends.length_eq (h : Sends statements l (.ok rows)) : rows.length = statements.length := by
  generalize hr : Except.ok rows = r at h
  induction h generalizing rows with
  | done =>
    cases hr
    rfl
  | unexecuted => cases hr
  | unfetched => cases hr
  | @next q rest rows' l r h ih =>
    rcases r with e | rows''
    · cases hr
    · cases hr
      simp [ih rfl]

theorem Transaction.length_eq (h : Transaction statements l (.ok rows)) :
    rows.length = statements.length := by
  cases h with
  | committed h => exact h.length_eq

end Server

namespace Gateway

open Server (Transaction)

variable {σ : Type}

/-- The counts that came back for the statements with relationships, taken together. -/
def mergedSum (statements : List Statement) (results : List (List Json.Value)) : Nat :=
  (((statements.zip results).filter fun x => x.1.carries "rels").map fun x => mergedCount x.2).sum

theorem mergedSum_of_carries {statements : List Statement}
    (h : ∀ q ∈ statements, q.carries "rels" = true) {results : List (List Json.Value)}
    (hlength : results.length = statements.length) :
    mergedSum statements results = (results.map mergedCount).sum := by
  have hall : ((statements.zip results).filter fun x => x.1.carries "rels")
      = statements.zip results :=
    List.filter_eq_self.2 fun x hx => h x.1 (List.of_mem_zip hx).1
  have hsnd : (statements.zip results).map (fun x => mergedCount x.2)
      = ((statements.zip results).map Prod.snd).map mergedCount := by
    rw [List.map_map]
    rfl
  rw [mergedSum, hall, hsnd, List.map_snd_zip hlength.le]

theorem mergedSum_cons_of_not_carries {q : Statement} (h : q.carries "rels" = false)
    (statements : List Statement) (rows : List Json.Value) (results : List (List Json.Value)) :
    mergedSum (q :: statements) (rows :: results) = mergedSum statements results := by
  simp [mergedSum, h]

theorem carries_of_mem_byType {l : List Relationship} {q : Statement}
    (hq : q ∈ (Statement.byType l).map fun b => Statement.mergeRelationships b.1 b.2) :
    q.carries "rels" = true := by
  obtain ⟨b, -, rfl⟩ := List.mem_map.1 hq
  exact Statement.carries_mergeRelationships b.1 b.2

/-- The rows that are skipped are those of the statement with symbols. -/
theorem outcomeOf_eq_mergedSum {symbols : List Symbol} {relationships : List Relationship}
    {results : List (List Json.Value)}
    (hlength : results.length = (Statement.flushStatements symbols relationships).length) :
    outcomeOf symbols results =
      ⟨symbols.length, mergedSum (Statement.flushStatements symbols relationships) results⟩ := by
  rw [Statement.flushStatements_eq] at hlength ⊢
  rw [outcomeOf_eq]
  cases symbols with
  | nil =>
    simp only [List.isEmpty_nil, ↓reduceIte, List.drop_zero, List.nil_append] at hlength ⊢
    rw [mergedSum_of_carries (fun q hq => carries_of_mem_byType hq) hlength]
  | cons a l =>
    rcases results with _ | ⟨rows, results⟩
    · simp at hlength
    simp only [List.isEmpty_cons, Bool.false_eq_true, reduceCtorEq, ↓reduceIte,
      List.singleton_append, List.length_cons, Nat.add_right_cancel_iff, List.drop_succ_cons,
      List.drop_zero] at hlength ⊢
    rw [mergedSum_cons_of_not_carries (Statement.carries_mergeSymbols _),
      mergedSum_of_carries (fun q hq => carries_of_mem_byType hq) hlength]

theorem mergedSum_le {statements : List Statement} {results : List (List Json.Value)}
    (h : ∀ x ∈ statements.zip results, mergedCount x.2 ≤ (x.1.rows "rels").length) :
    mergedSum statements results ≤ (statements.flatMap fun q => q.rows "rels").length := by
  induction statements generalizing results with
  | nil => simp [mergedSum]
  | cons q statements ih =>
    rcases results with _ | ⟨rows, results⟩
    · simp [mergedSum]
    have hfirst : mergedCount rows ≤ (q.rows "rels").length := h (q, rows) (by simp)
    have hrest := ih fun x hx => h x (List.mem_cons_of_mem _ hx)
    simp only [mergedSum, List.zip_cons_cons, List.filter_cons, List.flatMap_cons,
      List.length_append] at hrest ⊢
    split_ifs
    · simp only [List.map_cons, List.sum_cons]
      omega
    · omega

/-- What comes of a batch that the server answers all of. -/
theorem flush_of_transact (g : Gateway) (server : Server σ) (symbols : List Symbol)
    (relationships : List Relationship) {s s' : σ} {results : List (List Json.Value)}
    (hok : g.transact server (Statement.flushStatements symbols relationships) s =
      (.ok results, s'))
    (hlength : results.length = (Statement.flushStatements symbols relationships).length) :
    (g.flush server symbols relationships s).1 = .ok ⟨symbols.length,
      mergedSum (Statement.flushStatements symbols relationships) results⟩ := by
  rw [← outcomeOf_eq_mergedSum hlength, flush]
  split
  · rename_i hempty
    obtain ⟨hsymbols, hrelationships⟩ := (Bool.and_eq_true _ _).mp hempty
    obtain rfl := List.isEmpty_iff.1 hsymbols
    obtain rfl := List.isEmpty_iff.1 hrelationships
    obtain rfl : results = [] := List.length_eq_zero_iff.1 hlength
    rfl
  · rw [hok]

theorem checkedFlush_of_flush {g : Gateway} {server : Server σ} {symbols : List Symbol}
    {relationships : List Relationship} {s : σ} {outcome : FlushOutcome}
    (h : (g.flush server symbols relationships s).1 = .ok outcome) :
    g.checkedFlush server symbols relationships s =
      (if outcome.relationshipsMerged < 2 ^ 64 then .ok outcome else .error .countOverflow,
        (g.flush server symbols relationships s).2) := by
  rw [checkedFlush]
  rcases hflush : g.flush server symbols relationships s with ⟨e | outcome', s'⟩
  · rw [hflush] at h
    cases h
  · rw [hflush] at h
    obtain rfl := Except.ok.inj h
    rfl

/-- How a batch is sent. The symbols go first, if there are any, and then the relationships: one
statement for each of their types, in ascending order, with the relationships of that type in the
order of the batch. So nothing of the batch is lost or sent twice. Where the server answers all of
it, the count of merged relationships is the sum of what it counted for the statements with
relationships, if a word of 64 bits holds the sum, and otherwise the program stops behind the same
transaction. If the server merges no more than it is sent, the sum is no more than the batch has. -/
theorem flush_grouped (g : Gateway) (server : Server σ) (symbols : List Symbol)
    (relationships : List Relationship) (s : σ) :
    let statements := Statement.flushStatements symbols relationships
    let groups := Statement.byType relationships
    statements = (if symbols = [] then [] else [Statement.mergeSymbols symbols]) ++
        groups.map (fun b => Statement.mergeRelationships b.1 b.2) ∧
      (groups.map Prod.fst).Pairwise (fun t u => t.before u = true) ∧
      (∀ t, t ∈ groups.map Prod.fst ↔ ∃ r ∈ relationships, r.type = t) ∧
      (∀ b ∈ groups, b.2 = relationships.filter fun r => r.type = b.1) ∧
      (groups.flatMap Prod.snd).Perm relationships ∧
      (statements.flatMap fun q => q.rows "symbols") = symbols.map Symbol.toRow ∧
      (statements.flatMap fun q => q.rows "rels").Perm (relationships.map Relationship.toRow) ∧
      ∀ results s', g.transact server statements s = (.ok results, s') →
        (∃ events, Transaction statements events (.ok results) ∧
          events <:+ (g.transact server.logged statements (s, [])).2.2.reverse) ∧
        results.length = statements.length ∧
        g.checkedFlush server symbols relationships s =
          (if mergedSum statements results < 2 ^ 64 then
            .ok ⟨symbols.length, mergedSum statements results⟩ else .error .countOverflow,
          (g.flush server symbols relationships s).2) ∧
        ((∀ x ∈ statements.zip results, mergedCount x.2 ≤ (x.1.rows "rels").length) →
          mergedSum statements results ≤ relationships.length) := by
  intro statements groups
  have hfst : groups.map Prod.fst = Statement.typesOf relationships := by
    simp [groups, Statement.byType, Function.comp_def]
  have hperm : (statements.flatMap fun q => q.rows "rels").Perm
      (relationships.map Relationship.toRow) := by
    rw [(Statement.rows_flushStatements symbols relationships).2]
    exact (Statement.perm_byType relationships).map _
  refine ⟨Statement.flushStatements_eq symbols relationships,
    hfst ▸ Statement.pairwise_typesOf relationships, fun t => by rw [hfst, Statement.mem_typesOf],
    fun b hb => ?_, Statement.perm_byType relationships,
    (Statement.rows_flushStatements symbols relationships).1, hperm, fun results s' hok => ?_⟩
  · obtain ⟨t, -, rfl⟩ := List.mem_map.1 hb
    rfl
  · obtain ⟨failed, last, result, answer, s'', hplain, hlogged, -, -, hlast, hanswer⟩ :=
      transact_logged g server statements s
    rw [hok] at hplain
    cases hplain
    rcases hanswer with ⟨rows, rfl, hrows⟩ | ⟨e, x, -, hx⟩
    swap
    · cases hx
    cases hrows
    refine ⟨⟨last, hlast, ?_⟩, hlast.length_eq, ?_, fun hcounts => ?_⟩
    · rw [hlogged, List.reverse_reverse]
      exact List.suffix_append _ _
    · exact checkedFlush_of_flush
        (flush_of_transact g server symbols relationships hok hlast.length_eq)
    · have hlength := hperm.length_eq
      rw [List.length_map] at hlength
      exact hlength ▸ mergedSum_le hcounts

/-- Three statements with relationships, for each of which the server counts as many as a signed
word of 64 bits holds. -/
theorem countOverflow_of_counts :
    let g : Gateway := { retry := { maxRetries := 0, baseDelay := 0 } }
    let server : Server Unit :=
      { begin _ := (.ok (), ())
        execute _ _ := (.ok (), ())
        fetch _ := (.ok [.number (.integer 9223372036854775807)], ())
        commit _ := (.ok (), ()) }
    let relationships : List Relationship :=
      [.contains, .dependsOn, .bindsTo].map fun t => ⟨"r:a.xml", "r:b.xml", t⟩
    let statements := Statement.flushStatements [] relationships
    ∃ results, g.transact server statements () = (.ok results, ()) ∧
      mergedSum statements results = 3 * 9223372036854775807 ∧
      (g.checkedFlush server [] relationships ()).1 = .error .countOverflow := by
  intro g server relationships statements
  have hanswer : (g.transact server statements ()).1.toOption.map
      (fun l => (l.length, mergedSum statements l)) = some (3, 3 * 9223372036854775807) := by
    decide +kernel
  rcases hok : g.transact server statements () with ⟨e | results, ⟨⟩⟩ <;> rw [hok] at hanswer
  · cases hanswer
  · obtain ⟨hlength, hsum⟩ := Prod.mk.inj (Option.some.inj hanswer)
    refine ⟨results, rfl, hsum, ?_⟩
    rw [checkedFlush_of_flush (flush_of_transact g server [] relationships hok hlength)]
    exact if_neg (by rw [hsum]; decide)

end Gateway

end CodeGraph
