import CodeGraph.Graph.Memory
import CodeGraph.Proofs.Requests
import Mathlib.Tactic.ByContra
import Mathlib.Tactic.SplitIfs

/-!
# Merging by key

What the requests do to the store in memory, seen through its lookups: which symbol has a key, which
relationships there are, which files there are and which of them are marked as deleted.
-/

namespace CodeGraph

/-- The last of the symbols with this key. -/
def lastWith (l : List Symbol) (key : String) : Option Symbol := l.reverse.find? (·.key == key)

theorem lastWith_append (l m : List Symbol) (key : String) :
    lastWith (l ++ m) key = (lastWith m key).or (lastWith l key) := by
  rw [lastWith, List.reverse_append, List.find?_append]
  rfl

theorem lastWith_eq_some {l : List Symbol} {key : String} {x : Symbol}
    (h : lastWith l key = some x) : x ∈ l ∧ x.key = key :=
  ⟨List.mem_reverse.1 (List.mem_of_find?_eq_some h), by simpa using List.find?_some h⟩

theorem lastWith_eq_none {l : List Symbol} {key : String} :
    lastWith l key = none ↔ ∀ x ∈ l, x.key ≠ key := by
  simp only [lastWith, List.find?_eq_none, List.mem_reverse, beq_iff_eq, ne_eq]

theorem lastWith_isSome {l : List Symbol} {x : Symbol} (h : x ∈ l) :
    ∃ y, lastWith l x.key = some y := by
  rcases hy : lastWith l x.key with _ | y
  · exact absurd rfl (lastWith_eq_none.1 hy x h)
  · exact ⟨y, rfl⟩

theorem find?_upsertBy {α : Type} (key : α → String) (a : α) (k : String) (l : List α) :
    (upsertBy key a l).find? (key · == k) =
      if key a = k then some a else l.find? (key · == k) := by
  induction l with
  | nil => simp only [upsertBy, List.find?_singleton, beq_iff_eq, List.find?_nil]
  | cons b l ih =>
    simp only [upsertBy]
    by_cases hb : key b = key a
    · rw [if_pos hb, List.find?_cons, List.find?_cons, hb]
      by_cases hk : key a = k
      · rw [if_pos hk, beq_iff_eq.2 hk]
      · rw [if_neg hk, beq_eq_false_iff_ne.2 hk]
    · rw [if_neg hb, List.find?_cons, List.find?_cons, ih]
      by_cases hk : key b = k
      · have hne : key a ≠ k := fun h => hb (hk.trans h.symm)
        simp only [beq_iff_eq.2 hk, if_neg hne]
      · rw [beq_eq_false_iff_ne.2 hk]

theorem mem_of_mem_upsertBy {α : Type} {key : α → String} {a b : α} {l : List α}
    (h : b ∈ upsertBy key a l) : b = a ∨ b ∈ l := by
  induction l with
  | nil => exact .inl (List.mem_singleton.1 h)
  | cons c l ih =>
    simp only [upsertBy] at h
    by_cases hc : key c = key a
    · rw [if_pos hc] at h
      exact (List.mem_cons.1 h).imp_right (List.mem_cons_of_mem c)
    · rw [if_neg hc] at h
      rcases List.mem_cons.1 h with rfl | h
      · exact .inr List.mem_cons_self
      · exact (ih h).imp_right (List.mem_cons_of_mem c)

theorem nodup_upsertBy {α : Type} (key : α → String) (a : α) (l : List α)
    (h : (l.map key).Nodup) : ((upsertBy key a l).map key).Nodup := by
  induction l with
  | nil => exact List.nodup_cons.2 ⟨List.not_mem_nil, List.nodup_nil⟩
  | cons b l ih =>
    rw [List.map_cons, List.nodup_cons] at h
    simp only [upsertBy]
    split_ifs with hb
    · rw [List.map_cons, List.nodup_cons, ← hb]
      exact h
    · rw [List.map_cons, List.nodup_cons, mem_map_upsertBy]
      exact ⟨fun hmem => hmem.elim hb h.1, ih h.2⟩

theorem find?_of_mem {α : Type} {key : α → String} {a : α} {l : List α}
    (h : (l.map key).Nodup) (ha : a ∈ l) : l.find? (key · == key a) = some a := by
  induction l with
  | nil => exact absurd ha List.not_mem_nil
  | cons b l ih =>
    rw [List.map_cons, List.nodup_cons] at h
    rw [List.find?_cons]
    rcases List.mem_cons.1 ha with rfl | ha
    · rw [beq_self_eq_true]
    · have hne : key b ≠ key a := fun hb => h.1 (hb ▸ List.mem_map_of_mem ha)
      rw [beq_eq_false_iff_ne.2 hne]
      exact ih h.2 ha

theorem find?_filter_of_nodup {α : Type} {key : α → String} (q : α → Bool) (k : String)
    {l : List α} (h : (l.map key).Nodup) :
    (l.filter q).find? (key · == k) = (l.find? (key · == k)).filter q := by
  induction l with
  | nil => rfl
  | cons b l ih =>
    rw [List.map_cons, List.nodup_cons] at h
    rw [List.find?_cons]
    by_cases hk : key b = k
    · rw [beq_iff_eq.2 hk]
      by_cases hq : q b = true
      · rw [List.filter_cons_of_pos hq, List.find?_cons, beq_iff_eq.2 hk, Option.filter_some,
          if_pos hq]
      · rw [List.filter_cons_of_neg hq, Option.filter_some, if_neg hq, List.find?_eq_none]
        intro c hc
        rw [beq_iff_eq, ← hk]
        exact fun heq => h.1 (heq ▸ List.mem_map_of_mem (List.mem_filter.1 hc).1)
    · rw [beq_eq_false_iff_ne.2 hk, ← ih h.2, List.filter_cons]
      split_ifs
      · rw [List.find?_cons, beq_eq_false_iff_ne.2 hk]
      · rfl

/-- Symbols written to a table one after the other. -/
def upsertAll (l table : List Symbol) : List Symbol :=
  l.foldl (fun table s => upsertBy (·.key) s table) table

theorem find?_upsertAll (key : String) :
    ∀ l table : List Symbol, (upsertAll l table).find? (·.key == key) =
      (lastWith l key).or (table.find? (·.key == key))
  | [], _ => rfl
  | x :: l, table => by
    have hcons : lastWith (x :: l) key = (lastWith l key).or (lastWith [x] key) :=
      lastWith_append [x] l key
    have hrest : upsertAll (x :: l) table = upsertAll l (upsertBy (·.key) x table) := rfl
    rw [hcons, hrest, find?_upsertAll key l, find?_upsertBy, Option.or_assoc]
    refine congrArg _ ?_
    by_cases hk : x.key = key
    · simp only [lastWith, List.reverse_singleton, List.find?_singleton, hk, if_true,
        beq_self_eq_true, Option.some_or]
    · simp only [lastWith, List.reverse_singleton, List.find?_singleton, hk, if_false, beq_iff_eq,
        Option.none_or]

theorem mem_of_mem_upsertAll {x : Symbol} : ∀ {l table : List Symbol},
    x ∈ upsertAll l table → x ∈ l ∨ x ∈ table
  | [], _, h => .inr h
  | y :: l, table, h => by
    rcases mem_of_mem_upsertAll (l := l) h with h | h
    · exact .inl (List.mem_cons_of_mem _ h)
    · rcases mem_of_mem_upsertBy h with rfl | h
      · exact .inl List.mem_cons_self
      · exact .inr h

theorem nodup_upsertAll : ∀ l table : List Symbol, (table.map (·.key)).Nodup →
    ((upsertAll l table).map (·.key)).Nodup
  | [], _, h => h
  | x :: l, _, h => nodup_upsertAll l _ (nodup_upsertBy _ x _ h)

namespace MemoryGraph

/-- No two symbols have one key. -/
def Keyed (g : MemoryGraph) : Prop := (g.symbols.map (·.key)).Nodup

theorem keyed_empty : Keyed {} := List.nodup_nil

/-- The symbol with this key. -/
def symbol? (g : MemoryGraph) (key : String) : Option Symbol := g.symbols.find? (·.key == key)

variable {g : MemoryGraph}

theorem symbol?_eq_some {key : String} {x : Symbol} (h : g.symbol? key = some x) :
    x ∈ g.symbols ∧ x.key = key :=
  ⟨List.mem_of_find?_eq_some h, by simpa using List.find?_some h⟩

theorem mem_symbols_iff (hg : g.Keyed) {x : Symbol} :
    x ∈ g.symbols ↔ g.symbol? x.key = some x :=
  ⟨find?_of_mem hg, fun h => (symbol?_eq_some h).1⟩

theorem Keyed.eq_of_key (hg : g.Keyed) {x y : Symbol} (hx : x ∈ g.symbols) (hy : y ∈ g.symbols)
    (h : x.key = y.key) : x = y := by
  rw [mem_symbols_iff hg] at hx hy
  rw [h, hy] at hx
  exact (Option.some_inj.1 hx).symm

theorem hasSymbol_iff {key : String} : g.hasSymbol key = true ↔ ∃ x, g.symbol? key = some x := by
  rw [← Option.isSome_iff_exists, symbol?, List.find?_isSome, hasSymbol, List.any_eq_true]

theorem hasFile_iff {key : String} : g.hasFile key = true ↔ key ∈ g.files.map (·.key) := by
  simp only [hasFile, List.any_eq_true, beq_iff_eq, List.mem_map]

theorem hasSymbol_upsertSymbols {l : List Symbol} {key : String} (h : key ∈ l.map (·.key)) :
    (g.upsertSymbols l).hasSymbol key = true := by
  obtain ⟨x, hx, rfl⟩ := List.mem_map.1 h
  obtain ⟨y, hy⟩ := lastWith_isSome hx
  refine hasSymbol_iff.2 ⟨y, ?_⟩
  rw [symbol?]
  exact (find?_upsertAll x.key l g.symbols).trans (by rw [hy, Option.some_or])

/-! ## What the requests do -/

/-- What is left of the graph by a request. -/
def after (g : MemoryGraph) : StoreCall → MemoryGraph
  | .upsertFile _ f => g.upsertFile f
  | .deletePriorSymbols fileKey => g.deleteSymbols fileKey
  | .markFileAsDeleted fileKey => g.markDeleted fileKey
  | .flush symbols relationships => (g.flush symbols relationships).2
  | _ => g

theorem request_store (version : String) (c : StoreCall) (g : MemoryGraph) :
    ∃ r, (store version).request c g = (.ok r, g.after c) := by
  cases c <;> exact ⟨_, rfl⟩

theorem serve_store (version : String) (l : List StoreCall) (t : Run.FlushTotals)
    (g : MemoryGraph) : ∃ t', (store version).serve l t g = (.ok (), t', l.foldl after g) := by
  induction l generalizing t g with
  | nil => exact ⟨t, rfl⟩
  | cons c l ih =>
    obtain ⟨r, hr⟩ := request_store version c g
    rw [GraphStore.serve, hr]
    exact ih _ _

theorem addRelationships_eq (l : List Relationship) (g : MemoryGraph) :
    l.foldl addRelationship g =
      { g with relationships := (l.foldl addRelationship g).relationships } := by
  induction l generalizing g with
  | nil => rfl
  | cons r l ih =>
    rw [List.foldl_cons, ih]
    unfold addRelationship
    split_ifs <;> rfl

theorem mem_addRelationships {r : Relationship} (l : List Relationship) (g : MemoryGraph) :
    r ∈ (l.foldl addRelationship g).relationships ↔ r ∈ g.relationships ∨ r ∈ l := by
  induction l generalizing g with
  | nil => simp only [List.foldl_nil, List.not_mem_nil, or_false]
  | cons a l ih =>
    have ha : r ∈ (g.addRelationship a).relationships ↔ r ∈ g.relationships ∨ r = a := by
      unfold addRelationship
      split_ifs with h
      · rw [List.contains_iff_mem] at h
        exact ⟨.inl, fun hr => hr.elim id fun hr => hr ▸ h⟩
      · rw [List.mem_append, List.mem_singleton]
    rw [List.foldl_cons, ih, ha, List.mem_cons, or_assoc]

section Flush

variable (g : MemoryGraph) (symbols : List Symbol) (relationships : List Relationship)

@[simp] theorem files_flush : (g.flush symbols relationships).2.files = g.files := by
  simp only [flush]
  rw [addRelationships_eq]
  rfl

@[simp] theorem deleted_flush : (g.flush symbols relationships).2.deleted = g.deleted := by
  simp only [flush]
  rw [addRelationships_eq]
  rfl

@[simp] theorem symbols_flush :
    (g.flush symbols relationships).2.symbols = upsertAll symbols g.symbols := by
  simp only [flush]
  rw [addRelationships_eq]
  rfl

theorem mem_relationships_flush {r : Relationship} :
    r ∈ (g.flush symbols relationships).2.relationships ↔
      r ∈ g.relationships ∨ r ∈ relationships ∧ (g.upsertSymbols symbols).joins r = true := by
  simp only [flush]
  rw [mem_addRelationships, List.mem_filter]
  rfl

theorem symbol?_flush (key : String) :
    (g.flush symbols relationships).2.symbol? key =
      (lastWith symbols key).or (g.symbol? key) := by
  rw [symbol?, symbols_flush, find?_upsertAll]
  rfl

theorem keyed_flush (hg : g.Keyed) : (g.flush symbols relationships).2.Keyed := by
  rw [Keyed, symbols_flush]
  exact nodup_upsertAll _ _ hg

end Flush

section DeleteSymbols

/-- The relationship has an end among the symbols of the file. -/
def Touches (g : MemoryGraph) (fileKey : String) (r : Relationship) : Prop :=
  ∃ x ∈ g.symbols, x.fileKey = fileKey ∧ (x.key = r.source ∨ x.key = r.target)

variable (g : MemoryGraph) (fileKey : String)

theorem symbol?_deleteSymbols (hg : g.Keyed) (key : String) :
    (g.deleteSymbols fileKey).symbol? key =
      (g.symbol? key).filter (·.fileKey != fileKey) :=
  find?_filter_of_nodup _ key hg

theorem keyed_deleteSymbols (hg : g.Keyed) : (g.deleteSymbols fileKey).Keyed :=
  (List.filter_sublist.map _).nodup hg

theorem mem_relationships_deleteSymbols {r : Relationship} :
    r ∈ (g.deleteSymbols fileKey).relationships ↔
      r ∈ g.relationships ∧ ¬ g.Touches fileKey r := by
  simp only [deleteSymbols, List.mem_filter, Bool.and_eq_true, Bool.not_eq_true',
    List.contains_eq_mem, decide_eq_false_iff_not, List.mem_map, beq_iff_eq, Touches]
  refine and_congr_right fun _ => ⟨?_, ?_⟩
  · rintro ⟨hs, ht⟩ ⟨x, hx, hf, h | h⟩
    · exact hs ⟨x, ⟨hx, hf⟩, h⟩
    · exact ht ⟨x, ⟨hx, hf⟩, h⟩
  · intro h
    constructor
    · rintro ⟨x, ⟨hx, hf⟩, hs⟩
      exact h ⟨x, hx, hf, .inl hs⟩
    · rintro ⟨x, ⟨hx, hf⟩, ht⟩
      exact h ⟨x, hx, hf, .inr ht⟩

end DeleteSymbols

theorem hasFile_upsertFile (g : MemoryGraph) (f : FileNode) (key : String) :
    (g.upsertFile f).hasFile key = true ↔ key = f.key ∨ g.hasFile key = true := by
  rw [hasFile_iff, hasFile_iff]
  exact mem_map_upsertBy

/-! ## Requests in a row -/

/-- Nothing that is written belongs to a file whose symbols are deleted afterwards. -/
def Lasting (l : List StoreCall) : Prop :=
  ∀ l₁ symbols relationships l₂, l = l₁ ++ .flush symbols relationships :: l₂ →
    ∀ x ∈ symbols, x.fileKey ∉ deletedKeys l₂

theorem Lasting.tail {c : StoreCall} {l : List StoreCall} (h : Lasting (c :: l)) : Lasting l :=
  fun l₁ symbols relationships l₂ hl =>
    h (c :: l₁) symbols relationships l₂ (congrArg (c :: ·) hl)

theorem keyed_foldl_after : ∀ (l : List StoreCall) {g : MemoryGraph}, g.Keyed →
    (l.foldl after g).Keyed
  | [], _, hg => hg
  | c :: l, g, hg => by
    refine keyed_foldl_after l (g := g.after c) ?_
    cases c with
    | flush symbols relationships => exact keyed_flush g symbols relationships hg
    | deletePriorSymbols fileKey => exact keyed_deleteSymbols g fileKey hg
    | markFileAsDeleted fileKey =>
      simp only [after, markDeleted]
      split_ifs <;> exact hg
    | _ => exact hg

theorem symbols_markDeleted (g : MemoryGraph) (fileKey : String) :
    (g.markDeleted fileKey).symbols = g.symbols := by
  unfold markDeleted
  split_ifs <;> rfl

theorem relationships_markDeleted (g : MemoryGraph) (fileKey : String) :
    (g.markDeleted fileKey).relationships = g.relationships := by
  unfold markDeleted
  split_ifs <;> rfl

theorem mem_symbols_after {g : MemoryGraph} {c : StoreCall} {x : Symbol}
    (h : x ∈ (g.after c).symbols) : x ∈ g.symbols ∨ x ∈ c.batch.symbols := by
  cases c with
  | flush symbols relationships =>
    rw [after, symbols_flush] at h
    exact (mem_of_mem_upsertAll h).symm
  | deletePriorSymbols fileKey => exact .inl (List.mem_filter.1 h).1
  | markFileAsDeleted fileKey =>
    rw [after, symbols_markDeleted] at h
    exact .inl h
  | _ => exact .inl h

/-- Symbols come from the requests or have been there before. -/
theorem mem_symbols_of_foldl_after {x : Symbol} : ∀ {l : List StoreCall} {g : MemoryGraph},
    x ∈ (l.foldl after g).symbols → x ∈ g.symbols ∨ x ∈ (written l).symbols
  | [], _, h => .inl h
  | c :: l, g, h => by
    rw [written, Extraction.symbols_append, List.mem_append]
    rcases mem_symbols_of_foldl_after (l := l) h with h | h
    · exact (mem_symbols_after h).imp_right .inl
    · exact .inr (.inr h)

theorem symbol?_after {g : MemoryGraph} (hg : g.Keyed) (c : StoreCall) (key : String) :
    (g.after c).symbol? key = (lastWith c.batch.symbols key).or
      ((g.symbol? key).filter fun x => c.deletedKey? ≠ some x.fileKey) := by
  cases c with
  | flush symbols relationships =>
    rw [after, symbol?_flush]
    refine congrArg _ ?_
    rcases g.symbol? key with _ | x <;> rfl
  | deletePriorSymbols fileKey =>
    rw [after, symbol?_deleteSymbols g fileKey hg]
    refine congrArg (Option.filter · (g.symbol? key)) (funext fun x => ?_)
    rw [Bool.eq_iff_iff, bne_iff_ne, decide_eq_true_eq, StoreCall.deletedKey?, ne_eq, ne_eq,
      Option.some_inj, eq_comm]
  | markFileAsDeleted fileKey =>
    rw [after, symbol?, symbols_markDeleted]
    show g.symbol? key = _
    rcases g.symbol? key with _ | x <;> rfl
  | _ =>
    show g.symbol? key = _
    rcases g.symbol? key with _ | x <;> rfl

theorem mem_deletedKeys_cons {c : StoreCall} {l : List StoreCall} {key : String} :
    key ∈ deletedKeys (c :: l) ↔ c.deletedKey? = some key ∨ key ∈ deletedKeys l := by
  rw [mem_deletedKeys, mem_deletedKeys, List.mem_cons, StoreCall.deletedKey?_eq_some, eq_comm]

/-- A key has the symbol that was written last with it, or else the symbol it had, unless the
symbols of its file were deleted. -/
theorem symbol?_foldl_after (key : String) : ∀ {l : List StoreCall} {g : MemoryGraph}, g.Keyed →
    Lasting l → (l.foldl after g).symbol? key =
      (lastWith (written l).symbols key).or
        ((g.symbol? key).filter fun x => x.fileKey ∉ deletedKeys l)
  | [], g, _, _ => by
    show g.symbol? key = _
    rcases g.symbol? key with _ | x <;> rfl
  | c :: l, g, hg, hl => by
    have hrest := symbol?_foldl_after key (l := l) (keyed_foldl_after [c] hg) hl.tail
    have hkept : ∀ x, lastWith c.batch.symbols key = some x → x.fileKey ∉ deletedKeys l := by
      intro x hx
      cases c with
      | flush symbols relationships => exact hl [] _ _ l rfl x (lastWith_eq_some hx).1
      | _ => exact absurd (lastWith_eq_some hx).1 List.not_mem_nil
    rw [List.foldl_cons]
    refine hrest.trans ?_
    rw [List.foldl_cons, List.foldl_nil, symbol?_after hg, written, Extraction.symbols_append,
      lastWith_append, Option.or_assoc]
    refine congrArg _ ?_
    rcases hc : lastWith c.batch.symbols key with _ | x
    · rcases g.symbol? key with _ | x
      · rfl
      · by_cases hd : c.deletedKey? = some x.fileKey
        · simp only [Option.none_or, Option.filter_some, mem_deletedKeys_cons, hd, ne_eq,
            not_true_eq_false, true_or, decide_false, Bool.false_eq_true, if_false,
            Option.filter_none]
        · simp only [Option.none_or, Option.filter_some, mem_deletedKeys_cons, hd, ne_eq,
            not_false_eq_true, false_or, decide_true, if_true]
    · rw [Option.some_or, Option.some_or, Option.filter_some, if_pos (decide_eq_true (hkept x hc))]

theorem mem_symbols_foldl_after {l : List StoreCall} {g : MemoryGraph} (hg : g.Keyed)
    (hl : Lasting l) {x : Symbol} : x ∈ (l.foldl after g).symbols ↔
      lastWith (written l).symbols x.key = some x ∨
        x ∈ g.symbols ∧ (∀ y ∈ (written l).symbols, y.key ≠ x.key) ∧
          x.fileKey ∉ deletedKeys l := by
  rw [mem_symbols_iff (keyed_foldl_after l hg), symbol?_foldl_after x.key hg hl,
    mem_symbols_iff hg, ← lastWith_eq_none]
  rcases lastWith (written l).symbols x.key with _ | y
  · rw [Option.none_or, Option.filter_eq_some_iff]
    simp only [reduceCtorEq, true_and, false_or, decide_eq_true_eq]
  · simp only [Option.some_or, reduceCtorEq, false_and, and_false, or_false]

/-- A key stays in the store if it is written, or if it was there with a symbol of a file whose
symbols are not deleted. -/
theorem holds_foldl_after (hg : g.Keyed) (hl : Lasting l) {key : String} :
    (∃ y ∈ (l.foldl after g).symbols, y.key = key) ↔
      (∃ z ∈ (written l).symbols, z.key = key) ∨
        ∃ z ∈ g.symbols, z.key = key ∧ z.fileKey ∉ deletedKeys l := by
  constructor
  · rintro ⟨y, hy, hkey⟩
    rcases (mem_symbols_foldl_after hg hl).1 hy with hlast | ⟨hy, -, hfile⟩
    · exact .inl ⟨y, (lastWith_eq_some hlast).1, hkey⟩
    · exact .inr ⟨y, hy, hkey, hfile⟩
  · intro h
    by_cases hwritten : ∃ z ∈ (written l).symbols, z.key = key
    · obtain ⟨z, hz, rfl⟩ := hwritten
      obtain ⟨y, hy⟩ := lastWith_isSome hz
      have hkey := (lastWith_eq_some hy).2
      exact ⟨y, (mem_symbols_foldl_after hg hl).2 (.inl (by rwa [hkey])), hkey⟩
    · obtain ⟨z, hz, rfl, hfile⟩ := h.resolve_left hwritten
      exact ⟨z, (mem_symbols_foldl_after hg hl).2
        (.inr ⟨hz, fun y hy hkey => hwritten ⟨y, hy, hkey⟩, hfile⟩), rfl⟩

theorem files_markDeleted (g : MemoryGraph) (fileKey : String) :
    (g.markDeleted fileKey).files = g.files := by
  unfold markDeleted
  split_ifs <;> rfl

theorem hasFile_after (g : MemoryGraph) (c : StoreCall) (key : String) :
    (g.after c).hasFile key = true ↔
      g.hasFile key = true ∨ ∃ f, c.file? = some f ∧ f.key = key := by
  cases c with
  | upsertFile repoKey f =>
    rw [after, hasFile_upsertFile, or_comm, eq_comm (a := key)]
    simp only [StoreCall.file?, Option.some_inj, exists_eq_left']
  | flush symbols relationships =>
    simp only [after, hasFile, files_flush, StoreCall.file?, reduceCtorEq, false_and, exists_false,
      or_false]
  | markFileAsDeleted fileKey =>
    simp only [after, hasFile, files_markDeleted, StoreCall.file?, reduceCtorEq, false_and,
      exists_false, or_false]
  | _ =>
    simp only [StoreCall.file?, reduceCtorEq, false_and, exists_false, or_false]
    rfl

theorem hasFile_foldl_after {key : String} : ∀ {l : List StoreCall} {g : MemoryGraph},
    (l.foldl after g).hasFile key = true ↔
      g.hasFile key = true ∨ key ∈ (l.filterMap StoreCall.file?).map (·.key)
  | [], g => by simp only [List.foldl_nil, List.filterMap_nil, List.map_nil, List.not_mem_nil,
      or_false]
  | c :: l, g => by
    rw [List.foldl_cons, hasFile_foldl_after (l := l), hasFile_after, or_assoc]
    refine or_congr_right ?_
    rcases hc : c.file? with _ | f
    · rw [List.filterMap_cons_none hc]
      simp only [reduceCtorEq, false_and, exists_false, false_or]
    · rw [List.filterMap_cons_some hc, List.map_cons, List.mem_cons]
      simp only [Option.some_inj, exists_eq_left', eq_comm]

theorem mem_deleted_after (g : MemoryGraph) (c : StoreCall) (key : String) :
    key ∈ (g.after c).deleted ↔
      (key ∈ g.deleted ∧ ∀ f, c.file? = some f → f.key ≠ key) ∨
        c = .markFileAsDeleted key ∧ g.hasFile key = true := by
  cases c with
  | upsertFile repoKey f =>
    simp only [after, upsertFile, List.mem_filter, bne_iff_ne, StoreCall.file?, Option.some_inj,
      forall_eq', reduceCtorEq, false_and, or_false]
    exact and_congr_right fun _ => ne_comm
  | flush symbols relationships =>
    simp only [after, deleted_flush, StoreCall.file?, reduceCtorEq, false_implies, implies_true,
      and_true, false_and, or_false]
  | markFileAsDeleted fileKey =>
    simp only [StoreCall.file?, reduceCtorEq, false_implies, implies_true, and_true,
      StoreCall.markFileAsDeleted.injEq]
    rw [after, markDeleted]
    split_ifs with h
    · simp only [Bool.and_eq_true, Bool.not_eq_true'] at h
      rw [List.mem_append, List.mem_singleton]
      refine or_congr_right ⟨?_, fun hkey => hkey.1.symm⟩
      rintro rfl
      exact ⟨rfl, h.1⟩
    · refine ⟨.inl, fun hkey => hkey.elim id ?_⟩
      rintro ⟨rfl, hfile⟩
      by_contra hmem
      refine h (Bool.and_eq_true_iff.2 ⟨hfile, ?_⟩)
      rwa [Bool.not_eq_true', List.contains_eq_mem, decide_eq_false_iff_not]
  | _ =>
    simp only [StoreCall.file?, reduceCtorEq, false_implies, implies_true, and_true, false_and,
      or_false]
    rfl

/-- As long as no files are written, files that are there are marked one after the other. -/
theorem mem_deleted_of_marks {key : String} : ∀ {l : List StoreCall} {g : MemoryGraph},
    (∀ c ∈ l, c.file? = none) → (key ∈ (l.foldl after g).deleted ↔
      key ∈ g.deleted ∨ .markFileAsDeleted key ∈ l ∧ g.hasFile key = true)
  | [], g, _ => by simp only [List.foldl_nil, List.not_mem_nil, false_and, or_false]
  | c :: l, g, h => by
    obtain ⟨hc, hl⟩ := List.forall_mem_cons.1 h
    rw [List.foldl_cons, mem_deleted_of_marks hl, mem_deleted_after, hasFile_after, hc]
    simp only [reduceCtorEq, false_implies, implies_true, and_true, false_and, exists_false,
      or_false, List.mem_cons, or_and_right, or_assoc, eq_comm (a := c)]

/-- As long as no files are marked, those that are written are unmarked. -/
theorem mem_deleted_of_files {key : String} : ∀ {l : List StoreCall} {g : MemoryGraph},
    .markFileAsDeleted key ∉ l → (key ∈ (l.foldl after g).deleted ↔
      key ∈ g.deleted ∧ key ∉ (l.filterMap StoreCall.file?).map (·.key))
  | [], g, _ => by simp only [List.foldl_nil, List.filterMap_nil, List.map_nil, List.not_mem_nil,
      not_false_eq_true, and_true]
  | c :: l, g, h => by
    obtain ⟨hc, hl⟩ := not_or.1 (mt List.mem_cons.2 h)
    rw [List.foldl_cons, mem_deleted_of_files hl, mem_deleted_after,
      or_iff_left fun h => hc h.1.symm, and_assoc]
    refine and_congr_right fun _ => ?_
    rcases hfile : c.file? with _ | f
    · rw [List.filterMap_cons_none hfile]
      simp only [reduceCtorEq, false_implies, implies_true, true_and]
    · rw [List.filterMap_cons_some hfile, List.map_cons, List.mem_cons, not_or]
      simp only [Option.some_inj, forall_eq', ne_comm (a := key)]

/-- Whenever relationships are written, their ends are there. -/
def Joining (g : MemoryGraph) (l : List StoreCall) : Prop :=
  ∀ l₁ symbols relationships l₂, l = l₁ ++ .flush symbols relationships :: l₂ →
    ∀ r ∈ relationships, ((l₁.foldl after g).upsertSymbols symbols).joins r = true

theorem Joining.tail {g : MemoryGraph} {c : StoreCall} {l : List StoreCall}
    (h : Joining g (c :: l)) : Joining (g.after c) l :=
  fun l₁ symbols relationships l₂ hl =>
    h (c :: l₁) symbols relationships l₂ (congrArg (c :: ·) hl)

theorem mem_relationships_after {g : MemoryGraph} {c : StoreCall} {r : Relationship}
    (hc : ∀ symbols relationships, c = .flush symbols relationships → r ∈ relationships →
      (g.upsertSymbols symbols).joins r = true) :
    r ∈ (g.after c).relationships ↔
      (r ∈ g.relationships ∧ ∀ fileKey, c = .deletePriorSymbols fileKey → ¬ g.Touches fileKey r) ∨
        r ∈ c.batch.relationships := by
  cases c with
  | flush symbols relationships =>
    rw [after, mem_relationships_flush]
    simp only [reduceCtorEq, false_implies, implies_true, and_true, StoreCall.batch]
    exact or_congr_right (and_iff_left_of_imp (hc symbols relationships rfl))
  | deletePriorSymbols fileKey =>
    rw [after, mem_relationships_deleteSymbols]
    simp only [StoreCall.deletePriorSymbols.injEq, forall_eq', StoreCall.batch, Extraction.empty,
      List.not_mem_nil, or_false]
  | markFileAsDeleted fileKey =>
    rw [after, relationships_markDeleted]
    simp only [reduceCtorEq, false_implies, implies_true, and_true, StoreCall.batch,
      Extraction.empty, List.not_mem_nil, or_false]
  | _ =>
    simp only [reduceCtorEq, false_implies, implies_true, and_true, StoreCall.batch,
      Extraction.empty, List.not_mem_nil, or_false]
    rfl

/-- A relationship is there after the requests if it was there or is written, and is written again
after each deletion that takes it away. -/
theorem mem_relationships_foldl_after {r : Relationship} :
    ∀ {l : List StoreCall} {g : MemoryGraph}, Joining g l →
      (r ∈ (l.foldl after g).relationships ↔
        (r ∈ g.relationships ∨ r ∈ (written l).relationships) ∧
          ∀ l₁ fileKey l₂, l = l₁ ++ .deletePriorSymbols fileKey :: l₂ →
            (l₁.foldl after g).Touches fileKey r → r ∈ (written l₂).relationships)
  | [], g, _ => by
    refine ⟨fun hr => ⟨.inl hr, fun l₁ _ _ h => absurd h (by simp)⟩, fun h => ?_⟩
    exact h.1.resolve_right List.not_mem_nil
  | c :: l, g, hl => by
    have hstep := mem_relationships_after (c := c) (g := g) (r := r)
      fun symbols relationships hc => hl [] _ _ l (congrArg (· :: l) hc) r
    rw [List.foldl_cons, mem_relationships_foldl_after hl.tail, hstep, written,
      Extraction.relationships_append, List.mem_append, ← or_assoc]
    constructor
    · rintro ⟨hr, hlater⟩
      refine ⟨hr.imp_left fun hr => hr.imp_left And.left, fun l₁ fileKey l₂ h htouch => ?_⟩
      rcases l₁ with _ | ⟨d, l₁⟩
      · obtain ⟨rfl, rfl⟩ := List.cons.inj h
        rcases hr with (hr | hr) | hr
        · exact absurd htouch (hr.2 fileKey rfl)
        · exact absurd hr List.not_mem_nil
        · exact hr
      · obtain ⟨rfl, hl⟩ := List.cons.inj h
        exact hlater l₁ fileKey l₂ hl htouch
    · rintro ⟨hr, hlater⟩
      -- What the first request takes away is written again later, so it counts as new.
      refine ⟨?_, fun l₁ fileKey l₂ h => hlater (c :: l₁) fileKey l₂ (congrArg (c :: ·) h)⟩
      rcases hr with (hr | hr) | hr
      · by_cases htouch : ∃ fileKey, c = .deletePriorSymbols fileKey ∧ g.Touches fileKey r
        · obtain ⟨fileKey, rfl, htouch⟩ := htouch
          exact .inr (hlater [] fileKey l rfl htouch)
        · exact .inl (.inl ⟨hr, fun fileKey hc h => htouch ⟨fileKey, hc, h⟩⟩)
      · exact .inl (.inr hr)
      · exact .inr hr

theorem Lasting.left {l m : List StoreCall} (h : Lasting (l ++ m)) : Lasting l := by
  intro l₁ symbols relationships l₂ hl x hx hmem
  rw [hl, List.append_assoc, List.cons_append] at h
  refine h l₁ symbols relationships _ rfl x hx ?_
  rw [deletedKeys_append]
  exact List.mem_append_left _ hmem

theorem Lasting.fileKey_ne {l₁ l₂ : List StoreCall} {fileKey : String}
    (h : Lasting (l₁ ++ .deletePriorSymbols fileKey :: l₂)) {y : Symbol}
    (hy : y ∈ (written l₁).symbols) : y.fileKey ≠ fileKey := by
  rintro rfl
  obtain ⟨m₁, symbols, relationships, m₂, rfl, hmem⟩ := flush_of_mem_written_symbols hy
  rw [List.append_assoc, List.cons_append] at h
  refine h m₁ symbols relationships _ rfl y hmem (mem_deletedKeys.2 ?_)
  exact List.mem_append_right _ List.mem_cons_self

/-- Symbols of a file that is about to lose its symbols have been there all the time, and their keys
have not been written. -/
theorem touches_foldl_after {g : MemoryGraph} (hg : g.Keyed) {l₁ l₂ : List StoreCall}
    {fileKey : String} (hl : Lasting (l₁ ++ .deletePriorSymbols fileKey :: l₂))
    (hfirst : fileKey ∉ deletedKeys l₁) (r : Relationship) :
    (l₁.foldl after g).Touches fileKey r ↔
      ∃ x ∈ g.symbols, x.fileKey = fileKey ∧ (x.key = r.source ∨ x.key = r.target) ∧
        ∀ y ∈ (written l₁).symbols, y.key ≠ x.key := by
  have hother : ∀ y ∈ (written l₁).symbols, y.fileKey ≠ fileKey := fun _ hy => hl.fileKey_ne hy
  unfold Touches
  refine exists_congr fun x => ?_
  rw [mem_symbols_foldl_after hg hl.left]
  constructor
  · rintro ⟨hx | ⟨hx, hkey, -⟩, hfile, hend⟩
    · exact absurd hfile (hother x (lastWith_eq_some hx).1)
    · exact ⟨hx, hfile, hend, hkey⟩
  · rintro ⟨hx, hfile, hend, hkey⟩
    exact ⟨.inr ⟨hx, hkey, hfile ▸ hfirst⟩, hfile, hend⟩

/-- The requests take a relationship away for good: a deletion hits a symbol at one of its ends, of
which nothing was written before, and the relationship is not written afterwards. -/
def Loses (g : MemoryGraph) (l : List StoreCall) (r : Relationship) : Prop :=
  ∃ l₁ fileKey l₂, l = l₁ ++ .deletePriorSymbols fileKey :: l₂ ∧
    (∃ x ∈ g.symbols, x.fileKey = fileKey ∧ (x.key = r.source ∨ x.key = r.target) ∧
      ∀ y ∈ (written l₁).symbols, y.key ≠ x.key) ∧
    r ∉ (written l₂).relationships

theorem mem_relationships_iff_not_loses {g : MemoryGraph} (hg : g.Keyed) {l : List StoreCall}
    (hlasting : Lasting l) (hjoining : Joining g l) (hdistinct : (deletedKeys l).Nodup)
    (r : Relationship) : r ∈ (l.foldl after g).relationships ↔
      (r ∈ g.relationships ∨ r ∈ (written l).relationships) ∧ ¬ g.Loses l r := by
  have hfirst : ∀ l₁ fileKey l₂, l = l₁ ++ .deletePriorSymbols fileKey :: l₂ →
      fileKey ∉ deletedKeys l₁ := by
    rintro l₁ fileKey l₂ rfl hmem
    rw [deletedKeys_append, List.nodup_append] at hdistinct
    exact hdistinct.2.2 _ hmem _ List.mem_cons_self rfl
  rw [mem_relationships_foldl_after hjoining]
  refine and_congr_right fun _ => ⟨?_, fun h l₁ fileKey l₂ hl htouch => ?_⟩
  · rintro h ⟨l₁, fileKey, l₂, rfl, htouch, hlater⟩
    refine hlater (h l₁ fileKey l₂ rfl ?_)
    exact (touches_foldl_after hg hlasting (hfirst l₁ fileKey l₂ rfl) r).2 htouch
  · by_contra hlater
    subst hl
    refine h ⟨l₁, fileKey, l₂, rfl, ?_, hlater⟩
    exact (touches_foldl_after hg hlasting (hfirst l₁ fileKey l₂ rfl) r).1 htouch

end MemoryGraph

end CodeGraph
