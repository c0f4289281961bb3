import CodeGraph.LanguageServer.Response
import CodeGraph.Proofs.Nesting
import CodeGraph.Proofs.Offsets
import CodeGraph.Proofs.Outline

/-!
# Positions in a response

A server numbers lines and columns from zero, with 32 bits. Symbols keep these numbers whether the
outline is nested or is still to be nested (`fitsWord_of_outline?`), so their lines are all below
the limit, but the line after the last one is not. Declarations number lines from one: a symbol on
the last line makes none, and nothing else in a response stands in the way of its declarations
(`declared_lines`).
-/

namespace CodeGraph

open Json (Record Value)

theorem Json.Value.lt_of_uint32? {v : Value} {n : Nat} (h : v.uint32? = some n) :
    n < Bits.limit32 := by
  obtain ⟨i, hi, rfl⟩ := Option.map_eq_some_iff.1 h
  unfold Value.int? at hi
  split at hi
  · obtain ⟨⟨hlo, hhi⟩, hi⟩ := Option.ite_none_right_eq_some.1 hi
    obtain rfl := Option.some_inj.1 hi
    omega
  · cases hi

namespace LanguageServer

/-- Words of 32 bits hold the lines and the column of the symbol. -/
structure ReportedSymbol.FitsWord (s : ReportedSymbol) : Prop where
  startLine : s.startLine < Bits.limit32
  endLine : s.endLine < Bits.limit32
  startColumn : s.startColumn < Bits.limit32

/-- They hold those of all symbols inside it, too. -/
def ReportedSymbol.AllFitWord (s : ReportedSymbol) : Prop :=
  ∀ around, ∀ m ∈ mentionsOf around s, m.symbol.FitsWord

theorem ReportedSymbol.FitsWord.all {s : ReportedSymbol} (hs : s.FitsWord)
    (h : ∀ c ∈ s.children, c.AllFitWord) : s.AllFitWord := by
  intro around m hm
  rw [mentionsOf_eq, List.mem_cons] at hm
  rcases hm with rfl | hm
  · exact hs
  · obtain ⟨c, hc, hm⟩ := mem_mentionsIn.1 hm
    exact h c hc _ m hm

/-! ## Outlines that are not nested -/

theorem lt_of_position? {v : Value} {position : Nat × Nat} (h : position? v = some position) :
    position.1 < Bits.limit32 ∧ position.2 < Bits.limit32 := by
  simp only [position?, Record.required, Option.bind_eq_bind, Option.bind_eq_some_iff] at h
  obtain ⟨r, -, line, ⟨_, -, hline⟩, column, ⟨_, -, hcolumn⟩, h⟩ := h
  obtain rfl := Option.some_inj.1 h
  exact ⟨Value.lt_of_uint32? hline, Value.lt_of_uint32? hcolumn⟩

theorem lt_of_range? {v : Value} {start stop : Nat × Nat} (h : range? v = some (start, stop)) :
    (start.1 < Bits.limit32 ∧ start.2 < Bits.limit32) ∧
      stop.1 < Bits.limit32 ∧ stop.2 < Bits.limit32 := by
  simp only [range?, Record.required, Option.bind_eq_bind, Option.bind_eq_some_iff] at h
  obtain ⟨r, -, _, ⟨_, -, hstart⟩, _, ⟨_, -, hstop⟩, h⟩ := h
  obtain ⟨rfl, rfl⟩ := Prod.mk.injEq .. ▸ Option.some_inj.1 h
  exact ⟨lt_of_position? hstart, lt_of_position? hstop⟩

theorem range?_of_location? {v : Value} {range : (Nat × Nat) × (Nat × Nat)}
    (h : location? v = some range) : ∃ w, range? w = some range := by
  simp only [location?, Record.required, Option.bind_eq_bind, Option.bind_eq_some_iff] at h
  obtain ⟨r, -, uri, -, h⟩ := h
  obtain ⟨-, h⟩ := Option.ite_none_right_eq_some.1 h
  obtain ⟨w, -, hw⟩ := Option.bind_eq_some_iff.1 h
  exact ⟨w, hw⟩

theorem fitsWord_of_flatSymbol? {v : Value} {s : ReportedSymbol} (h : flatSymbol? v = some s) :
    s.FitsWord := by
  simp only [flatSymbol?, Record.required, Option.bind_eq_bind, Option.bind_eq_some_iff] at h
  obtain ⟨r, -, name, -, code, -, _, -, _, -, range, ⟨_, -, hrange⟩, container, -, h⟩ := h
  obtain rfl := Option.some_inj.1 h
  obtain ⟨w, hw⟩ := range?_of_location? hrange
  obtain ⟨⟨hline, hcolumn⟩, hend, -⟩ := lt_of_range? hw
  exact ⟨hline, hend, hcolumn⟩

theorem allFitWord_treeAt {flat : List ReportedSymbol} (h : ∀ s ∈ flat, s.FitsWord) (i : Nat) :
    (treeAt flat i).outline.AllFitWord := by
  induction i using below_induction flat with
  | h i ih =>
    rw [treeAt_eq, Placed.outline, Placed.outlines_eq_map, List.map_map]
    have hs : (flat.getD i default).FitsWord := by
      rw [List.getD_eq_getElem?_getD]
      cases hi : flat[i]? with
      | none =>
        -- no symbol has this place, and the default one has zeros
        exact ⟨by decide, by decide, by decide⟩
      | some s => exact h s (List.mem_of_getElem? hi)
    refine ReportedSymbol.FitsWord.all ⟨hs.startLine, hs.endLine, hs.startColumn⟩ fun c hc => ?_
    obtain ⟨j, hj, rfl⟩ := List.mem_map.1 hc
    exact ih j hj

theorem allFitWord_nest {flat : List ReportedSymbol} (h : ∀ s ∈ flat, s.FitsWord) :
    ∀ s ∈ nest flat, s.AllFitWord := by
  intro s hs
  rw [nest_eq, Placed.outlines_eq_map, forest, List.map_map] at hs
  obtain ⟨i, -, rfl⟩ := List.mem_map.1 hs
  exact allFitWord_treeAt h i

/-! ## Nested outlines -/

theorem exists_of_mem_mapM {α β : Type} {f : α → Option β} {b : β} : ∀ {l : List α} {l' : List β},
    l.mapM f = some l' → b ∈ l' → ∃ a ∈ l, f a = some b
  | [], _, h, hb => by
    obtain rfl := Option.some_inj.1 h
    cases hb
  | a :: l, _, h, hb => by
    simp only [List.mapM_cons, Option.bind_eq_bind, Option.bind_eq_some_iff] at h
    obtain ⟨b', hb', l', hl', h⟩ := h
    obtain rfl := Option.some_inj.1 h
    rcases List.mem_cons.1 hb with rfl | hb
    · exact ⟨a, List.mem_cons_self, hb'⟩
    · obtain ⟨a', ha', hf⟩ := exists_of_mem_mapM hl' hb
      exact ⟨a', List.mem_cons_of_mem _ ha', hf⟩

theorem of_nestedSymbol? {v : Value} {s : ReportedSymbol} (h : nestedSymbol? v = some s) :
    s.FitsWord ∧ ∀ c ∈ s.children, ∃ w, sizeOf w < sizeOf v ∧ nestedSymbol? w = some c := by
  rw [nestedSymbol?] at h
  split at h
  · cases h
  · rename_i r hr
    simp only [Record.required, Option.bind_eq_bind, Option.bind_eq_some_iff] at h
    obtain ⟨name, -, detail, -, code, -, _, -, _, -, ⟨_, stop⟩, ⟨_, -, hrange⟩, ⟨start, _⟩,
      ⟨_, -, hselection⟩, h⟩ := h
    obtain ⟨⟨hline, hcolumn⟩, -⟩ := lt_of_range? hselection
    obtain ⟨-, hend, -⟩ := lt_of_range? hrange
    split at h
    · obtain rfl := Option.some_inj.1 h
      exact ⟨⟨hline, hend, hcolumn⟩, by simp⟩
    · obtain rfl := Option.some_inj.1 h
      exact ⟨⟨hline, hend, hcolumn⟩, by simp⟩
    · rename_i items hitems
      obtain ⟨children, hchildren, h⟩ := Option.bind_eq_some_iff.1 h
      obtain rfl := Option.some_inj.1 h
      refine ⟨⟨hline, hend, hcolumn⟩, fun c hc => ?_⟩
      obtain ⟨w, -, hw⟩ := exists_of_mem_mapM hchildren hc
      have hfield := Record.sizeOf_lt_of_field hr hitems
      have hitem := List.sizeOf_lt_of_mem w.2
      simp only [Value.array.sizeOf_spec] at hfield
      exact ⟨w.1, by omega, hw⟩
    · cases h

theorem allFitWord_of_nestedSymbol? (v : Value) {s : ReportedSymbol}
    (h : nestedSymbol? v = some s) : s.AllFitWord := by
  obtain ⟨hs, hchildren⟩ := of_nestedSymbol? h
  refine hs.all fun c hc => ?_
  obtain ⟨w, hlt, hw⟩ := hchildren c hc
  exact allFitWord_of_nestedSymbol? w hw
termination_by sizeOf v

/-- Words of 32 bits hold all lines and columns of an outline. -/
theorem fitsWord_of_outline? {response : Value} {symbols : List ReportedSymbol}
    (h : outline? response = some symbols) : ∀ m ∈ mentions symbols, m.symbol.FitsWord := by
  have hall : ∀ s ∈ symbols, s.AllFitWord := by
    unfold outline? at h
    split at h
    · obtain rfl := Option.some_inj.1 h
      simp
    · split at h
      · rename_i flat hflat
        obtain rfl := Option.some_inj.1 h
        refine allFitWord_nest fun s hs => ?_
        obtain ⟨v, -, hv⟩ := exists_of_mem_mapM hflat hs
        exact fitsWord_of_flatSymbol? hv
      · intro s hs
        obtain ⟨v, -, hv⟩ := exists_of_mem_mapM h hs
        exact allFitWord_of_nestedSymbol? v hv
    · cases h
  intro m hm
  obtain ⟨s, hs, hm⟩ := mem_mentionsIn.1 hm
  exact hall s hs [] m hm

/-! ## Lines of declarations -/

/-- The symbol starts or ends on the last line that 32 bits can number. -/
def Mention.MeetsLastLine (m : Mention) : Prop :=
  m.symbol.startLine = Bits.limit32 - 1 ∨ m.symbol.endLine = Bits.limit32 - 1

instance (m : Mention) : Decidable m.MeetsLastLine := inferInstanceAs (Decidable (_ ∨ _))

theorem Mention.not_fits_iff {m : Mention} (h : m.symbol.FitsWord) :
    ¬ m.Fits ↔ m.MeetsLastLine := by
  have hstart := h.startLine
  have hend := h.endLine
  unfold Fits MeetsLastLine
  omega

/-- Declarations start and end on the lines after those of their symbols, which count from zero. All
that can go wrong is that a line of a kept symbol is the last one of 32 bits; no place is outside
its text or its list, whatever the content. -/
theorem declared_lines (response : Value) (content : String) {symbols : List ReportedSymbol}
    (h : outline? response = some symbols) :
    (∀ m ∈ mentions symbols, m.symbol.FitsWord) ∧
    (∀ flat i j, parent? flat i = some j → i < flat.length ∧ j < flat.length) ∧
    ((∃ m ∈ mentions symbols, m.IsKept ∧ m.MeetsLastLine) →
      toDeclarationsAt symbols content = .error .overflow ∧
        toDeclarations symbols content = none) ∧
    ((∀ m ∈ mentions symbols, m.IsKept → ¬ m.MeetsLastLine) →
      ∃ declarations, toDeclarationsAt symbols content = .ok declarations ∧
        toDeclarations symbols content = some declarations ∧
        List.Forall₂ (fun m o => o.declaration.startLine = m.symbol.startLine + 1 ∧
          o.declaration.endLine = m.symbol.endLine + 1)
          ((mentions symbols).filter (·.IsKept)) (Source.occurrences declarations)) := by
  have hfits := fitsWord_of_outline? h
  refine ⟨hfits, fun flat i j => Up.lt_length, fun ⟨m, hm, hkept, hlast⟩ => ?_, fun hlines => ?_⟩
  · have hmissing := (yields_toDeclarations content symbols).eq_none_iff.2
      ⟨m, hm, hkept, (Mention.not_fits_iff (hfits m hm)).2 hlast⟩
    exact ⟨by rw [toDeclarationsAt_eq, hmissing]; rfl, hmissing⟩
  · have hnext : ∀ m ∈ mentions symbols, m.IsKept → m.Fits := fun m hm hkept =>
      of_not_not fun hnot => hlines m hm hkept ((Mention.not_fits_iff (hfits m hm)).1 hnot)
    obtain ⟨declarations, hfound⟩ := exists_toDeclarations hnext
    refine ⟨declarations, by rw [toDeclarationsAt_eq, hfound]; rfl, hfound, ?_⟩
    refine (forall₂_toDeclarations hfound).imp fun m o hchain => ?_
    have halone := alone_of_chain hchain
    exact ⟨congrArg Declaration.startLine halone, congrArg Declaration.endLine halone⟩

/-- A class on the last line, and one on the first, whose column is inside a character. -/
theorem declared_lines_of_class :
    ∃ response : Nat → Value,
      (∃ symbols, outline? (response (Bits.limit32 - 1)) = some symbols ∧
        toDeclarationsAt symbols "é A" = .error .overflow ∧
        toDeclarations symbols "é A" = none) ∧
      ∃ symbols declarations, outline? (response 0) = some symbols ∧
        toDeclarationsAt symbols "é A" = .ok declarations ∧
        (Source.occurrences declarations).map (·.declaration.startLine) = [1] := by
  let position (line : Nat) : Value := .object [("line", .ofNat line), ("character", .ofNat 1)]
  let range (line : Nat) : Value := .object [("start", position line), ("end", position line)]
  let item (line : Nat) : Value := .object [("name", .string "A"), ("kind", .ofNat 5),
    ("range", range line), ("selectionRange", range line)]
  let symbol (line : Nat) : ReportedSymbol := ⟨"A", .classDecl, none, none, line, line, 1, []⟩
  have houtline : ∀ line, nestedSymbol? (item line) = some (symbol line) →
      outline? (.array [item line]) = some [symbol line] := by
    intro line hitem
    have hflat : [item line].mapM flatSymbol? = none := rfl
    rw [outline?, hflat]
    simp [hitem]
  have hlast := houtline (Bits.limit32 - 1) (by rw [nestedSymbol?]; rfl)
  have hfirst := houtline 0 (by rw [nestedSymbol?]; rfl)
  obtain ⟨-, -, hoverflow, -⟩ := declared_lines _ "é A" hlast
  obtain ⟨-, -, -, hlines⟩ := declared_lines _ "é A" hfirst
  obtain ⟨declarations, hfound, -, hall⟩ := hlines (by decide)
  refine ⟨fun line => .array [item line],
    ⟨_, hlast, hoverflow ⟨⟨symbol (Bits.limit32 - 1), []⟩, List.mem_cons_self, by decide,
      by decide⟩⟩, _, declarations, hfirst, hfound, ?_⟩
  have hkept : (mentions [symbol 0]).filter (·.IsKept) = [⟨symbol 0, []⟩] := rfl
  rw [hkept] at hall
  obtain ⟨o, rest, ho, hrest, hoccurrences⟩ := List.forall₂_cons_left_iff.1 hall
  rw [hoccurrences, List.forall₂_nil_left_iff.1 hrest, List.map_singleton, ho.1]

end LanguageServer

end CodeGraph
