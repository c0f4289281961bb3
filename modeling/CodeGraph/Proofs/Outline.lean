import CodeGraph.LanguageServer.Declare
import CodeGraph.Proofs.Declarations
import Mathlib.Data.List.Forall2

/-!
# Declarations of an outline

A symbol of an outline is kept if it and all symbols around it stand for declarations. `mentions`
lists the symbols in pre-order, each with those around it, as `Source.occurrences` lists
declarations. Both lists tell the shape of what they list (`eq_of_chains`), so it is enough to
compare them: the kept symbols become the declarations, with the same nesting and in the same order,
unless the number of a line is too large (`yields_toDeclarations`).

The qualified name of a declaration is what its scope and its name make step by step. All in all it
is the names from the container of the outermost symbol down, joined by dots
(`joined_concat`, `outline_declared`).
-/

namespace CodeGraph

/-! ## Forests told by chains -/

/-- The declaration without those inside it. -/
def Declaration.alone (d : Declaration) : Declaration := { d with children := [] }

namespace Source

/-- The declaration and those it stands in, each without those inside it. -/
def Occurrence.chain (o : Occurrence) : List Declaration :=
  (o.declaration :: o.around).map Declaration.alone

variable {around around' : List Declaration}

theorem occurrencesIn_append (around : List Declaration) : ∀ l l' : List Declaration,
    occurrencesIn around (l ++ l') = occurrencesIn around l ++ occurrencesIn around l'
  | [], _ => rfl
  | d :: rest, l' => by
    rw [List.cons_append, occurrencesIn, occurrencesIn_append around rest l', occurrencesIn,
      List.append_assoc]

theorem lt_length_chain (l : List Declaration) {c : List Declaration}
    (h : c ∈ (occurrencesIn around l).map (·.chain)) : around.length < c.length := by
  obtain ⟨o, ho, rfl⟩ := List.mem_map.1 h
  have hsuffix := (suffix_around_in around l o ho).length_le
  simp only [Occurrence.chain, List.length_map, List.length_cons]
  omega

theorem chains_cons (around : List Declaration) (d : Declaration) (rest : List Declaration) :
    (occurrencesIn around (d :: rest)).map (·.chain) = (d :: around).map Declaration.alone ::
      ((occurrencesIn (d :: around) d.children).map (·.chain) ++
        (occurrencesIn around rest).map (·.chain)) := by
  rw [occurrencesIn, occurrencesOf_eq, List.cons_append, List.map_cons, List.map_append]
  rfl

theorem length_head?_chains (l : List Declaration) {c : List Declaration}
    (h : c ∈ ((occurrencesIn around l).map (·.chain)).head?) : c.length = around.length + 1 := by
  cases l with
  | nil => simp [occurrencesIn] at h
  | cons d rest =>
    rw [chains_cons] at h
    obtain rfl := Option.mem_some_iff.1 h
    simp

/-- The chains of what is inside a declaration are longer than those of its siblings. -/
theorem takeWhile_chains {d : Declaration} (rest : List Declaration) :
    ((occurrencesIn (d :: around) d.children).map (·.chain) ++
      (occurrencesIn around rest).map (·.chain)).takeWhile (around.length + 1 < ·.length) =
        (occurrencesIn (d :: around) d.children).map (·.chain) := by
  rw [List.takeWhile_append_of_pos fun c hc => by simpa using lt_length_chain d.children hc]
  have hstop : ((occurrencesIn around rest).map (·.chain)).takeWhile
      (around.length + 1 < ·.length) = [] := by
    cases hrest : (occurrencesIn around rest).map (·.chain) with
    | nil => rfl
    | cons c cs =>
      have hlength := length_head?_chains rest (c := c) (by rw [hrest]; rfl)
      simp [hlength]
  rw [hstop, List.append_nil]

/-- A forest is known by its chains in pre-order. -/
theorem eq_of_chains : ∀ {l l' : List Declaration} {around around' : List Declaration},
    around.length = around'.length →
    (occurrencesIn around l).map (·.chain) = (occurrencesIn around' l').map (·.chain) → l = l'
  | [], [], _, _, _, _ => rfl
  | [], d' :: rest', _, _, _, h => by
    rw [chains_cons] at h
    cases h
  | d :: rest, [], _, _, _, h => by
    rw [chains_cons] at h
    cases h
  | d :: rest, d' :: rest', around, around', hlength, h => by
    rw [chains_cons, chains_cons, List.cons.injEq] at h
    obtain ⟨hhead, htail⟩ := h
    -- what is inside the first declaration is told by the longer chains in front
    have hinside := congrArg (List.takeWhile (around.length + 1 < ·.length)) htail
    rw [takeWhile_chains, hlength, takeWhile_chains] at hinside
    rw [hinside, List.append_cancel_left_eq] at htail
    have hchildren : d.children = d'.children := eq_of_chains (by simp [hlength]) hinside
    have halone : d.alone = d'.alone := (List.cons.inj hhead).1
    have hd : d = d' := by
      cases d
      cases d'
      simp_all [Declaration.alone]
    rw [hd, eq_of_chains hlength htail]
termination_by l => sizeOf l
decreasing_by
  · cases d
    simp only [List.cons.sizeOf_spec, Declaration.mk.sizeOf_spec]
    omega
  · simp only [List.cons.sizeOf_spec]
    omega

end Source

namespace LanguageServer

/-! ## Symbols in their surroundings -/

/-- A symbol with those it stands in, the innermost first. -/
structure Mention where
  symbol : ReportedSymbol
  around : List ReportedSymbol

mutual

/-- A symbol and what is inside it, in pre-order. -/
def mentionsOf (around : List ReportedSymbol) : ReportedSymbol → List Mention
  | ⟨name, kind, detail, container, startLine, endLine, startColumn, children⟩ =>
    let s : ReportedSymbol :=
      ⟨name, kind, detail, container, startLine, endLine, startColumn, children⟩
    ⟨s, around⟩ :: mentionsIn (s :: around) children

def mentionsIn (around : List ReportedSymbol) : List ReportedSymbol → List Mention
  | [] => []
  | s :: rest => mentionsOf around s ++ mentionsIn around rest

end

/-- The symbols of an outline, in pre-order. -/
def mentions (symbols : List ReportedSymbol) : List Mention := mentionsIn [] symbols

/-- The name of a symbol without its parameters. -/
def shortName (s : ReportedSymbol) : String := String.ofList (splitParameters s.name.toList).1

namespace Mention

/-- The symbol and all symbols around it stand for declarations. -/
def IsKept (m : Mention) : Prop := ∀ s ∈ m.symbol :: m.around, s.kind.declared? ≠ none

instance (m : Mention) : Decidable m.IsKept := inferInstanceAs (Decidable (∀ s ∈ _, _))

/-- The lines after the first and the last line of the symbol have numbers of 32 bits. -/
def Fits (m : Mention) : Prop :=
  m.symbol.startLine + 1 < Bits.limit32 ∧ m.symbol.endLine + 1 < Bits.limit32

instance (m : Mention) : Decidable m.Fits := inferInstanceAs (Decidable (_ ∧ _))

/-- What the outermost symbol is declared in. It is empty if the server gives nothing. -/
def container (m : Mention) : String := ((m.around.getLastD m.symbol).containerName).getD ""

/-- The names of the symbol and of those around it, the outermost first. -/
def names (m : Mention) : List String := ((m.symbol :: m.around).map shortName).reverse

end Mention

/-! ## Names joined by dots -/

/-- Texts joined by dots. Empty ones in front leave no trace. -/
def joined (texts : List String) : String := ".".intercalate (texts.dropWhile (· = ""))

theorem intercalate_ne_empty {text : String} (h : text ≠ "") (rest : List String) :
    ".".intercalate (text :: rest) ≠ "" := by
  cases rest with
  | nil => simpa
  | cons next rest =>
    rw [String.intercalate_cons_cons]
    simp [h]

theorem intercalate_concat (name : String) : ∀ (text : String) (rest : List String),
    ".".intercalate (text :: rest ++ [name]) = ".".intercalate (text :: rest) ++ "." ++ name
  | text, [] => by simp
  | text, next :: rest => by
    have ih := intercalate_concat name next rest
    simp only [List.cons_append] at ih ⊢
    rw [String.intercalate_cons_cons, ih, String.intercalate_cons_cons]
    simp only [String.append_assoc]

/-- A name inside a scope is one more text to join. -/
theorem joined_concat (texts : List String) (name : String) :
    joined (texts ++ [name]) = qualify (joined texts) name := by
  unfold joined qualify
  rw [List.dropWhile_append]
  cases h : texts.dropWhile (· = "") with
  | nil => by_cases hname : name = "" <;> simp [hname]
  | cons text rest =>
    -- the text that is not empty stays in front, so the scope is not empty either
    have htext : text ≠ "" := by
      have hstop := List.head_dropWhile_not (· = "") (l := texts) (by simp [h])
      simpa [h] using hstop
    rw [if_neg (intercalate_ne_empty htext rest)]
    simp only [List.isEmpty_cons, Bool.false_eq_true, if_false, toString]
    exact intercalate_concat name text rest

theorem joined_singleton (text : String) : joined [text] = text := by
  by_cases h : text = "" <;> simp [joined, h]

/-- Where no name is empty, only an empty container leaves no trace. -/
theorem joined_cons_of_ne_empty (container : String) {names : List String} (h : "" ∉ names) :
    joined (container :: names) =
      ".".intercalate ((if container = "" then [] else [container]) ++ names) := by
  have hnames : names.dropWhile (· = "") = names := by
    cases names with
    | nil => rfl
    | cons name names =>
      rw [List.mem_cons, not_or] at h
      simp [Ne.symm h.1]
  unfold joined
  by_cases hcontainer : container = "" <;> simp [hcontainer, hnames]

/-! ## What a symbol declares -/

namespace Mention

def qualifiedName (m : Mention) : String := joined (m.container :: m.names)

/-- The parameters that belong to the signature. Only methods, constructors and functions have
some. -/
def parameters (m : Mention) : String :=
  match m.symbol.kind.declared? with
  | some .method | some .constructor | some .function => parametersOf m.symbol
  | _ => ""

/-- The declaration that a kept symbol makes, without those inside it. -/
def declaration (lines : List (List Char)) (m : Mention) : Declaration where
  name := shortName m.symbol
  kind := m.symbol.kind.declared?.getD .variableDecl
  qualifiedName := m.qualifiedName
  signature := m.qualifiedName ++ m.parameters
  accessibility := accessibilityAt lines m.symbol (splitParameters m.symbol.name.toList).1
    (m.symbol.kind.declared?.getD .variableDecl) (m.around.head?.bind (·.kind.declared?))
  startLine := m.symbol.startLine + 1
  endLine := m.symbol.endLine + 1
  documentation := documentationAbove lines m.symbol.startLine
  children := []

end Mention

/-- The declarations of symbols each of which stands in the next. -/
def lineage (lines : List (List Char)) : List ReportedSymbol → List Declaration
  | [] => []
  | s :: around => Mention.declaration lines ⟨s, around⟩ :: lineage lines around

/-- The declaration of the symbol and those of the symbols around it. -/
def Mention.chain (lines : List (List Char)) (m : Mention) : List Declaration :=
  lineage lines (m.symbol :: m.around)

/-- The scope of a symbol: the name of the symbol it stands in, or else its container. -/
def scopeIn : List ReportedSymbol → ReportedSymbol → String
  | [], s => s.containerName.getD ""
  | p :: around, _ => Mention.qualifiedName ⟨p, around⟩

theorem qualify_scopeIn (around : List ReportedSymbol) (s : ReportedSymbol) :
    qualify (scopeIn around s) (shortName s) = Mention.qualifiedName ⟨s, around⟩ := by
  cases around with
  | nil => exact (congrArg (qualify · _) (joined_singleton _).symm).trans (joined_concat [_] _).symm
  | cons p around =>
    have hcontainer : (⟨s, p :: around⟩ : Mention).container =
        (⟨p, around⟩ : Mention).container := by
      rw [Mention.container, Mention.container, List.getLastD_cons]
    have hnames : (⟨s, p :: around⟩ : Mention).names =
        (⟨p, around⟩ : Mention).names ++ [shortName s] := by
      simp [Mention.names]
    rw [scopeIn, Mention.qualifiedName, ← joined_concat, Mention.qualifiedName, hcontainer, hnames,
      List.cons_append]

/-- The kinds that symbols declare have parameters exactly if they are those of `parameters`. -/
theorem signature_eq {s : ReportedSymbol} {declared : SymbolKind}
    (h : s.kind.declared? = some declared) (around : List ReportedSymbol) (name : String) :
    (if isCallable declared then name ++ parametersOf s else name) =
      name ++ Mention.parameters ⟨s, around⟩ := by
  unfold Mention.parameters
  cases hkind : s.kind <;> rw [hkind] at h <;> cases h <;> simp [ReportedKind.declared?, isCallable]

section Declaring

variable {lines : List (List Char)} {around : List ReportedSymbol}

theorem mentionsOf_eq (s : ReportedSymbol) :
    mentionsOf around s = ⟨s, around⟩ :: mentionsIn (s :: around) s.children := by
  cases s
  rw [mentionsOf]

theorem mem_mentionsIn {m : Mention} {l : List ReportedSymbol} :
    m ∈ mentionsIn around l ↔ ∃ s ∈ l, m ∈ mentionsOf around s := by
  induction l with
  | nil => simp [mentionsIn]
  | cons s rest ih => rw [mentionsIn, List.mem_append, ih, List.exists_mem_cons_iff]

mutual

theorem suffix_of_mem_mentionsOf (around : List ReportedSymbol) : ∀ s : ReportedSymbol,
    ∀ m ∈ mentionsOf around s, around <:+ m.around
  | ⟨_, _, _, _, _, _, _, children⟩ => by
    intro m hm
    rw [mentionsOf] at hm
    rcases List.mem_cons.1 hm with rfl | hm
    · exact List.suffix_rfl
    · exact (List.suffix_cons _ _).trans (suffix_of_mem_mentionsIn _ children m hm)

theorem suffix_of_mem_mentionsIn (around : List ReportedSymbol) : ∀ l : List ReportedSymbol,
    ∀ m ∈ mentionsIn around l, around <:+ m.around
  | [] => by simp [mentionsIn]
  | s :: rest => by
    intro m hm
    rw [mentionsIn] at hm
    rcases List.mem_append.1 hm with hm | hm
    · exact suffix_of_mem_mentionsOf around s m hm
    · exact suffix_of_mem_mentionsIn around rest m hm

end

/-- Nothing is kept inside a symbol that declares nothing. -/
theorem not_isKept_of_mem {s : ReportedSymbol} (hs : s ∈ around) (hkind : s.kind.declared? = none)
    {l : List ReportedSymbol} {m : Mention} (hm : m ∈ mentionsIn around l) : ¬ m.IsKept :=
  fun hkept => hkept s
    (List.mem_cons_of_mem _ ((suffix_of_mem_mentionsIn around l m hm).subset hs)) hkind

theorem declare_of_not_declared (scope : String) (parent : Option SymbolKind) :
    ∀ {s : ReportedSymbol}, s.kind.declared? = none → declare lines scope parent s = some []
  | ⟨_, _, _, _, _, _, _, _⟩, h => by
    rw [declare]
    dsimp only at h ⊢
    rw [h]

theorem declare_eq (scope : String) (parent : Option SymbolKind) :
    ∀ {s : ReportedSymbol} {declared : SymbolKind}, s.kind.declared? = some declared →
    declare lines scope parent s = (do
      let qualifiedName := qualify scope (shortName s)
      let children ← declareAll lines qualifiedName (some declared) s.children
      return [{
        name := shortName s
        kind := declared
        qualifiedName
        signature := if isCallable declared then qualifiedName ++ parametersOf s else qualifiedName
        accessibility := accessibilityAt lines s (splitParameters s.name.toList).1 declared parent
        startLine := ← nextLine? s.startLine
        endLine := ← nextLine? s.endLine
        documentation := documentationAbove lines s.startLine
        children }])
  | ⟨_, _, _, _, _, _, _, _⟩, _, h => by
    rw [declare]
    dsimp only at h ⊢
    rw [h]
    rfl

/-- A symbol that declares something makes its declaration, with what those inside it make. -/
theorem declare_of_declared {s : ReportedSymbol} {declared : SymbolKind}
    (h : s.kind.declared? = some declared) :
    declare lines (scopeIn around s) (around.head?.bind (·.kind.declared?)) s =
      if Mention.Fits ⟨s, around⟩ then
        (declareAll lines (Mention.qualifiedName ⟨s, around⟩) s.kind.declared? s.children).map
          fun children => [{ Mention.declaration lines ⟨s, around⟩ with children }]
      else none := by
  rw [declare_eq _ _ h, qualify_scopeIn]
  dsimp only
  rw [signature_eq h around]
  unfold nextLine? Mention.Fits
  by_cases hstart : s.startLine + 1 < Bits.limit32 <;>
    by_cases hend : s.endLine + 1 < Bits.limit32 <;>
    cases hchildren : declareAll lines (Mention.qualifiedName ⟨s, around⟩) (some declared)
      s.children <;>
    simp [hstart, hend, hchildren, h, Mention.declaration]

/-- What is found where the symbols are. There is no answer if a line of a kept symbol has no next
one, and else there is a declaration for each kept symbol, inside those of the symbols around it. -/
structure Yields (lines : List (List Char)) (around : List ReportedSymbol) (ms : List Mention)
    (found : Option (List Declaration)) : Prop where
  eq_none_iff : found = none ↔ ∃ m ∈ ms, m.IsKept ∧ ¬ m.Fits
  chains : ∀ declarations ∈ found, ∀ outer : List Declaration,
    outer.map Declaration.alone = lineage lines around →
      (Source.occurrencesIn outer declarations).map (·.chain) =
        (ms.filter (·.IsKept)).map (·.chain lines)

theorem yields_nil {ms : List Mention} (h : ∀ m ∈ ms, ¬ m.IsKept) :
    Yields lines around ms (some []) where
  eq_none_iff := by
    simp only [reduceCtorEq, false_iff]
    rintro ⟨m, hm, hkept, -⟩
    exact h m hm hkept
  chains := by
    intro declarations hdeclarations outer _
    obtain rfl := Option.mem_some_iff.1 hdeclarations
    have hnone : ms.filter (·.IsKept) = [] := by simpa using h
    rw [hnone, Source.occurrencesIn]
    rfl

theorem Yields.append {ms ms' : List Mention} {found found' : Option (List Declaration)}
    (h : Yields lines around ms found) (h' : Yields lines around ms' found') :
    Yields lines around (ms ++ ms') (do return (← found) ++ (← found')) where
  eq_none_iff := by
    have hsplit : (∃ m ∈ ms ++ ms', m.IsKept ∧ ¬ m.Fits) ↔ found = none ∨ found' = none := by
      rw [h.eq_none_iff, h'.eq_none_iff]
      simp only [List.mem_append, or_and_right, exists_or]
    rw [hsplit]
    cases found <;> cases found' <;> simp
  chains := by
    intro declarations hdeclarations outer houter
    obtain ⟨l, hl, hdeclarations⟩ := Option.bind_eq_some_iff.1 hdeclarations
    obtain ⟨l', hl', hdeclarations⟩ := Option.bind_eq_some_iff.1 hdeclarations
    obtain rfl := Option.some_inj.1 hdeclarations
    rw [Source.occurrencesIn_append, List.map_append, h.chains l hl outer houter,
      h'.chains l' hl' outer houter, List.filter_append, List.map_append]

/-- A kept symbol stands in front of those inside it, and so does its declaration. -/
theorem Yields.cons {s : ReportedSymbol} (hkept : Mention.IsKept ⟨s, around⟩) {ms : List Mention}
    {found : Option (List Declaration)} (h : Yields lines (s :: around) ms found) :
    Yields lines around (⟨s, around⟩ :: ms)
      (if Mention.Fits ⟨s, around⟩ then
        found.map fun children => [{ Mention.declaration lines ⟨s, around⟩ with children }]
      else none) where
  eq_none_iff := by
    rw [List.exists_mem_cons_iff, ← h.eq_none_iff]
    by_cases hfits : Mention.Fits ⟨s, around⟩ <;> simp [hfits, hkept]
  chains := by
    intro declarations hdeclarations outer houter
    obtain ⟨-, hdeclarations⟩ := Option.ite_none_right_eq_some.1 hdeclarations
    obtain ⟨children, hchildren, rfl⟩ := Option.map_eq_some_iff.1 hdeclarations
    have houter' : ({ Mention.declaration lines ⟨s, around⟩ with children } :: outer).map
        Declaration.alone = lineage lines (s :: around) := by
      rw [List.map_cons, houter]
      rfl
    rw [Source.chains_cons, houter', h.chains children hchildren _ houter',
      List.filter_cons_of_pos (by simpa using hkept), List.map_cons]
    simp [Source.occurrencesIn, Mention.chain]

mutual

theorem yields_declare : ∀ (around : List ReportedSymbol) (s : ReportedSymbol),
    (∀ p ∈ around, p.kind.declared? ≠ none) →
    Yields lines around (mentionsOf around s)
      (declare lines (scopeIn around s) (around.head?.bind (·.kind.declared?)) s)
  | around, ⟨reported, kind, detail, container, startLine, endLine, startColumn, children⟩,
      haround => by
    rw [mentionsOf_eq]
    cases hkind : kind.declared? with
    | none =>
      rw [declare_of_not_declared _ _ hkind]
      refine yields_nil fun m hm hkept => ?_
      rcases List.mem_cons.1 hm with rfl | hm
      · exact hkept _ List.mem_cons_self hkind
      · exact not_isKept_of_mem List.mem_cons_self hkind hm hkept
    | some declared =>
      rw [declare_of_declared hkind]
      -- with the symbol itself, all that surrounds what is inside it is kept
      have hall : ∀ q ∈ (⟨reported, kind, detail, container, startLine, endLine, startColumn,
          children⟩ : ReportedSymbol) :: around, q.kind.declared? ≠ none :=
        List.forall_mem_cons.2 ⟨by simp [hkind], haround⟩
      exact Yields.cons hall (yields_declareAll _ around children hall)

theorem yields_declareAll : ∀ (p : ReportedSymbol) (around l : List ReportedSymbol),
    (∀ q ∈ p :: around, q.kind.declared? ≠ none) →
    Yields lines (p :: around) (mentionsIn (p :: around) l)
      (declareAll lines (Mention.qualifiedName ⟨p, around⟩) p.kind.declared? l)
  | p, around, [], _ => by
    rw [mentionsIn, declareAll]
    exact yields_nil (by simp)
  | p, around, s :: rest, haround => by
    rw [mentionsIn, declareAll]
    exact (yields_declare (p :: around) s haround).append (yields_declareAll p around rest haround)

end

end Declaring

theorem toDeclarations_cons (s : ReportedSymbol) (rest : List ReportedSymbol) (content : String) :
    toDeclarations (s :: rest) content = (do
      return (← declare (Text.splitLines content) (scopeIn [] s) none s) ++
        (← toDeclarations rest content)) := by
  simp only [toDeclarations, scopeIn, List.mapM_cons, bind_assoc, pure_bind, List.flatten_cons]

theorem yields_toDeclarations (content : String) : ∀ symbols : List ReportedSymbol,
    Yields (Text.splitLines content) [] (mentions symbols) (toDeclarations symbols content)
  | [] => yields_nil (by simp [mentions, mentionsIn])
  | s :: rest => by
    rw [toDeclarations_cons, mentions, mentionsIn]
    exact (yields_declare [] s (by simp)).append (yields_toDeclarations content rest)

theorem exists_toDeclarations {symbols : List ReportedSymbol} {content : String}
    (h : ∀ m ∈ mentions symbols, m.IsKept → m.Fits) :
    ∃ declarations, toDeclarations symbols content = some declarations := by
  rw [← Option.ne_none_iff_exists', Ne, (yields_toDeclarations content symbols).eq_none_iff]
  rintro ⟨m, hm, hkept, hnot⟩
  exact hnot (h m hm hkept)

theorem forall₂_toDeclarations {symbols : List ReportedSymbol} {content : String}
    {declarations : List Declaration} (h : toDeclarations symbols content = some declarations) :
    List.Forall₂ (fun m o => o.chain = m.chain (Text.splitLines content))
      ((mentions symbols).filter (·.IsKept)) (Source.occurrences declarations) := by
  have hchains := (yields_toDeclarations content symbols).chains declarations h [] rfl
  have hall : List.Forall₂ (fun c c' => c' = c)
      (((mentions symbols).filter (·.IsKept)).map (·.chain (Text.splitLines content)))
      ((Source.occurrences declarations).map (·.chain)) := by
    rw [Source.occurrences, hchains]
    exact List.forall₂_same.2 fun _ _ => rfl
  exact List.forall₂_map_left_iff.1 (List.forall₂_map_right_iff.1 hall)

theorem parametersOf_eq (s : ReportedSymbol) : parametersOf s =
    ((splitParameters s.name.toList).2.or
      (s.detail.bind fun d => (splitParameters d.toList).2)).elim "()" String.ofList := by
  unfold parametersOf
  dsimp only
  split <;> simp [*]

theorem alone_of_chain {lines : List (List Char)} {m : Mention} {o : Source.Occurrence}
    (h : o.chain = m.chain lines) : o.declaration.alone = m.declaration lines :=
  (List.cons.inj h).1

theorem Mention.parameters_eq (m : Mention) (lines : List (List Char)) :
    m.parameters =
      if (m.declaration lines).kind ∈ [.method, .constructor, .function] then
        parametersOf m.symbol
      else "" := by
  unfold parameters declaration
  cases m.symbol.kind <;> simp [ReportedKind.declared?]

/-- Where every line has a next one, the declarations of an outline are the only forest that lists
the kept symbols in pre-order, each in those around it. The name of each is made of the names from
the container of the outermost symbol down. -/
theorem outline_declared (symbols : List ReportedSymbol) (content : String)
    (hlines : ∀ m ∈ mentions symbols,
      m.symbol.startLine < Bits.limit32 - 1 ∧ m.symbol.endLine < Bits.limit32 - 1) :
    ∃ declarations, toDeclarations symbols content = some declarations ∧
      (∀ forest, (Source.occurrences forest).map (·.chain) =
        ((mentions symbols).filter (·.IsKept)).map (·.chain (Text.splitLines content)) ↔
          forest = declarations) ∧
      List.Forall₂ (fun m o =>
        o.chain = m.chain (Text.splitLines content) ∧
        ("" ∉ m.names → o.declaration.qualifiedName =
          ".".intercalate ((if m.container = "" then [] else [m.container]) ++ m.names)) ∧
        o.declaration.signature = o.declaration.qualifiedName ++
          if o.declaration.kind ∈ [.method, .constructor, .function] then
            ((splitParameters m.symbol.name.toList).2.or
              (m.symbol.detail.bind fun d => (splitParameters d.toList).2)).elim "()" String.ofList
          else "")
        ((mentions symbols).filter (·.IsKept)) (Source.occurrences declarations) := by
  have hfits : ∀ m ∈ mentions symbols, m.IsKept → m.Fits := by
    intro m hm _
    have hline := hlines m hm
    exact ⟨by omega, by omega⟩
  obtain ⟨declarations, h⟩ := exists_toDeclarations hfits
  have hchains := (yields_toDeclarations content symbols).chains declarations h [] rfl
  refine ⟨declarations, h, fun forest => ⟨fun hforest => ?_, ?_⟩, ?_⟩
  · exact Source.eq_of_chains rfl (hforest.trans hchains.symm)
  · rintro rfl
    exact hchains
  · refine (forall₂_toDeclarations h).imp fun m o hchain => ?_
    have halone := alone_of_chain hchain
    have hname : o.declaration.qualifiedName = m.qualifiedName :=
      congrArg Declaration.qualifiedName halone
    refine ⟨hchain, fun hnames => ?_, ?_⟩
    · rw [hname, Mention.qualifiedName, joined_cons_of_ne_empty _ hnames]
    · have hkind : o.declaration.kind = (m.declaration (Text.splitLines content)).kind := by
        rw [← halone]
        rfl
      have hsignature : o.declaration.signature = m.qualifiedName ++ m.parameters :=
        congrArg Declaration.signature halone
      rw [hsignature, hname, hkind, ← parametersOf_eq,
        Mention.parameters_eq m (Text.splitLines content)]

/-- A class with a container. Its type parameter and what is inside that are left out, and the
parameters of a method are those in its name. -/
theorem outline_declared_of_class :
    ∃ tray : ReportedSymbol, (mentions [tray]).map (·.symbol.name) =
      ["Tray", "T", "Lost", "Lift(int n)", "load"] ∧
    (∀ m ∈ mentions [tray],
      m.symbol.startLine < Bits.limit32 - 1 ∧ m.symbol.endLine < Bits.limit32 - 1) ∧
    ∃ declarations, toDeclarations [tray] "" = some declarations ∧
      (Source.occurrences declarations).map (fun o => (o.around.length, o.declaration.signature)) =
        [(0, "Shop.Tray"), (1, "Shop.Tray.Lift(int n)"), (1, "Shop.Tray.load")] := by
  let tray : ReportedSymbol := ⟨"Tray", .classDecl, none, some "Shop", 0, 9, 6,
    [⟨"T", .typeParameter, none, none, 0, 0, 11, [⟨"Lost", .method, none, none, 1, 1, 4, []⟩]⟩,
      ⟨"Lift(int n)", .method, some "Lift(string)", none, 2, 4, 8, []⟩,
      ⟨"load", .field, none, none, 5, 5, 4, []⟩]⟩
  have hlines : ∀ m ∈ mentions [tray],
      m.symbol.startLine < Bits.limit32 - 1 ∧ m.symbol.endLine < Bits.limit32 - 1 := by decide
  obtain ⟨declarations, h, hforest, -⟩ := outline_declared [tray] "" hlines
  have hchains := (hforest declarations).2 rfl
  refine ⟨tray, by decide, hlines, declarations, h, ?_⟩
  have hread : ∀ o : Source.Occurrence, (o.around.length, o.declaration.signature) =
      (o.chain.length - 1, (o.chain.headD default).signature) := by
    intro o
    simp [Source.Occurrence.chain, Declaration.alone]
  calc
    _ = ((Source.occurrences declarations).map (·.chain)).map fun c =>
        (c.length - 1, (c.headD default).signature) := by simp only [hread, List.map_map]; rfl
    _ = _ := by
      rw [hchains]
      decide +kernel

end LanguageServer

end CodeGraph
