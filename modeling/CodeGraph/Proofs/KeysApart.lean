import CodeGraph.Proofs.SymbolKeys

/-!
# Keys of files and of symbols

Nothing in a key tells whether it is that of a file or that of a symbol. A run writes a symbol with
the key of a visited file just if some signature is the path of that file, or if that path goes on,
after a colon, from the path of the file with the symbol (`keys_apart_iff`). Where keys are apart,
every relationship of a file is attached to the file.
-/

namespace CodeGraph

open MemoryGraph (after)
open CodeGraph.Path (DiscoveredFile)

namespace MemoryGraph

variable {g : MemoryGraph}

def file? (g : MemoryGraph) (key : String) : Option FileNode := g.files.find? (·.key == key)

/-- The node at which a relationship with this end is attached: the symbol with the key, or else the
file with the key. -/
def node? (g : MemoryGraph) (key : String) : Option (Symbol ⊕ FileNode) :=
  ((g.symbol? key).map .inl).or ((g.file? key).map .inr)

theorem hasNode_iff {key : String} : g.hasNode key = true ↔ (g.node? key).isSome = true := by
  have hfile : g.hasFile key = (g.file? key).isSome := by
    rw [hasFile, file?, List.isSome_find?]
  have hsymbol : g.hasSymbol key = (g.symbol? key).isSome := by
    rw [hasSymbol, symbol?, List.isSome_find?]
  rw [hasNode, node?, Option.isSome_or, Option.isSome_map, Option.isSome_map, hfile, hsymbol]

theorem symbol_of_node? {key : String} {x : Symbol} (h : g.node? key = some (.inl x)) :
    x ∈ g.symbols ∧ x.key = key := by
  rcases Option.or_eq_some_iff.1 h with h | ⟨-, h⟩
  · obtain ⟨y, hy, heq⟩ := Option.map_eq_some_iff.1 h
    obtain rfl := Sum.inl.inj heq
    exact symbol?_eq_some hy
  · obtain ⟨f, -, heq⟩ := Option.map_eq_some_iff.1 h
    cases heq

theorem key_of_node? {key : String} {f : FileNode} (h : g.node? key = some (.inr f)) :
    f.key = key := by
  rcases Option.or_eq_some_iff.1 h with h | ⟨-, h⟩
  · obtain ⟨x, -, heq⟩ := Option.map_eq_some_iff.1 h
    cases heq
  · obtain ⟨f', hf, heq⟩ := Option.map_eq_some_iff.1 h
    obtain rfl := Sum.inr.inj heq
    simpa using List.find?_some hf

end MemoryGraph

namespace Run

variable {ε σ : Type}

section Turns

variable (s : Surroundings ε) (o : Options)

/-- A file with these bytes, as it is read. -/
def sourceOf (o : Options) (file : DiscoveredFile) (bytes : List UInt8) : SourceFile :=
  ⟨o.repoKey, keyOfFile o file, file.path, Text.decodeLossy bytes⟩

/-- What is known of the declarations in a file when it is visited. -/
def factsAt (file : DiscoveredFile) (bytes : List UInt8) (e : ε) :
    Except FactError (List Declaration) :=
  (declarationsOf s (DocumentKind.ofPath? file.path) (sourceOf o file bytes)
    (historyOf s file.path e).2).1

theorem visit_extraction (file : DiscoveredFile) (bytes : List UInt8) (e : ε) :
    (visit s o file bytes e).1.extraction =
      (sourceOf o file bytes).extract o.minimum (factsAt s o file bytes e) := by
  simp only [visit]
  rfl

/-- The path of a file as its key has it. -/
def keyPath (relativePath : String) : String := Text.dropStartWhile '/' relativePath

/-- A file that is read in one of these turns has a symbol with the key of a file at this path. -/
def Clash (ts : List (DiscoveredFile × ε)) (path : String) : Prop :=
  ∃ turn ∈ ts, ∃ bytes, s.read turn.1.path turn.2 = some bytes ∧
    (sourceOf o turn.1 bytes).Occupies o.minimum (factsAt s o turn.1 bytes turn.2)
      (keyPath turn.1.relativePath) path

theorem clash_iff {ts : List (DiscoveredFile × ε)} {path : String} :
    Clash s o ts path ↔ ∃ v ∈ visits s o ts, ∃ x ∈ v.extraction.symbols,
      x.key = o.repoKey ++ ":" ++ path := by
  constructor
  · rintro ⟨turn, hturn, bytes, hread, h⟩
    refine ⟨(visit s o turn.1 bytes turn.2).1, List.mem_filterMap.2 ⟨turn, hturn, ?_⟩, ?_⟩
    · rw [visitAt, hread, Option.map_some]
    · rw [visit_extraction]
      exact (SourceFile.occupies_iff rfl _ _).1 h
  · rintro ⟨v, hv, hx⟩
    obtain ⟨turn, hturn, hv⟩ := List.mem_filterMap.1 hv
    obtain ⟨bytes, hread, rfl⟩ := Option.map_eq_some_iff.1 hv
    rw [visit_extraction] at hx
    exact ⟨turn, hturn, bytes, hread, (SourceFile.occupies_iff rfl _ _).2 hx⟩

/-- Without colons in the paths only a signature can clash. -/
theorem clash_of_no_colon {ts : List (DiscoveredFile × ε)} {path : String}
    (hpath : ':' ∉ path.toList) : Clash s o ts path ↔
      ∃ turn ∈ ts, ∃ bytes declarations d, s.read turn.1.path turn.2 = some bytes ∧
        DocumentKind.ofPath? turn.1.path = some .source ∧
        factsAt s o turn.1 bytes turn.2 = .ok declarations ∧
        Source.Shown o.minimum d declarations ∧ d.signature = path := by
  constructor
  · rintro ⟨turn, hturn, bytes, hread, h⟩
    cases h with
    | @declared declarations d hkind hfacts hshown hsignature =>
      exact ⟨turn, hturn, bytes, declarations, d, hread, hkind, hfacts, hshown, hsignature⟩
    | element _ _ _ heq =>
      refine absurd ?_ hpath
      rw [← heq]
      simp
  · rintro ⟨turn, hturn, bytes, declarations, d, hread, hkind, hfacts, hshown, hsignature⟩
    exact ⟨turn, hturn, bytes, hread, .declared hkind hfacts hshown hsignature⟩

end Turns

section Agenda

variable (s : Surroundings ε) (o : Options) {e : ε} {p : Plan}

theorem file_of_requested (store : GraphStore σ) (hp : plan s o e = .ok p) (g : σ) :
    ∀ f ∈ (requested store s o e g).filterMap StoreCall.file?, f ∈ p.visits.map (·.node) := by
  intro f hf
  have hfiles := ((requested_isPrefix store s o e g).filterMap StoreCall.file?).subset hf
  have hall : (.serverVersion :: agenda s o e).filterMap StoreCall.file? = _ := files_agenda s o hp
  rwa [hall] at hfiles

theorem symbol_of_requested (store : GraphStore σ) (hp : plan s o e = .ok p) (g : σ) :
    ∀ x ∈ (written (requested store s o e g)).symbols, x ∈ (found p.visits).symbols := by
  intro x hx
  obtain ⟨c, hc, hx⟩ := mem_written_symbols.1 hx
  rw [← written_agenda s o hp]
  rcases List.mem_cons.1 ((requested_isPrefix store s o e g).subset hc) with rfl | hc
  · exact absurd hx List.not_mem_nil
  · exact mem_written_symbols.2 ⟨c, hc, hx⟩

/-- The store in memory is asked for all. -/
theorem requested_memory (e : ε) (g : MemoryGraph) :
    requested (MemoryGraph.store "5.26.0") s o e g = .serverVersion :: agenda s o e := by
  obtain ⟨t, hserve⟩ := MemoryGraph.serve_store "5.26.0" (agenda s o e) {} g
  rw [requested_eq]
  show GraphStore.served _ (.serverVersion :: agenda s o e) g = _
  rw [GraphStore.served_serverVersion _ rfl, GraphStore.served_of_serve _ hserve]

/-- As long as no symbol has the key of a visited file, a relationship of the file is attached to
the file. -/
theorem attached_to_file (hp : plan s o e = .ok p) {g : MemoryGraph}
    (hg : ∀ v ∈ p.visits, ∀ x ∈ g.symbols, x.key ≠ v.node.key)
    (hapart : ∀ v ∈ p.visits, ∀ x ∈ (found p.visits).symbols, x.key ≠ v.node.key)
    {l₁ l₂ : List StoreCall} {symbols : List Symbol} {relationships : List Relationship}
    (h : agenda s o e = l₁ ++ .flush symbols relationships :: l₂) :
    ∀ r ∈ relationships, ∀ key ∈ [r.source, r.target], key ∈ p.visits.map (·.node.key) →
      ∃ f, ((l₁.foldl after g).upsertSymbols symbols).node? key = some (.inr f) ∧ f.key = key := by
  intro r hr key hkey hvisited
  obtain ⟨v, hv, rfl⟩ := List.mem_map.1 hvisited
  have hfound : (found p.visits).symbols =
      (written l₁).symbols ++ (symbols ++ (written l₂).symbols) := by
    rw [← written_agenda s o hp, h, written_append, Extraction.symbols_append]
    rfl
  have hfree : ∀ x ∈ ((l₁.foldl after g).upsertSymbols symbols).symbols, x.key ≠ v.node.key := by
    intro x hx
    rcases mem_of_mem_upsertAll hx with hx | hx
    · refine hapart v hv x ?_
      rw [hfound]
      exact List.mem_append_right _ (List.mem_append_left _ hx)
    rcases MemoryGraph.mem_symbols_of_foldl_after hx with hx | hx
    · exact hg v hv x hx
    · refine hapart v hv x ?_
      rw [hfound]
      exact List.mem_append_left _ hx
  have hnode : ((l₁.foldl after g).upsertSymbols symbols).hasNode v.node.key = true := by
    have hjoins := Bool.and_eq_true_iff.1
      (joining_agenda s o hp g l₁ symbols relationships l₂ h r hr)
    rcases List.mem_cons.1 hkey with hsource | htarget
    · exact hsource ▸ hjoins.1
    · exact List.mem_singleton.1 htarget ▸ hjoins.2
  obtain ⟨n, hn⟩ := Option.isSome_iff_exists.1 (MemoryGraph.hasNode_iff.1 hnode)
  rcases n with x | f
  · obtain ⟨hx, hxkey⟩ := MemoryGraph.symbol_of_node? hn
    exact absurd hxkey (hfree x hx)
  · exact ⟨f, hn, MemoryGraph.key_of_node? hn⟩

end Agenda

/-- When the keys of files and of symbols are apart. They are, whatever the store is like, if and
only if no visited file has a symbol with the key of a visited file; which takes a signature that is
the path of a file, or a path with a colon. Then a store that had no such symbol either attaches the
relationships of a visited file to the file. -/
theorem keys_apart_iff (s : Surroundings ε) (o : Options) {e : ε} {p : Plan}
    (hp : plan s o e = .ok p) :
    ∃ ts : List (DiscoveredFile × ε),
      p.turns = ts.map Prod.fst ∧ p.visits = ts.filterMap (visitAt s o) ∧
      ((∀ (σ : Type) (store : GraphStore σ) (g : σ),
        ∀ f ∈ (requested store s o e g).filterMap StoreCall.file?,
          ∀ x ∈ (written (requested store s o e g)).symbols, x.key ≠ f.key) ↔
        ∀ v ∈ p.visits, ¬ Clash s o ts (keyPath v.node.relativePath)) ∧
      (∀ v ∈ p.visits, ':' ∉ (keyPath v.node.relativePath).toList →
        (Clash s o ts (keyPath v.node.relativePath) ↔
          ∃ turn ∈ ts, ∃ bytes declarations d, s.read turn.1.path turn.2 = some bytes ∧
            DocumentKind.ofPath? turn.1.path = some .source ∧
            factsAt s o turn.1 bytes turn.2 = .ok declarations ∧
            Source.Shown o.minimum d declarations ∧
            d.signature = keyPath v.node.relativePath)) ∧
      ((∀ v ∈ p.visits, ¬ Clash s o ts (keyPath v.node.relativePath)) →
        ∀ g : MemoryGraph, (∀ v ∈ p.visits, ∀ x ∈ g.symbols, x.key ≠ v.node.key) →
        ∀ l₁ symbols relationships l₂, agenda s o e = l₁ ++ .flush symbols relationships :: l₂ →
        ∀ r ∈ relationships, ∀ key ∈ [r.source, r.target], key ∈ p.visits.map (·.node.key) →
          ∃ f, ((l₁.foldl after g).upsertSymbols symbols).node? key = some (.inr f) ∧
            f.key = key) := by
  obtain ⟨e', ts, -, -, hturns, hvisits, -⟩ := plan_eq_ok s o hp
  have hkey : ∀ v ∈ p.visits, v.node.key = o.repoKey ++ ":" ++ keyPath v.node.relativePath := by
    intro v hv
    rw [hvisits] at hv
    obtain ⟨turn, -, hv⟩ := List.mem_filterMap.1 hv
    obtain ⟨bytes, -, rfl⟩ := Option.map_eq_some_iff.1 hv
    rfl
  have hclash : (∀ v ∈ p.visits, ¬ Clash s o ts (keyPath v.node.relativePath)) ↔
      ∀ v ∈ p.visits, ∀ x ∈ (found p.visits).symbols, x.key ≠ v.node.key := by
    refine forall₂_congr fun v hv => ?_
    rw [clash_iff, ← hvisits, ← hkey v hv]
    constructor
    · intro h x hx hxkey
      obtain ⟨u, hu, hxu⟩ := mem_found_symbols.1 hx
      exact h ⟨u, hu, x, hxu, hxkey⟩
    · rintro h ⟨u, hu, x, hxu, hxkey⟩
      exact h x (mem_found_symbols.2 ⟨u, hu, hxu⟩) hxkey
  refine ⟨ts, hturns, hvisits, ?_, fun v _ => clash_of_no_colon s o, fun h g hg => ?_⟩
  · rw [hclash]
    constructor
    · intro h v hv x hx
      have hall := h MemoryGraph (MemoryGraph.store "5.26.0") {}
      rw [requested_memory] at hall
      refine hall v.node ?_ x ?_
      · show v.node ∈ (agenda s o e).filterMap StoreCall.file?
        rw [files_agenda s o hp]
        exact List.mem_map_of_mem hv
      · show x ∈ (written (agenda s o e)).symbols
        rwa [written_agenda s o hp]
    · intro h σ store g f hf x hx
      obtain ⟨v, hv, rfl⟩ := List.mem_map.1 (file_of_requested s o store hp g f hf)
      exact h v hv x (symbol_of_requested s o store hp g x hx)
  · intro l₁ symbols relationships l₂ hagenda
    exact attached_to_file s o hp hg (hclash.1 h) hagenda

/-- A class has the key of a document. What the document contains is attached to the class. -/
theorem keys_of_class_and_document :
    let known : Knowledge := fun path _ => .ok (if path = "/w/B.cs" then
      [⟨"A", .namespaceDecl, "A", "A", .pub, 1, 1, none,
        [⟨"xml", .classDecl, "A.xml", "A.xml", .pub, 1, 1, none, []⟩]⟩] else [])
    let t := SourceTree.ofTexts "/" "/w"
      [("/w/A.xml", "<x/>"), ("/w/B.cs", "namespace A { class xml; }")]
    let s := t.surroundings known none
    let o : Options := { root := "/w", repoKey := "r" }
    (∃ p, plan s o () = .ok p) ∧
    (¬ ∀ (σ : Type) (store : GraphStore σ) (g : σ),
      ∀ f ∈ (requested store s o () g).filterMap StoreCall.file?,
        ∀ x ∈ (written (requested store s o () g)).symbols, x.key ≠ f.key) ∧
    ((agenda s o ()).foldl after {}).relationships.map (·.source) = ["r:A.xml"] ∧
    (((agenda s o ()).foldl after {}).node? "r:A.xml").map Sum.isLeft = some true := by
  intro known t s o
  have hs := t.shows_surroundings (Path.normalizeExtensions o.extensions) known none
  obtain ⟨p, hp, hworklist, hcomplete, -⟩ := plan_full (o := o) hs rfl ()
  refine ⟨⟨p, hp⟩, fun hall => ?_, by decide +kernel⟩
  obtain ⟨ts, hturns, hvisits, happart, -⟩ := keys_apart_iff s o hp
  let a : DiscoveredFile := ⟨"/w/A.xml", "A.xml"⟩
  let b : DiscoveredFile := ⟨"/w/B.cs", "B.cs"⟩
  have hfiles : t.files = [a, b] := by decide +kernel
  have hts : ts = [(a, ()), (b, ())] := by
    have hmap : (ts.map Prod.fst).map (fun f => (f, ())) = ts := by
      rw [List.map_map]
      exact List.map_id ts
    rw [← hmap, ← hturns, hcomplete, hworklist, hfiles]
    rfl
  have ha : s.read a.path () = some (t.bytes a.path) := hs.read a (by simp [hfiles]) ()
  have hb : s.read b.path () = some (t.bytes b.path) := hs.read b (by simp [hfiles]) ()
  have hsource : DocumentKind.ofPath? b.path = some .source := by decide +kernel
  have hvisited : (visit s o a (t.bytes a.path) ()).1 ∈ p.visits := by
    rw [hvisits, hts]
    refine List.mem_filterMap.2 ⟨(a, ()), List.mem_cons_self, ?_⟩
    rw [visitAt, ha, Option.map_some]
  let c : Declaration := ⟨"xml", .classDecl, "A.xml", "A.xml", .pub, 1, 1, none, []⟩
  let n : Declaration := ⟨"A", .namespaceDecl, "A", "A", .pub, 1, 1, none, [c]⟩
  have hfacts : factsAt s o b (t.bytes b.path) () = .ok [n] := by
    simp only [factsAt, declarationsOf, hsource, if_true]
    rfl
  have hshown : Source.Shown o.minimum c [n] :=
    .inside List.mem_cons_self (by decide +kernel) (.inl rfl)
      (.here List.mem_cons_self (by decide +kernel) rfl rfl)
  refine happart.1 hall _ hvisited ⟨(b, ()), ?_, t.bytes b.path, hb, ?_⟩
  · rw [hts]
    exact List.mem_cons_of_mem _ List.mem_cons_self
  · exact .declared hsource hfacts hshown (by decide +kernel)

end Run

end CodeGraph
