import CodeGraph.Proofs.Closure

/-!
# Keys of symbols

The key of a declaration is its signature behind the key of the repository, and the key of any other
element goes on from the key of its file, after a colon. So it can be told from the paths and the
declarations whether a symbol has the key of a file (`SourceFile.occupies_iff`).
-/

namespace CodeGraph

/-! ## Keys of declarations -/

namespace Source

/-- The declaration is one of these or inside one of them, and becomes a symbol under the minimum.
What is inside a declaration is seen if the declaration is a namespace or is admitted itself. -/
inductive Shown (minimum : Accessibility) (d : Declaration) : List Declaration → Prop
  | here {l : List Declaration} : d ∈ l → isSynthetic d.name = false →
      d.kind.isNamespace = false → d.accessibility.admits minimum = true → Shown minimum d l
  | inside {outer : Declaration} {l : List Declaration} : outer ∈ l →
      isSynthetic outer.name = false →
      (outer.kind.isNamespace = true ∨ outer.accessibility.admits minimum = true) →
      Shown minimum d outer.children → Shown minimum d l

section Shown

variable {minimum : Accessibility} {d : Declaration}

theorem not_shown_nil : ¬ Shown minimum d [] := by
  intro h
  cases h with
  | here hmem => exact List.not_mem_nil hmem
  | inside hmem => exact List.not_mem_nil hmem

theorem shown_cons {a : Declaration} {l : List Declaration} :
    Shown minimum d (a :: l) ↔ Shown minimum d [a] ∨ Shown minimum d l := by
  constructor
  · intro h
    cases h with
    | here hmem hname hkind hadmits =>
      rcases List.mem_cons.1 hmem with rfl | hmem
      · exact .inl (.here List.mem_cons_self hname hkind hadmits)
      · exact .inr (.here hmem hname hkind hadmits)
    | inside hmem hname hopen hd =>
      rcases List.mem_cons.1 hmem with rfl | hmem
      · exact .inl (.inside List.mem_cons_self hname hopen hd)
      · exact .inr (.inside hmem hname hopen hd)
  · rintro (h | h)
    · cases h with
      | here hmem hname hkind hadmits =>
        obtain rfl := List.mem_singleton.1 hmem
        exact .here List.mem_cons_self hname hkind hadmits
      | inside hmem hname hopen hd =>
        obtain rfl := List.mem_singleton.1 hmem
        exact .inside List.mem_cons_self hname hopen hd
    · cases h with
      | here hmem hname hkind hadmits =>
        exact .here (List.mem_cons_of_mem _ hmem) hname hkind hadmits
      | inside hmem hname hopen hd => exact .inside (List.mem_cons_of_mem _ hmem) hname hopen hd

theorem shown_singleton {a : Declaration} : Shown minimum d [a] ↔
    isSynthetic a.name = false ∧
      (a.kind.isNamespace = false ∧ a.accessibility.admits minimum = true ∧ d = a ∨
        (a.kind.isNamespace = true ∨ a.accessibility.admits minimum = true) ∧
          Shown minimum d a.children) := by
  constructor
  · intro h
    cases h with
    | here hmem hname hkind hadmits =>
      obtain rfl := List.mem_singleton.1 hmem
      exact ⟨hname, .inl ⟨hkind, hadmits, rfl⟩⟩
    | inside hmem hname hopen hd =>
      obtain rfl := List.mem_singleton.1 hmem
      exact ⟨hname, .inr ⟨hopen, hd⟩⟩
  · rintro ⟨hname, ⟨hkind, hadmits, rfl⟩ | ⟨hopen, hd⟩⟩
    · exact .here List.mem_cons_self hname hkind hadmits
    · exact .inside List.mem_cons_self hname hopen hd

end Shown

section Keys

variable (f : SourceFile) (minimum : Accessibility) {x : Symbol}

mutual

/-- The symbols are those of the declarations that are shown, each with its signature in its key. -/
theorem mem_keys_visit (key : String) (container : Option String) : ∀ a : Declaration,
    (∃ x ∈ (visit f minimum container a).symbols, x.key = key) ↔
      ∃ d, Shown minimum d [a] ∧ Key.symbol f.repoKey d.signature = key
  | ⟨name, kind, qualifiedName, signature, accessibility, startLine, endLine, documentation,
      children⟩ => by
    simp only [shown_singleton]
    rw [visit]
    by_cases hname : isSynthetic name = true
    · simp [hname, Extraction.empty]
    by_cases hkind : kind.isNamespace = true
    · have hchildren := mem_keys_visitAll key container children
      simpa [hname, hkind] using hchildren
    by_cases hadmits : accessibility.admits minimum = true
    · have hchildren := mem_keys_visitAll key (some (Key.symbol f.repoKey signature)) children
      simp [hname, hkind, hadmits, or_and_right, exists_or, hchildren]
    · simp [hname, hkind, hadmits, Extraction.empty]

theorem mem_keys_visitAll (key : String) (container : Option String) : ∀ l : List Declaration,
    (∃ x ∈ (visitAll f minimum container l).symbols, x.key = key) ↔
      ∃ d, Shown minimum d l ∧ Key.symbol f.repoKey d.signature = key
  | [] => by simp [visitAll, Extraction.empty, not_shown_nil]
  | a :: rest => by
    have ha := mem_keys_visit key container a
    have hrest := mem_keys_visitAll key container rest
    simp only [visitAll, Extraction.symbols_append, List.mem_append, or_and_right, exists_or, ha,
      hrest]
    rw [← exists_or]
    refine exists_congr fun d => ?_
    rw [shown_cons (a := a) (l := rest), or_and_right]

end

mutual

/-- The symbols lie in the file and are admitted. -/
theorem visit_located (container : Option String) : ∀ a : Declaration,
    ∀ x ∈ (visit f minimum container a).symbols,
      x.filePath = f.path ∧ x.accessibility.admits minimum = true
  | ⟨_, _, _, signature, accessibility, _, _, _, children⟩ => by
    intro x hx
    rw [visit] at hx
    split_ifs at hx with hname hkind hbelow
    · exact absurd hx List.not_mem_nil
    · exact visitAll_located container children x hx
    · exact absurd hx List.not_mem_nil
    · rcases List.mem_cons.1 hx with rfl | hx
      · exact ⟨rfl, by simpa using hbelow⟩
      · exact visitAll_located (some (Key.symbol f.repoKey signature)) children x hx

theorem visitAll_located (container : Option String) : ∀ l : List Declaration,
    ∀ x ∈ (visitAll f minimum container l).symbols,
      x.filePath = f.path ∧ x.accessibility.admits minimum = true
  | [] => fun _ hx => absurd hx List.not_mem_nil
  | a :: rest => by
    intro x hx
    rcases List.mem_append.1 hx with hx | hx
    · exact visit_located container a x hx
    · exact visitAll_located container rest x hx

end

end Keys

end Source

/-! ## Elements -/

namespace SourceFile

/-- The key goes on from that of the file, after a colon. -/
def Scopes (f : SourceFile) (key : String) : Prop := ∃ rest, key = f.key ++ ":" ++ rest

variable (f : SourceFile)

theorem scopes_element (kind name : String) (line : Option Nat) :
    f.Scopes (Key.element f.key kind name line) := by
  rcases line with _ | line
  · refine ⟨kind ++ ":" ++ name, ?_⟩
    show f.key ++ ":" ++ kind ++ ":" ++ name = _
    simp only [String.append_assoc]
  · refine ⟨kind ++ ":" ++ name ++ ":" ++ toString line, ?_⟩
    show f.key ++ ":" ++ kind ++ ":" ++ name ++ ":" ++ toString line = _
    simp only [String.append_assoc]

/-- The symbol stands for an element of the file. -/
structure IsElement (x : Symbol) : Prop where
  key : f.Scopes x.key
  path : x.filePath = f.path

theorem isElement_named (kind : SymbolKind) (name : String) (keyLine line : Option Nat) :
    f.IsElement (f.named kind name keyLine line) :=
  ⟨f.scopes_element kind.name name keyLine, rfl⟩

theorem isElement_ofAttachments {l : List Attachment} (h : ∀ a ∈ l, f.IsElement a.symbol) :
    ∀ x ∈ (Extraction.ofAttachments l).symbols, f.IsElement x := by
  intro x hx
  obtain ⟨a, ha, rfl⟩ := List.mem_map.1 hx
  exact h a ha

end SourceFile

section Elements

variable (f : SourceFile)

mutual

theorem Xml.attachments_isElement (parent : String) : ∀ e : Markup.Element,
    ∀ a ∈ Xml.attachments f parent e, f.IsElement a.symbol
  | ⟨name, _, _, line, children⟩ => by
    intro a ha
    rcases List.mem_cons.1 ha with rfl | ha
    · exact f.isElement_named _ _ _ _
    · exact Xml.childAttachments_isElement _ children a ha

theorem Xml.childAttachments_isElement (parent : String) : ∀ l : List Markup.Element,
    ∀ a ∈ Xml.childAttachments f parent l, f.IsElement a.symbol
  | [] => List.forall_mem_nil _
  | e :: rest => by
    intro a ha
    rcases List.mem_append.1 ha with ha | ha
    · exact Xml.attachments_isElement parent e a ha
    · exact Xml.childAttachments_isElement parent rest a ha

end

theorem Xaml.elementSymbol_scopes (name : String) (attributes : List (String × String))
    (line : Nat) : f.Scopes (Xaml.elementSymbol f name attributes line).key := by
  rcases h : Xaml.identity? attributes with _ | id
  · refine ⟨name ++ ":" ++ toString line, ?_⟩
    simp only [Xaml.elementSymbol, SourceFile.element, h]
    show f.key ++ ":" ++ name ++ ":" ++ toString line = _
    simp only [String.append_assoc]
  · refine ⟨name ++ ":" ++ id ++ ":" ++ toString line, ?_⟩
    simp only [Xaml.elementSymbol, SourceFile.element, h]
    show f.key ++ ":" ++ (name ++ ":" ++ id) ++ ":" ++ toString line = _
    simp only [String.append_assoc]

mutual

theorem Xaml.attachments_isElement (parent : String) : ∀ e : Markup.Element,
    ∀ a ∈ Xaml.attachments f parent e, f.IsElement a.symbol
  | ⟨name, attributes, _, line, children⟩ => by
    intro a ha
    rcases List.mem_append.1 ha with ha | ha
    · rcases List.mem_cons.1 ha with rfl | ha
      · exact ⟨Xaml.elementSymbol_scopes f name attributes line, rfl⟩
      · obtain ⟨⟨_, value⟩, -, rfl⟩ := List.mem_map.1 ha
        exact ⟨f.scopes_element "EventHandler" value none, rfl⟩
    · exact Xaml.childAttachments_isElement _ children a ha

theorem Xaml.childAttachments_isElement (parent : String) : ∀ l : List Markup.Element,
    ∀ a ∈ Xaml.childAttachments f parent l, f.IsElement a.symbol
  | [] => List.forall_mem_nil _
  | e :: rest => by
    intro a ha
    rcases List.mem_append.1 ha with ha | ha
    · exact Xaml.attachments_isElement parent e a ha
    · exact Xaml.childAttachments_isElement parent rest a ha

end

theorem ProjectFile.property?_isElement {e : Markup.Element} {a : Attachment}
    (h : ProjectFile.property? f e = some a) : f.IsElement a.symbol := by
  simp only [ProjectFile.property?] at h
  split_ifs at h
  obtain rfl := Option.some_inj.1 h
  exact ⟨f.scopes_element SymbolKind.projectProperty.name e.name (some e.line), rfl⟩

theorem ProjectFile.reference?_isElement {e : Markup.Element} {a : Attachment}
    (h : ProjectFile.reference? f e = some a) : f.IsElement a.symbol := by
  simp only [ProjectFile.reference?, Option.bind_eq_bind, Option.bind_eq_some_iff] at h
  obtain ⟨kind, -, name, -, h⟩ := h
  obtain ⟨hkey, hpath⟩ := f.isElement_named kind name (some e.line) (some e.line)
  split_ifs at h <;> obtain rfl := Option.some_inj.1 h <;> exact ⟨hkey, hpath⟩

/-- What is no declaration is an element. -/
theorem DocumentKind.isElement_extract (minimum : Accessibility)
    (facts : Except FactError (List Declaration)) : ∀ k : DocumentKind, k ≠ source →
      ∀ x ∈ (k.extract f minimum facts).symbols, f.IsElement x
  | source, h => absurd rfl h
  | razor, _ => by
    refine f.isElement_ofAttachments fun a ha => ?_
    obtain ⟨line, -, h⟩ := List.mem_filterMap.1 ha
    obtain ⟨_, -, rfl⟩ := Option.map_eq_some_iff.1 h
    exact f.isElement_named _ _ _ _
  | xaml, _ => by
    simp only [extract, Xaml.extract]
    rcases Markup.parse f.content with _ | root
    · exact List.forall_mem_nil _
    · exact f.isElement_ofAttachments (Xaml.attachments_isElement f f.key root)
  | project, _ => by
    simp only [extract, ProjectFile.extract]
    rcases Markup.parse f.content with _ | root
    · exact List.forall_mem_nil _
    refine f.isElement_ofAttachments fun a ha => ?_
    rcases List.mem_append.1 ha with ha | ha
    · obtain ⟨_, -, h⟩ := List.mem_filterMap.1 ha
      exact ProjectFile.property?_isElement f h
    · obtain ⟨_, -, h⟩ := List.mem_filterMap.1 ha
      exact ProjectFile.reference?_isElement f h
  | xml, _ => by
    simp only [extract, Xml.extract]
    rcases Markup.parse f.content with _ | root
    · exact List.forall_mem_nil _
    · exact f.isElement_ofAttachments (Xml.attachments_isElement f f.key root)
  | json, _ => by
    simp only [extract, JsonDocument.extract]
    rcases Json.parse? f.content with _ | v
    · exact List.forall_mem_nil _
    refine f.isElement_ofAttachments fun a ha => ?_
    obtain ⟨⟨_, path⟩, -, rfl⟩ := List.mem_map.1 ha
    exact ⟨f.scopes_element SymbolKind.jsonProperty.name path none, rfl⟩
  | css, _ => by
    refine f.isElement_ofAttachments fun a ha => ?_
    obtain ⟨_, -, rfl⟩ := List.mem_map.1 ha
    exact f.isElement_named _ _ _ _
  | javaScript, _ => by
    refine f.isElement_ofAttachments fun a ha => ?_
    rcases List.mem_append.1 ha with ha | ha <;>
    · obtain ⟨_, -, rfl⟩ := List.mem_map.1 ha
      exact f.isElement_named _ _ _ _
  | html, _ => by
    refine f.isElement_ofAttachments fun a ha => ?_
    rcases List.mem_append.1 ha with ha | ha <;>
    · obtain ⟨_, -, rfl⟩ := List.mem_map.1 ha
      exact f.isElement_named _ _ _ _

/-- What is found in a file lies there. -/
theorem SourceFile.filePath_of_mem_extract {minimum : Accessibility}
    {facts : Except FactError (List Declaration)} {x : Symbol}
    (hx : x ∈ (f.extract minimum facts).symbols) : x.filePath = f.path := by
  unfold SourceFile.extract at hx
  rcases hkind : DocumentKind.ofPath? f.path with _ | k <;> simp only [hkind] at hx
  · exact absurd hx List.not_mem_nil
  have hx := (Extraction.mem_symbols_restrict.1 hx).1
  by_cases hne : k = .source
  · subst hne
    rcases facts with _ | declarations
    · exact absurd hx List.not_mem_nil
    · exact (Source.visitAll_located f minimum none declarations x hx).1
  · exact (DocumentKind.isElement_extract f minimum facts k hne x hx).path

end Elements

/-! ## What a file makes of a path -/

/-- A symbol of the file, which lies at the path `own`, has the key of a file at `path`. -/
inductive SourceFile.Occupies (f : SourceFile) (minimum : Accessibility)
    (facts : Except FactError (List Declaration)) (own path : String) : Prop
  | declared {declarations : List Declaration} {d : Declaration} :
      DocumentKind.ofPath? f.path = some .source → facts = .ok declarations →
      Source.Shown minimum d declarations → d.signature = path → Occupies f minimum facts own path
  | element {x : Symbol} {rest : String} : DocumentKind.ofPath? f.path ≠ some .source →
      x ∈ (f.extract minimum facts).symbols → x.key = f.key ++ ":" ++ rest →
      own ++ ":" ++ rest = path → Occupies f minimum facts own path

theorem SourceFile.occupies_iff {f : SourceFile} {own path : String}
    (hkey : f.key = f.repoKey ++ ":" ++ own) (minimum : Accessibility)
    (facts : Except FactError (List Declaration)) :
    f.Occupies minimum facts own path ↔
      ∃ x ∈ (f.extract minimum facts).symbols, x.key = f.repoKey ++ ":" ++ path := by
  by_cases hsource : DocumentKind.ofPath? f.path = some .source
  · have hextract : ∀ declarations, f.extract minimum (.ok declarations) =
        Source.visitAll f minimum none declarations := by
      intro declarations
      simp only [SourceFile.extract, hsource]
      exact Extraction.restrict_of_admitted
        fun x hx => (Source.visitAll_located f minimum none declarations x hx).2
    constructor
    · intro h
      cases h with
      | declared _ hfacts hshown hsignature =>
        rw [hfacts, hextract, Source.mem_keys_visitAll]
        exact ⟨_, hshown, congrArg _ hsignature⟩
      | element hother => exact absurd hsource hother
    · intro h
      rcases facts with x | declarations
      · obtain ⟨x, hx, -⟩ := h
        simp only [SourceFile.extract, hsource] at hx
        exact absurd hx List.not_mem_nil
      · rw [hextract, Source.mem_keys_visitAll] at h
        obtain ⟨d, hshown, hkey⟩ := h
        refine .declared hsource rfl hshown ?_
        exact (String.append_right_inj _).1 hkey
  · constructor
    · intro h
      cases h with
      | declared hkind => exact absurd hkind hsource
      | @element x rest _ hx hxkey hpath =>
        refine ⟨x, hx, ?_⟩
        rw [hxkey, hkey, ← hpath]
        simp only [String.append_assoc]
    · rintro ⟨x, hx, hxkey⟩
      have hscopes : f.Scopes x.key := by
        have hmem := hx
        unfold SourceFile.extract at hmem
        rcases hkind : DocumentKind.ofPath? f.path with _ | k <;> simp only [hkind] at hmem
        · exact absurd hmem List.not_mem_nil
        · have hne : k ≠ .source := fun h => hsource (h ▸ hkind)
          exact (DocumentKind.isElement_extract f minimum facts k hne x
            (List.mem_filter.1 hmem).1).key
      obtain ⟨rest, hrest⟩ := hscopes
      refine .element hsource hx hrest ?_
      rw [hrest, hkey] at hxkey
      simp only [String.append_assoc] at hxkey ⊢
      exact (String.append_right_inj _).1 ((String.append_right_inj _).1 hxkey)

end CodeGraph
