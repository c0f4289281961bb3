import CodeGraph.Extract.DocumentKind
import Mathlib.Tactic.SplitIfs

/-!
# Ownership

Whatever is found in a file belongs to it, and hangs together: a relationship leads to a symbol of
the same file, from the file or from another of these symbols. This holds for each kind of document
and is kept by the accessibility filter.
-/

namespace CodeGraph

/-- The symbols belong to the file, and relationships lead to them from the parent or from one of
them. -/
structure Extraction.HangsOn (e : Extraction) (fileKey : String) (parent : Option String) :
    Prop where
  owned : ∀ x ∈ e.symbols, x.fileKey = fileKey
  source : ∀ r ∈ e.relationships, some r.source = parent ∨ r.source ∈ e.symbols.map (·.key)
  target : ∀ r ∈ e.relationships, r.target ∈ e.symbols.map (·.key)

namespace Extraction.HangsOn

variable {d e : Extraction} {k : String} {p : Option String}

theorem empty (k : String) (p : Option String) : Extraction.empty.HangsOn k p :=
  ⟨List.forall_mem_nil _, List.forall_mem_nil _, List.forall_mem_nil _⟩

theorem append (hd : d.HangsOn k p) (he : e.HangsOn k p) : (d ++ e).HangsOn k p := by
  refine ⟨fun x hx => ?_, fun r hr => ?_, fun r hr => ?_⟩
  · exact (List.mem_append.1 hx).elim (hd.owned x) (he.owned x)
  · rw [symbols_append, List.map_append, List.mem_append]
    rcases List.mem_append.1 hr with hr | hr
    · exact (hd.source r hr).imp_right .inl
    · exact (he.source r hr).imp_right .inr
  · rw [symbols_append, List.map_append, List.mem_append]
    exact (List.mem_append.1 hr).imp (hd.target r) (he.target r)

/-- A symbol that hangs on the parent carries what hangs on the symbol. -/
theorem under {x : Symbol} (t : RelType) (hx : x.fileKey = k) (he : e.HangsOn k (some x.key)) :
    ((⟨[x], p.toList.map fun c => ⟨c, x.key, t⟩⟩ : Extraction) ++ e).HangsOn k p := by
  refine ⟨fun y hy => ?_, fun r hr => ?_, fun r hr => ?_⟩
  · rcases List.mem_cons.1 hy with rfl | hy
    · exact hx
    · exact he.owned y hy
  · rcases List.mem_append.1 hr with hr | hr
    · obtain ⟨c, hc, rfl⟩ := List.mem_map.1 hr
      exact .inl (Option.mem_toList.1 hc).symm
    · refine .inr (List.mem_cons.2 ((he.source r hr).imp_left fun h => ?_))
      exact Option.some_inj.1 h
  · rcases List.mem_append.1 hr with hr | hr
    · obtain ⟨c, -, rfl⟩ := List.mem_map.1 hr
      exact List.mem_cons_self
    · exact List.mem_cons_of_mem _ (he.target r hr)

/-- Symbols that all hang on the parent. -/
theorem ofAttachments {l : List Attachment} {parent : String}
    (h : ∀ a ∈ l, a.symbol.fileKey = k ∧ a.parent = parent) :
    (Extraction.ofAttachments l).HangsOn k (some parent) := by
  refine ⟨fun x hx => ?_, fun r hr => ?_, fun r hr => ?_⟩
  · obtain ⟨a, ha, rfl⟩ := List.mem_map.1 hx
    exact (h a ha).1
  · obtain ⟨a, ha, rfl⟩ := List.mem_map.1 hr
    exact .inl (congrArg some (h a ha).2)
  · obtain ⟨a, ha, rfl⟩ := List.mem_map.1 hr
    exact List.mem_map.2 ⟨a.symbol, List.mem_map_of_mem ha, rfl⟩

theorem ofAttachments_cons {a : Attachment} {l : List Attachment}
    (ha : a.symbol.fileKey = k)
    (hl : (Extraction.ofAttachments l).HangsOn k (some a.symbol.key)) :
    (Extraction.ofAttachments (a :: l)).HangsOn k (some a.parent) :=
  under (p := some a.parent) a.type ha hl

theorem ofAttachments_append {l m : List Attachment}
    (hl : (Extraction.ofAttachments l).HangsOn k p)
    (hm : (Extraction.ofAttachments m).HangsOn k p) :
    (Extraction.ofAttachments (l ++ m)).HangsOn k p := by
  rw [Extraction.ofAttachments_append]
  exact hl.append hm

/-- What hangs on nothing hangs on anything. -/
theorem of_none (h : e.HangsOn k none) : e.HangsOn k p :=
  ⟨h.owned, fun r hr => .inr ((h.source r hr).resolve_left (Option.some_ne_none _)), h.target⟩

/-- The filter takes no symbol away that a relationship it leaves leads from or to. -/
theorem restrict (h : e.HangsOn k p) (minimum : Accessibility) :
    (e.restrict minimum).HangsOn k p := by
  have hkept : ∀ key, ¬ key ∈ e.removedKeys minimum → key ∈ e.symbols.map (·.key) →
      key ∈ (e.restrict minimum).symbols.map (·.key) := by
    intro key hgone hkey
    obtain ⟨x, hx, rfl⟩ := List.mem_map.1 hkey
    refine List.mem_map.2 ⟨x, List.mem_filter.2 ⟨hx, ?_⟩, rfl⟩
    simpa using hgone
  refine ⟨fun x hx => h.owned x (List.mem_filter.1 hx).1, fun r hr => ?_, fun r hr => ?_⟩
  all_goals
    obtain ⟨hr, hends⟩ := List.mem_filter.1 hr
    simp only [Bool.and_eq_true, Bool.not_eq_true', List.contains_eq_mem, decide_eq_false_iff_not]
      at hends
  · exact (h.source r hr).imp_right (hkept _ hends.1)
  · exact hkept _ hends.2 (h.target r hr)

end Extraction.HangsOn

open Extraction (HangsOn)

/-! ## The kinds of documents -/

namespace Source

variable (f : SourceFile) (minimum : Accessibility)

mutual

theorem visit_hangsOn (container : Option String) :
    ∀ d : Declaration, (visit f minimum container d).HangsOn f.key container
  | ⟨name, kind, _, signature, accessibility, _, _, _, children⟩ => by
    rw [visit]
    split_ifs
    · exact .empty _ _
    · exact visitAll_hangsOn container children
    · exact .empty _ _
    · exact .under .contains rfl (visitAll_hangsOn (some (Key.symbol f.repoKey signature)) children)

theorem visitAll_hangsOn (container : Option String) :
    ∀ l : List Declaration, (visitAll f minimum container l).HangsOn f.key container
  | [] => .empty _ _
  | d :: rest => (visit_hangsOn container d).append (visitAll_hangsOn container rest)

end

theorem extract_hangsOn (facts : Except FactError (List Declaration)) :
    (extract f minimum facts).HangsOn f.key none := by
  rcases facts with _ | declarations
  · exact .empty _ _
  · exact visitAll_hangsOn f minimum none declarations

end Source

namespace Xml

variable (f : SourceFile)

mutual

theorem attachments_hangsOn (parent : String) :
    ∀ e : Markup.Element, (Extraction.ofAttachments (attachments f parent e)).HangsOn f.key parent
  | ⟨_, _, _, _, children⟩ => .ofAttachments_cons rfl (childAttachments_hangsOn _ children)

theorem childAttachments_hangsOn (parent : String) :
    ∀ l : List Markup.Element,
      (Extraction.ofAttachments (childAttachments f parent l)).HangsOn f.key parent
  | [] => .empty _ _
  | e :: rest =>
    .ofAttachments_append (attachments_hangsOn parent e) (childAttachments_hangsOn parent rest)

end

end Xml

namespace Xaml

variable (f : SourceFile)

mutual

theorem attachments_hangsOn (parent : String) :
    ∀ e : Markup.Element, (Extraction.ofAttachments (attachments f parent e)).HangsOn f.key parent
  | ⟨name, attributes, _, line, children⟩ => by
    have hhandlers : ∀ a ∈ (attributes.filter fun (a, value) => isEvent a && value != "").map
        fun (_, value) => (⟨(elementSymbol f name attributes line).key, .bindsTo,
          handlerSymbol f value line⟩ : Attachment),
        a.symbol.fileKey = f.key ∧ a.parent = (elementSymbol f name attributes line).key := by
      intro a ha
      obtain ⟨_, -, rfl⟩ := List.mem_map.1 ha
      exact ⟨rfl, rfl⟩
    exact .ofAttachments_cons rfl
      (.ofAttachments_append (.ofAttachments hhandlers) (childAttachments_hangsOn _ children))

theorem childAttachments_hangsOn (parent : String) :
    ∀ l : List Markup.Element,
      (Extraction.ofAttachments (childAttachments f parent l)).HangsOn f.key parent
  | [] => .empty _ _
  | e :: rest =>
    .ofAttachments_append (attachments_hangsOn parent e) (childAttachments_hangsOn parent rest)

end

end Xaml

theorem JsonDocument.extract_hangsOn (f : SourceFile) : (extract f).HangsOn f.key f.key := by
  unfold extract
  rcases Json.parse? f.content with _ | v
  · exact .empty _ _
  · refine .ofAttachments fun a ha => ?_
    obtain ⟨_, -, rfl⟩ := List.mem_map.1 ha
    exact ⟨rfl, rfl⟩

theorem Stylesheet.extract_hangsOn (f : SourceFile) : (extract f).HangsOn f.key f.key := by
  refine .ofAttachments fun a ha => ?_
  obtain ⟨_, -, rfl⟩ := List.mem_map.1 ha
  exact ⟨rfl, rfl⟩

theorem Script.extract_hangsOn (f : SourceFile) : (extract f).HangsOn f.key f.key := by
  refine .ofAttachments fun a ha => ?_
  rcases List.mem_append.1 ha with ha | ha <;>
  · obtain ⟨_, -, rfl⟩ := List.mem_map.1 ha
    exact ⟨rfl, rfl⟩

theorem Page.extract_hangsOn (f : SourceFile) : (extract f).HangsOn f.key f.key := by
  refine .ofAttachments fun a ha => ?_
  rcases List.mem_append.1 ha with ha | ha <;>
  · obtain ⟨_, -, rfl⟩ := List.mem_map.1 ha
    exact ⟨rfl, rfl⟩

theorem Razor.extract_hangsOn (f : SourceFile) : (extract f).HangsOn f.key f.key := by
  refine .ofAttachments fun a ha => ?_
  obtain ⟨line, -, h⟩ := List.mem_filterMap.1 ha
  obtain ⟨_, -, rfl⟩ := Option.map_eq_some_iff.1 h
  exact ⟨rfl, rfl⟩

namespace ProjectFile

variable (f : SourceFile)

theorem property?_eq_some {f : SourceFile} {e : Markup.Element} {a : Attachment}
    (h : property? f e = some a) : a.symbol.fileKey = f.key ∧ a.parent = f.key := by
  simp only [property?] at h
  split_ifs at h
  obtain rfl := Option.some_inj.1 h
  exact ⟨rfl, rfl⟩

theorem reference?_eq_some {f : SourceFile} {e : Markup.Element} {a : Attachment}
    (h : reference? f e = some a) : a.symbol.fileKey = f.key ∧ a.parent = f.key := by
  simp only [reference?, Option.bind_eq_bind, Option.bind_eq_some_iff] at h
  obtain ⟨kind, -, name, -, h⟩ := h
  split_ifs at h <;> obtain rfl := Option.some_inj.1 h <;> exact ⟨rfl, rfl⟩

theorem extract_hangsOn : (extract f).HangsOn f.key f.key := by
  unfold extract
  rcases Markup.parse f.content with _ | root
  · exact .empty _ _
  · refine .ofAttachments fun a ha => ?_
    rcases List.mem_append.1 ha with ha | ha
    · obtain ⟨_, -, h⟩ := List.mem_filterMap.1 ha
      exact property?_eq_some h
    · obtain ⟨_, -, h⟩ := List.mem_filterMap.1 ha
      exact reference?_eq_some h

end ProjectFile

theorem Xml.extract_hangsOn (f : SourceFile) : (extract f).HangsOn f.key f.key := by
  unfold extract
  rcases Markup.parse f.content with _ | root
  · exact .empty _ _
  · exact attachments_hangsOn f f.key root

theorem Xaml.extract_hangsOn (f : SourceFile) : (extract f).HangsOn f.key f.key := by
  unfold extract
  rcases Markup.parse f.content with _ | root
  · exact .empty _ _
  · exact attachments_hangsOn f f.key root

theorem DocumentKind.extract_hangsOn (f : SourceFile) (minimum : Accessibility)
    (facts : Except FactError (List Declaration)) :
    ∀ k : DocumentKind, (k.extract f minimum facts).HangsOn f.key f.key
  | source => (Source.extract_hangsOn f minimum facts).of_none
  | razor => Razor.extract_hangsOn f
  | xaml => Xaml.extract_hangsOn f
  | project => ProjectFile.extract_hangsOn f
  | xml => Xml.extract_hangsOn f
  | json => JsonDocument.extract_hangsOn f
  | css => Stylesheet.extract_hangsOn f
  | javaScript => Script.extract_hangsOn f
  | html => Page.extract_hangsOn f

/-- What a file holds belongs to it and hangs on it. -/
theorem SourceFile.extract_hangsOn (f : SourceFile) (minimum : Accessibility)
    (facts : Except FactError (List Declaration)) :
    (f.extract minimum facts).HangsOn f.key f.key := by
  unfold SourceFile.extract
  rcases DocumentKind.ofPath? f.path with _ | k
  · exact .empty _ _
  · exact (DocumentKind.extract_hangsOn f minimum facts k).restrict minimum

end CodeGraph
