import CodeGraph.Extract.Xml
import CodeGraph.Proofs.ElementKeys
import CodeGraph.Proofs.Starts
import Mathlib.Data.List.Nodup
import Mathlib.Logic.Relation

/-!
# The tree of the elements

Each element of a document yields a symbol that hangs on the symbol of the element around it. The
key of a symbol holds the name and the line of its element and nothing else of it, so the symbols
make a tree below the file if no two elements have both in common (`tree_of_document`). The lines
are those on which the tags start in a document that tells its lines (`Markup.TellsLines`).
-/

namespace CodeGraph

/-! ## Elements inside elements -/

namespace Markup.Element

theorem mem_families {x : Element} {es : List Element} :
    x ∈ families es ↔ ∃ e ∈ es, x ∈ e.family := by
  induction es with
  | nil => simp [families]
  | cons e es ih => simp [families, ih]

theorem mem_family {x e : Element} : x ∈ e.family ↔ x = e ∨ ∃ c ∈ e.children, x ∈ c.family := by
  rw [family_eq, List.mem_cons, mem_families]

theorem self_mem_family (e : Element) : e ∈ e.family := mem_family.2 (.inl rfl)

theorem sizeOf_lt {c p : Element} (h : c ∈ p.children) : sizeOf c < sizeOf p := by
  obtain ⟨name, attributes, text, line, children⟩ := p
  have hc : sizeOf c < sizeOf children := List.sizeOf_lt_of_mem h
  simp only [Element.mk.sizeOf_spec]
  omega

/-- What holds of an element, and of the children of each one inside it of which it holds, holds of
all inside it. -/
theorem forall_mem_family {P : Element → Prop} {e : Element} (he : P e)
    (h : ∀ p ∈ e.family, P p → ∀ c ∈ p.children, P c) : ∀ x ∈ e.family, P x := by
  intro x hx
  rcases mem_family.1 hx with rfl | ⟨c, hc, hx⟩
  · exact he
  · have hsmaller := sizeOf_lt hc
    refine forall_mem_family (h e e.self_mem_family he c hc) (fun p hp => ?_) x hx
    exact h p (mem_family.2 (.inr ⟨c, hc, hp⟩))
termination_by sizeOf e

theorem child_mem_family {e p c : Element} (hp : p ∈ e.family) (hc : c ∈ p.children) :
    c ∈ e.family := by
  rcases mem_family.1 hp with rfl | ⟨d, hd, hp⟩
  · exact mem_family.2 (.inr ⟨c, hc, c.self_mem_family⟩)
  · have hsmaller := sizeOf_lt hd
    exact mem_family.2 (.inr ⟨d, hd, child_mem_family hp hc⟩)
termination_by sizeOf e

theorem exists_parent {e x : Element} (hx : x ∈ e.family) :
    x = e ∨ ∃ p ∈ e.family, x ∈ p.children :=
  forall_mem_family (P := fun x => x = e ∨ ∃ p ∈ e.family, x ∈ p.children) (.inl rfl)
    (fun p hp _ _ hc => .inr ⟨p, hp, hc⟩) x hx

end Markup.Element

namespace Xml

open Markup (Element)

/-- The symbol of an element. -/
def symbolOf (f : SourceFile) (e : Element) : Symbol :=
  f.named .xmlElement e.name (some e.line) (some e.line)

def keyOf (f : SourceFile) (e : Element) : String := (symbolOf f e).key

/-- One of the relationships leads from the one key to the other. -/
def Leads (l : List Relationship) (a b : String) : Prop := ∃ r ∈ l, r.source = a ∧ r.target = b

/-- The relationships are those of a tree below a file whose nodes are the elements. -/
structure IsTree (f : SourceFile) (root : Element) (l : List Relationship) : Prop where
  contains : ∀ r ∈ l, r.type = .contains
  /-- Each element has one edge to it, which comes from the element around it. -/
  parent : ∀ e ∈ root.family, ∃ r, l.filter (·.target == keyOf f e) = [r] ∧
    (r.source = f.key ∧ e = root ∨ ∃ p ∈ root.family, e ∈ p.children ∧ r.source = keyOf f p)
  /-- No edge leads elsewhere, so none leads to the file. -/
  target : ∀ r ∈ l, ∃ e ∈ root.family, r.target = keyOf f e
  top : ∀ e ∈ root.family, keyOf f e ≠ f.key
  acyclic : ∀ k, ¬ Relation.TransGen (Leads l) k k
  reached : ∀ e ∈ root.family, Relation.TransGen (Leads l) f.key (keyOf f e)

variable {f : SourceFile} {root : Element}

/-! ## Attachments -/

mutual

theorem map_symbol_attachments (parent : String) :
    ∀ e : Element, (attachments f parent e).map (·.symbol) = e.family.map (symbolOf f)
  | ⟨name, attributes, text, line, children⟩ => by
    rw [attachments, Element.family, List.map_cons, List.map_cons,
      map_symbol_childAttachments _ children]
    rfl

theorem map_symbol_childAttachments (parent : String) : ∀ es : List Element,
    (childAttachments f parent es).map (·.symbol) = (Element.families es).map (symbolOf f)
  | [] => rfl
  | e :: es => by
    rw [childAttachments, Element.families, List.map_append, List.map_append,
      map_symbol_attachments parent e, map_symbol_childAttachments parent es]

end

mutual

/-- An attachment is that of the element itself, or one of a child to an element inside. -/
theorem mem_attachments {a : Attachment} {parent : String} : ∀ e : Element,
    a ∈ attachments f parent e ↔ a = ⟨parent, .contains, symbolOf f e⟩ ∨
      ∃ p ∈ e.family, ∃ c ∈ p.children, a = ⟨keyOf f p, .contains, symbolOf f c⟩
  | ⟨name, attributes, text, line, children⟩ => by
    have hself : Attachment.mk parent .contains
        (f.named .xmlElement name (some line) (some line)) =
          ⟨parent, .contains, symbolOf f ⟨name, attributes, text, line, children⟩⟩ := rfl
    rw [attachments, List.mem_cons, mem_childAttachments children, Element.family, hself]
    refine or_congr_right ?_
    simp only [List.mem_cons, exists_eq_or_imp]
    rfl

theorem mem_childAttachments {a : Attachment} {parent : String} : ∀ es : List Element,
    a ∈ childAttachments f parent es ↔ (∃ c ∈ es, a = ⟨parent, .contains, symbolOf f c⟩) ∨
      ∃ p ∈ Element.families es, ∃ c ∈ p.children, a = ⟨keyOf f p, .contains, symbolOf f c⟩
  | [] => by simp [childAttachments, Element.families]
  | e :: es => by
    rw [childAttachments, List.mem_append, mem_attachments e, mem_childAttachments es,
      Element.families]
    simp only [List.mem_cons, List.mem_append, or_and_right, exists_or, exists_eq_left]
    exact or_or_or_comm

end

/-- The edges are one to the root, and one to each child of an element. -/
theorem mem_relationships {r : Relationship} :
    r ∈ (attachments f f.key root).map Attachment.relationship ↔
      r = ⟨f.key, keyOf f root, .contains⟩ ∨
        ∃ p ∈ root.family, ∃ c ∈ p.children, r = ⟨keyOf f p, keyOf f c, .contains⟩ := by
  simp only [List.mem_map, mem_attachments]
  constructor
  · rintro ⟨a, rfl | ⟨p, hp, c, hc, rfl⟩, rfl⟩
    · exact .inl rfl
    · exact .inr ⟨p, hp, c, hc, rfl⟩
  · rintro (rfl | ⟨p, hp, c, hc, rfl⟩)
    · exact ⟨_, .inl rfl, rfl⟩
    · exact ⟨_, .inr ⟨p, hp, c, hc, rfl⟩, rfl⟩

theorem filter_eq_singleton {α : Type} {g : α → String} {l : List α} (h : (l.map g).Nodup) {a : α}
    (ha : a ∈ l) : l.filter (fun x => g x == g a) = [a] := by
  induction l with
  | nil => cases ha
  | cons b l ih =>
    rw [List.map_cons, List.nodup_cons] at h
    rcases List.mem_cons.1 ha with rfl | ha
    · have hnone : l.filter (fun x => g x == g a) = [] := by
        rw [List.filter_eq_nil_iff]
        intro x hx heq
        exact h.1 (beq_iff_eq.1 heq ▸ List.mem_map_of_mem hx)
      rw [List.filter_cons_of_pos (by simp), hnone]
    · have hne : g b ≠ g a := fun heq => h.1 (heq ▸ List.mem_map_of_mem ha)
      rw [List.filter_cons_of_neg (by simpa using hne), ih h.2 ha]

/-! ## The tree -/

theorem keyOf_inj {e e' : Element} :
    keyOf f e = keyOf f e' ↔ e.name = e'.name ∧ e.line = e'.line := Key.element_inj

theorem keyOf_ne (e : Element) : keyOf f e ≠ f.key := Key.element_ne

/-- With no two keys the same, a key leads only to those of smaller elements. -/
theorem exists_of_leads (h : (root.family.map (keyOf f)).Nodup) {e : Element} (he : e ∈ root.family)
    {k : String} (hk : Relation.TransGen
      (Leads ((attachments f f.key root).map Attachment.relationship)) (keyOf f e) k) :
    ∃ x ∈ root.family, k = keyOf f x ∧ sizeOf x < sizeOf e := by
  have hstep : ∀ {e k}, e ∈ root.family →
      Leads ((attachments f f.key root).map Attachment.relationship) (keyOf f e) k →
        ∃ x ∈ root.family, k = keyOf f x ∧ sizeOf x < sizeOf e := by
    rintro e k he ⟨r, hr, hsource, rfl⟩
    rcases mem_relationships.1 hr with rfl | ⟨p, hp, c, hc, rfl⟩
    · exact absurd hsource.symm (keyOf_ne e)
    · obtain rfl := List.inj_on_of_nodup_map h hp he hsource
      exact ⟨c, Element.child_mem_family hp hc, rfl, Element.sizeOf_lt hc⟩
  induction hk with
  | single hlast => exact hstep he hlast
  | tail _ hlast ih =>
    obtain ⟨x, hx, rfl, hsize⟩ := ih
    obtain ⟨y, hy, rfl, hsize'⟩ := hstep hx hlast
    exact ⟨y, hy, rfl, Nat.lt_trans hsize' hsize⟩

theorem isTree_of_nodup (h : (root.family.map (keyOf f)).Nodup) :
    IsTree f root ((attachments f f.key root).map Attachment.relationship) := by
  have htargets :
      (((attachments f f.key root).map Attachment.relationship).map (·.target)).Nodup := by
    have hmap : ((attachments f f.key root).map Attachment.relationship).map (·.target) =
        ((attachments f f.key root).map (·.symbol)).map (·.key) := by
      simp only [List.map_map]
      rfl
    rw [hmap, map_symbol_attachments, List.map_map]
    exact h
  have htarget : ∀ r ∈ (attachments f f.key root).map Attachment.relationship,
      r.type = .contains ∧ ∃ e ∈ root.family, r.target = keyOf f e := by
    intro r hr
    rcases mem_relationships.1 hr with rfl | ⟨p, hp, c, hc, rfl⟩
    · exact ⟨rfl, root, root.self_mem_family, rfl⟩
    · exact ⟨rfl, c, Element.child_mem_family hp hc, rfl⟩
  have hroot := (@mem_relationships f root _).2 (.inl rfl)
  have hchild : ∀ p ∈ root.family, ∀ c ∈ p.children, _ := fun p hp c hc =>
    mem_relationships (f := f).2 (.inr ⟨p, hp, c, hc, rfl⟩)
  refine ⟨fun r hr => (htarget r hr).1, fun e he => ?_, fun r hr => (htarget r hr).2,
    fun e _ => keyOf_ne e, fun k hk => ?_, ?_⟩
  · rcases Element.exists_parent he with rfl | ⟨p, hp, hc⟩
    · exact ⟨_, filter_eq_singleton htargets hroot, .inl ⟨rfl, rfl⟩⟩
    · exact ⟨_, filter_eq_singleton htargets (hchild p hp e hc), .inr ⟨p, hp, hc, rfl⟩⟩
  · obtain ⟨j, -, r, hr, -, rfl⟩ := (Relation.TransGen.tail'_iff).1 hk
    obtain ⟨e, he, heq⟩ := (htarget r hr).2
    rw [heq] at hk
    obtain ⟨x, hx, hsame, hsize⟩ := exists_of_leads h he hk
    obtain rfl := List.inj_on_of_nodup_map h he hx hsame
    exact Nat.lt_irrefl _ hsize
  · refine Element.forall_mem_family (.single ⟨_, hroot, rfl, rfl⟩) fun p hp hreached c hc => ?_
    exact hreached.tail ⟨_, hchild p hp c hc, rfl, rfl⟩

theorem symbols_extract (h : Markup.parse f.content = .ok root) :
    (extract f).symbols = root.family.map (symbolOf f) := by
  simp only [extract, h, Extraction.ofAttachments, map_symbol_attachments]

theorem nodup_keyOf_iff : (root.family.map (keyOf f)).Nodup ↔
    (root.family.map fun e => (e.name, e.line)).Nodup := by
  simp only [List.Nodup, List.pairwise_map, ne_eq, keyOf_inj, Prod.mk.injEq]

/-- The elements of the tree are told by the first of the tags, on the lines where these start. -/
theorem family_of_tellsLines (h : Markup.parse f.content = .ok root) :
    ∃ tokens, Markup.Token.tokens? 0 (Markup.dropMark f.content.toList) = some tokens ∧
      (Markup.TellsLines f.content.toList tokens →
        root.family.map (fun e => (e.name, e.line)) <+: Markup.starts f.content.toList tokens) := by
  rw [Markup.parse, Markup.parseChars_eq_iff (by simp)] at h
  simp only [Markup.Building.result_eq_ok_iff, Markup.exists_reached_outside_iff] at h
  obtain ⟨tokens, outer, es, hread, hcontent, hroot⟩ := h
  refine ⟨tokens, hread, fun htells => ?_⟩
  obtain ⟨others, rfl⟩ := List.head?_eq_some_iff.1 hroot
  rw [← Markup.map_labels_of_tellsLines htells hread, hcontent.labels_eq, Element.families,
    List.map_append, List.map_append, List.map_map]
  exact List.prefix_append _ _

/-- A document yields one symbol for each element, in document order. No two of them have the same
key if and only if no two elements have both their names and the lines kept for them in common, and
then they make a tree below the file. The lines that are kept are those on which the tags start
if the document tells its lines, so in such a document it is enough that no two elements of one
name start on one line. -/
theorem tree_of_document (f : SourceFile) {root : Element}
    (h : Markup.parse f.content = .ok root) :
    (extract f).symbols = root.family.map (symbolOf f) ∧
    (((extract f).symbols.map (·.key)).Nodup ↔
      (root.family.map fun e => (e.name, e.line)).Nodup) ∧
    (((extract f).symbols.map (·.key)).Nodup → IsTree f root (extract f).relationships) ∧
    ∃ tokens, Markup.Token.tokens? 0 (Markup.dropMark f.content.toList) = some tokens ∧
      (Markup.TellsLines f.content.toList tokens →
        root.family.map (fun e => (e.name, e.line)) <+: Markup.starts f.content.toList tokens ∧
        ((Markup.starts f.content.toList tokens).Nodup →
          ((extract f).symbols.map (·.key)).Nodup)) := by
  have hkeys : ((extract f).symbols.map (·.key)).Nodup ↔ (root.family.map (keyOf f)).Nodup := by
    rw [symbols_extract h, List.map_map]
    rfl
  refine ⟨symbols_extract h, hkeys.trans nodup_keyOf_iff, fun hnodup => ?_, ?_⟩
  · rw [extract, h]
    exact isTree_of_nodup (hkeys.1 hnodup)
  · obtain ⟨tokens, hread, hstarts⟩ := family_of_tellsLines h
    refine ⟨tokens, hread, fun htells => ⟨hstarts htells, fun hnodup => ?_⟩⟩
    exact (hkeys.trans nodup_keyOf_iff).2 (hnodup.sublist (hstarts htells).sublist)

/-- Two elements of one name on lines of their own. -/
theorem tree_of_rows :
    let f : SourceFile := ⟨"r", "r:a.xml", "/w/a.xml", "<r>\n<a/>\n<a k='1'><b/></a></r>"⟩
    let root : Element := ⟨"r", [], "", 1, [⟨"a", [], "", 2, []⟩,
      ⟨"a", [("k", "1")], "", 3, [⟨"b", [], "", 3, []⟩]⟩]⟩
    Markup.parse f.content = .ok root ∧ ((extract f).symbols.map (·.key)).Nodup ∧
      IsTree f root (extract f).relationships ∧
      (extract f).symbols.map (·.key) = ["r:a.xml:XmlElement:r:1", "r:a.xml:XmlElement:a:2",
        "r:a.xml:XmlElement:a:3", "r:a.xml:XmlElement:b:3"] := by
  intro f root
  have hparse : Markup.parse f.content = .ok root := by decide +kernel
  obtain ⟨hsymbols, -, htree, tokens, hread, hlines⟩ := tree_of_document f hparse
  have htokens : tokens = [.opening "r".toList 3, .empty "a".toList 8,
      .opening "a k='1'".toList 18, .empty "b".toList 22, .closing "a".toList,
      .closing "r".toList] := by
    refine Option.some.inj (hread.symm.trans ?_)
    decide +kernel
  have htells : Markup.TellsLines f.content.toList tokens := by
    rw [htokens]
    exact ⟨by decide, by decide, by decide⟩
  have hstarts : Markup.starts f.content.toList tokens =
      [("r", 1), ("a", 2), ("a", 3), ("b", 3)] := by
    rw [htokens]
    decide +kernel
  have hnodup : ((extract f).symbols.map (·.key)).Nodup :=
    (hlines htells).2 (by rw [hstarts]; decide)
  refine ⟨hparse, hnodup, htree hnodup, ?_⟩
  rw [hsymbols]
  decide

/-- A mark in front shifts the bytes at which tags stop, so both elements of one name are kept with
the first line. -/
example : (Markup.parse "\uFEFF<r><a/>\n<a></a></r>").map (fun root =>
    root.family.map fun e => (e.name, e.line)) = .ok [("r", 1), ("a", 1), ("a", 1)] := by
  decide +kernel

end Xml

end CodeGraph
