import CodeGraph.Extract.ProjectFile
import CodeGraph.Extract.Xaml
import CodeGraph.Proofs.ElementTree
import CodeGraph.Proofs.Marks

/-!
# Marks in front of a markup document

The reader of markup skips a mark and does not count it. So the elements of a document are the same
with a mark in front, and so are the bytes at which their tags are said to stop, but these are then
looked for in a text that is three bytes longer. The tree with these bytes in place of the lines
(`stopTree`) depends on no mark, and the lines are put in afterwards (`parseChars_eq`). A tag keeps
its line if it has room for the mark (`keepsLines_of_room`).
-/

namespace CodeGraph.Markup

/-! ## Trees with other lines -/

namespace Element

mutual

/-- The element with other lines for it and for the elements inside it. -/
def relined (g : Nat → Nat) : Element → Element
  | ⟨name, attributes, text, line, children⟩ =>
    ⟨name, attributes, text, g line, relinedAll g children⟩

def relinedAll (g : Nat → Nat) : List Element → List Element
  | [] => []
  | e :: rest => relined g e :: relinedAll g rest

end

variable (g : Nat → Nat)

theorem relinedAll_eq (es : List Element) : relinedAll g es = es.map (relined g) := by
  induction es with
  | nil => rfl
  | cons e es ih => rw [relinedAll, ih, List.map_cons]

theorem relined_eq (e : Element) :
    e.relined g = { e with line := g e.line, children := e.children.map (relined g) } := by
  obtain ⟨name, attributes, text, line, children⟩ := e
  rw [relined, relinedAll_eq]

@[simp] theorem name_relined (e : Element) : (e.relined g).name = e.name := by rw [relined_eq]

@[simp] theorem attributes_relined (e : Element) : (e.relined g).attributes = e.attributes := by
  rw [relined_eq]

@[simp] theorem text_relined (e : Element) : (e.relined g).text = e.text := by rw [relined_eq]

@[simp] theorem line_relined (e : Element) : (e.relined g).line = g e.line := by rw [relined_eq]

@[simp] theorem children_relined (e : Element) :
    (e.relined g).children = e.children.map (relined g) := by rw [relined_eq]

mutual

theorem family_relined : ∀ e : Element, (e.relined g).family = e.family.map (relined g)
  | ⟨name, attributes, text, line, children⟩ => by
    rw [family, List.map_cons, family_eq, children_relined, families_relined children]

theorem families_relined :
    ∀ es : List Element, families (es.map (relined g)) = (families es).map (relined g)
  | [] => rfl
  | e :: es => by
    rw [List.map_cons, families, families, family_relined e, families_relined es, List.map_append]

end

variable {g} {g' : Nat → Nat}

mutual

theorem relined_congr : ∀ e : Element, (∀ x ∈ e.family, g x.line = g' x.line) →
    e.relined g = e.relined g'
  | ⟨name, attributes, text, line, children⟩, h => by
    rw [family, List.forall_mem_cons] at h
    rw [relined_eq, relined_eq, h.1, map_relined_congr children h.2]

theorem map_relined_congr : ∀ es : List Element, (∀ x ∈ families es, g x.line = g' x.line) →
    es.map (relined g) = es.map (relined g')
  | [], _ => rfl
  | e :: es, h => by
    rw [families, List.forall_mem_append] at h
    rw [List.map_cons, List.map_cons, relined_congr e h.1, map_relined_congr es h.2]

end

/-- The lines are all there is to tell two such trees apart. -/
theorem relined_eq_iff {e : Element} :
    e.relined g = e.relined g' ↔ ∀ x ∈ e.family, g x.line = g' x.line := by
  refine ⟨fun h => ?_, relined_congr e⟩
  have hfamily := congrArg (fun e => e.family.map (·.line)) h
  simpa [family_relined] using hfamily

end Element

namespace Frame

def relined (g : Nat → Nat) (f : Frame) : Frame :=
  { f with line := g f.line, children := f.children.map (Element.relined g) }

@[simp] theorem tagName_relined (g : Nat → Nat) (f : Frame) : (f.relined g).tagName = f.tagName :=
  rfl

theorem close_relined (g : Nat → Nat) (f : Frame) : (f.relined g).close = f.close.relined g := by
  rw [Element.relined_eq]
  simp [close, relined]

end Frame

namespace Building

/-- The frame of an element whose tag has this text, on a line that depends on where it stops. -/
def frameAt? (line : Nat → Nat) (body : List Char) (stop : Nat) : Option Frame :=
  (Tag.ofBody? body).map fun tag =>
    { tagName := tag.name, attributes := tag.attributes, text := [], line := line stop,
      children := [] }

/-- A step that takes no line from the document. -/
def stepAt (line : Nat → Nat) (b : Building) : Token → Option Building
  | .opening body stop => (frameAt? line body stop).map fun f => { b with stack := f :: b.stack }
  | .empty body stop => (frameAt? line body stop).map fun f => b.add f.close
  | t => step [] b t

theorem frame?_eq (document body : List Char) (stop : Nat) :
    frame? document body stop = frameAt? (tagLine document) body stop :=
  Option.map_eq_bind.symm

theorem step_eq (document : List Char) (b : Building) (t : Token) :
    step document b t = stepAt (tagLine document) b t := by
  cases t <;> simp only [step, stepAt, frame?_eq]

def relined (g : Nat → Nat) (b : Building) : Building :=
  ⟨b.stack.map (Frame.relined g), b.root.map (Element.relined g)⟩

variable (g : Nat → Nat)

theorem frameAt?_relined (body : List Char) (stop : Nat) :
    frameAt? g body stop = (frameAt? id body stop).map (Frame.relined g) := by
  simp only [frameAt?, Option.map_map]
  rfl

theorem add_relined (b : Building) (e : Element) :
    (b.relined g).add (e.relined g) = (b.add e).relined g := by
  obtain ⟨stack, root⟩ := b
  cases stack with
  | nil => cases root <;> rfl
  | cons f stack => rfl

theorem addText_relined (b : Building) (text : List Char) :
    (b.relined g).addText text = (b.addText text).relined g := by
  obtain ⟨stack, root⟩ := b
  cases stack <;> rfl

/-- What a token does depends on no line. -/
theorem stepAt_relined (b : Building) (t : Token) :
    stepAt g (b.relined g) t = (stepAt id b t).map (relined g) := by
  cases t with
  | opening body stop =>
    simp only [stepAt, frameAt?_relined g, Option.map_map]
    rfl
  | empty body stop =>
    simp only [stepAt, frameAt?_relined g, Option.map_map]
    refine congrArg (Option.map · _) (funext fun f => ?_)
    simp only [Function.comp_apply, Frame.close_relined, add_relined]
  | closing name =>
    obtain ⟨stack, root⟩ := b
    cases stack with
    | nil => rfl
    | cons f stack =>
      have hadd := add_relined g ⟨stack, root⟩ f.close
      simp only [stepAt, step, relined, List.map_cons, Frame.tagName_relined, Frame.close_relined]
        at hadd ⊢
      split
      · exact congrArg some hadd
      · rfl
  | text raw =>
    obtain ⟨stack, root⟩ := b
    cases stack with
    | nil => rfl
    | cons f stack =>
      simp only [stepAt, step]
      cases unescape? raw <;> rfl
  | literal text => exact congrArg some (addText_relined g b text)

theorem foldlM_stepAt_relined (tokens : List Token) (b : Building) :
    tokens.foldlM (stepAt g) (b.relined g) = (tokens.foldlM (stepAt id) b).map (relined g) := by
  induction tokens generalizing b with
  | nil => rfl
  | cons t tokens ih =>
    rw [List.foldlM_cons, List.foldlM_cons, stepAt_relined]
    cases stepAt id b t with
    | none => rfl
    | some b' => exact ih b'

theorem result_relined (b : Building) :
    (b.relined g).result = b.result.map (Element.relined g) := by
  obtain ⟨stack, root⟩ := b
  cases stack <;> cases root <;> rfl

end Building

/-- The tree of a text without a mark in front, with the bytes at which the tags stop in place of
the lines. -/
def stopTree (l : List Char) : Except Error Element :=
  match Token.tokens? 0 l with
  | none => .error .malformed
  | some tokens =>
    match tokens.foldlM (Building.stepAt id) Building.start with
    | none => .error .malformed
    | some b => b.result

/-- The tree of a document has the lines of its tags in place of the bytes at which they stop. -/
theorem parseChars_eq (document : List Char) : parseChars document =
    (stopTree (dropMark document)).map (Element.relined (Building.tagLine document)) := by
  rw [parseChars, stopTree]
  cases Token.tokens? 0 (dropMark document) with
  | none => rfl
  | some tokens =>
    have hrun : tokens.foldlM (Building.step document) Building.start =
        (tokens.foldlM (Building.stepAt id) Building.start).map
          (Building.relined (Building.tagLine document)) := by
      rw [← Building.foldlM_stepAt_relined]
      exact congrArg (tokens.foldlM · Building.start)
        (funext₂ fun b t => Building.step_eq document b t)
    dsimp only
    rw [hrun]
    cases tokens.foldlM (Building.stepAt id) Building.start with
    | none => rfl
    | some b => exact Building.result_relined _ b

/-! ## Lines with a mark in front -/

open Text (utf8Length)

/-- The last angle bracket before this byte is on the same line with a mark in front, though the
byte is counted without the mark. -/
def KeepsLine (l : List Char) (stop : Nat) : Prop :=
  Building.tagLine (Text.mark :: l) stop = Building.tagLine l stop

/-- All tags of the tree keep their lines. -/
def KeepsLines (l : List Char) : Prop :=
  ∀ tree, stopTree l = .ok tree → ∀ e ∈ tree.family, KeepsLine l e.line

theorem dropMark_of_head? {l : List Char} (h : l.head? ≠ some Text.mark) : dropMark l = l := by
  unfold dropMark
  split
  · exact absurd rfl h
  · rfl

/-- No bracket stands inside a tag, and its last two bytes, which with its closing bracket are as
many as the mark has, are those of whole characters. -/
def HasRoom (inner : List Char) : Prop :=
  '<' ∉ inner ∧ ∃ front back, inner = front ++ back ∧ utf8Length back = 2

theorem keepsLine_of_room {before inner rest : List Char} (h : HasRoom inner) :
    KeepsLine (before ++ '<' :: inner ++ '>' :: rest)
      (utf8Length (before ++ '<' :: inner ++ ['>'])) := by
  obtain ⟨hbracket, front, back, rfl, hback⟩ := h
  have hunmarked : '<' ∉ front ++ back ++ ['>'] := by simpa using hbracket
  have hmarked : '<' ∉ front := fun hmem => hbracket (List.mem_append_left _ hmem)
  -- behind the mark the byte is still inside of the tag
  have hstop : utf8Length (before ++ '<' :: (front ++ back) ++ ['>']) =
      utf8Length ((Text.mark :: before) ++ '<' :: front) := by
    simp only [List.cons_append, Text.utf8Length_append, Text.utf8Length_cons, Text.utf8Length_nil,
      hback]
    have : Text.mark.utf8Size = 3 ∧ '>'.utf8Size = 1 := by decide
    omega
  have hline := tagLine_append hunmarked before rest
  have hline' := tagLine_append hmarked (Text.mark :: before) (back ++ '>' :: rest)
  rw [← hstop] at hline'
  simp only [List.append_assoc, List.cons_append, List.nil_append] at hline hline' ⊢
  rw [KeepsLine, hline, hline']
  rfl

theorem Building.step_congr {document document' : List Char} {t : Token}
    (h : ∀ x ∈ t.tag?, tagLine document x.2 = tagLine document' x.2) (b : Building) :
    step document b t = step document' b t := by
  cases t with
  | opening body stop => simp only [step, frame?, h _ rfl]
  | empty body stop => simp only [step, frame?, h _ rfl]
  | closing name => rfl
  | text raw => rfl
  | literal text => rfl

theorem Building.foldlM_step_congr {document document' : List Char} {tokens : List Token}
    (h : ∀ t ∈ tokens, ∀ x ∈ t.tag?, tagLine document x.2 = tagLine document' x.2) (b : Building) :
    tokens.foldlM (step document) b = tokens.foldlM (step document') b := by
  induction tokens generalizing b with
  | nil => rfl
  | cons t tokens ih =>
    rw [List.forall_mem_cons] at h
    rw [List.foldlM_cons, List.foldlM_cons, step_congr h.1]
    exact congrArg _ (funext (ih h.2))

section Documents

variable {l : List Char} (hl : l.head? ≠ some Text.mark)

include hl

theorem parseChars_unmarked :
    parseChars l = (stopTree l).map (Element.relined (Building.tagLine l)) := by
  rw [parseChars_eq, dropMark_of_head? hl]

omit hl in
theorem parseChars_marked : parseChars (Text.mark :: l) =
    (stopTree l).map (Element.relined (Building.tagLine (Text.mark :: l))) :=
  parseChars_eq (Text.mark :: l)

/-- The trees of a document with a mark in front and without are the same if and only if all tags
keep their lines. -/
theorem parseChars_mark_iff : parseChars (Text.mark :: l) = parseChars l ↔ KeepsLines l := by
  rw [parseChars_unmarked hl, parseChars_marked, KeepsLines]
  cases stopTree l with
  | error e => exact iff_of_true rfl fun _ h => by cases h
  | ok tree =>
    simp only [Except.map, Except.ok.injEq, forall_eq']
    exact Element.relined_eq_iff

/-- A document keeps its lines if all of its tags have room for the mark. -/
theorem keepsLines_of_room {tokens : List Token} (hread : Token.tokens? 0 l = some tokens)
    (h : ∀ t ∈ tokens, ∀ x ∈ t.tag?, HasRoom x.1) : KeepsLines l := by
  have hkeeps : ∀ t ∈ tokens, ∀ x ∈ t.tag?, KeepsLine l x.2 := by
    rintro t ht ⟨inner, stop⟩ htag
    obtain ⟨before, rest, rfl, rfl⟩ := exists_of_mem_tokens? hread ht htag
    rw [Nat.zero_add]
    exact keepsLine_of_room (h t ht _ htag)
  rw [← parseChars_mark_iff hl, parseChars, parseChars, dropMark_of_head? hl]
  show (match Token.tokens? 0 l with | none => _ | some tokens => _) = _
  rw [hread]
  simp only [Building.foldlM_step_congr hkeeps]

/-- A mark changes what is found in a document only through the lines of the tags. -/
theorem found_mark_iff (found : Element → Extraction) :
    (match parseChars (Text.mark :: l) with | .ok root => found root | .error _ => .empty) =
        (match parseChars l with | .ok root => found root | .error _ => .empty) ↔
      ∀ tree, stopTree l = .ok tree →
        found (tree.relined (Building.tagLine (Text.mark :: l))) =
          found (tree.relined (Building.tagLine l)) := by
  rw [parseChars_unmarked hl, parseChars_marked]
  cases stopTree l with
  | error e => exact iff_of_true rfl fun _ h => by cases h
  | ok tree => simp only [Except.map, Except.ok.injEq, forall_eq']

end Documents

end CodeGraph.Markup

namespace CodeGraph

open Markup (Element KeepsLine KeepsLines stopTree)
open Markup.Building (tagLine)

/-! ## Elements of XML documents -/

namespace Xml

variable (f : SourceFile)

mutual

theorem attachments_marked (parent : String) :
    ∀ e : Element, attachments f.marked parent e = attachments f parent e
  | ⟨name, attributes, text, line, children⟩ => by
    rw [attachments, attachments, childAttachments_marked _ children]
    rfl

theorem childAttachments_marked (parent : String) :
    ∀ es : List Element, childAttachments f.marked parent es = childAttachments f parent es
  | [] => rfl
  | e :: es => by
    rw [childAttachments, childAttachments, attachments_marked parent e,
      childAttachments_marked parent es]

end

variable {f}

theorem relined_iff {g g' : Nat → Nat} {tree : Element} :
    Extraction.ofAttachments (attachments f f.key (tree.relined g)) =
        .ofAttachments (attachments f f.key (tree.relined g')) ↔
      ∀ e ∈ tree.family, g e.line = g' e.line := by
  refine ⟨fun h e he => ?_, fun h => by rw [Element.relined_congr tree h]⟩
  have hlines := congrArg (fun x => x.symbols.map (·.startLine)) h
  simp only [Extraction.ofAttachments, map_symbol_attachments, Element.family_relined,
    List.map_map] at hlines
  have hline := List.map_inj_left.1 hlines e he
  simpa [symbolOf, SourceFile.named, SourceFile.element] using hline

theorem extract_marked_iff (h : f.content.toList.head? ≠ some Text.mark) :
    extract f.marked = extract f ↔ KeepsLines f.content.toList := by
  simp only [extract, Markup.parse, SourceFile.toList_content_marked, attachments_marked]
  exact (Markup.found_mark_iff h fun root => .ofAttachments (attachments f f.key root)).trans
    (forall₂_congr fun tree _ => relined_iff)

end Xml

/-! ## Elements of views -/

namespace Xaml

variable (f : SourceFile)

mutual

theorem attachments_marked (parent : String) :
    ∀ e : Element, attachments f.marked parent e = attachments f parent e
  | ⟨name, attributes, text, line, children⟩ => by
    rw [attachments, attachments, childAttachments_marked _ children]
    rfl

theorem childAttachments_marked (parent : String) :
    ∀ es : List Element, childAttachments f.marked parent es = childAttachments f parent es
  | [] => rfl
  | e :: es => by
    rw [childAttachments, childAttachments, attachments_marked parent e,
      childAttachments_marked parent es]

end

mutual

/-- The symbols that are not those of handlers are those of the elements. -/
theorem filter_attachments (parent : String) : ∀ e : Element,
    ((attachments f parent e).map (·.symbol)).filter (·.kind == .xamlElement) =
      e.family.map fun e => elementSymbol f e.name e.attributes e.line
  | ⟨name, attributes, text, line, children⟩ => by
    have hhandlers (l : List (String × String)) (key : String) :
        ((l.map fun (_, value) => (⟨key, .bindsTo, handlerSymbol f value line⟩ : Attachment)).map
          (·.symbol)).filter (·.kind == .xamlElement) = [] := by
      rw [List.map_map, List.filter_eq_nil_iff]
      rintro x hx
      obtain ⟨_, -, rfl⟩ := List.mem_map.1 hx
      exact Bool.false_ne_true
    rw [attachments, Element.family, List.map_append, List.map_cons, List.filter_append,
      List.filter_cons_of_pos rfl, hhandlers, filter_childAttachments _ children]
    rfl

theorem filter_childAttachments (parent : String) : ∀ es : List Element,
    ((childAttachments f parent es).map (·.symbol)).filter (·.kind == .xamlElement) =
      (Element.families es).map fun e => elementSymbol f e.name e.attributes e.line
  | [] => rfl
  | e :: es => by
    rw [childAttachments, Element.families, List.map_append, List.map_append, List.filter_append,
      filter_attachments parent e, filter_childAttachments parent es]

end

variable {f}

theorem relined_iff {g g' : Nat → Nat} {tree : Element} :
    Extraction.ofAttachments (attachments f f.key (tree.relined g)) =
        .ofAttachments (attachments f f.key (tree.relined g')) ↔
      ∀ e ∈ tree.family, g e.line = g' e.line := by
  refine ⟨fun h e he => ?_, fun h => by rw [Element.relined_congr tree h]⟩
  have helements := congrArg (fun x => x.symbols.filter (·.kind == .xamlElement)) h
  simp only [Extraction.ofAttachments, filter_attachments, Element.family_relined,
    List.map_map] at helements
  have hline := congrArg Symbol.startLine (List.map_inj_left.1 helements e he)
  simpa [elementSymbol, SourceFile.element] using hline

theorem extract_marked_iff (h : f.content.toList.head? ≠ some Text.mark) :
    extract f.marked = extract f ↔ KeepsLines f.content.toList := by
  simp only [extract, Markup.parse, SourceFile.toList_content_marked, attachments_marked]
  exact (Markup.found_mark_iff h fun root => .ofAttachments (attachments f f.key root)).trans
    (forall₂_congr fun tree _ => relined_iff)

end Xaml

/-! ## Settings and references of projects -/

namespace ProjectFile

/-- The elements that set properties. -/
def settings (root : Element) : List Element :=
  (root.childrenNamed "PropertyGroup").flatMap (·.children)

/-- The element sets a property to a value. -/
def IsSetting (e : Element) : Prop := e.name ≠ "" ∧ Text.trim e.text ≠ ""

/-- The element refers to a package or to a project. -/
def IsReference (e : Element) : Prop := (referenceKind? e.name).isSome ∧ (include? e).isSome

/-- The tags of settings and references keep their lines. Those of other elements do not matter. -/
def PassesOverMark (l : List Char) : Prop :=
  ∀ tree, stopTree l = .ok tree → (∀ e ∈ settings tree, IsSetting e → KeepsLine l e.line) ∧
    ∀ e ∈ tree.descendants, IsReference e → KeepsLine l e.line

variable {f : SourceFile} {g g' : Nat → Nat}

theorem settings_relined (root : Element) :
    settings (root.relined g) = (settings root).map (Element.relined g) := by
  simp only [settings, Element.childrenNamed, Element.children_relined, List.filter_map,
    List.flatMap_map, List.map_flatMap, Function.comp_def, Element.name_relined]

theorem descendants_relined (root : Element) :
    (root.relined g).descendants = root.descendants.map (Element.relined g) := by
  rw [Element.descendants_eq, Element.descendants_eq, Element.children_relined,
    Element.families_relined]

theorem include?_relined (e : Element) : include? (e.relined g) = include? e := by
  rw [include?, include?, Element.attribute?, Element.attribute?, Element.attributes_relined]

theorem version?_relined (e : Element) : version? (e.relined g) = version? e := by
  simp only [version?, Element.attribute?, Element.attributes_relined, Element.childrenNamed,
    Element.children_relined, List.filter_map, List.head?_map, Option.map_map, Function.comp_def,
    Element.name_relined, Element.text_relined]

/-- What is made of an element holds its line and nothing else that depends on lines. -/
structure HoldsLine (make? : Element → Option Attachment) (P : Element → Prop) : Prop where
  relined (g : Nat → Nat) (e : Element) : make? (e.relined g) = make? { e with line := g e.line }
  isSome (e : Element) (n : Nat) : (make? { e with line := n }).isSome ↔ P e
  line (e : Element) (a : Attachment) : make? e = some a → a.symbol.startLine = some e.line

section Making

variable {make? : Element → Option Attachment} {P : Element → Prop} (h : HoldsLine make? P)

include h

theorem HoldsLine.eq_iff (e : Element) :
    make? (e.relined g) = make? (e.relined g') ↔ (P e → g e.line = g' e.line) := by
  rw [h.relined, h.relined]
  constructor
  · intro heq he
    obtain ⟨a, ha⟩ := Option.isSome_iff_exists.1 ((h.isSome e (g e.line)).2 he)
    have hline := h.line _ a ha
    have hline' := h.line _ a (heq ▸ ha)
    exact Option.some.inj (hline.symm.trans hline')
  · intro hlines
    by_cases he : P e
    · rw [hlines he]
    · have hnone (n : Nat) : make? { e with line := n } = none := by
        rw [← Option.not_isSome_iff_eq_none, h.isSome]
        exact he
      rw [hnone, hnone]

theorem HoldsLine.isSome_relined (e : Element) :
    (make? (e.relined g)).isSome = (make? (e.relined g')).isSome := by
  rw [h.relined, h.relined, Bool.eq_iff_iff, h.isSome, h.isSome]

theorem HoldsLine.length_filterMap (es : List Element) :
    ((es.map (Element.relined g)).filterMap make?).length =
      ((es.map (Element.relined g')).filterMap make?).length := by
  rw [List.filterMap_map, List.filterMap_map, List.length_filterMap_eq_countP,
    List.length_filterMap_eq_countP]
  exact List.countP_congr fun e _ => by rw [Function.comp, Function.comp, h.isSome_relined]

theorem HoldsLine.filterMap_iff (es : List Element) :
    (es.map (Element.relined g)).filterMap make? = (es.map (Element.relined g')).filterMap make? ↔
      ∀ e ∈ es, P e → g e.line = g' e.line := by
  induction es with
  | nil => simp
  | cons e es ih =>
    have hfirst : make? (e.relined g) = make? (e.relined g') ↔ (P e → g e.line = g' e.line) :=
      h.eq_iff e
    have hsome : (make? (e.relined g)).isSome = (make? (e.relined g')).isSome := h.isSome_relined e
    rw [List.forall_mem_cons, ← ih, ← hfirst, List.map_cons, List.map_cons, List.filterMap_cons,
      List.filterMap_cons]
    cases ha : make? (e.relined g) <;> cases ha' : make? (e.relined g') <;>
      simp_all

end Making

theorem holdsLine_property? (f : SourceFile) : HoldsLine (property? f) IsSetting where
  relined g e := by
    simp only [property?, Element.name_relined, Element.text_relined, Element.line_relined]
  isSome e n := by
    have hsetting : IsSetting e ↔ (e.name == "" || Text.trim e.text == "") = false := by
      simp [IsSetting]
    simp only [property?, hsetting]
    split <;> rename_i h <;> simp [h]
  line e a h := by
    simp only [property?] at h
    split at h
    · cases h
    · obtain rfl := Option.some.inj h
      rfl

theorem holdsLine_reference? (f : SourceFile) : HoldsLine (reference? f) IsReference where
  relined g e := by
    simp only [reference?, Element.name_relined, include?_relined, version?_relined,
      Element.line_relined]
    rfl
  isSome e n := by
    have hinclude : include? { e with line := n } = include? e := rfl
    simp only [reference?, IsReference, hinclude]
    cases referenceKind? e.name with
    | none => simp
    | some kind =>
      cases include? e with
      | none => simp
      | some name => by_cases hkind : kind = .packageReference <;> simp [hkind]
  line e a h := by
    simp only [reference?, Option.bind_eq_bind, Option.bind_eq_some_iff] at h
    obtain ⟨kind, -, name, -, h⟩ := h
    split at h <;> obtain rfl := Option.some.inj h <;> rfl

theorem relined_iff {tree : Element} :
    Extraction.ofAttachments (properties f (tree.relined g) ++ references f (tree.relined g)) =
        .ofAttachments (properties f (tree.relined g') ++ references f (tree.relined g')) ↔
      (∀ e ∈ settings tree, IsSetting e → g e.line = g' e.line) ∧
        ∀ e ∈ tree.descendants, IsReference e → g e.line = g' e.line := by
  have hproperties (g : Nat → Nat) : properties f (tree.relined g) =
      ((settings tree).map (Element.relined g)).filterMap (property? f) := by
    rw [← settings_relined]
    rfl
  have hreferences (g : Nat → Nat) : references f (tree.relined g) =
      (tree.descendants.map (Element.relined g)).filterMap (reference? f) := by
    rw [← descendants_relined]
    rfl
  rw [Extraction.ofAttachments_inj, hproperties, hproperties, hreferences, hreferences,
    ← (holdsLine_property? f).filterMap_iff, ← (holdsLine_reference? f).filterMap_iff]
  exact ⟨fun h => List.append_inj h ((holdsLine_property? f).length_filterMap _),
    fun h => by rw [h.1, h.2]⟩

theorem extract_marked_iff (h : f.content.toList.head? ≠ some Text.mark) :
    extract f.marked = extract f ↔ PassesOverMark f.content.toList := by
  have hproperties (root : Element) : properties f.marked root = properties f root := rfl
  have hreferences (root : Element) : references f.marked root = references f root := rfl
  simp only [extract, Markup.parse, SourceFile.toList_content_marked, hproperties, hreferences]
  exact (Markup.found_mark_iff h fun root =>
    .ofAttachments (properties f root ++ references f root)).trans
      (forall₂_congr fun tree _ => relined_iff)

theorem settings_subset_family (root : Element) : settings root ⊆ root.family := by
  intro e he
  obtain ⟨group, hgroup, he⟩ := List.mem_flatMap.1 he
  have hgroup := (List.mem_filter.1 hgroup).1
  exact Element.child_mem_family (Element.child_mem_family root.self_mem_family hgroup) he

theorem descendants_subset_family (root : Element) : root.descendants ⊆ root.family := by
  rw [Element.descendants_eq, Element.family_eq]
  exact List.subset_cons_self _ _

/-- A project in which all tags keep their lines passes over the mark. -/
theorem passesOverMark_of_keepsLines {l : List Char} (h : KeepsLines l) : PassesOverMark l :=
  fun tree htree => ⟨fun e he _ => h tree htree e (settings_subset_family tree he),
    fun e he _ => h tree htree e (descendants_subset_family tree he)⟩

end ProjectFile

end CodeGraph
