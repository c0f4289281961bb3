import CodeGraph.Markup.Element
import Mathlib.Tactic.SplitIfs

/-!
# What a document is accepted for

`Content` says which tokens make which elements: every start tag has an end tag of its name behind
it, and what stands between the two is the content of the element. The open elements on the stack,
each with the content it has so far, are at every moment what the tokens read so far come to
(`reached_iff`). So a document has a root as soon as its tags match and an element stands outside
all others. What stands behind that element, or is text outside of it, is not looked at, and the
elements among it are in no tree (`accepted_iff`).
-/

namespace CodeGraph.Markup

open Building (frame?)

/-- The text that a token adds to what it stands in. Outside of all elements references are not
resolved. -/
def Token.text? (outside : Bool) : Token → Option (List Char)
  | .text raw => if outside then some raw else unescape? raw
  | .literal l => some l
  | _ => none

/-- The frame of the element that a tag starts. -/
def Token.frame? (document : List Char) : Token → Option Frame
  | .opening body stop => Building.frame? document body stop
  | .empty body stop => Building.frame? document body stop
  | _ => none

namespace Frame

/-- The frame with more text and more children. -/
def fill (f : Frame) (text : List Char) (children : List Element) : Frame :=
  { f with text := f.text ++ text, children := children.reverse ++ f.children }

@[simp] theorem fill_nil (f : Frame) : f.fill [] [] = f := by simp [fill]

@[simp] theorem tagName_fill (f : Frame) (l : List Char) (es : List Element) :
    (f.fill l es).tagName = f.tagName := rfl

theorem fill_fill (f : Frame) (l m : List Char) (es es' : List Element) :
    (f.fill l es).fill m es' = f.fill (l ++ m) (es ++ es') := by
  simp [fill]

end Frame

/-- The tokens are the content of an element, or what stands outside of all elements: texts, which
come to this one text, and these elements. -/
inductive Content (document : List Char) :
    (outside : Bool) → List Token → List Char → List Element → Prop
  | nil (outside : Bool) : Content document outside [] [] []
  | text {outside : Bool} {tokens : List Token} {l m : List Char} {es : List Element} {t : Token}
      (h : Content document outside tokens l es) (ht : t.text? outside = some m) :
      Content document outside (tokens ++ [t]) (l ++ m) es
  | empty {outside : Bool} {tokens : List Token} {l body : List Char} {es : List Element}
      {stop : Nat} {f : Frame} (h : Content document outside tokens l es)
      (hf : frame? document body stop = some f) :
      Content document outside (tokens ++ [.empty body stop]) l (es ++ [f.close])
  | pair {outside : Bool} {tokens inner : List Token} {l m body : List Char}
      {es children : List Element} {stop : Nat} {f : Frame}
      (h : Content document outside tokens l es) (hf : frame? document body stop = some f)
      (hinner : Content document false inner m children) :
      Content document outside (tokens ++ (.opening body stop :: inner ++ [.closing f.tagName])) l
        (es ++ [(f.fill m children).close])

/-- What tokens come to when elements may be open at their end. -/
inductive Reached (document : List Char) : List Token → Building → Prop
  | outside {tokens : List Token} {l : List Char} {es : List Element}
      (h : Content document true tokens l es) : Reached document tokens ⟨[], es.head?⟩
  | inside {tokens inner : List Token} {l body : List Char} {es : List Element} {stop : Nat}
      {f : Frame} {b : Building} (h : Reached document tokens b)
      (hf : frame? document body stop = some f) (hinner : Content document false inner l es) :
      Reached document (tokens ++ .opening body stop :: inner) ⟨f.fill l es :: b.stack, b.root⟩

variable {document : List Char} {tokens : List Token} {b : Building}

theorem Content.append {outside : Bool} {more : List Token} {l m : List Char}
    {es es' : List Element} (h : Content document outside tokens l es)
    (hmore : Content document outside more m es') :
    Content document outside (tokens ++ more) (l ++ m) (es ++ es') := by
  induction hmore with
  | nil => simpa using h
  | text hmore ht ih => simpa using (ih h).text ht
  | empty hmore hf ih => simpa using (ih h).empty hf
  | pair hmore hf hinner ih => simpa using (ih h).pair hf hinner

/-! ## From the tokens to the stack -/

namespace Building

/-- The open elements with more content in the innermost one. Outside of them the first element is
the root. -/
def fill (b : Building) (text : List Char) (children : List Element) : Building :=
  match b.stack with
  | f :: stack => { b with stack := f.fill text children :: stack }
  | [] => { b with root := b.root.or children.head? }

@[simp] theorem fill_nil (b : Building) : b.fill [] [] = b := by
  obtain ⟨stack, root⟩ := b
  cases stack <;> simp [fill]

theorem addText_fill (b : Building) (l m : List Char) (es : List Element) :
    (b.fill l es).addText m = b.fill (l ++ m) es := by
  obtain ⟨stack, root⟩ := b
  cases stack <;> simp [fill, addText, Frame.fill]

theorem add_fill (b : Building) (l : List Char) (es : List Element) (e : Element) :
    (b.fill l es).add e = b.fill l (es ++ [e]) := by
  obtain ⟨stack, root⟩ := b
  cases stack with
  | nil => cases root <;> cases es <;> simp [fill, add]
  | cons f stack => simp [fill, add, Frame.fill]

theorem isEmpty_stack_fill (b : Building) (l : List Char) (es : List Element) :
    (b.fill l es).stack.isEmpty = b.stack.isEmpty := by
  obtain ⟨stack, root⟩ := b
  cases stack <;> rfl

theorem step_text {t : Token} {m : List Char} (ht : t.text? b.stack.isEmpty = some m) :
    step document b t = some (b.addText m) := by
  obtain ⟨stack, root⟩ := b
  cases t <;> cases stack <;> simp_all [Token.text?, step, addText]

end Building

open Building (step start)

theorem Content.foldlM_step {outside : Bool} {l : List Char} {es : List Element}
    (h : Content document outside tokens l es) (hb : b.stack.isEmpty = outside) :
    tokens.foldlM (step document) b = some (b.fill l es) := by
  induction h generalizing b with
  | nil => simp
  | @text outside tokens l m es t h ht ih =>
    subst hb
    rw [List.foldlM_append, ih rfl]
    have hstep : step document (b.fill l es) t = some ((b.fill l es).addText m) :=
      Building.step_text (by rwa [Building.isEmpty_stack_fill])
    simp [hstep, Building.addText_fill]
  | empty h hf ih =>
    rw [List.foldlM_append, ih hb]
    simp [step, hf, Building.add_fill]
  | @pair outside tokens inner l m body es children stop f h hf hinner ih ihinner =>
    let opened : Building := { b.fill l es with stack := f :: (b.fill l es).stack }
    have hopen : step document (b.fill l es) (.opening body stop) = some opened := by
      simp [step, hf, opened]
    have hinside : inner.foldlM (step document) opened = some (opened.fill m children) :=
      ihinner rfl
    have hclose : step document (opened.fill m children) (.closing f.tagName) =
        some ((b.fill l es).add (f.fill m children).close) := by
      simp [step, opened, Building.fill, Frame.fill]
    rw [List.foldlM_append, ih hb]
    simp [hopen, hinside, hclose, Building.add_fill]

theorem Reached.foldlM_step (h : Reached document tokens b) :
    tokens.foldlM (step document) start = some b := by
  induction h with
  | outside h =>
    rw [h.foldlM_step rfl]
    rfl
  | @inside tokens inner l body es stop f b h hf hinner ih =>
    let opened : Building := { b with stack := f :: b.stack }
    have hopen : step document b (.opening body stop) = some opened := by simp [step, hf, opened]
    have hinside : inner.foldlM (step document) opened = some (opened.fill l es) :=
      hinner.foldlM_step rfl
    rw [List.foldlM_append, ih]
    simp [hopen, hinside]
    rfl

/-! ## From the stack to the tokens -/

/-- More content is content of the innermost open element. -/
theorem Reached.grow (h : Reached document tokens b) {more : List Token} {m : List Char}
    {es' : List Element} (hmore : Content document b.stack.isEmpty more m es') :
    Reached document (tokens ++ more) (b.fill m es') := by
  cases h with
  | @outside tokens l es h =>
    have hroot : es.head?.or es'.head? = (es ++ es').head? := List.head?_append.symm
    simp only [Building.fill, hroot]
    exact .outside (h.append hmore)
  | @inside tokens inner l body es stop f b h hf hinner =>
    simp only [Building.fill, Frame.fill_fill, List.append_assoc, List.cons_append]
    exact .inside h hf (hinner.append hmore)

theorem Reached.text (h : Reached document tokens b) {t : Token} {m : List Char}
    (ht : t.text? b.stack.isEmpty = some m) :
    Reached document (tokens ++ [t]) (b.addText m) := by
  rw [← Building.fill_nil b, Building.addText_fill]
  exact h.grow (.text (.nil _) ht)

theorem Reached.empty (h : Reached document tokens b) {body : List Char} {stop : Nat} {f : Frame}
    (hf : frame? document body stop = some f) :
    Reached document (tokens ++ [.empty body stop]) (b.add f.close) := by
  rw [← Building.fill_nil b, Building.add_fill]
  exact h.grow (.empty (.nil _) hf)

theorem Reached.pair (h : Reached document tokens b) {body : List Char} {stop : Nat} {f : Frame}
    (hf : frame? document body stop = some f) {inner : List Token} {l : List Char}
    {es : List Element} (hinner : Content document false inner l es) :
    Reached document (tokens ++ (.opening body stop :: inner ++ [.closing f.tagName]))
      (b.add (f.fill l es).close) := by
  rw [← Building.fill_nil b, Building.add_fill]
  exact h.grow (.pair (.nil _) hf hinner)

/-- A token opens an element, closes the one that is open, or adds to what is there. -/
theorem Reached.step {t : Token} {b' : Building} (h : Reached document tokens b)
    (hstep : step document b t = some b') : Reached document (tokens ++ [t]) b' := by
  cases t with
  | opening body stop =>
    obtain ⟨f, hf, rfl⟩ := Option.map_eq_some_iff.1 hstep
    simpa using h.inside hf (.nil false)
  | empty body stop =>
    obtain ⟨f, hf, rfl⟩ := Option.map_eq_some_iff.1 hstep
    exact h.empty hf
  | closing name =>
    cases h with
    | outside h => cases hstep
    | @inside tokens inner l body es stop f b h hf hinner =>
      simp only [Building.step] at hstep
      split_ifs at hstep with hname
      obtain rfl := Option.some.inj hstep
      subst hname
      simpa using h.pair hf hinner
  | text raw =>
    simp only [Building.step] at hstep
    split_ifs at hstep with hstack
    · obtain rfl := Option.some.inj hstep
      have hsame : b.addText raw = b := by
        simp [Building.addText, List.isEmpty_iff.1 hstack]
      rw [← hsame]
      exact h.text (by simp [Token.text?, hstack])
    · obtain ⟨m, hm, rfl⟩ := Option.map_eq_some_iff.1 hstep
      exact h.text (by simp [Token.text?, hstack, hm])
  | literal l =>
    obtain rfl := Option.some.inj hstep
    exact h.text rfl

theorem Reached.foldlM {rest : List Token} {b' : Building} (h : Reached document tokens b)
    (hrest : rest.foldlM (Building.step document) b = some b') :
    Reached document (tokens ++ rest) b' := by
  induction rest generalizing tokens b with
  | nil =>
    obtain rfl := Option.some.inj hrest
    rwa [List.append_nil]
  | cons t rest ih =>
    obtain ⟨b₁, hb₁, hrest⟩ := Option.bind_eq_some_iff.1 hrest
    rw [← List.singleton_append, ← List.append_assoc]
    exact ih (h.step hb₁) hrest

/-- What tokens come to is what reading them one after the other does. -/
theorem reached_iff : Reached document tokens b ↔ tokens.foldlM (step document) start = some b :=
  ⟨Reached.foldlM_step, fun h => by simpa using (Reached.outside (.nil true)).foldlM h⟩

/-! ## No tag without its element -/

/-- What is said of an element by its tag. -/
def Element.label (e : Element) : String × List (String × String) × Nat :=
  (e.name, e.attributes, e.line)

def Frame.label (f : Frame) : String × List (String × String) × Nat :=
  (String.ofList (Tag.localName f.tagName), f.attributes, f.line)

/-- The labels of the tags that start elements, in document order. -/
def labels (document : List Char) (tokens : List Token) :
    List (String × List (String × String) × Nat) :=
  (tokens.filterMap (Token.frame? document)).map Frame.label

theorem labels_append (more : List Token) :
    labels document (tokens ++ more) = labels document tokens ++ labels document more := by
  simp [labels]

/-- A frame starts without content. -/
theorem Frame.close_fill {body : List Char} {stop : Nat} {f : Frame}
    (hf : frame? document body stop = some f) (l : List Char) (es : List Element) :
    (f.fill l es).close = { name := String.ofList (Tag.localName f.tagName)
                            attributes := f.attributes
                            text := String.ofList l
                            line := f.line
                            children := es } := by
  obtain ⟨tag, -, hf⟩ := Option.bind_eq_some_iff.1 hf
  obtain rfl := Option.some.inj hf
  simp [fill, close]

theorem Content.labels_eq {outside : Bool} {l : List Char} {es : List Element}
    (h : Content document outside tokens l es) :
    labels document tokens = (Element.families es).map Element.label := by
  induction h with
  | nil => rfl
  | @text outside tokens l m es t h ht ih =>
    have ht : labels document [t] = [] := by
      cases t <;> simp_all [labels, Token.frame?, Token.text?]
    rw [labels_append, ih, ht, List.append_nil]
  | @empty outside tokens l body es stop f h hf ih =>
    have hclose := Frame.close_fill hf [] []
    rw [Frame.fill_nil] at hclose
    rw [labels_append, ih, Element.families_append, List.map_append, hclose]
    simp [labels, Token.frame?, hf, Element.families, Element.family, Frame.label, Element.label]
  | @pair outside tokens inner l m body es children stop f h hf hinner ih ihinner =>
    have hpair : labels document (.opening body stop :: inner ++ [.closing f.tagName]) =
        f.label :: labels document inner := by
      simp [labels, Token.frame?, hf]
    rw [labels_append, ih, Element.families_append, List.map_append, hpair, ihinner,
      Frame.close_fill hf]
    simp [Element.families, Element.family, Frame.label, Element.label]

/-! ## Documents -/

theorem Building.result_ne_malformed (b : Building) : b.result ≠ .error .malformed := by
  obtain ⟨stack, root⟩ := b
  cases stack <;> cases root <;> simp [Building.result]

theorem parseChars_eq_iff {r : Except Error Element} (hr : r ≠ .error .malformed) :
    parseChars document = r ↔ ∃ tokens b, Token.tokens? 0 (dropMark document) = some tokens ∧
      Reached document tokens b ∧ b.result = r := by
  simp only [reached_iff, parseChars]
  rcases Token.tokens? 0 (dropMark document) with _ | tokens
  · simp [hr.symm]
  · rcases hrun : tokens.foldlM (step document) start with _ | b
    · simp [hrun, hr.symm]
    · simp [hrun]

theorem parseChars_eq_malformed_iff : parseChars document = .error .malformed ↔
    ∀ tokens b, Token.tokens? 0 (dropMark document) = some tokens →
      ¬ Reached document tokens b := by
  simp only [reached_iff, parseChars]
  rcases Token.tokens? 0 (dropMark document) with _ | tokens
  · simp
  · simp only [Option.some.injEq, forall_comm (α := Building), forall_eq']
    rcases hrun : tokens.foldlM (step document) start with _ | b
    · simp
    · simp [Building.result_ne_malformed]

theorem Building.result_eq_ok_iff {root : Element} : b.result = .ok root ↔ b = ⟨[], some root⟩ := by
  obtain ⟨stack, root'⟩ := b
  cases stack <;> cases root' <;> simp [Building.result]

theorem Building.result_eq_empty_iff : b.result = .error .empty ↔ b = ⟨[], none⟩ := by
  obtain ⟨stack, root'⟩ := b
  cases stack <;> cases root' <;> simp [Building.result]

theorem Building.result_eq_unbalanced_iff : b.result = .error .unbalanced ↔ b.stack ≠ [] := by
  obtain ⟨stack, root'⟩ := b
  cases stack <;> cases root' <;> simp [Building.result]

/-- With no element open, the first of the elements is the root. -/
theorem exists_reached_outside_iff {read : Option (List Token)} {root : Option Element} :
    (∃ tokens b, read = some tokens ∧ Reached document tokens b ∧ b = ⟨[], root⟩) ↔
      ∃ tokens outer es, read = some tokens ∧ Content document true tokens outer es ∧
        es.head? = root := by
  constructor
  · rintro ⟨tokens, b, hread, hb, rfl⟩
    cases hb with
    | outside h => exact ⟨tokens, _, _, hread, h, rfl⟩
  · rintro ⟨tokens, outer, es, hread, h, rfl⟩
    exact ⟨tokens, _, hread, .outside h, rfl⟩

theorem length_family_pos (e : Element) : 0 < e.family.length := by
  cases e
  simp [Element.family]

theorem families_eq_nil_iff {es : List Element} : Element.families es = [] ↔ es = [] := by
  cases es with
  | nil => simp [Element.families]
  | cons e es => simp [Element.families, List.ne_nil_of_length_pos (length_family_pos e)]

/-- What a document comes to. It has a root if and only if its tags match, every one of them and
every text inside an element can be read, and there is an element outside all others: the root is
the first of these, whatever other elements and texts stand outside of it. It is empty if there is
no such element, unbalanced if an element is still open at the end, and malformed if an end tag
matches no start tag or something cannot be read. So a document that is one element with blanks
around it has that root, and no other document has all its elements in the tree of its root: those
of the other elements outside are left out. -/
theorem accepted_iff (text : String) :
    let document := text.toList
    let read := Token.tokens? 0 (dropMark document)
    (∀ root, parse text = .ok root ↔ ∃ tokens outer others, read = some tokens ∧
        Content document true tokens outer (root :: others)) ∧
      (parse text = .error .empty ↔ ∃ tokens outer, read = some tokens ∧
        Content document true tokens outer []) ∧
      (parse text = .error .unbalanced ↔ ∃ tokens b, read = some tokens ∧
        Reached document tokens b ∧ b.stack ≠ []) ∧
      (parse text = .error .malformed ↔ ∀ tokens b, read = some tokens →
        ¬ Reached document tokens b) ∧
      ∀ tokens outer root others, Content document true tokens outer (root :: others) →
        labels document tokens = (root.family ++ Element.families others).map Element.label ∧
          (labels document tokens = root.family.map Element.label ↔ others = []) := by
  intro document read
  refine ⟨fun root => ?_, ?_, ?_, parseChars_eq_malformed_iff, fun tokens outer root others h => ?_⟩
  · rw [parse, parseChars_eq_iff (by simp)]
    simp only [Building.result_eq_ok_iff, exists_reached_outside_iff, List.head?_eq_some_iff]
    exact ⟨fun ⟨tokens, outer, _, hread, h, others, hes⟩ => ⟨tokens, outer, others, hread, hes ▸ h⟩,
      fun ⟨tokens, outer, others, hread, h⟩ => ⟨tokens, outer, _, hread, h, others, rfl⟩⟩
  · rw [parse, parseChars_eq_iff (by simp)]
    simp only [Building.result_eq_empty_iff, exists_reached_outside_iff, List.head?_eq_none_iff]
    exact ⟨fun ⟨tokens, outer, _, hread, h, hes⟩ => ⟨tokens, outer, hread, hes ▸ h⟩,
      fun ⟨tokens, outer, hread, h⟩ => ⟨tokens, outer, _, hread, h, rfl⟩⟩
  · rw [parse, parseChars_eq_iff (by simp)]
    simp only [Building.result_eq_unbalanced_iff]
    rfl
  · have hlabels := h.labels_eq
    rw [Element.families] at hlabels
    refine ⟨hlabels, fun hroot => ?_, fun hothers => ?_⟩
    · rw [hlabels, List.map_append, List.append_right_eq_self, List.map_eq_nil_iff] at hroot
      exact families_eq_nil_iff.1 hroot
    · rw [hlabels, hothers, Element.families, List.append_nil]

/-- The second element is in no tree. -/
example : parse "<a/><b/>" = .ok ⟨"a", [], "", 1, []⟩ := by cbv

end CodeGraph.Markup
