import CodeGraph.Markup.Element
import CodeGraph.Text.Front
import CodeGraph.Text.Letter
import Mathlib.Tactic.SplitIfs

/-!
# Written documents

The text that an element is written as (`Element.write`), in any layout: blanks and comments between
the tags, blanks inside of them, either quote around a value, and one tag or two for an element
without content. `Element.placed` is the element with the lines that its tags have in that text.
-/

namespace CodeGraph.Markup

open Text (forall_mem_of_all)

/-! ## Names and texts -/

/-- The code points that a name may start with. A colon would end a namespace. -/
def nameStartRanges : List (Nat × Nat) := [
  (0x41, 0x5a), (0x5f, 0x5f), (0x61, 0x7a), (0xc0, 0xd6), (0xd8, 0xf6), (0xf8, 0x2ff),
  (0x370, 0x37d), (0x37f, 0x1fff), (0x200c, 0x200d), (0x2070, 0x218f), (0x2c00, 0x2fef),
  (0x3001, 0xd7ff), (0xf900, 0xfdcf), (0xfdf0, 0xfffd), (0x10000, 0xeffff)]

/-- The code points that a name may hold: also hyphens, dots, digits and combining marks. -/
def nameRanges : List (Nat × Nat) :=
  nameStartRanges ++ [(0x2d, 0x2e), (0x30, 0x39), (0xb7, 0xb7), (0x300, 0x36f), (0x203f, 0x2040)]

/-- Whether the text is a name without a namespace. -/
def isName : List Char → Bool
  | [] => false
  | c :: l =>
    Text.inRanges nameStartRanges c.toNat && l.all fun c => Text.inRanges nameRanges c.toNat

/-- The characters that mean something in a tag. -/
def marks : List Char :=
  [' ', '\t', '\r', '\n', '<', '>', '/', '=', ':', '"', '\'', '&', '!', '?']

/-- The name of a character that a text or a value does not hold as it is. -/
def entity? (c : Char) : Option (List Char) :=
  if c = '&' then some "amp".toList
  else if c = '<' then some "lt".toList
  else if c = '>' then some "gt".toList
  else if c = '"' then some "quot".toList
  else if c = '\'' then some "apos".toList
  else none

/-- What stands for a character. -/
def reference (c : Char) : List Char :=
  match entity? c with
  | some name => '&' :: name ++ [';']
  | none => [c]

def escape (l : List Char) : List Char := l.flatMap reference

/-- What a document may say of an element: its names are names, no attribute is given twice, and no
end of its text is blank. -/
structure Element.IsRegular (e : Element) : Prop where
  name : isName e.name.toList = true
  attributeNames : ∀ a ∈ e.attributes, isName a.1.toList = true
  distinct : (e.attributes.map Prod.fst).Nodup
  start : ∀ c ∈ e.text.toList.head?, Token.isBlank c = false
  stop : ∀ c ∈ e.text.toList.getLast?, Token.isBlank c = false

theorem Element.isRegular_iff {e : Element} : e.IsRegular ↔ isName e.name.toList = true ∧
    (∀ a ∈ e.attributes, isName a.1.toList = true) ∧ (e.attributes.map Prod.fst).Nodup ∧
    e.text.toList.head?.any Token.isBlank = false ∧
    e.text.toList.getLast?.any Token.isBlank = false := by
  have hany (o : Option Char) : o.any Token.isBlank = false ↔ ∀ c ∈ o, Token.isBlank c = false := by
    cases o <;> simp
  rw [hany, hany]
  exact ⟨fun ⟨name, attributeNames, distinct, start, stop⟩ =>
    ⟨name, attributeNames, distinct, start, stop⟩,
    fun ⟨name, attributeNames, distinct, start, stop⟩ =>
      ⟨name, attributeNames, distinct, start, stop⟩⟩

instance (e : Element) : Decidable e.IsRegular := decidable_of_iff' _ Element.isRegular_iff

/-! ## Layouts -/

/-- Blanks and line breaks. -/
abbrev Blanks := {l : List Char // ∀ c ∈ l, Token.isBlank c = true}

/-- What may stand between tags and is no content. -/
inductive Filler where
  | blanks (l : Blanks)
  | comment (body : List Char) (h : ¬ "-->".toList <:+: body)

def Filler.chars : Filler → List Char
  | blanks l => l.1
  | comment body _ => "<!--".toList ++ body ++ "-->".toList

abbrev Gap := List Filler

def Gap.chars (g : Gap) : List Char := g.flatMap Filler.chars

/-- How an attribute is written. -/
structure AttributeStyle where
  before : Blanks
  separates : before.1 ≠ []
  beforeEquals : Blanks
  afterEquals : Blanks
  quote : Char
  isQuote : quote = '"' ∨ quote = '\''

/-- How an element is written. -/
structure Style where
  /-- How the attributes are written, by their positions. -/
  attributeAt : Nat → AttributeStyle
  /-- The blanks at the end of the first tag. -/
  beforeEnd : Blanks
  /-- Whether an element without content is one tag. -/
  single : Bool
  beforeText : Gap
  afterText : Gap
  /-- What follows the children, by their positions. -/
  afterChild : Nat → Gap
  /-- The blanks at the end of the end tag. -/
  inEndTag : Blanks

/-- How the elements of a tree are written. An element is known by the positions that lead to it. -/
abbrev Layout := List Nat → Style

/-- The layout of the child at a position. -/
def Layout.child (L : Layout) (i : Nat) : Layout := fun path => L (i :: path)

/-- How a document is written. -/
structure DocumentLayout where
  /-- What a declaration in front says. -/
  declaration : Option {body : List Char // ¬ "?>".toList <:+: body}
  beforeRoot : Gap
  layout : Layout
  afterRoot : Gap

/-! ## Writing -/

/-- What stands behind the equals sign. -/
def AttributeStyle.rightSide (s : AttributeStyle) (value : String) : List Char :=
  s.afterEquals.1 ++ s.quote :: escape value.toList ++ [s.quote]

def AttributeStyle.write (s : AttributeStyle) (name value : String) : List Char :=
  s.before.1 ++ name.toList ++ s.beforeEquals.1 ++ '=' :: s.rightSide value

/-- Writes attributes, of which the first has position `i`. -/
def writeAttributes (styles : Nat → AttributeStyle) (i : Nat) : List (String × String) → List Char
  | [] => []
  | (name, value) :: rest => (styles i).write name value ++ writeAttributes styles (i + 1) rest

namespace Style

variable (s : Style)

/-- What the first tag holds. -/
def body (name : String) (attributes : List (String × String)) : List Char :=
  name.toList ++ writeAttributes s.attributeAt 0 attributes ++ s.beforeEnd.1

/-- The text in front of the children. -/
def inside (text : String) : List Char :=
  s.beforeText.chars ++ escape text.toList ++ s.afterText.chars

/-- A start tag with the text after it. -/
def front (name : String) (attributes : List (String × String)) (text : String) : List Char :=
  '<' :: s.body name attributes ++ ['>'] ++ s.inside text

def endTag (name : String) : List Char := "</".toList ++ name.toList ++ s.inEndTag.1 ++ ['>']

end Style

namespace Element

mutual

/-- The text of an element. -/
def write (L : Layout) : Element → List Char
  | ⟨name, attributes, text, _, children⟩ =>
    if (L []).single && text == "" && children.isEmpty then
      '<' :: (L []).body name attributes ++ "/>".toList
    else (L []).front name attributes text ++ writeAll L 0 children ++ (L []).endTag name

/-- The text of the children from position `i` on. -/
def writeAll (L : Layout) (i : Nat) : List Element → List Char
  | [] => []
  | e :: rest => write (L.child i) e ++ ((L []).afterChild i).chars ++ writeAll L (i + 1) rest

end

mutual

/-- The element with the lines of its tags, where `line` numbers a place by the text before it and
`before` is the text before the element. -/
def placed (line : List Char → Nat) (L : Layout) (before : List Char) : Element → Element
  | ⟨name, attributes, text, _, children⟩ =>
    { name, attributes, text
      line := line before
      children := placedAll line L 0 (before ++ (L []).front name attributes text) children }

def placedAll (line : List Char → Nat) (L : Layout) (i : Nat) (before : List Char) :
    List Element → List Element
  | [] => []
  | e :: rest => placed line (L.child i) before e ::
      placedAll line L (i + 1) (before ++ write (L.child i) e ++ ((L []).afterChild i).chars) rest

end

end Element

namespace DocumentLayout

/-- What stands before the root. -/
def front (d : DocumentLayout) : List Char :=
  (match d.declaration with
    | some body => "<?xml".toList ++ body.1 ++ "?>".toList
    | none => []) ++ d.beforeRoot.chars

/-- The document with this root. -/
def write (d : DocumentLayout) (root : Element) : List Char :=
  d.front ++ root.write d.layout ++ d.afterRoot.chars

end DocumentLayout

/-! ## What the writer leaves out -/

theorem isBlank_iff_mem {c : Char} :
    Token.isBlank c = true ↔ c ∈ [' ', '\r', '\n', '\t'] := by
  simp [Token.isBlank, or_assoc]

section Names

variable {name : List Char} {c : Char}

theorem not_mem_marks_of_inRanges (h : Text.inRanges nameRanges c.toNat = true) : c ∉ marks := by
  have hmarks : ∀ d ∈ marks, Text.inRanges nameRanges d.toNat = false :=
    forall_mem_of_all (by decide)
  intro hc
  rw [hmarks c hc] at h
  cases h

theorem inRanges_of_start (h : Text.inRanges nameStartRanges c.toNat = true) :
    Text.inRanges nameRanges c.toNat = true := by
  simp only [Text.inRanges, nameRanges, List.any_append, Bool.or_eq_true] at h ⊢
  exact .inl h

theorem not_mem_marks_of_isName (h : isName name = true) (hc : c ∈ name) : c ∉ marks := by
  cases name with
  | nil => cases h
  | cons d l =>
    simp only [isName, Bool.and_eq_true, List.all_eq_true] at h
    rcases List.mem_cons.1 hc with rfl | hc
    · exact not_mem_marks_of_inRanges (inRanges_of_start h.1)
    · exact not_mem_marks_of_inRanges (h.2 c hc)

theorem not_isBlank_of_isName (h : isName name = true) (hc : c ∈ name) :
    Token.isBlank c = false := by
  have hmarks : ∀ d ∈ [' ', '\r', '\n', '\t'], d ∈ marks := forall_mem_of_all (by decide)
  rw [Bool.eq_false_iff]
  exact fun hblank => not_mem_marks_of_isName h hc (hmarks c (isBlank_iff_mem.1 hblank))

theorem ne_nil_of_isName (h : isName name = true) : name ≠ [] := by
  rintro rfl
  cases h

end Names

/-! ## Escaping -/

theorem resolve?_of_entity? {c : Char} {name : List Char} (h : entity? c = some name) :
    resolve? name = some c ∧ ∀ d ∈ name, d.isAlpha = true := by
  unfold entity? at h
  split_ifs at h <;>
  · obtain rfl := Option.some.inj h
    subst_vars
    exact ⟨by decide, forall_mem_of_all (by decide)⟩

theorem unescapeFrom_some {name : List Char} (hname : ∀ d ∈ name, d.isAlpha = true)
    (seen l : List Char) : unescapeFrom (some seen) (name ++ ';' :: l) =
      (resolve? (seen.reverse ++ name)).bind fun c => (unescapeFrom none l).map (c :: ·) := by
  induction name generalizing seen with
  | nil =>
    rw [List.append_nil, List.nil_append, unescapeFrom]
    cases unescapeFrom none l <;> rfl
  | cons d name ih =>
    have hd := hname d List.mem_cons_self
    have hamp : d ≠ '&' := by rintro rfl; revert hd; decide
    have hend : d ≠ ';' := by rintro rfl; revert hd; decide
    rw [List.cons_append, unescapeFrom]
    simp [hamp, hend, ih (fun x hx => hname x (List.mem_cons_of_mem d hx))]

/-- A reference is taken for the character it stands for. -/
theorem unescapeFrom_reference (c : Char) (l : List Char) :
    unescapeFrom none (reference c ++ l) = (unescapeFrom none l).map (c :: ·) := by
  unfold reference
  split
  · rename_i name hname
    obtain ⟨hresolve, halpha⟩ := resolve?_of_entity? hname
    have h := unescapeFrom_some halpha [] l
    rw [List.reverse_nil, List.nil_append, hresolve] at h
    simpa [unescapeFrom] using h
  · rename_i hnone
    have hc : c ≠ '&' := by rintro rfl; simp [entity?] at hnone
    simp [unescapeFrom, hc]

theorem escape_cons (c : Char) (l : List Char) : escape (c :: l) = reference c ++ escape l :=
  List.flatMap_cons

theorem unescape?_escape (l : List Char) : unescape? (escape l) = some l := by
  induction l with
  | nil => rfl
  | cons c l ih =>
    rw [unescape?] at ih ⊢
    rw [escape_cons, unescapeFrom_reference, ih, Option.map_some]

theorem not_mem_escape {c : Char} (hc : c ∈ ['<', '>', '"', '\'']) (l : List Char) :
    c ∉ escape l := by
  have hspecial : ∀ c ∈ ['<', '>', '"', '\''], c.isAlpha = false ∧ c ≠ '&' ∧ c ≠ ';' ∧
      (entity? c).isSome = true := forall_mem_of_all (by decide)
  obtain ⟨halpha, hamp, hend, hentity⟩ := hspecial c hc
  intro h
  obtain ⟨d, -, hd⟩ := List.mem_flatMap.1 h
  unfold reference at hd
  split at hd
  · rename_i name hname
    simp only [List.cons_append, List.mem_cons, List.mem_append, List.not_mem_nil, or_false] at hd
    rcases hd with hd | hd | hd
    · exact hamp hd
    · rw [(resolve?_of_entity? hname).2 c hd] at halpha
      cases halpha
    · exact hend hd
  · rename_i hnone
    rw [← List.mem_singleton.1 hd] at hnone
    simp [hnone] at hentity

theorem reference_ne_nil (c : Char) : reference c ≠ [] := by
  unfold reference
  split <;> simp

theorem not_isBlank_of_mem_reference {c d : Char} (h : Token.isBlank c = false)
    (hd : d ∈ reference c) : Token.isBlank d = false := by
  unfold reference at hd
  split at hd
  · rename_i name hname
    simp only [List.cons_append, List.mem_cons, List.mem_append, List.not_mem_nil, or_false] at hd
    rcases hd with rfl | hd | rfl
    · rfl
    · have halpha := (resolve?_of_entity? hname).2 d hd
      have hplain : ∀ b ∈ [' ', '\r', '\n', '\t'], b.isAlpha = false :=
        forall_mem_of_all (by decide)
      rw [Bool.eq_false_iff]
      intro hblank
      rw [hplain d (isBlank_iff_mem.1 hblank)] at halpha
      cases halpha
    · rfl
  · rwa [List.mem_singleton.1 hd]

theorem escape_ne_nil {l : List Char} (h : l ≠ []) : escape l ≠ [] := by
  obtain ⟨c, l, rfl⟩ := List.exists_cons_of_ne_nil h
  simp [escape_cons, reference_ne_nil]

theorem head?_escape {l : List Char} (h : ∀ c ∈ l.head?, Token.isBlank c = false) :
    ∀ c ∈ (escape l).head?, Token.isBlank c = false := by
  cases l with
  | nil => simp [escape]
  | cons d l =>
    intro c hc
    rw [escape_cons, List.head?_append, List.head?_eq_some_head (reference_ne_nil d),
      Option.some_or, Option.mem_some] at hc
    exact not_isBlank_of_mem_reference (h d rfl) (hc ▸ List.head_mem _)

theorem getLast?_escape {l : List Char} (h : ∀ c ∈ l.getLast?, Token.isBlank c = false) :
    ∀ c ∈ (escape l).getLast?, Token.isBlank c = false := by
  rcases List.eq_nil_or_concat l with rfl | ⟨l, d, rfl⟩
  · simp [escape]
  · intro c hc
    have hlast : escape (l.concat d) = escape l ++ reference d := by simp [escape]
    rw [hlast, List.getLast?_append, List.getLast?_eq_some_getLast (reference_ne_nil d),
      Option.some_or, Option.mem_some] at hc
    exact not_isBlank_of_mem_reference (h d (by simp)) (hc ▸ List.getLast_mem _)

end CodeGraph.Markup
