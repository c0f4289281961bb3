import CodeGraph.Text.Front
import CodeGraph.Text.Utf8

/-!
# Markup tokens

Takes a document apart into tags and text. Comments, declarations and processing instructions are
passed over. A tag keeps what stands between its angle brackets, and the offset in bytes at which it
stops; an angle bracket inside quotes ends no tag. Blanks at the ends of a text do not count.
-/

namespace CodeGraph.Markup

inductive Token where
  /-- A start tag. -/
  | opening (body : List Char) (stop : Nat)
  /-- A tag that is start and end at once. -/
  | empty (body : List Char) (stop : Nat)
  | closing (name : List Char)
  | text (raw : List Char)
  /-- Text in a section without references. -/
  | literal (text : List Char)
deriving DecidableEq, Repr

namespace Token

def isBlank (c : Char) : Bool := c == ' ' || c == '\r' || c == '\n' || c == '\t'

def trimEnd (l : List Char) : List Char := (l.reverse.dropWhile isBlank).reverse

/-- What stands before the first occurrence of `mark`, and what stands after it. -/
def upTo? (mark : List Char) : List Char → Option (List Char × List Char)
  | [] => if mark.isEmpty then some ([], []) else none
  | c :: l =>
    match Text.after? mark (c :: l) with
    | some rest => some ([], rest)
    | none => (upTo? mark l).map fun (before, rest) => (c :: before, rest)

/-- What stands before the first closing bracket outside quotes, and what stands after it. -/
def tagBody? (quote : Option Char) : List Char → Option (List Char × List Char)
  | [] => none
  | c :: l =>
    match quote with
    | some q => (tagBody? (if c = q then none else some q) l).map fun (b, rest) => (c :: b, rest)
    | none =>
      if c = '>' then some ([], l)
      else (tagBody? (if c = '\'' ∨ c = '"' then some c else none) l).map
        fun (b, rest) => (c :: b, rest)

/-- What stands before the closing bracket that matches, when `depth` brackets are open inside. -/
def balanced? (depth : Nat) : List Char → Option (List Char × List Char)
  | [] => none
  | c :: l =>
    if c = '>' ∧ depth = 0 then some ([], l)
    else
      let depth := if c = '>' then depth - 1 else if c = '<' then depth + 1 else depth
      (balanced? depth l).map fun (b, rest) => (c :: b, rest)

/-- A document type has to have a name. -/
def isDoctype (body : List Char) : Bool :=
  (body.take 7).map Char.toUpper == "DOCTYPE".toList && (body.drop 7).any (!isBlank ·)

/-- Reads what follows `<!`. -/
def afterBang? (l : List Char) : Option (Option Token × List Char) :=
  match l with
  | '-' :: '-' :: rest => (upTo? "-->".toList rest).map fun (_, rest) => (none, rest)
  | '[' :: 'C' :: 'D' :: 'A' :: 'T' :: 'A' :: '[' :: rest =>
    (upTo? "]]>".toList rest).map fun (t, rest) => (some (literal t), rest)
  | l =>
    match balanced? 0 l with
    | some (body, rest) => if isDoctype body then some (none, rest) else none
    | none => none

/-- Reads what follows `<?`. -/
def afterQuestion? (l : List Char) : Option (List Char) :=
  if l.head? == some '>' then none else (upTo? "?>".toList l).map (·.2)

/-- Reads what follows `<`, at byte `offset`. A comment and the like makes no token. -/
def afterBracket? (offset : Nat) (l : List Char) : Option (Option Token × List Char) :=
  match l with
  | [] => none
  | '!' :: l => afterBang? l
  | '?' :: l => (afterQuestion? l).map fun rest => (none, rest)
  | '/' :: l => (tagBody? none l).map fun (body, rest) =>
    (some (closing (if body.all isBlank then body else trimEnd body)), rest)
  | l => (tagBody? none l).map fun (body, rest) =>
    let stop := offset + Text.utf8Length body + 1
    if body.getLast? = some '/' then (some (empty body.dropLast stop), rest)
    else (some (opening body stop), rest)

theorem length_upTo?_le {mark l before rest : List Char} (h : upTo? mark l = some (before, rest)) :
    rest.length ≤ l.length := by
  fun_induction upTo? mark l generalizing before rest with
  | case1 => grind
  | case2 => grind
  | case3 c l r hr => grind [Text.after?_eq_some_iff]
  | case4 c l hn ih =>
    obtain ⟨⟨_, r⟩, hr, h⟩ := Option.map_eq_some_iff.mp h
    grind

theorem length_tagBody?_lt {quote : Option Char} {l body rest : List Char}
    (h : tagBody? quote l = some (body, rest)) : rest.length < l.length := by
  fun_induction tagBody? quote l generalizing body rest <;> grind [Option.map_eq_some_iff]

theorem length_balanced?_lt {depth : Nat} {l body rest : List Char}
    (h : balanced? depth l = some (body, rest)) : rest.length < l.length := by
  fun_induction balanced? depth l generalizing body rest <;> grind [Option.map_eq_some_iff]

theorem length_afterBang?_le {l rest : List Char} {t : Option Token}
    (h : afterBang? l = some (t, rest)) : rest.length ≤ l.length := by
  unfold afterBang? at h
  split at h
  · obtain ⟨⟨_, r⟩, hr, h⟩ := Option.map_eq_some_iff.mp h
    have := length_upTo?_le hr
    grind
  · obtain ⟨⟨_, r⟩, hr, h⟩ := Option.map_eq_some_iff.mp h
    have := length_upTo?_le hr
    simp only [Prod.mk.injEq] at h
    simp only [← h.2, List.length_cons]
    omega
  · split at h
    · rename_i hr
      have := length_balanced?_lt hr
      grind
    · simp at h

theorem length_afterQuestion?_le {l rest : List Char} (h : afterQuestion? l = some rest) :
    rest.length ≤ l.length := by
  grind [afterQuestion?, → length_upTo?_le, Option.map_eq_some_iff]

/-- What is left after a markup is no longer than the text after its bracket. -/
theorem length_afterBracket?_le {offset : Nat} {l rest : List Char} {t : Option Token}
    (h : afterBracket? offset l = some (t, rest)) : rest.length ≤ l.length := by
  unfold afterBracket? at h
  split at h
  · simp at h
  · have := length_afterBang?_le h
    grind
  · obtain ⟨r, hr, h⟩ := Option.map_eq_some_iff.mp h
    have := length_afterQuestion?_le hr
    grind
  · obtain ⟨⟨_, r⟩, hr, h⟩ := Option.map_eq_some_iff.mp h
    have := length_tagBody?_lt hr
    grind
  · obtain ⟨⟨_, r⟩, hr, h⟩ := Option.map_eq_some_iff.mp h
    have := length_tagBody?_lt hr
    grind

/-- The tokens of a text from byte `offset` on, or `none` if it is malformed. -/
def tokens? (offset : Nat) (l : List Char) : Option (List Token) :=
  match l with
  | [] => some []
  | '<' :: rest =>
    match _h : afterBracket? (offset + 1) rest with
    | none => none
    | some (t, rest') =>
      let used := Text.utf8Length ('<' :: rest) - Text.utf8Length rest'
      (tokens? (offset + used) rest').map (t.toList ++ ·)
  | c :: rest =>
    if isBlank c then tokens? (offset + 1) rest
    else
      let raw := c :: rest.takeWhile (· ≠ '<')
      (tokens? (offset + Text.utf8Length raw) (rest.dropWhile (· ≠ '<'))).map
        (text (trimEnd raw) :: ·)
termination_by l.length
decreasing_by
  · have := length_afterBracket?_le _h
    simp only [List.length_cons]
    omega
  · simp
  · have := (List.dropWhile_sublist (· ≠ '<') (l := rest)).length_le
    simp only [List.length_cons]
    omega

end Token

end CodeGraph.Markup
