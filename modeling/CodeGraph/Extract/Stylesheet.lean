import CodeGraph.Extract.Extraction

/-!
# Stylesheets

A selector is the text before an opening brace, from the brace before it on. Comments are blanked
out first, so that they stay on their lines. Rules that start with an at-sign have no selector.
-/

namespace CodeGraph.Stylesheet

/-- What stands before the end of a comment, and what stands after it. -/
def comment? : List Char → Option (List Char × List Char)
  | '*' :: '/' :: rest => some ([], rest)
  | c :: rest => (comment? rest).map fun (body, rest) => (c :: body, rest)
  | [] => none

/-- The text of a comment with blanks in place of its characters. -/
def blank (body : List Char) : List Char :=
  ' ' :: ' ' :: body.map (fun c => if c = '\n' then '\n' else ' ') ++ [' ', ' ']

theorem length_comment?_lt {l body rest : List Char} (h : comment? l = some (body, rest)) :
    rest.length < l.length := by
  fun_induction comment? l generalizing body rest with
  | case1 r =>
    simp only [Option.some.injEq, Prod.mk.injEq] at h
    obtain ⟨-, rfl⟩ := h
    simp only [List.length_cons]
    omega
  | case2 c l _ ih =>
    obtain ⟨⟨b, r⟩, hb, he⟩ := Option.map_eq_some_iff.1 h
    simp only [Prod.mk.injEq] at he
    obtain ⟨-, rfl⟩ := he
    have := ih hb
    simp only [List.length_cons]
    omega
  | case3 => simp at h

/-- The text with its comments blanked out. A comment that does not end is none. -/
def blankComments (l : List Char) : List Char :=
  match l with
  | '/' :: '*' :: l' =>
    match _ : comment? l' with
    | some (body, rest) => blank body ++ blankComments rest
    | none => '/' :: '*' :: blankComments l'
  | c :: l' => c :: blankComments l'
  | [] => []
termination_by l.length
decreasing_by
  all_goals simp only [List.length_cons]
  · have := length_comment?_lt ‹comment? l' = some _›
    omega
  · omega
  · omega

/-- The texts before opening braces, each with all that stands before it. Both are kept with the
latest character first while they are read. -/
def openings (before run : List Char) : List Char → List (List Char × List Char)
  | [] => []
  | c :: l =>
    if c = '{' then
      let rest := openings (c :: (run ++ before)) [] l
      if run.isEmpty then rest else (before, run.reverse) :: rest
    else if c = '}' then openings (c :: (run ++ before)) [] l
    else openings before (c :: run) l

/-- The selector of an opening, and the line on which it starts. -/
def selector? : List Char × List Char → Option (String × Nat)
  | (before, run) =>
    let text := Text.trimChars run
    if text.isEmpty || text.head? == some '@' then none
    else some (String.ofList text, Text.lineAfter (before ++ run.takeWhile Text.isBlank))

/-- The selectors of a stylesheet with their lines. -/
def selectors (content : String) : List (String × Nat) :=
  (openings [] [] (blankComments content.toList)).filterMap selector?

def extract (f : SourceFile) : Extraction :=
  .ofAttachments ((selectors f.content).map fun (text, line) =>
    ⟨f.key, .contains, f.named .cssSelector text (some line) (some line)⟩)

end CodeGraph.Stylesheet
