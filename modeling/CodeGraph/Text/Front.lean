/-!
# The front of a text
-/

namespace CodeGraph.Text

/-- The text after `front`, if `l` starts with it. -/
def after? : List Char → List Char → Option (List Char)
  | [], l => some l
  | _ :: _, [] => none
  | a :: front, c :: l => if a = c then after? front l else none

theorem after?_eq_some_iff {front l r : List Char} : after? front l = some r ↔ l = front ++ r := by
  induction front generalizing l with
  | nil => simp [after?]
  | cons a front ih =>
    cases l with
    | nil => simp [after?]
    | cons c l =>
      simp only [after?, List.cons_append, List.cons.injEq]
      split
      · simp_all
      · simp only [reduceCtorEq, false_iff, not_and]
        exact fun h => absurd h.symm ‹_›

/-- What holds of all characters of a fixed text can be evaluated. -/
theorem forall_mem_of_all {p : Char → Prop} [DecidablePred p] {l : List Char}
    (h : (l.all fun c => decide (p c)) = true) : ∀ c ∈ l, p c := by
  simpa using h

section Run

/-! A run of characters of a class ends where a character of another class, or nothing, follows. -/

variable {p : Char → Bool} {l rest : List Char}

theorem dropWhile_append_of_head (hl : ∀ c ∈ l, p c = true)
    (hrest : ∀ c ∈ rest.head?, p c = false) : (l ++ rest).dropWhile p = rest := by
  rw [List.dropWhile_append_of_pos hl]
  rcases rest with _ | ⟨c, rest⟩
  · rfl
  · exact List.dropWhile_cons_of_neg (by simp [hrest c rfl])

theorem takeWhile_append_of_head (hl : ∀ c ∈ l, p c = true)
    (hrest : ∀ c ∈ rest.head?, p c = false) : (l ++ rest).takeWhile p = l := by
  have h := List.takeWhile_append_dropWhile (p := p) (l := l ++ rest)
  rw [dropWhile_append_of_head hl hrest] at h
  exact List.append_cancel_right h

theorem append_inj_of_head {l' rest' : List Char} (hl : ∀ c ∈ l, p c = true)
    (hl' : ∀ c ∈ l', p c = true) (hrest : ∀ c ∈ rest.head?, p c = false)
    (hrest' : ∀ c ∈ rest'.head?, p c = false) (h : l ++ rest = l' ++ rest') :
    l = l' ∧ rest = rest' := by
  constructor
  · rw [← takeWhile_append_of_head hl hrest, h, takeWhile_append_of_head hl' hrest']
  · rw [← dropWhile_append_of_head hl hrest, h, dropWhile_append_of_head hl' hrest']

/-- A text is read off the front up to a separator that it does not hold. -/
theorem append_cons_inj {sep : Char} {l' rest' : List Char} (hl : sep ∉ l) (hl' : sep ∉ l') :
    l ++ sep :: rest = l' ++ sep :: rest' ↔ l = l' ∧ rest = rest' := by
  have hclass {m : List Char} (hm : sep ∉ m) : ∀ c ∈ m, (c != sep) = true :=
    fun c hc => bne_iff_ne.2 fun heq => hm (heq ▸ hc)
  have hsep (m : List Char) : ∀ c ∈ (sep :: m).head?, (c != sep) = false := by
    rintro c ⟨⟩
    exact bne_self_eq_false _
  refine ⟨fun h => ?_, fun ⟨h, hrest⟩ => by rw [h, hrest]⟩
  obtain ⟨hfront, hback⟩ :=
    append_inj_of_head (hclass hl) (hclass hl') (hsep rest) (hsep rest') h
  exact ⟨hfront, (List.cons.inj hback).2⟩

end Run

end CodeGraph.Text
