/-!
# Splitting at a separator

`pieces sep l` is what stands between the separators of `l`, so a text without a separator has one
piece. Joining the pieces again gives the text back, and no piece holds the separator.
-/

namespace CodeGraph.Text

def pieces (sep : Char) : List Char → List (List Char)
  | [] => [[]]
  | c :: l =>
    if c = sep then [] :: pieces sep l
    else match pieces sep l with
      | [] => [[c]]
      | p :: ps => (c :: p) :: ps

theorem pieces_ne_nil (sep : Char) (l : List Char) : pieces sep l ≠ [] := by
  cases l with
  | nil => simp [pieces]
  | cons c l =>
    simp only [pieces]
    split
    · simp
    · split <;> simp

theorem intercalate_pieces (sep : Char) (l : List Char) :
    [sep].intercalate (pieces sep l) = l := by
  induction l with
  | nil => rfl
  | cons c l ih =>
    have hne := pieces_ne_nil sep l
    simp only [pieces]
    cases hp : pieces sep l with
    | nil => exact absurd hp hne
    | cons p ps =>
      rw [hp] at ih
      split
      · subst_vars
        cases ps <;> simp_all [List.intercalate]
      · cases ps <;> simp_all [List.intercalate]

theorem not_mem_of_mem_pieces {sep : Char} {l p : List Char} (h : p ∈ pieces sep l) :
    sep ∉ p := by
  induction l generalizing p with
  | nil => simp_all [pieces]
  | cons c l ih =>
    simp only [pieces] at h
    split at h
    · rcases List.mem_cons.1 h with rfl | h
      · simp
      · exact ih h
    · rename_i hc
      cases hp : pieces sep l with
      | nil => exact absurd hp (pieces_ne_nil sep l)
      | cons q qs =>
        rw [hp] at h ih
        rcases List.mem_cons.1 h with rfl | h
        · simp only [List.mem_cons, not_or]
          exact ⟨fun e => hc e.symm, ih (List.mem_cons_self ..)⟩
        · exact ih (List.mem_cons_of_mem _ h)

theorem pieces_subset (sep : Char) : ∀ l : List Char, ∀ p ∈ pieces sep l, p ⊆ l
  | [] => by simp [pieces]
  | c :: l => by
    intro p h
    simp only [pieces] at h
    split at h
    · rcases List.mem_cons.1 h with rfl | h
      · simp
      · exact List.subset_cons_of_subset c (pieces_subset sep l p h)
    · cases hp : pieces sep l with
      | nil => exact absurd hp (pieces_ne_nil sep l)
      | cons q qs =>
        have ih := pieces_subset sep l
        rw [hp] at h ih
        rcases List.mem_cons.1 h with rfl | h
        · exact List.cons_subset_cons c (ih q List.mem_cons_self)
        · exact List.subset_cons_of_subset c (ih p (List.mem_cons_of_mem q h))

theorem pieces_append_cons (sep : Char) (m : List Char) :
    ∀ l : List Char, pieces sep (l ++ sep :: m) = pieces sep l ++ pieces sep m
  | [] => by simp [pieces]
  | c :: l => by
    simp only [List.cons_append, pieces, pieces_append_cons sep m l]
    split
    · rfl
    · cases hp : pieces sep l with
      | nil => exact absurd hp (pieces_ne_nil sep l)
      | cons p ps => rfl

theorem pieces_of_not_mem {sep : Char} : ∀ {l : List Char}, sep ∉ l → pieces sep l = [l]
  | [], _ => rfl
  | c :: l, h => by
    rw [List.mem_cons, not_or] at h
    rw [pieces, if_neg fun hc => h.1 hc.symm, pieces_of_not_mem h.2]

/-- What follows the last separator of a text goes on if the text does. -/
theorem exists_pieces_append {sep : Char} {m : List Char} (hm : sep ∉ m) : ∀ l : List Char,
    ∃ ps p, pieces sep (l ++ m) = ps ++ [p ++ m]
  | [] => ⟨[], [], pieces_of_not_mem hm⟩
  | c :: l => by
    obtain ⟨ps, p, hl⟩ := exists_pieces_append hm l
    by_cases hc : c = sep
    · exact ⟨[] :: ps, p, by rw [List.cons_append, pieces, if_pos hc, hl, List.cons_append]⟩
    · rw [List.cons_append, pieces, if_neg hc, hl]
      rcases ps with _ | ⟨q, ps⟩
      · exact ⟨[], c :: p, rfl⟩
      · exact ⟨(c :: q) :: ps, p, rfl⟩

theorem pieces_intercalate (sep : Char) : ∀ {ns : List (List Char)}, ns ≠ [] →
    pieces sep ([sep].intercalate ns) = ns.flatMap (pieces sep)
  | [n], _ => by simp [List.intercalate_singleton]
  | n :: n' :: ns, _ => by
    rw [List.intercalate_cons_cons, List.append_assoc, List.singleton_append, pieces_append_cons,
      pieces_intercalate sep (List.cons_ne_nil n' ns)]
    simp only [List.flatMap_cons]

/-- The pieces of a text, as texts. -/
def splitAt (sep : Char) (s : String) : List String := (pieces sep s.toList).map String.ofList

/-- The text after the last separator, the whole text if there is none. -/
def afterLast (sep : Char) (s : String) : String :=
  String.ofList (s.toList.reverse.takeWhile (· ≠ sep)).reverse

end CodeGraph.Text
