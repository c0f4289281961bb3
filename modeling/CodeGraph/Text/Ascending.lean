/-!
# Ascending lists

Texts in ascending order of their characters, each once. That is the form in which sets of paths and
of names are kept.
-/

namespace CodeGraph.Text

/-- Puts a text in its place among ascending ones, unless it is there. -/
def insertAscending (s : String) : List String → List String
  | [] => [s]
  | t :: ts =>
    if s < t then s :: t :: ts else if s = t then t :: ts else t :: insertAscending s ts

/-- The texts in ascending order, each once. -/
def ascending (l : List String) : List String := l.foldl (fun acc s => insertAscending s acc) []

theorem mem_insertAscending {s t : String} {l : List String} :
    t ∈ insertAscending s l ↔ t = s ∨ t ∈ l := by
  induction l with
  | nil => simp [insertAscending]
  | cons u us ih =>
    simp only [insertAscending]
    split
    · simp
    · split
      · subst_vars; simp
      · simp only [List.mem_cons, ih]
        exact or_left_comm

theorem mem_ascending {t : String} {l : List String} : t ∈ ascending l ↔ t ∈ l := by
  have h (acc : List String) :
      t ∈ l.foldl (fun acc s => insertAscending s acc) acc ↔ t ∈ l ∨ t ∈ acc := by
    induction l generalizing acc with
    | nil => simp
    | cons s l ih =>
      simp only [List.foldl_cons, ih, mem_insertAscending, List.mem_cons]
      rw [or_left_comm, or_assoc]
  simpa [ascending] using h []

theorem pairwise_insertAscending {s : String} {l : List String} (h : l.Pairwise (· < ·)) :
    (insertAscending s l).Pairwise (· < ·) := by
  induction l with
  | nil => simp [insertAscending]
  | cons t ts ih =>
    obtain ⟨ht, hts⟩ := List.pairwise_cons.1 h
    simp only [insertAscending]
    split
    · rename_i hst
      refine List.pairwise_cons.2 ⟨fun u hu => ?_, h⟩
      rcases List.mem_cons.1 hu with rfl | hu
      · exact hst
      · exact String.lt_trans hst (ht u hu)
    · split
      · exact h
      · rename_i hst hne
        refine List.pairwise_cons.2 ⟨fun u hu => ?_, ih hts⟩
        rcases mem_insertAscending.1 hu with rfl | hu
        · exact Std.lt_of_le_of_ne (String.not_lt.1 hst) (Ne.symm hne)
        · exact ht u hu

theorem pairwise_ascending (l : List String) : (ascending l).Pairwise (· < ·) := by
  have h (acc : List String) (hacc : acc.Pairwise (· < ·)) :
      (l.foldl (fun acc s => insertAscending s acc) acc).Pairwise (· < ·) := by
    induction l generalizing acc with
    | nil => exact hacc
    | cons s l ih => exact ih _ (pairwise_insertAscending hacc)
  exact h [] .nil

theorem nodup_ascending (l : List String) : (ascending l).Nodup :=
  (pairwise_ascending l).imp String.ne_of_lt

/-- The members of a list tell what it is in ascending order. -/
theorem ascending_congr {l m : List String} (h : ∀ t, t ∈ l ↔ t ∈ m) :
    ascending l = ascending m := by
  have hperm : (ascending l).Perm (ascending m) := by
    rw [List.perm_ext_iff_of_nodup (nodup_ascending l) (nodup_ascending m)]
    exact fun t => mem_ascending.trans ((h t).trans mem_ascending.symm)
  refine hperm.eq_of_pairwise ?_ (pairwise_ascending l) (pairwise_ascending m)
  exact fun s t _ _ hst hts => absurd (String.lt_trans hst hts) (String.lt_irrefl s)

end CodeGraph.Text
