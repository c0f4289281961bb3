import CodeGraph.Key
import CodeGraph.Text.Front
import CodeGraph.Text.Natural
import Mathlib.Data.List.Basic

/-!
# Keys of elements

The key of an element puts the key of its file, its kind and its name behind one another, with a
colon between two of them, and the line comes last if there is one. Neither the path of a file nor a
kind has a colon, so both are read off the front of the key; a name may have colons, so the line is
read off its end. A key does not say whether there is a line (`element_file_eq_iff`).
-/

namespace CodeGraph.Key

/-- What stands in a key behind the kind: the name, and the line if there is one. -/
def named (name : String) : Option Nat → String
  | some line => s!"{name}:{line}"
  | none => name

section Element

variable {fileKey kind name name' : String} {line line' : Nat}

theorem toList_named (name : String) (line : Nat) :
    (named name (some line)).toList = name.toList ++ ':' :: (toString line).toList := by
  simp [named, show ∀ s : String, toString s = s from fun _ => rfl]

theorem toList_element (fileKey kind name : String) (line : Option Nat) :
    (element fileKey kind name line).toList =
      fileKey.toList ++ ':' :: (kind.toList ++ ':' :: (named name line).toList) := by
  cases line <;> simp [element, named, show ∀ s : String, toString s = s from fun _ => rfl]

/-- The line is what follows the last colon. -/
theorem named_some_inj :
    named name (some line) = named name' (some line') ↔ name = name' ∧ line = line' := by
  refine ⟨fun h => ?_, fun ⟨hname, hline⟩ => by rw [hname, hline]⟩
  rw [← String.toList_inj, toList_named, toList_named] at h
  have hback := congrArg List.reverse h
  simp only [List.reverse_append, List.reverse_cons, List.append_assoc, List.singleton_append]
    at hback
  have hcolon (n : Nat) : ':' ∉ (toString n).toList.reverse := fun hmem =>
    absurd (Text.isDigit_of_mem_toString (List.mem_reverse.1 hmem)) (by decide)
  obtain ⟨hline, hname⟩ := (Text.append_cons_inj (hcolon line) (hcolon line')).1 hback
  exact ⟨String.toList_inj.1 (List.reverse_inj.1 hname),
    Text.toString_inj (List.reverse_inj.1 hline)⟩

theorem named_inj {l l' : Option Nat} (h : l.isSome = l'.isSome) :
    named name l = named name' l' ↔ name = name' ∧ l = l' := by
  cases l with
  | none =>
    cases l' with
    | none => exact (and_iff_left rfl).symm
    | some line' => cases h
  | some line =>
    cases l' with
    | none => cases h
    | some line' => rw [named_some_inj, Option.some_inj]

theorem element_inj : element fileKey kind name (some line) =
    element fileKey kind name' (some line') ↔ name = name' ∧ line = line' := by
  rw [← named_some_inj, ← String.toList_inj, toList_element, toList_element,
    List.append_cancel_left_eq, List.cons_inj_right, List.append_cancel_left_eq,
    List.cons_inj_right, String.toList_inj]

theorem element_ne : element fileKey kind name (some line) ≠ fileKey := by
  intro h
  have hlength := congrArg List.length (String.toList_inj.2 h)
  rw [toList_element] at hlength
  simp only [List.length_append, List.length_cons] at hlength
  omega

end Element

/-! ## In a repository -/

section Repository

variable {repo path path' kind kind' name name' : String} {line line' : Option Nat}

theorem toList_file (h : path.toList.head? ≠ some '/') :
    (file repo path).toList = repo.toList ++ ':' :: path.toList := by
  have hpath : path.toList.dropWhile (· == '/') = path.toList := by
    rcases hl : path.toList with _ | ⟨c, l⟩
    · rfl
    · rw [hl] at h
      exact List.dropWhile_cons_of_neg (by simpa using h)
  simp [file, Text.dropStartWhile, hpath]

/-- When two elements of a repository have the same key: their files have the same path, their kinds
are the same, and so are their names with the lines behind them. Then the names and the lines are
the same, unless just one of the elements has a line. -/
theorem element_file_eq_iff (hpath : ':' ∉ path.toList) (hpath' : ':' ∉ path'.toList)
    (hfront : path.toList.head? ≠ some '/') (hfront' : path'.toList.head? ≠ some '/')
    (hkind : ':' ∉ kind.toList) (hkind' : ':' ∉ kind'.toList) :
    (element (file repo path) kind name line = element (file repo path') kind' name' line' ↔
      path = path' ∧ kind = kind' ∧ named name line = named name' line') ∧
    (line.isSome = line'.isSome →
      (element (file repo path) kind name line = element (file repo path') kind' name' line' ↔
        path = path' ∧ kind = kind' ∧ name = name' ∧ line = line')) := by
  have hparts :
      element (file repo path) kind name line = element (file repo path') kind' name' line' ↔
        path = path' ∧ kind = kind' ∧ named name line = named name' line' := by
    rw [← String.toList_inj, toList_element, toList_element, toList_file hfront,
      toList_file hfront', List.append_assoc, List.append_assoc, List.append_cancel_left_eq,
      List.cons_append, List.cons_append, List.cons_inj_right,
      Text.append_cons_inj hpath hpath', Text.append_cons_inj hkind hkind', String.toList_inj,
      String.toList_inj, String.toList_inj]
  exact ⟨hparts, fun hline => by rw [hparts, named_inj hline]⟩

/-- A colon in a name is not taken for the one in front of a line, but a key that ends in a name may
be one that ends in a line. -/
theorem element_file_of_colons :
    element (file "r" "b.css") "CssSelector" "a:1" (some 2) ≠
      element (file "r" "b.css") "CssSelector" "a" (some 12) ∧
    element (file "r" "b.css") "CssSelector" "a:1" (some 2) =
      element (file "r" "b.css") "CssSelector" "a:1:2" none := by
  have hpath : ':' ∉ "b.css".toList := by decide
  have hfront : "b.css".toList.head? ≠ some '/' := by decide
  have hkind : ':' ∉ "CssSelector".toList := by decide
  constructor
  · intro h
    have hlines : (some 2).isSome = (some 12).isSome := rfl
    obtain ⟨-, -, hname, -⟩ :=
      ((element_file_eq_iff hpath hpath hfront hfront hkind hkind).2 hlines).1 h
    exact absurd hname (by decide)
  · exact (element_file_eq_iff hpath hpath hfront hfront hkind hkind).1.2 ⟨rfl, rfl, by decide⟩

end Repository

end CodeGraph.Key
