import CodeGraph.Text.Letter

/-!
# Accessibility

From how far away a declaration may be used. The levels are ordered from the least to the most
visible. `notApplicable` stands for things that have no accessibility, and passes every minimum.
-/

namespace CodeGraph

inductive Accessibility where
  | notApplicable
  | priv
  | protectedAndInternal
  | prot
  | internal
  | protectedOrInternal
  | pub
deriving DecidableEq, Repr, Inhabited

namespace Accessibility

def all : List Accessibility :=
  [notApplicable, priv, protectedAndInternal, prot, internal, protectedOrInternal, pub]

/-- The place in the order. -/
def rank : Accessibility → Nat
  | notApplicable => 0
  | priv => 1
  | protectedAndInternal => 2
  | prot => 3
  | internal => 4
  | protectedOrInternal => 5
  | pub => 6

instance : LE Accessibility := ⟨fun a b => a.rank ≤ b.rank⟩

instance (a b : Accessibility) : Decidable (a ≤ b) :=
  inferInstanceAs (Decidable (a.rank ≤ b.rank))

instance : Max Accessibility := maxOfLe

/-- Whether a declaration at this level passes the minimum. -/
def admits (a minimum : Accessibility) : Bool :=
  a == notApplicable || minimum.rank ≤ a.rank

@[simp] theorem admits_notApplicable (a : Accessibility) : a.admits notApplicable = true := by
  simp [admits, rank]

theorem rank_max (m n : Accessibility) : (max m n).rank = max m.rank n.rank := by
  show (if m.rank ≤ n.rank then n else m).rank = _
  split <;> omega

theorem rank_inj {a b : Accessibility} : a.rank = b.rank ↔ a = b := by
  cases a <;> cases b <;> simp [rank]

protected theorem max_eq_right {m n : Accessibility} (h : m ≤ n) : max m n = n := if_pos h

protected theorem max_comm (m n : Accessibility) : max m n = max n m := by
  rw [← rank_inj, rank_max, rank_max, Nat.max_comm]

/-- Both minima are passed by what passes the higher one. -/
theorem admits_max (a m n : Accessibility) :
    a.admits (max m n) = (a.admits m && a.admits n) := by
  unfold admits
  rw [rank_max, Bool.eq_iff_iff]
  simp only [Bool.or_eq_true, Bool.and_eq_true, decide_eq_true_eq, Nat.max_le, or_and_left]

def name : Accessibility → String
  | notApplicable => "NotApplicable"
  | priv => "Private"
  | protectedAndInternal => "ProtectedAndInternal"
  | prot => "Protected"
  | internal => "Internal"
  | protectedOrInternal => "ProtectedOrInternal"
  | pub => "Public"

def ofName? (s : String) : Option Accessibility := all.find? fun a => a.name == s

/-- A level as someone may write it, in whatever letter case, with hyphens, underscores and spaces
between the words or without. -/
def parse? (s : String) : Option Accessibility :=
  let word := Text.asciiLower
    (String.ofList (s.toList.filter fun c => c != '-' && c != '_' && c != ' '))
  match word with
  | "notapplicable" => some notApplicable
  | "private" => some priv
  | "protectedandinternal" | "privateprotected" => some protectedAndInternal
  | "protected" => some prot
  | "internal" => some internal
  | "protectedorinternal" | "protectedinternal" => some protectedOrInternal
  | "public" => some pub
  | _ => none

/-- What to say about a text that names no level. -/
def unknownMessage (s : String) : String :=
  "unknown accessibility '" ++ s
    ++ "' (expected one of: private, protected-and-internal, protected, internal, "
    ++ "protected-or-internal, public, not-applicable)"

end Accessibility

end CodeGraph
