/-!
# Heaps

A binary heap in a list: the children of the item at `i` are at `2 * i + 1` and `2 * i + 2`, and no
item precedes its parent. Items are exchanged only if one strictly precedes the other, and the last
item takes the place of the one that leaves. This settles in which order items come out of which
neither precedes the other.
-/

namespace CodeGraph.Git.Heap

variable {α : Type}

/-- Exchanges two items. -/
def exchange (l : List α) (i j : Nat) : List α :=
  match l[i]?, l[j]? with
  | some a, some b => (l.set i b).set j a
  | _, _ => l

@[simp] theorem length_exchange (l : List α) (i j : Nat) : (exchange l i j).length = l.length := by
  simp only [exchange]
  split <;> simp

variable (precedes : α → α → Bool)

/-- Moves the item at `i` towards the root as long as it precedes its parent. -/
def rise (l : List α) (i : Nat) : List α :=
  if _ : i = 0 then l
  else
    match l[(i - 1) / 2]?, l[i]? with
    | some parent, some a =>
      if precedes a parent then rise (exchange l ((i - 1) / 2) i) ((i - 1) / 2) else l
    | _, _ => l
termination_by i

/-- The place of the child of the item at `i` that comes first, if there is a child. -/
def firstChild? (l : List α) (i : Nat) : Option Nat :=
  match l[2 * i + 1]?, l[2 * i + 2]? with
  | some left, some right => some (if precedes right left then 2 * i + 2 else 2 * i + 1)
  | some _, none => some (2 * i + 1)
  | none, _ => none

theorem firstChild?_bounds {l : List α} {i k : Nat} (h : firstChild? precedes l i = some k) :
    i < k ∧ k < l.length := by
  simp only [firstChild?] at h
  split at h
  next left right hl hr =>
    obtain ⟨h₁, -⟩ := List.getElem?_eq_some_iff.1 hl
    obtain ⟨h₂, -⟩ := List.getElem?_eq_some_iff.1 hr
    simp only [Option.some.injEq] at h
    split at h <;> omega
  next left hl _ =>
    obtain ⟨h₁, -⟩ := List.getElem?_eq_some_iff.1 hl
    simp only [Option.some.injEq] at h
    omega
  next => simp at h

/-- Moves the item at `i` away from the root as long as a child precedes it. -/
def sink (l : List α) (i : Nat) : List α :=
  match _ : firstChild? precedes l i with
  | none => l
  | some k =>
    match l[i]?, l[k]? with
    | some a, some child => if precedes child a then sink (exchange l i k) k else l
    | _, _ => l
termination_by l.length - i
decreasing_by
  have := firstChild?_bounds precedes ‹_›
  simp only [length_exchange]
  omega

def push (l : List α) (a : α) : List α := rise precedes (l ++ [a]) l.length

/-- The first item, and the heap without it. -/
def pop? : List α → Option (α × List α)
  | [] => none
  | a :: rest =>
    match rest.getLast? with
    | none => some (a, [])
    | some last => some (a, sink precedes (last :: rest.dropLast) 0)

/-- The next `n` items. -/
def popMany (n : Nat) (l : List α) : List α :=
  match n with
  | 0 => []
  | n + 1 =>
    match pop? precedes l with
    | none => []
    | some (a, l) => a :: popMany n l

/-- The items in the order in which they come out of a heap that they went into one after the other.
-/
def drain (l : List α) : List α := popMany precedes l.length (l.foldl (push precedes) [])

end CodeGraph.Git.Heap
