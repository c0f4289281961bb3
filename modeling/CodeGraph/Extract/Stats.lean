/-!
# Counting extractions

How many files of each kind were read, the kinds in alphabetical order, and how many files were of
no known kind.
-/

namespace CodeGraph

structure ExtractionStats where
  /-- Kinds and counts, in ascending order of the kinds. -/
  handled : List (String × Nat)
  unhandled : Nat
deriving DecidableEq, Repr, Inhabited

namespace ExtractionStats

def empty : ExtractionStats := ⟨[], 0⟩

/-- Adds one to the count of a kind, which is put in its place if it is new. -/
def increment (kind : String) : List (String × Nat) → List (String × Nat)
  | [] => [(kind, 1)]
  | (k, n) :: rest =>
    if kind < k then (kind, 1) :: (k, n) :: rest
    else if kind = k then (k, n + 1) :: rest
    else (k, n) :: increment kind rest

/-- Counts a file of this kind, or of no kind. -/
def record (s : ExtractionStats) : Option String → ExtractionStats
  | some kind => { s with handled := increment kind s.handled }
  | none => { s with unhandled := s.unhandled + 1 }

def count (s : ExtractionStats) (kind : String) : Nat := (s.handled.lookup kind).getD 0

def total (s : ExtractionStats) : Nat := s.handled.foldr (fun h n => h.2 + n) 0

end ExtractionStats

end CodeGraph
