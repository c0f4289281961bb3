/-!
# Text as UTF-8 bytes

Decoding bytes, and offsets into a text counted in bytes. `decodeStep` takes one character, or one
malformed sequence, off the front; a malformed sequence is the longest beginning of a well-formed
one, or a single byte. `decodeLossy` puts U+FFFD in its place and `decode?` gives up at it.
-/

namespace CodeGraph.Text

/-- The number of bytes the characters take in UTF-8. -/
def utf8Length (l : List Char) : Nat := l.foldr (fun c n => c.utf8Size + n) 0

@[simp] theorem utf8Length_nil : utf8Length [] = 0 := rfl

@[simp] theorem utf8Length_cons (c : Char) (l : List Char) :
    utf8Length (c :: l) = c.utf8Size + utf8Length l := rfl

@[simp] theorem utf8Length_append (l m : List Char) :
    utf8Length (l ++ m) = utf8Length l + utf8Length m := by
  induction l with
  | nil => simp
  | cons c l ih => simp only [List.cons_append, utf8Length_cons, ih, Nat.add_assoc]

theorem utf8Length_reverse (l : List Char) : utf8Length l.reverse = utf8Length l := by
  induction l with
  | nil => rfl
  | cons c l ih =>
    rw [List.reverse_cons, utf8Length_append, ih, utf8Length_cons, utf8Length_cons, utf8Length_nil]
    omega

/-- The text before byte offset `n` and the text from it on, if `n` lies between two characters. -/
def splitAtByte? : List Char → Nat → Option (List Char × List Char)
  | l, 0 => some ([], l)
  | [], _ + 1 => none
  | c :: l, n + 1 =>
    if c.utf8Size ≤ n + 1 then (splitAtByte? l (n + 1 - c.utf8Size)).map fun (a, b) => (c :: a, b)
    else none

theorem splitAtByte?_append (l m : List Char) :
    splitAtByte? (l ++ m) (utf8Length l) = some (l, m) := by
  induction l with
  | nil => simp [splitAtByte?]
  | cons c l ih =>
    have hc := c.utf8Size_pos
    obtain ⟨n, hn⟩ : ∃ n, utf8Length (c :: l) = n + 1 := ⟨utf8Length (c :: l) - 1, by simp; omega⟩
    have hle : c.utf8Size ≤ n + 1 := by rw [← hn]; simp
    have hrest : n + 1 - c.utf8Size = utf8Length l := by rw [← hn]; simp
    rw [hn, List.cons_append, splitAtByte?, if_pos hle, hrest, ih, Option.map_some]

theorem splitAtByte?_eq_some_iff {l before rest : List Char} {n : Nat} :
    splitAtByte? l n = some (before, rest) ↔ l = before ++ rest ∧ n = utf8Length before := by
  refine ⟨fun h => ?_, fun ⟨hl, hn⟩ => hl ▸ hn ▸ splitAtByte?_append before rest⟩
  fun_induction splitAtByte? l n generalizing before rest with
  | case1 l =>
    rw [Option.some.injEq, Prod.mk.injEq] at h
    obtain ⟨rfl, rfl⟩ := h
    exact ⟨rfl, rfl⟩
  | case2 => cases h
  | case3 c l n hle ih =>
    obtain ⟨⟨before', rest'⟩, hl, heq⟩ := Option.map_eq_some_iff.1 h
    obtain ⟨rfl, rfl⟩ := Prod.mk.injEq .. ▸ heq
    obtain ⟨rfl, hn⟩ := ih hl
    refine ⟨rfl, ?_⟩
    rw [utf8Length_cons]
    omega
  | case4 => cases h

/-- Whether the byte continues a sequence and lies between `lo` and `hi`. -/
def continues (lo hi : UInt8) (b : UInt8) : Bool := lo ≤ b && b ≤ hi

/-- The bytes that may follow a leading byte: the range of the second one and the number of
continuation bytes in all, or `none` for a byte that starts no sequence. -/
def leading? (b : UInt8) : Option (UInt8 × UInt8 × Nat) :=
  if 0xc2 ≤ b && b ≤ 0xdf then some (0x80, 0xbf, 1)
  else if b == 0xe0 then some (0xa0, 0xbf, 2)
  else if b == 0xed then some (0x80, 0x9f, 2)
  else if 0xe1 ≤ b && b ≤ 0xef then some (0x80, 0xbf, 2)
  else if b == 0xf0 then some (0x90, 0xbf, 3)
  else if 0xf1 ≤ b && b ≤ 0xf3 then some (0x80, 0xbf, 3)
  else if b == 0xf4 then some (0x80, 0x8f, 3)
  else none

/-- Reads `n` continuation bytes, the first of them within the given range, and adds their bits to
`acc`. The rest is what follows the bytes that fitted. -/
def continuation : Nat → UInt8 → UInt8 → Nat → List UInt8 → Option Nat × List UInt8
  | 0, _, _, acc, rest => (some acc, rest)
  | _ + 1, _, _, _, [] => (none, [])
  | n + 1, lo, hi, acc, b :: rest =>
    if continues lo hi b then continuation n 0x80 0xbf (acc * 64 + b.toNat % 64) rest
    else (none, b :: rest)

theorem length_continuation_le (n : Nat) (lo hi : UInt8) (acc : Nat) (l : List UInt8) :
    (continuation n lo hi acc l).2.length ≤ l.length := by
  fun_induction continuation n lo hi acc l with
  | case1 => exact Nat.le_refl _
  | case2 => exact Nat.le_refl _
  | case3 n lo hi acc b rest _ ih => simp only [List.length_cons]; omega
  | case4 => exact Nat.le_refl _

/-- The first character, or `none` for a malformed sequence, and the bytes after it. -/
def decodeStep (b : UInt8) (rest : List UInt8) : Option Char × List UInt8 :=
  if b < 0x80 then (some (Char.ofNat b.toNat), rest)
  else match leading? b with
    | none => (none, rest)
    | some (lo, hi, n) =>
      match continuation n lo hi (b.toNat % Nat.pow 2 (6 - n)) rest with
      | (some v, rest') => (some (Char.ofNat v), rest')
      | (none, rest') => (none, rest')

theorem length_decodeStep_le (b : UInt8) (rest : List UInt8) :
    (decodeStep b rest).2.length ≤ rest.length := by
  unfold decodeStep
  split
  · exact Nat.le_refl _
  · split
    · exact Nat.le_refl _
    · rename_i lo hi n _
      have h := length_continuation_le n lo hi (b.toNat % Nat.pow 2 (6 - n)) rest
      split <;> rename_i heq <;> rw [heq] at h <;> exact h

/-- The characters of the bytes in turn, `none` for each malformed sequence. -/
def decodeSteps : List UInt8 → List (Option Char)
  | [] => []
  | b :: rest => (decodeStep b rest).1 :: decodeSteps (decodeStep b rest).2
termination_by l => l.length
decreasing_by
  have := length_decodeStep_le b rest
  simp only [List.length_cons]
  omega

/-- The text of the bytes, with U+FFFD for each malformed sequence. -/
def decodeLossy (bytes : List UInt8) : String :=
  String.ofList ((decodeSteps bytes).map (·.getD '\uFFFD'))

/-- The text of the bytes, if they are well-formed. -/
def decode? (bytes : List UInt8) : Option String :=
  ((decodeSteps bytes).mapM id).map String.ofList

theorem map_getD_of_mapM {c : Char} : ∀ {steps : List (Option Char)} {l : List Char},
    steps.mapM id = some l → steps.map (·.getD c) = l
  | [], _, h => Option.some_inj.1 h
  | _ :: _, _, h => by
    simp only [List.mapM_cons, id, Option.bind_eq_bind, Option.bind_eq_some_iff] at h
    obtain ⟨d, rfl, l', hl', h⟩ := h
    obtain rfl := Option.some_inj.1 h
    rw [List.map_cons, map_getD_of_mapM hl', Option.getD_some]

/-- Well-formed bytes are read the same way by both. -/
theorem decodeLossy_of_decode? {bytes : List UInt8} {text : String}
    (h : decode? bytes = some text) : decodeLossy bytes = text := by
  obtain ⟨l, hl, rfl⟩ := Option.map_eq_some_iff.1 h
  rw [decodeLossy, map_getD_of_mapM hl]

/-- The bytes of a text. -/
def encode (s : String) : List UInt8 := s.toUTF8.toList

end CodeGraph.Text
