import CodeGraph.Text.Utf8
import Mathlib.Tactic.SplitIfs

/-!
# Encoded and decoded

The bytes of a text are decoded to the text again: a character of one to four bytes is read back
from them, whatever comes after (`decodeStep_head`). So different texts have different bytes.
-/

namespace CodeGraph.Text

section Bytes

variable {x n acc : Nat} {lo hi : UInt8} {rest : List UInt8}

theorem toNat_ofNat_byte (hx : x < 256) : (UInt8.ofNat x).toNat = x := by
  rw [UInt8.toNat_ofNat', Nat.mod_eq_of_lt hx]

theorem continuation_cons (hx : x < 256) (hlo : lo.toNat ≤ x) (hhi : x ≤ hi.toNat) :
    continuation (n + 1) lo hi acc (UInt8.ofNat x :: rest) =
      continuation n 0x80 0xbf (acc * 64 + x % 64) rest := by
  rw [continuation, if_pos, toNat_ofNat_byte hx]
  simp only [continues, Bool.and_eq_true, decide_eq_true_eq, UInt8.le_iff_toNat_le,
    toNat_ofNat_byte hx]
  exact ⟨hlo, hhi⟩

/-- The byte of the low six bits of a number, which continues any sequence. -/
theorem continuation_low (v : Nat) :
    continuation (n + 1) 0x80 0xbf acc (UInt8.ofNat (v % 64 + 128) :: rest) =
      continuation n 0x80 0xbf (acc * 64 + v % 64) rest := by
  have hlo : (0x80 : UInt8).toNat ≤ v % 64 + 128 := by
    show 128 ≤ _
    omega
  have hhi : v % 64 + 128 ≤ (0xbf : UInt8).toNat := by
    show _ ≤ 191
    omega
  have hlow : (v % 64 + 128) % 64 = v % 64 := by omega
  rw [continuation_cons (by omega) hlo hhi, hlow]

theorem leading?_two : ∀ x : Fin 256, 0xc2 ≤ x.val ∧ x.val ≤ 0xdf →
    leading? (UInt8.ofNat x) = some (0x80, 0xbf, 1) := by
  decide +kernel

theorem leading?_three : ∀ x : Fin 256, 0xe0 ≤ x.val ∧ x.val ≤ 0xef →
    leading? (UInt8.ofNat x) =
      some (if x.val = 0xe0 then 0xa0 else 0x80, if x.val = 0xed then 0x9f else 0xbf, 2) := by
  decide +kernel

theorem leading?_four : ∀ x : Fin 256, 0xf0 ≤ x.val ∧ x.val ≤ 0xf4 →
    leading? (UInt8.ofNat x) =
      some (if x.val = 0xf0 then 0x90 else 0x80, if x.val = 0xf4 then 0x8f else 0xbf, 3) := by
  decide +kernel

theorem decodeStep_of_leading? {c : Char} (hx : x < 256) (hhigh : 128 ≤ x)
    (h : leading? (UInt8.ofNat x) = some (lo, hi, n)) {rest' : List UInt8}
    (hv : continuation n lo hi (x % Nat.pow 2 (6 - n)) rest = (some c.toNat, rest')) :
    decodeStep (UInt8.ofNat x) rest = (some c, rest') := by
  have hlow : ¬ UInt8.ofNat x < 0x80 := by
    rw [UInt8.lt_iff_toNat_lt, toNat_ofNat_byte hx]
    exact Nat.not_lt.2 hhigh
  simp only [decodeStep, if_neg hlow, h, toNat_ofNat_byte hx, hv, Char.ofNat_toNat]

end Bytes

/-- A character is read back from its bytes. -/
theorem decodeStep_head (c : Char) (rest : List UInt8) : ∃ b tail,
    String.utf8EncodeChar c = b :: tail ∧ decodeStep b (tail ++ rest) = (some c, rest) := by
  obtain ⟨v, hv⟩ : ∃ v, c.toNat = v := ⟨_, rfl⟩
  have hvalid : v < 0xd800 ∨ 0xdfff < v ∧ v < 0x110000 := hv ▸ c.valid
  have hval : c.val.toNat = v := hv
  rw [String.utf8EncodeChar, hval]
  -- one case for each number of bytes
  split_ifs with h₁ h₂ h₃
  · refine ⟨_, _, rfl, ?_⟩
    have hbyte := toNat_ofNat_byte (show v < 256 by omega)
    have hlow : UInt8.ofNat v < 0x80 := by
      rw [UInt8.lt_iff_toNat_lt, hbyte]
      exact Nat.lt_succ_of_le h₁
    rw [decodeStep, if_pos hlow, hbyte, ← hv, Char.ofNat_toNat]
    rfl
  · refine ⟨_, _, rfl, decodeStep_of_leading? (x := v / 64 % 32 + 192)
      (by omega) (by omega) (leading?_two ⟨v / 64 % 32 + 192, by omega⟩ ⟨?_, ?_⟩) ?_⟩
    · show 0xc2 ≤ v / 64 % 32 + 192
      omega
    · show v / 64 % 32 + 192 ≤ 0xdf
      omega
    · rw [List.cons_append, continuation_low, continuation, hv]
      simp only [Nat.reduceSub, Nat.pow_eq, Nat.reducePow, List.nil_append]
      congr 2
      omega
  · refine ⟨_, _, rfl, decodeStep_of_leading? (x := v / 4096 % 16 + 224)
      (by omega) (by omega) (leading?_three ⟨v / 4096 % 16 + 224, by omega⟩ ⟨?_, ?_⟩) ?_⟩
    · show 0xe0 ≤ v / 4096 % 16 + 224
      omega
    · show v / 4096 % 16 + 224 ≤ 0xef
      omega
    -- what is no shorter sequence and no surrogate is within the narrower bounds
    · have hlo : (if v / 4096 % 16 + 224 = 0xe0 then 0xa0 else 0x80 : UInt8).toNat ≤
          v / 64 % 64 + 128 := by
        split_ifs <;> simp
        omega
      have hhi : v / 64 % 64 + 128 ≤
          (if v / 4096 % 16 + 224 = 0xed then 0x9f else 0xbf : UInt8).toNat := by
        split_ifs <;> simp <;> omega
      rw [List.cons_append, continuation_cons (by omega) hlo hhi, List.cons_append,
        continuation_low, continuation, hv]
      simp only [Nat.reduceSub, Nat.pow_eq, Nat.reducePow, List.nil_append]
      congr 2
      omega
  · refine ⟨_, _, rfl, decodeStep_of_leading? (x := v / 262144 % 8 + 240)
      (by omega) (by omega) (leading?_four ⟨v / 262144 % 8 + 240, by omega⟩ ⟨?_, ?_⟩) ?_⟩
    · show 0xf0 ≤ v / 262144 % 8 + 240
      omega
    · show v / 262144 % 8 + 240 ≤ 0xf4
      omega
    · have hlo : (if v / 262144 % 8 + 240 = 0xf0 then 0x90 else 0x80 : UInt8).toNat ≤
          v / 4096 % 64 + 128 := by
        split_ifs <;> simp
        omega
      have hhi : v / 4096 % 64 + 128 ≤
          (if v / 262144 % 8 + 240 = 0xf4 then 0x8f else 0xbf : UInt8).toNat := by
        split_ifs <;> simp <;> omega
      rw [List.cons_append, continuation_cons (by omega) hlo hhi, List.cons_append,
        continuation_low, List.cons_append, continuation_low, continuation, hv]
      simp only [Nat.reduceSub, Nat.pow_eq, Nat.reducePow, List.nil_append]
      congr 2
      omega

theorem decodeSteps_flatMap (l : List Char) :
    decodeSteps (l.flatMap String.utf8EncodeChar) = l.map some := by
  induction l with
  | nil => simp [decodeSteps]
  | cons c l ih =>
    obtain ⟨b, tail, hbytes, hstep⟩ := decodeStep_head c (l.flatMap String.utf8EncodeChar)
    rw [List.flatMap_cons, hbytes, List.cons_append, decodeSteps, hstep, ih, List.map_cons]

theorem toList_loop (bytes : ByteArray) (i : Nat) (l : List UInt8) :
    ByteArray.toList.loop bytes i l = l.reverse ++ bytes.data.toList.drop i := by
  fun_induction ByteArray.toList.loop bytes i l with
  | case1 i l hi ih =>
    have hlength : i < bytes.data.toList.length := hi
    have hget : bytes.get! i = bytes.data.toList[i] := by
      obtain ⟨data⟩ := bytes
      exact getElem!_pos data i hi
    rw [ih, List.reverse_cons, List.append_assoc, List.singleton_append, hget,
      List.drop_eq_getElem_cons hlength]
  | case2 i l hi => rw [List.drop_eq_nil_of_le (Nat.not_lt.1 hi), List.append_nil]

theorem encode_eq (s : String) : encode s = s.toList.flatMap String.utf8EncodeChar := by
  rw [encode, ByteArray.toList, toList_loop, String.toUTF8, ← String.utf8Encode_toList,
    List.utf8Encode, List.data_toByteArray]
  rfl

/-- The bytes of a text stand for it. -/
theorem decodeLossy_encode (s : String) : decodeLossy (encode s) = s := by
  rw [decodeLossy, encode_eq, decodeSteps_flatMap, List.map_map, ← String.toList_inj,
    String.toList_ofList]
  exact List.map_id _

end CodeGraph.Text
