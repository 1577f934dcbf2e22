import GhidraDecompiler.Strings.StringManager
import GhidraDecompiler.Pcode.NzMaskSound

namespace GhidraDecompiler.Strings

open Fallible Pcode

variable {rest out : List UInt8} {c : Char} {x y z w n : Nat}

@[simp] theorem byteAt_zero (b : UInt8) (rest : List UInt8) : byteAt (b :: rest) 0 = b.toNat := rfl

@[simp] theorem byteAt_succ (b : UInt8) (rest : List UInt8) (i : Nat) : byteAt (b :: rest) (i + 1) = byteAt rest i := rfl

@[simp] theorem byteAt_nil (i : Nat) : byteAt [] i = 0 := rfl

theorem byteAt_lt (buf : List UInt8) (i : Nat) : byteAt buf i < 256 := (buf[i]?.getD 0).toNat_lt

theorem toNat_byte (h : n < 256) : (UInt8.ofNat n).toNat = n := by
  rw [UInt8.toNat_ofNat']
  exact Nat.mod_eq_of_lt h

theorem char_lt (c : Char) : c.toNat < 0xd800 ∨ 0xdfff < c.toNat ∧ c.toNat < 0x110000 := c.valid

/-- The marks of the bytes are read back, and their payloads with them. -/
theorem lead_two (h : x < 0x20) : (x + 0xc0) &&& 0x80 ≠ 0 ∧ (x + 0xc0) &&& 0xe0 = 0xc0 ∧ (x + 0xc0) &&& 0x1f = x := by
  have hall : ∀ x : Fin 0x20, (x.val + 0xc0) &&& 0x80 ≠ 0 ∧ (x.val + 0xc0) &&& 0xe0 = 0xc0 ∧ (x.val + 0xc0) &&& 0x1f = x := by
    decide
  exact hall ⟨x, h⟩

theorem lead_three (h : x < 0x10) : (x + 0xe0) &&& 0x80 ≠ 0 ∧ (x + 0xe0) &&& 0xe0 ≠ 0xc0 ∧ (x + 0xe0) &&& 0xf0 = 0xe0 ∧
    (x + 0xe0) &&& 0xf = x := by
  have hall : ∀ x : Fin 0x10, (x.val + 0xe0) &&& 0x80 ≠ 0 ∧ (x.val + 0xe0) &&& 0xe0 ≠ 0xc0 ∧
      (x.val + 0xe0) &&& 0xf0 = 0xe0 ∧ (x.val + 0xe0) &&& 0xf = x := by
    decide
  exact hall ⟨x, h⟩

theorem lead_four (h : x < 8) : (x + 0xf0) &&& 0x80 ≠ 0 ∧ (x + 0xf0) &&& 0xe0 ≠ 0xc0 ∧ (x + 0xf0) &&& 0xf0 ≠ 0xe0 ∧
    (x + 0xf0) &&& 0xf8 = 0xf0 ∧ (x + 0xf0) &&& 7 = x := by
  have hall : ∀ x : Fin 8, (x.val + 0xf0) &&& 0x80 ≠ 0 ∧ (x.val + 0xf0) &&& 0xe0 ≠ 0xc0 ∧
      (x.val + 0xf0) &&& 0xf0 ≠ 0xe0 ∧ (x.val + 0xf0) &&& 0xf8 = 0xf0 ∧ (x.val + 0xf0) &&& 7 = x := by
    decide
  exact hall ⟨x, h⟩

theorem trail (h : x < 0x40) : (x + 0x80) &&& 0xc0 = 0x80 ∧ (x + 0x80) &&& 0x3f = x := by
  have hall : ∀ x : Fin 0x40, (x.val + 0x80) &&& 0xc0 = 0x80 ∧ (x.val + 0x80) &&& 0x3f = x := by decide
  exact hall ⟨x, h⟩

theorem ascii_mark (h : x < 0x80) : x &&& 0x80 = 0 := by
  have hall : ∀ x : Fin 0x80, x.val &&& 0x80 = 0 := by decide
  exact hall ⟨x, h⟩

theorem shift_or (i : Nat) (h : y < 2 ^ i) : x <<< i ||| y = x * 2 ^ i + y := by
  rw [← Nat.shiftLeft_add_eq_or_of_lt h, Nat.shiftLeft_eq]

theorem assemble_two (hy : y < 0x40) : x <<< 6 ||| y = x * 64 + y := shift_or 6 hy

theorem assemble_three (hy : y < 0x40) (hz : z < 0x40) : x <<< 12 ||| y <<< 6 ||| z = x * 4096 + y * 64 + z := by
  have hhigh : x <<< 12 ||| y <<< 6 = (x * 64 + y) <<< 6 := by
    rw [shift_or 12 (by rw [Nat.shiftLeft_eq]; omega), Nat.shiftLeft_eq, Nat.shiftLeft_eq]
    omega
  rw [hhigh, shift_or 6 hz]
  omega

theorem assemble_four (hy : y < 0x40) (hz : z < 0x40) (hw : w < 0x40) :
    x <<< 18 ||| y <<< 12 ||| z <<< 6 ||| w = x * 262144 + y * 4096 + z * 64 + w := by
  have hhigh : x <<< 18 ||| y <<< 12 ||| z <<< 6 = (x * 4096 + y * 64 + z) <<< 6 := by
    rw [shift_or 18 (by rw [Nat.shiftLeft_eq]; omega), Nat.shiftLeft_eq]
    have hmid : x * 2 ^ 18 + y * 2 ^ 12 = (x * 64 + y) <<< 12 := by
      rw [Nat.shiftLeft_eq]
      omega
    rw [hmid, shift_or 12 (by rw [Nat.shiftLeft_eq]; omega), Nat.shiftLeft_eq, Nat.shiftLeft_eq]
    ring
  rw [hhigh, shift_or 6 hw]
  omega

/-- A character is read back from its bytes. -/
theorem decodeUtf8_encode (c : Char) (rest : List UInt8) :
    decodeUtf8 (String.utf8EncodeChar c ++ rest) = some ((c.toNat : Int), ((String.utf8EncodeChar c).length : Int)) := by
  have hc := char_lt c
  have hval : c.val.toNat = c.toNat := rfl
  simp only [String.utf8EncodeChar, hval]
  split
  · rename_i hone
    simp [decodeUtf8, Nat.mod_eq_of_lt (show c.toNat < 256 by omega), ascii_mark (show c.toNat < 0x80 by omega)]
  · split
    · rename_i hone htwo
      obtain ⟨hmark, hlead, hx⟩ := lead_two (x := c.toNat / 64 % 0x20) (by omega)
      obtain ⟨htrail, hy⟩ := trail (x := c.toNat % 0x40) (by omega)
      simp only [decodeUtf8, List.cons_append, byteAt_zero, byteAt_succ, toNat_byte (n := c.toNat / 64 % 0x20 + 0xc0) (by omega),
        toNat_byte (n := c.toNat % 0x40 + 0x80) (by omega), if_neg hmark, if_pos hlead, htrail, hx, hy,
        assemble_two (y := c.toNat % 0x40) (by omega)]
      simp
      omega
    · split
      · rename_i hone htwo hthree
        obtain ⟨hmark, hnot, hlead, hx⟩ := lead_three (x := c.toNat / 4096 % 0x10) (by omega)
        obtain ⟨htrail, hy⟩ := trail (x := c.toNat / 64 % 0x40) (by omega)
        obtain ⟨htrail', hz⟩ := trail (x := c.toNat % 0x40) (by omega)
        simp only [decodeUtf8, List.cons_append, byteAt_zero, byteAt_succ,
          toNat_byte (n := c.toNat / 4096 % 0x10 + 0xe0) (by omega), toNat_byte (n := c.toNat / 64 % 0x40 + 0x80) (by omega),
          toNat_byte (n := c.toNat % 0x40 + 0x80) (by omega), if_neg hmark, if_neg hnot, if_pos hlead, htrail, htrail', hx, hy, hz,
          assemble_three (y := c.toNat / 64 % 0x40) (z := c.toNat % 0x40) (by omega) (by omega)]
        simp
        omega
      · rename_i hone htwo hthree
        obtain ⟨hmark, hnot, hnot', hlead, hx⟩ := lead_four (x := c.toNat / 262144 % 0x08) (by omega)
        obtain ⟨htrail, hy⟩ := trail (x := c.toNat / 4096 % 0x40) (by omega)
        obtain ⟨htrail', hz⟩ := trail (x := c.toNat / 64 % 0x40) (by omega)
        obtain ⟨htrail'', hw⟩ := trail (x := c.toNat % 0x40) (by omega)
        simp only [decodeUtf8, List.cons_append, byteAt_zero, byteAt_succ,
          toNat_byte (n := c.toNat / 262144 % 0x08 + 0xf0) (by omega), toNat_byte (n := c.toNat / 4096 % 0x40 + 0x80) (by omega),
          toNat_byte (n := c.toNat / 64 % 0x40 + 0x80) (by omega),
          toNat_byte (n := c.toNat % 0x40 + 0x80) (by omega), if_neg hmark, if_neg hnot, if_neg hnot', if_pos hlead, htrail, htrail',
          htrail'', hx, hy, hz, hw,
          assemble_four (y := c.toNat / 4096 % 0x40) (z := c.toNat / 64 % 0x40) (w := c.toNat % 0x40) (by omega) (by omega) (by omega)]
        simp
        omega

theorem xor_mark {k : Nat} (h : x < 2 ^ k) (hk : n % 2 ^ k = 0) : n ^^^ x = x + n := by
  obtain ⟨m, rfl⟩ := Nat.dvd_of_mod_eq_zero hk
  rw [Nat.mul_comm, ← Nat.shiftLeft_eq]
  have hor : m <<< k ^^^ x = m <<< k ||| x := by
    apply Nat.eq_of_testBit_eq
    intro i
    rw [Nat.testBit_xor, Nat.testBit_or, Nat.testBit_shiftLeft]
    by_cases hi : k ≤ i
    · have hx : x.testBit i = false := Nat.testBit_lt_two_pow (lt_of_lt_of_le h (Nat.pow_le_pow_right (by omega) hi))
      simp [hx]
    · simp [hi]
  rw [hor, ← Nat.shiftLeft_add_eq_or_of_lt h, Nat.add_comm]

/-- The number of significant bits decides between the lengths. -/
theorem bits_lt {k : Nat} (hpos : 0 < n) (hn : n < 2 ^ 64) :
    mostsigbitSet (BitVec.ofNat 64 n) + 1 < (k + 1 : Nat) ↔ n < 2 ^ k := by
  have hword : BitVec.ofNat 64 n ≠ 0#64 := by
    intro h
    have := congrArg BitVec.toNat h
    simp only [BitVec.toNat_ofNat] at this
    omega
  rw [mostsigbitSet_eq hword, BitVec.toNat_ofNat, Nat.mod_eq_of_lt hn, ← Nat.log2_lt (by omega)]
  omega

theorem writeUtf8_char (out : List UInt8) (c : Char) : writeUtf8 out c.toNat = .ok (out ++ String.utf8EncodeChar c) := by
  have hc := char_lt c
  have hval : c.val.toNat = c.toNat := rfl
  rw [writeUtf8, if_neg (by omega)]
  simp only [String.utf8EncodeChar, hval]
  by_cases hone : c.toNat ≤ 0x7f
  · rw [if_pos (by omega), if_pos hone, Int.toNat_natCast]
  · have hhigh : ¬21 < mostsigbitSet (BitVec.ofNat 64 c.toNat) + 1 := by
      have := (bits_lt (k := 21) (n := c.toNat) (by omega) (by omega)).mpr (by omega)
      omega
    have htwo := bits_lt (k := 11) (n := c.toNat) (by omega) (by omega)
    have hthree := bits_lt (k := 16) (n := c.toNat) (by omega) (by omega)
    rw [if_neg (by omega), Int.toNat_natCast, if_neg hhigh, if_neg hone]
    have hlow (k m : Nat) (v : Nat) (hm : m = 2 ^ k - 1) : v &&& m = v % 2 ^ k := by
      rw [hm, Nat.and_two_pow_sub_one_eq_mod]
    congr 2
    simp only [utf8Bytes, hlow 6 0x3f _ rfl, hlow 5 0x1f _ rfl, hlow 4 0xf _ rfl, hlow 3 7 _ rfl, Nat.shiftRight_eq_div_pow]
    have hcont (v : Nat) : 0x80 ^^^ v % 2 ^ 6 = v % 2 ^ 6 + 0x80 := xor_mark (k := 6) (by omega) rfl
    have hlead₂ (v : Nat) : 0xc0 ^^^ v % 2 ^ 5 = v % 2 ^ 5 + 0xc0 := xor_mark (k := 5) (by omega) rfl
    have hlead₃ (v : Nat) : 0xe0 ^^^ v % 2 ^ 4 = v % 2 ^ 4 + 0xe0 := xor_mark (k := 4) (by omega) rfl
    have hlead₄ (v : Nat) : 0xf0 ^^^ v % 2 ^ 3 = v % 2 ^ 3 + 0xf0 := xor_mark (k := 3) (by omega) rfl
    simp only [hcont, hlead₂, hlead₃, hlead₄]
    by_cases h₂ : c.toNat ≤ 0x7ff
    · rw [if_pos (by omega), if_pos h₂]
      rfl
    · rw [if_neg (by omega), if_neg h₂]
      by_cases h₃ : c.toNat ≤ 0xffff
      · rw [if_pos (by omega), if_pos h₃]
        rfl
      · rw [if_neg (by omega), if_neg h₃]
        rfl

end GhidraDecompiler.Strings
