import GhidraDecompiler.Pcode.Comparisons

namespace GhidraDecompiler.Pcode

open BitWords

/-- An evaluation succeeds with a number. -/
def Gives (res : Except Error Word) (v : Nat) : Prop := ∃ out, res = .ok out ∧ out.toNat = v

/-- The arithmetic right shift and the sign extension of numbers of `n` bytes. -/
def sarOf (n x sa : Nat) : Nat :=
  if x < minSigned n then x / 2 ^ sa else 2 ^ (8 * n) - 1 - (2 ^ (8 * n) - 1 - x) / 2 ^ sa

def sextOf (n m x : Nat) : Nat := if x < minSigned n then x else x + (2 ^ (8 * m) - 2 ^ (8 * n))

section Values

variable {n m x y v : Nat}

theorem Gives.widen {w : Nat} (hw : w ≤ 64) {b : BitVec w} {res : Except Error Word} (h : res = .ok (b.setWidth 64))
    (hv : b.toNat = v) : Gives res v := ⟨_, h, by rw [toNat_widen _ hw, hv]⟩

theorem pow_le_word (h : ByteSize n) : 2 ^ (8 * n) ≤ 2 ^ 64 := Nat.pow_le_pow_right (by decide) h.width_le

theorem pow_dvd_word (h : ByteSize n) : 2 ^ (8 * n) ∣ 2 ^ 64 := Nat.pow_dvd_pow 2 h.width_le

theorem toNat_word (h : ByteSize n) (hx : x < 2 ^ (8 * n)) : (BitVec.ofNat 64 x).toNat = x := by
  rw [BitVec.toNat_ofNat, Nat.mod_eq_of_lt (hx.trans_le (pow_le_word h))]

theorem toNat_narrow (hx : x < 2 ^ (8 * n)) : (BitVec.ofNat (8 * n) x).toNat = x := by
  rw [BitVec.toNat_ofNat, Nat.mod_eq_of_lt hx]

theorem msb_ofNat (h : ByteSize n) (hx : x < 2 ^ (8 * n)) :
    (BitVec.ofNat (8 * n) x).msb = decide (minSigned n ≤ x) := by
  have htwo := two_minSigned h
  rw [BitVec.msb_eq_decide, toNat_narrow hx]
  rfl

theorem minSigned_lt (h : ByteSize n) : minSigned n < 2 ^ (8 * n) := by
  have := two_minSigned h
  have := minSigned_pos n
  omega

theorem sarOf_lt (hx : x < 2 ^ (8 * n)) (sa : Nat) : sarOf n x sa < 2 ^ (8 * n) := by
  rw [sarOf]
  split
  · exact (Nat.div_le_self _ _).trans_lt hx
  · exact (Nat.sub_le _ _).trans_lt (Nat.sub_one_lt (Nat.two_pow_pos _).ne')

theorem sextOf_lt (h : ByteSize n) (hle : n ≤ m) (hx : x < 2 ^ (8 * n)) : sextOf n m x < 2 ^ (8 * m) := by
  have := two_minSigned h
  have : 2 ^ (8 * n) ≤ 2 ^ (8 * m) := Nat.pow_le_pow_right (by decide) (by omega)
  rw [sextOf]
  split <;> omega

end Values

section Binary

variable {n m x y : Nat}

theorem gives_intAdd (h : ByteSize n) (hx : x < 2 ^ (8 * n)) (hy : y < 2 ^ (8 * n)) :
    Gives (evaluateBinary .intAdd n n (BitVec.ofNat 64 x) (BitVec.ofNat 64 y)) ((x + y) % 2 ^ (8 * n)) := by
  rw [ofNat_widen h hx, ofNat_widen h hy]
  refine .widen h.width_le (b := BitVec.ofNat (8 * n) x + BitVec.ofNat (8 * n) y) ?_ ?_
  · simp only [evaluateBinary, add_and_calcMask h, setWidth_narrow _ h.width_le]
  · rw [BitVec.toNat_add, toNat_narrow hx, toNat_narrow hy]

theorem gives_ptrsub (h : ByteSize n) (hx : x < 2 ^ (8 * n)) (hy : y < 2 ^ (8 * n)) :
    Gives (evaluateBinary .ptrsub n n (BitVec.ofNat 64 x) (BitVec.ofNat 64 y)) ((x + y) % 2 ^ (8 * n)) :=
  gives_intAdd h hx hy

theorem gives_intSub (h : ByteSize n) (hx : x < 2 ^ (8 * n)) (hy : y < 2 ^ (8 * n)) :
    Gives (evaluateBinary .intSub n n (BitVec.ofNat 64 x) (BitVec.ofNat 64 y)) ((x + (2 ^ (8 * n) - y)) % 2 ^ (8 * n)) := by
  rw [ofNat_widen h hx, ofNat_widen h hy]
  refine .widen h.width_le (b := BitVec.ofNat (8 * n) x - BitVec.ofNat (8 * n) y) ?_ ?_
  · simp only [evaluateBinary, sub_and_calcMask h, setWidth_narrow _ h.width_le]
  · rw [BitVec.toNat_sub, toNat_narrow hx, toNat_narrow hy, Nat.add_comm]

theorem gives_intMult (h : ByteSize n) (hx : x < 2 ^ (8 * n)) (hy : y < 2 ^ (8 * n)) :
    Gives (evaluateBinary .intMult n n (BitVec.ofNat 64 x) (BitVec.ofNat 64 y)) (x * y % 2 ^ (8 * n)) := by
  rw [ofNat_widen h hx, ofNat_widen h hy]
  refine .widen h.width_le (b := BitVec.ofNat (8 * n) x * BitVec.ofNat (8 * n) y) ?_ ?_
  · simp only [evaluateBinary, mul_and_calcMask h, setWidth_narrow _ h.width_le]
  · rw [BitVec.toNat_mul, toNat_narrow hx, toNat_narrow hy]

/-- A shift amount is a number of any legal size. -/
theorem gives_intLeft (h : ByteSize n) (hx : x < 2 ^ (8 * n)) (hy : y < 2 ^ 64) :
    Gives (evaluateBinary .intLeft n n (BitVec.ofNat 64 x) (BitVec.ofNat 64 y)) (x * 2 ^ y % 2 ^ (8 * n)) := by
  rw [ofNat_widen h hx]
  refine .widen h.width_le (intLeft_eq h _ _) ?_
  rw [BitVec.toNat_ofNat, Nat.mod_eq_of_lt hy, BitVec.toNat_shiftLeft, toNat_narrow hx, Nat.shiftLeft_eq]

theorem gives_intRight (h : ByteSize n) (hx : x < 2 ^ (8 * n)) (hy : y < 2 ^ 64) :
    Gives (evaluateBinary .intRight n n (BitVec.ofNat 64 x) (BitVec.ofNat 64 y)) (x / 2 ^ y) := by
  rw [ofNat_widen h hx]
  refine .widen h.width_le (intRight_eq h _ _) ?_
  rw [BitVec.toNat_ofNat, Nat.mod_eq_of_lt hy, BitVec.toNat_ushiftRight, toNat_narrow hx, Nat.shiftRight_eq_div_pow]

theorem toNat_sshiftRight (h : ByteSize n) (hx : x < 2 ^ (8 * n)) (sa : Nat) :
    ((BitVec.ofNat (8 * n) x).sshiftRight sa).toNat = sarOf n x sa := by
  have hmsb := msb_ofNat h hx
  rw [sarOf]
  split
  · next hlt =>
      rw [decide_eq_false (by omega)] at hmsb
      rw [BitVec.toNat_sshiftRight_of_msb_false hmsb, toNat_narrow hx, Nat.shiftRight_eq_div_pow]
  · next hge =>
      rw [decide_eq_true (by omega)] at hmsb
      rw [BitVec.toNat_sshiftRight_of_msb_true hmsb, toNat_narrow hx, Nat.shiftRight_eq_div_pow]

theorem gives_intSright (h : ByteSize n) (hx : x < 2 ^ (8 * n)) (hy : y < 2 ^ 64) :
    Gives (evaluateBinary .intSright n n (BitVec.ofNat 64 x) (BitVec.ofNat 64 y)) (sarOf n x y) := by
  rw [ofNat_widen h hx]
  refine .widen h.width_le (intSright_eq h _ _) ?_
  rw [BitVec.toNat_ofNat, Nat.mod_eq_of_lt hy, toNat_sshiftRight h hx]

theorem gives_subpiece (h : ByteSize n) (hm : ByteSize m) (hx : x < 2 ^ (8 * n)) (hy : y < 2 ^ 64) :
    Gives (evaluateBinary .subpiece m n (BitVec.ofNat 64 x) (BitVec.ofNat 64 y)) (x / 2 ^ (8 * y) % 2 ^ (8 * m)) := by
  rw [ofNat_widen h hx]
  refine .widen hm.width_le (subpiece_eq h hm _ _) ?_
  rw [BitVec.toNat_ofNat, Nat.mod_eq_of_lt hy, BitVec.extractLsb'_toNat, toNat_narrow hx, Nat.shiftRight_eq_div_pow]

end Binary

section Unary

variable {n m x : Nat}

theorem gives_copy (h : ByteSize n) (hx : x < 2 ^ (8 * n)) (m : Int) :
    Gives (evaluateUnary .copy m n (BitVec.ofNat 64 x)) x := ⟨_, rfl, toNat_word h hx⟩

theorem gives_intZext (h : ByteSize n) (hx : x < 2 ^ (8 * n)) (m : Int) :
    Gives (evaluateUnary .intZext m n (BitVec.ofNat 64 x)) x := ⟨_, rfl, toNat_word h hx⟩

theorem gives_intSext (h : ByteSize n) (hm : ByteSize m) (hle : n ≤ m) (hx : x < 2 ^ (8 * n)) :
    Gives (evaluateUnary .intSext m n (BitVec.ofNat 64 x)) (sextOf n m x) := by
  have hmsb := msb_ofNat h hx
  have hpow : 2 ^ (8 * n) ≤ 2 ^ (8 * m) := Nat.pow_le_pow_right (by decide) (by omega)
  rw [ofNat_widen h hx]
  refine .widen hm.width_le (b := (BitVec.ofNat (8 * n) x).signExtend (8 * m)) ?_ ?_
  · rw [evaluateUnary, signExtendSize_eq h hm hle]
  · rw [BitVec.toNat_signExtend, hmsb, toNat_widen _ (by omega), toNat_narrow hx, sextOf]
    simp only [decide_eq_true_eq]
    split <;> split <;> omega

theorem gives_int2comp (h : ByteSize n) (hx : x < 2 ^ (8 * n)) (m : Int) :
    Gives (evaluateUnary .int2comp m n (BitVec.ofNat 64 x)) ((2 ^ (8 * n) - x) % 2 ^ (8 * n)) := by
  rw [ofNat_widen h hx]
  refine .widen h.width_le (b := -BitVec.ofNat (8 * n) x) ?_ ?_
  · rw [evaluateUnary, uintbNegate_sub_one h, setWidth_narrow _ h.width_le]
  · rw [BitVec.toNat_neg, toNat_narrow hx]

theorem gives_intNegate (h : ByteSize n) (hx : x < 2 ^ (8 * n)) (m : Int) :
    Gives (evaluateUnary .intNegate m n (BitVec.ofNat 64 x)) (2 ^ (8 * n) - 1 - x) := by
  rw [ofNat_widen h hx]
  refine .widen h.width_le (b := ~~~BitVec.ofNat (8 * n) x) ?_ ?_
  · rw [evaluateUnary, uintbNegate_eq h, setWidth_narrow _ h.width_le]
  · rw [BitVec.toNat_not, toNat_narrow hx]

theorem gives_boolNegate (hx : x < 2) (m n : Int) :
    Gives (evaluateUnary .boolNegate m n (BitVec.ofNat 64 x)) (1 - x) := by
  refine ⟨_, rfl, ?_⟩
  interval_cases x <;> rfl

end Unary

end GhidraDecompiler.Pcode
