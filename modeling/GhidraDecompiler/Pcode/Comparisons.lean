import GhidraDecompiler.Pcode.Semantics

namespace GhidraDecompiler.Pcode

open BitWords

variable {n a b : Nat}

/-- The most negative value. -/
def minSigned (n : Nat) : Nat := 2 ^ (8 * n - 1)

theorem two_minSigned (h : ByteSize n) : 2 ^ (8 * n) = minSigned n + minSigned n := by
  have := h.width_pos
  rw [minSigned, ← Nat.two_mul, ← Nat.pow_succ']
  congr 1
  omega

theorem minSigned_pos (n : Nat) : 0 < minSigned n := Nat.two_pow_pos _

def signedOf (n a : Nat) : Int := if a < minSigned n then a else a - 2 ^ (8 * n)

theorem toInt_ofNat_eq (h : ByteSize n) (ha : a < 2 ^ (8 * n)) : (BitVec.ofNat (8 * n) a).toInt = signedOf n a := by
  have htwo := two_minSigned h
  rw [BitVec.toInt_eq_toNat_cond, BitVec.toNat_ofNat, Nat.mod_eq_of_lt ha, signedOf]
  push_cast
  split <;> split <;> omega

/-- What the comparisons say about numbers below `2 ^ (8 * n)`. -/
def Holds (n : Nat) : OpCode → Nat → Nat → Bool
  | .intEqual, a, b => a = b
  | .intNotequal, a, b => a ≠ b
  | .intLess, a, b => a < b
  | .intLessequal, a, b => a ≤ b
  | .intSless, a, b => signedOf n a < signedOf n b
  | .intSlessequal, a, b => signedOf n a ≤ signedOf n b
  | .intCarry, a, b => 2 ^ (8 * n) ≤ a + b
  | _, _, _ => false

def comparisonOps : List OpCode :=
  [.intEqual, .intNotequal, .intLess, .intLessequal, .intSless, .intSlessequal, .intCarry]

theorem ofNat_widen (h : ByteSize n) (ha : a < 2 ^ (8 * n)) : BitVec.ofNat 64 a = (BitVec.ofNat (8 * n) a).setWidth 64 := by
  have hle : 2 ^ (8 * n) ≤ 2 ^ 64 := Nat.pow_le_pow_right (by decide) h.width_le
  apply BitVec.eq_of_toNat_eq
  rw [toNat_widen _ h.width_le, BitVec.toNat_ofNat, BitVec.toNat_ofNat, Nat.mod_eq_of_lt ha, Nat.mod_eq_of_lt (by omega)]

theorem evaluate_comparison {opc : OpCode} (hopc : opc ∈ comparisonOps) (h : ByteSize n) (ha : a < 2 ^ (8 * n))
    (hb : b < 2 ^ (8 * n)) :
    evaluateBinary opc 1 n (BitVec.ofNat 64 a) (BitVec.ofNat 64 b) = .ok (ofBool (Holds n opc a b)) := by
  have hmod : ∀ {c}, c < 2 ^ (8 * n) → (BitVec.ofNat (8 * n) c).toNat = c := by
    intro c hc
    rw [BitVec.toNat_ofNat, Nat.mod_eq_of_lt hc]
  have hinj : BitVec.ofNat (8 * n) a = BitVec.ofNat (8 * n) b ↔ a = b := by
    rw [← BitVec.toNat_inj, hmod ha, hmod hb]
  rw [ofNat_widen h ha, ofNat_widen h hb]
  simp only [comparisonOps, List.mem_cons, List.not_mem_nil, or_false] at hopc
  rcases hopc with rfl | rfl | rfl | rfl | rfl | rfl | rfl
  · simp only [evaluateBinary, Holds, beq_widen h]
    congr 2
    rw [Bool.eq_iff_iff, beq_iff_eq, decide_eq_true_iff, hinj]
  · simp only [evaluateBinary, Holds, bne, beq_widen h]
    congr 2
    rw [Bool.eq_iff_iff, Bool.not_eq_true', beq_eq_false_iff_ne, decide_eq_true_iff, Ne, Ne, hinj]
  · simp only [evaluateBinary, Holds, BitVec.ult, toNat_widen _ h.width_le, hmod ha, hmod hb]
  · simp only [evaluateBinary, Holds, BitVec.ule, toNat_widen _ h.width_le, hmod ha, hmod hb]
  · simp only [evaluateBinary, Holds, signedLess_eq h, Bool.false_eq_true, if_false, BitVec.slt, toInt_ofNat_eq h ha,
      toInt_ofNat_eq h hb]
  · simp only [evaluateBinary, Holds, signedLess_eq h, if_true, BitVec.sle, toInt_ofNat_eq h ha, toInt_ofNat_eq h hb]
  · simp only [evaluateBinary, Holds, carry_eq h, BitVec.uaddOverflow, hmod ha, hmod hb, ge_iff_le]

end GhidraDecompiler.Pcode
