import Mathlib.Data.Nat.Bitwise
import Mathlib.Data.BitVec

/-! The digits of a word in groups of some number of bits, the highest first. -/

namespace GhidraDecompiler.DigitGroups

variable {w : Nat} (b : Nat)

/-- The digit above the lowest `n` groups. -/
def digit (val : BitVec w) (n : Nat) : BitVec w := (val >>> (b * n)) &&& BitVec.ofNat w (2 ^ b - 1)

def digits (val : BitVec w) : Nat → List (BitVec w)
  | 0 => []
  | n + 1 => digit b val n :: digits val n

def gather (acc : BitVec w) (ds : List (BitVec w)) : BitVec w := ds.foldl (fun acc d => acc <<< b ||| d) acc

@[simp] theorem length_digits (val : BitVec w) (n : Nat) : (digits b val n).length = n := by
  induction n with
  | zero => rfl
  | succ n ih => rw [digits, List.length_cons, ih]

theorem shiftLeft_or_digit (val : BitVec w) (n : Nat) : val >>> (b * (n + 1)) <<< b ||| digit b val n = val >>> (b * n) := by
  apply BitVec.eq_of_getLsbD_eq
  intro i hi
  rw [digit, BitVec.getLsbD_or, BitVec.getLsbD_shiftLeft, BitVec.getLsbD_ushiftRight, BitVec.getLsbD_and,
    BitVec.getLsbD_ushiftRight, BitVec.getLsbD_ofNat, Nat.testBit_two_pow_sub_one]
  by_cases hlow : i < b
  · simp [hi, hlow]
  · have hpos : b * (n + 1) + (i - b) = b * n + i := by
      rw [Nat.mul_succ]
      omega
    simp [hi, hlow, hpos]

/-- What is above the lowest groups, with these groups added again. -/
theorem gather_digits (val : BitVec w) (n : Nat) : gather b (val >>> (b * n)) (digits b val n) = val := by
  induction n with
  | zero => simp [gather, digits]
  | succ n ih => rw [digits, gather, List.foldl_cons, shiftLeft_or_digit]; exact ih

/-- A word that fits in the groups is read back from zero. -/
theorem gather_digits_of_lt {val : BitVec w} {n : Nat} (h : val.toNat < 2 ^ (b * n)) : gather b 0 (digits b val n) = val := by
  have hzero : val >>> (b * n) = 0 := by
    apply BitVec.eq_of_toNat_eq
    rw [BitVec.toNat_ushiftRight, Nat.shiftRight_eq_div_pow, Nat.div_eq_of_lt h]
    rfl
  have hall := gather_digits b val n
  rwa [hzero] at hall

end GhidraDecompiler.DigitGroups
