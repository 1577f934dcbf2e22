import GhidraDecompiler.Lib.BitWords

/-! Words as rows of bytes. -/

namespace GhidraDecompiler.ByteLanes

open BitWords

variable {w : Nat} {x y v : BitVec w} {i j k n : Nat}

/-- The bytes of a word, from the lowest one. -/
def lane (x : BitVec w) (k : Nat) : BitVec 8 := x.extractLsb' (8 * k) 8

theorem getLsbD_lane (x : BitVec w) (hi : i < 8) : (lane x k).getLsbD i = x.getLsbD (8 * k + i) := by
  rw [lane, BitVec.getLsbD_extractLsb', decide_eq_true hi, Bool.true_and]

theorem eq_of_lanes (hw : w = 8 * n) (h : ∀ k < n, lane x k = lane y k) : x = y := by
  refine BitVec.eq_of_getLsbD_eq fun i hi => ?_
  have hbit := congrArg (fun b => b.getLsbD (i % 8)) (h (i / 8) (by omega))
  simp only [getLsbD_lane _ (show i % 8 < 8 by omega)] at hbit
  rwa [show 8 * (i / 8) + i % 8 = i by omega] at hbit

@[simp] theorem lane_zero : lane (0#w) k = 0#8 := by
  refine BitVec.eq_of_getLsbD_eq fun i hi => ?_
  rw [getLsbD_lane _ hi, BitVec.getLsbD_zero, BitVec.getLsbD_zero]

@[simp] theorem lane_or : lane (x ||| y) k = lane x k ||| lane y k := by
  refine BitVec.eq_of_getLsbD_eq fun i hi => ?_
  simp only [getLsbD_lane _ hi, BitVec.getLsbD_or]

@[simp] theorem lane_and : lane (x &&& y) k = lane x k &&& lane y k := by
  refine BitVec.eq_of_getLsbD_eq fun i hi => ?_
  simp only [getLsbD_lane _ hi, BitVec.getLsbD_and]

theorem lane_not (hk : 8 * (k + 1) ≤ w) : lane (~~~x) k = ~~~lane x k := by
  refine BitVec.eq_of_getLsbD_eq fun i hi => ?_
  rw [getLsbD_lane _ hi, BitVec.getLsbD_not, BitVec.getLsbD_not, getLsbD_lane _ hi, decide_eq_true hi,
    decide_eq_true (by omega)]

theorem lane_shiftLeft (hk : 8 * (k + 1) ≤ w) : lane (x <<< (8 * j)) k = if k < j then 0#8 else lane x (k - j) := by
  refine BitVec.eq_of_getLsbD_eq fun i hi => ?_
  rw [getLsbD_lane _ hi, BitVec.getLsbD_shiftLeft, decide_eq_true (by omega), Bool.true_and]
  split
  · next hlt => rw [decide_eq_true (by omega), Bool.not_true, Bool.false_and, BitVec.getLsbD_zero]
  · next hge =>
      rw [decide_eq_false (by omega), Bool.not_false, Bool.true_and, getLsbD_lane _ hi,
        show 8 * k + i - 8 * j = 8 * (k - j) + i by omega]

theorem lane_ushiftRight : lane (x >>> (8 * j)) k = lane x (k + j) := by
  refine BitVec.eq_of_getLsbD_eq fun i hi => ?_
  rw [getLsbD_lane _ hi, BitVec.getLsbD_ushiftRight, getLsbD_lane _ hi, show 8 * j + (8 * k + i) = 8 * (k + j) + i by omega]

theorem lane_of_ge (hk : w ≤ 8 * k) : lane x k = 0#8 := by
  refine BitVec.eq_of_getLsbD_eq fun i hi => ?_
  rw [getLsbD_lane _ hi, getLsbD_of_le x (by omega), BitVec.getLsbD_zero]

theorem lane_allOnes (hk : 8 * (k + 1) ≤ w) : lane (BitVec.allOnes w) k = BitVec.allOnes 8 := by
  refine BitVec.eq_of_getLsbD_eq fun i hi => ?_
  rw [getLsbD_lane _ hi, BitVec.getLsbD_allOnes, BitVec.getLsbD_allOnes, decide_eq_true hi, decide_eq_true (by omega)]

/-- A word that is below a power of the byte has no bytes from there on. -/
theorem lt_iff_lanes : x.toNat < 2 ^ (8 * j) ↔ ∀ k, j ≤ k → lane x k = 0#8 := by
  constructor
  · intro hlt k hk
    refine BitVec.eq_of_getLsbD_eq fun i hi => ?_
    rw [getLsbD_lane _ hi, BitVec.getLsbD_zero]
    exact Nat.testBit_lt_two_pow (hlt.trans_le (Nat.pow_le_pow_right (by omega) (by omega)))
  · intro hlanes
    refine Nat.lt_pow_two_of_testBit _ fun i hi => ?_
    have hbit := congrArg (fun b => b.getLsbD (i % 8)) (hlanes (i / 8) (by omega))
    simp only [getLsbD_lane _ (show i % 8 < 8 by omega), BitVec.getLsbD_zero] at hbit
    rwa [show 8 * (i / 8) + i % 8 = i by omega] at hbit

end GhidraDecompiler.ByteLanes
