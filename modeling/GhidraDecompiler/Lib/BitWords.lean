import Mathlib.Data.Nat.Bitwise
import Mathlib.Tactic.IntervalCases

/-! Values of a narrow width that are kept in a wider word. -/

namespace GhidraDecompiler.BitWords

variable {n w u : Nat}

/-- The mask of the low bits cuts a word down to them. -/
theorem and_mask (x : BitVec n) (w : Nat) : x &&& (BitVec.allOnes w).setWidth n = (x.setWidth w).setWidth n := by
  refine BitVec.eq_of_getLsbD_eq fun i hi => ?_
  simp only [BitVec.getLsbD_and, BitVec.getLsbD_setWidth, BitVec.getLsbD_allOnes, hi, decide_true, Bool.true_and]
  exact Bool.and_comm _ _

theorem setWidth_narrow (v : BitVec w) (h : w ≤ n) : (v.setWidth n).setWidth w = v := by
  rw [BitVec.setWidth_setWidth_of_le _ h, BitVec.setWidth_eq]

theorem setWidth_widen (v : BitVec w) (h : w ≤ u) : (v.setWidth u).setWidth n = v.setWidth n :=
  BitVec.setWidth_setWidth fun hlt => absurd hlt.1 (Nat.not_lt.mpr h)

theorem toNat_widen (v : BitVec w) (h : w ≤ n) : (v.setWidth n).toNat = v.toNat := BitVec.toNat_setWidth_of_le h

theorem widen_inj (h : w ≤ n) {v v' : BitVec w} : v.setWidth n = v'.setWidth n ↔ v = v' := by
  rw [← BitVec.toNat_inj, toNat_widen v h, toNat_widen v' h, BitVec.toNat_inj]

theorem sub_setWidth (x y : BitVec n) (h : w ≤ n) : (x - y).setWidth w = x.setWidth w - y.setWidth w := by
  rw [BitVec.sub_eq_add_neg, BitVec.setWidth_add _ _ h, BitVec.setWidth_neg_of_le h, ← BitVec.sub_eq_add_neg]

theorem getLsbD_of_le (v : BitVec w) {i : Nat} (h : w ≤ i) : v.getLsbD i = false := BitVec.getLsbD_of_ge v i h

/-! Shifting a value to the top of the word and back down. -/

theorem msb_shiftUp (v : BitVec w) (h : w ≤ n) (hpos : 0 < w) : ((v.setWidth n) <<< (n - w)).msb = v.msb := by
  rw [BitVec.msb_eq_getLsbD_last, BitVec.getLsbD_shiftLeft, BitVec.getLsbD_setWidth, BitVec.msb_eq_getLsbD_last,
    show n - 1 - (n - w) = w - 1 by omega]
  simp [show 0 < n by omega, show ¬ n - 1 < n - w by omega, show w - 1 < n by omega]

theorem shiftUp_sshiftRight (v : BitVec w) (h : w ≤ n) (hpos : 0 < w) :
    ((v.setWidth n) <<< (n - w)).sshiftRight (n - w) = v.signExtend n := by
  refine BitVec.eq_of_getLsbD_eq fun i hi => ?_
  rw [BitVec.getLsbD_sshiftRight, msb_shiftUp v h hpos, BitVec.getLsbD_signExtend]
  by_cases hlt : i < w
  · simp [hi, hlt, show n - w + i < n by omega, show ¬ n ≤ i by omega]
  · simp [hi, hlt, show ¬ n - w + i < n by omega, show ¬ n ≤ i by omega]

theorem shiftUp_ushiftRight (x : BitVec n) (h : w ≤ n) : (x <<< (n - w)) >>> (n - w) = (x.setWidth w).setWidth n := by
  refine BitVec.eq_of_getLsbD_eq fun i hi => ?_
  by_cases hlt : i < w
  · simp [hi, hlt, show n - w + i < n by omega]
  · simp [hi, hlt, show ¬ n - w + i < n by omega]

theorem shiftUp_sshiftRight_ushiftRight (v : BitVec w) (hpos : 0 < w) (hwu : w ≤ u) (hun : u ≤ n) :
    (((v.setWidth n) <<< (n - w)).sshiftRight (u - w)) >>> (n - u) = (v.signExtend u).setWidth n := by
  refine BitVec.eq_of_getLsbD_eq fun i hi => ?_
  rw [BitVec.getLsbD_ushiftRight, BitVec.getLsbD_sshiftRight, msb_shiftUp v (hwu.trans hun) hpos, BitVec.getLsbD_setWidth,
    BitVec.getLsbD_signExtend]
  by_cases hlu : i < u
  · by_cases hlt : i < w
    · simp [hi, hlt, hlu, show u - w + (n - u + i) < n by omega, show ¬ n ≤ n - u + i by omega,
        show ¬ u - w + (n - u + i) < n - w by omega, show u - w + (n - u + i) - (n - w) = i by omega]
    · simp [hi, hlt, hlu, show ¬ u - w + (n - u + i) < n by omega, show ¬ n ≤ n - u + i by omega]
  · simp [hi, hlu, show n ≤ n - u + i by omega]

/-! The operations on narrow values, done in the wide word. -/

theorem toInt_setWidth (x : BitVec n) (h : w ≤ n) : (x.setWidth w).toInt = x.toInt.bmod (2 ^ w) := by
  rw [← BitVec.signExtend_eq_setWidth_of_le _ h, BitVec.toInt_signExtend_eq_toInt_bmod_of_le _ h]

theorem sdiv_signExtend (x y : BitVec w) (h : w ≤ n) : ((x.signExtend n).sdiv (y.signExtend n)).setWidth w = x.sdiv y := by
  apply BitVec.eq_of_toInt_eq
  rw [toInt_setWidth _ h, BitVec.toInt_sdiv, BitVec.toInt_sdiv, BitVec.toInt_signExtend_of_le h,
    BitVec.toInt_signExtend_of_le h, Int.bmod_bmod_of_dvd (Nat.pow_dvd_pow 2 h)]

theorem srem_signExtend (x y : BitVec w) (h : w ≤ n) : ((x.signExtend n).srem (y.signExtend n)).setWidth w = x.srem y := by
  apply BitVec.eq_of_toInt_eq
  rw [toInt_setWidth _ h, BitVec.toInt_srem, BitVec.toInt_signExtend_of_le h, BitVec.toInt_signExtend_of_le h,
    ← BitVec.toInt_srem, BitVec.toInt_bmod_cancel]

theorem signExtend_eq_zero (x : BitVec w) (h : w ≤ n) : x.signExtend n = 0#n ↔ x = 0#w := by
  rw [← BitVec.toInt_inj, ← BitVec.toInt_inj, BitVec.toInt_signExtend_of_le h, BitVec.toInt_zero, BitVec.toInt_zero]

theorem udiv_widen (x y : BitVec w) (h : w ≤ n) : x.setWidth n / y.setWidth n = (x / y).setWidth n := by
  apply BitVec.eq_of_toNat_eq
  rw [BitVec.toNat_udiv, toNat_widen _ h, toNat_widen _ h, toNat_widen _ h, BitVec.toNat_udiv]

theorem umod_widen (x y : BitVec w) (h : w ≤ n) : x.setWidth n % y.setWidth n = (x % y).setWidth n := by
  apply BitVec.eq_of_toNat_eq
  rw [BitVec.toNat_umod, toNat_widen _ h, toNat_widen _ h, toNat_widen _ h, BitVec.toNat_umod]

theorem shiftLeft_widen (x : BitVec w) (h : w ≤ n) (i : Nat) :
    ((x.setWidth n <<< i).setWidth w) = x <<< i := by
  refine BitVec.eq_of_getLsbD_eq fun j hj => ?_
  simp only [BitVec.getLsbD_setWidth, BitVec.getLsbD_shiftLeft, hj, decide_true, Bool.true_and, show j < n by omega]
  by_cases hlt : j < i
  · simp [hlt]
  · simp [hlt, show j - i < n by omega]

theorem ushiftRight_widen (x : BitVec w) (h : w ≤ n) (i : Nat) : x.setWidth n >>> i = (x >>> i).setWidth n := by
  apply BitVec.eq_of_toNat_eq
  rw [BitVec.toNat_ushiftRight, toNat_widen _ h, toNat_widen _ h, BitVec.toNat_ushiftRight]

/-- A signed shift fills the top of a narrow value, when the amount is below its width. -/
theorem sshiftRight_widen (x : BitVec w) (h : w ≤ n) (i : Nat) :
    (x.sshiftRight i).setWidth n =
      x.setWidth n >>> i |||
        if x.msb then ((BitVec.allOnes w).setWidth n >>> i) ^^^ (BitVec.allOnes w).setWidth n else 0#n := by
  refine BitVec.eq_of_getLsbD_eq fun j hj => ?_
  rw [BitVec.getLsbD_setWidth, BitVec.getLsbD_sshiftRight]
  cases hmsb : x.msb with
  | false =>
      simp only [Bool.false_eq_true, if_false, BitVec.getLsbD_or, BitVec.getLsbD_ushiftRight, BitVec.getLsbD_setWidth, hj, decide_true,
        Bool.true_and, BitVec.getLsbD_zero, Bool.or_false]
      by_cases hjw : w ≤ j
      · simp [hjw, show w ≤ i + j by omega]
      · by_cases hij : i + j < w
        · simp [hjw, hij, show i + j < n by omega]
        · simp [hij, show w ≤ i + j by omega]
  | true =>
      simp only [if_true, BitVec.getLsbD_or, BitVec.getLsbD_xor, BitVec.getLsbD_ushiftRight, BitVec.getLsbD_setWidth, hj, decide_true,
        Bool.true_and, BitVec.getLsbD_allOnes]
      by_cases hjw : w ≤ j
      · simp [hjw, show w ≤ i + j by omega, show ¬ j < w by omega, show ¬ i + j < w by omega]
      · by_cases hij : i + j < w
        · simp [hjw, hij, show i + j < n by omega, show j < w by omega]
        · simp [hij, show w ≤ i + j by omega, show j < w by omega]

theorem extract_widen (x : BitVec w) (h : w ≤ n) (start len : Nat) :
    ((x.setWidth n) >>> start).setWidth len = x.extractLsb' start len := by
  refine BitVec.eq_of_getLsbD_eq fun j hj => ?_
  rw [BitVec.getLsbD_setWidth, BitVec.getLsbD_ushiftRight, BitVec.getLsbD_setWidth, BitVec.getLsbD_extractLsb']
  by_cases hlt : start + j < w
  · simp [hj, show start + j < n by omega]
  · simp [show w ≤ start + j by omega]

/-- The number of bits that are set. -/
def countOnes (v : BitVec w) : Nat := (List.range w).countP v.getLsbD

theorem countOnes_le (v : BitVec w) : countOnes v ≤ w := by
  rw [countOnes]
  simpa using List.countP_le_length (p := v.getLsbD) (l := List.range w)

theorem countOnes_widen (v : BitVec w) (h : w ≤ n) : countOnes (v.setWidth n) = countOnes v := by
  obtain ⟨k, rfl⟩ := Nat.exists_eq_add_of_le h
  rw [countOnes, countOnes, List.range_add, List.countP_append, List.countP_map]
  have hlow : (List.range w).countP (v.setWidth (w + k)).getLsbD = (List.range w).countP v.getLsbD := by
    refine List.countP_congr fun i hi => ?_
    rw [BitVec.getLsbD_setWidth, decide_eq_true ((List.mem_range.mp hi).trans_le h), Bool.true_and]
  have hhigh : (List.range k).countP ((v.setWidth (w + k)).getLsbD ∘ fun i => w + i) = 0 := by
    refine List.countP_eq_zero.mpr fun i _ => ?_
    simp
  rw [hlow, hhigh, Nat.add_zero]

/-- The number of zeros above the highest bit that is set. -/
def leadingZeros (v : BitVec w) : Nat := if v = 0#w then w else w - 1 - v.toNat.log2

theorem log2_lt {v : BitVec w} (hv : v ≠ 0#w) : v.toNat.log2 < w :=
  (Nat.log2_lt fun h => hv (BitVec.eq_of_toNat_eq h)).mpr v.isLt

theorem leadingZeros_widen (v : BitVec w) (h : w ≤ n) : leadingZeros (v.setWidth n) = leadingZeros v + (n - w) := by
  have hzero : v.setWidth n = 0#n ↔ v = 0#w := by
    rw [← BitVec.toNat_inj, ← BitVec.toNat_inj, toNat_widen v h]
    simp
  by_cases hv : v = 0#w
  · rw [leadingZeros, if_pos (hzero.mpr hv), leadingZeros, if_pos hv]
    omega
  · have := log2_lt hv
    rw [leadingZeros, if_neg (mt hzero.mp hv), leadingZeros, if_neg hv, toNat_widen v h]
    omega

theorem leadingZeros_le (v : BitVec w) : leadingZeros v ≤ w := by
  rw [leadingZeros]
  split
  · exact le_rfl
  · omega

end GhidraDecompiler.BitWords
