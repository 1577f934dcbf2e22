import GhidraDecompiler.Lib.BitPieces

namespace ShiftChains

open BitPieces BitWindows

variable {w : Nat} {x : BitVec w} {a b s : Nat}

theorem shiftLeft_shiftLeft (h : w ≤ b + a) : x <<< b <<< a = 0#w := by
  rw [← BitVec.shiftLeft_add, BitVec.shiftLeft_eq_zero h]

theorem ushiftRight_ushiftRight (h : w ≤ b + a) : x >>> b >>> a = 0#w := by
  rw [← BitVec.shiftRight_add, BitVec.ushiftRight_eq_zero h]

/-- Arithmetic shifts add up, to the sign at the most. -/
theorem sshiftRight_sshiftRight (hw : 0 < w) (h : s = b + a ∨ w ≤ b + a ∧ s = w - 1) : (x.sshiftRight b).sshiftRight a = x.sshiftRight s := by
  rw [← BitVec.sshiftRight_add]
  rcases h with rfl | ⟨hle, rfl⟩
  · rfl
  · have hsign : w ≤ w - 1 + if true then 1 else 0 := by simp only [if_true]; omega
    exact shiftRight_clamp hle hsign

/-- What a shift to the left and one to the right leave, as one shift of the lower bits. -/
theorem shiftLeft_ushiftRight_eq_left (h : a ≤ b) : x <<< b >>> a = (x &&& BitVec.allOnes w >>> b) <<< (b - a) := by
  apply BitVec.eq_of_getLsbD_eq
  intro i hi
  simp only [BitVec.getLsbD_ushiftRight, BitVec.getLsbD_shiftLeft, BitVec.getLsbD_and, BitVec.getLsbD_allOnes]
  by_cases hlow : i < b - a
  · have : a + i < b := by omega
    simp only [hlow, this, decide_true, Bool.not_true, Bool.and_false, Bool.false_and]
  · have hindex : a + i - b = i - (b - a) := by omega
    have hshift : b + (i - (b - a)) = a + i := by omega
    have hnot : ¬ a + i < b := by omega
    simp only [hindex, hshift, hlow, hnot, hi, decide_true, decide_false, Bool.not_false, Bool.true_and, Bool.and_true]
    exact Bool.and_comm _ _

theorem shiftLeft_ushiftRight_eq_right (h : b ≤ a) : x <<< b >>> a = (x &&& BitVec.allOnes w >>> b) >>> (a - b) := by
  apply BitVec.eq_of_getLsbD_eq
  intro i hi
  simp only [BitVec.getLsbD_ushiftRight, BitVec.getLsbD_shiftLeft, BitVec.getLsbD_and, BitVec.getLsbD_allOnes]
  have hindex : a + i - b = a - b + i := by omega
  have hshift : b + (a - b + i) = a + i := by omega
  have hnot : ¬ a + i < b := by omega
  simp only [hindex, hshift, hnot, decide_false, Bool.not_false, Bool.and_true]
  exact Bool.and_comm _ _

theorem shiftRight_zero (signed : Bool) (x : BitVec w) : shiftRight signed x 0 = x := by
  cases signed with
  | false => exact BitVec.ushiftRight_zero x
  | true => exact BitVec.sshiftRight_zero

theorem fill_msb_fillTo {h : Nat} (signed : Bool) (x : BitVec h) (hh : 0 < h) (hw : h ≤ w) :
    (signed && (fillTo signed x w).msb) = (signed && x.msb) := by
  rw [BitVec.msb_eq_getLsbD_last, getLsbD_fillTo (by omega)]
  split
  · next hlt =>
      have heq : w = h := by omega
      subst heq
      rw [BitVec.msb_eq_getLsbD_last]
  · rw [← Bool.and_assoc, Bool.and_self]

/-- The low part of a concatenation is shifted out. -/
theorem shiftRight_piece {h l : Nat} (signed : Bool) (x : BitVec h) (y : BitVec l) (hh : 0 < h) (hw : h + l = w) (hs : l ≤ s) :
    shiftRight signed (piece w x y) s = shiftRight signed (fillTo signed x w) (s - l) := by
  subst hw
  apply BitVec.eq_of_getLsbD_eq
  intro i hi
  rw [getLsbD_shiftRight hi, getLsbD_shiftRight hi, msb_piece hh, fill_msb_fillTo signed x hh (by omega)]
  by_cases hlow : s + i < h + l
  · have hindex : s - l + i = s + i - l := by omega
    rw [if_pos hlow, if_pos (by omega), getLsbD_piece le_rfl, if_neg (by omega), getLsbD_fillTo (by omega), if_pos (by omega), hindex]
  · rw [if_neg hlow]
    split
    · rw [getLsbD_fillTo (by omega), if_neg (by omega)]
    · rfl

/-- The lower part is shifted up and back. -/
theorem shiftRight_shiftLeft {t : Nat} (signed : Bool) (x : BitVec w) (ht : 0 < t) (hw : t + s = w) :
    shiftRight signed (x <<< s) s = fillTo signed (x.extractLsb' 0 t) w := by
  have hmsb : (x <<< s).msb = (x.extractLsb' 0 t).msb := by
    rw [BitVec.msb_eq_getLsbD_last, BitVec.msb_eq_getLsbD_last, BitVec.getLsbD_shiftLeft, BitVec.getLsbD_extractLsb',
      decide_eq_true (by omega), decide_eq_false (by omega), decide_eq_true (by omega), Bool.not_false, Bool.true_and, Bool.true_and,
      Bool.true_and]
    congr 1
    omega
  apply BitVec.eq_of_getLsbD_eq
  intro i hi
  rw [getLsbD_shiftRight hi, getLsbD_fillTo hi, hmsb]
  by_cases hlow : i < t
  · rw [if_pos (by omega), if_pos hlow, BitVec.getLsbD_shiftLeft, BitVec.getLsbD_extractLsb', decide_eq_true (by omega),
      decide_eq_false (by omega), decide_eq_true hlow, Bool.not_false, Bool.true_and, Bool.true_and, Bool.true_and]
    congr 1
    omega
  · rw [if_neg (by omega), if_neg hlow]

theorem and_low_eq_iff : x &&& BitVec.allOnes w >>> s = x ↔ ∀ i, x.getLsbD i = true → i + s < w := by
  constructor
  · intro heq i hbit
    rw [← heq, BitVec.getLsbD_and, BitVec.getLsbD_ushiftRight, BitVec.getLsbD_allOnes, Bool.and_eq_true, decide_eq_true_iff] at hbit
    omega
  · intro hall
    apply BitVec.eq_of_getLsbD_eq
    intro i hi
    rw [BitVec.getLsbD_and, BitVec.getLsbD_ushiftRight, BitVec.getLsbD_allOnes]
    cases hbit : x.getLsbD i with
    | false => rw [Bool.false_and]
    | true =>
        have := hall i hbit
        rw [decide_eq_true (by omega), Bool.and_true]

theorem high_eq_iff : x >>> s <<< s = x ↔ ∀ i < s, x.getLsbD i = false := by
  rw [BitVec.shiftLeft_ushiftRight]
  constructor
  · intro heq i hi
    rw [← heq, BitVec.getLsbD_and, BitVec.getLsbD_shiftLeft, decide_eq_true hi, Bool.not_true, Bool.and_false, Bool.false_and,
      Bool.and_false]
  · intro hall
    apply BitVec.eq_of_getLsbD_eq
    intro i hi
    rw [BitVec.getLsbD_and, BitVec.getLsbD_shiftLeft, BitVec.getLsbD_allOnes]
    by_cases hlow : i < s
    · rw [hall i hlow, Bool.false_and]
    · rw [decide_eq_true hi, decide_eq_false hlow, decide_eq_true (by omega), Bool.not_false, Bool.true_and, Bool.true_and, Bool.and_true]

/-- What is shifted up is compared with a number that has nothing below by its lower bits. -/
theorem shiftLeft_eq_iff {c : BitVec w} (hc : c >>> s <<< s = c) : x <<< s = c ↔ x &&& BitVec.allOnes w >>> s = c >>> s := by
  constructor
  · rintro rfl
    rw [shiftLeft_ushiftRight_eq_left le_rfl, Nat.sub_self, BitVec.shiftLeft_zero]
  · intro heq
    rw [← hc, ← heq]
    apply BitVec.eq_of_getLsbD_eq
    intro i hi
    simp only [BitVec.getLsbD_shiftLeft, BitVec.getLsbD_and, BitVec.getLsbD_ushiftRight, BitVec.getLsbD_allOnes]
    by_cases hlow : i < s
    · simp only [hlow, decide_true, Bool.not_true, Bool.and_false, Bool.false_and]
    · have hindex : s + (i - s) = i := by omega
      simp only [hindex, hi, decide_true, Bool.and_true]

/-- What is shifted down, with nothing below, is compared as it was before. -/
theorem ushiftRight_eq_iff {c : BitVec w} (hx : x >>> s <<< s = x) (hc : c <<< s >>> s = c) : x >>> s = c ↔ x = c <<< s := by
  constructor
  · rintro rfl
    exact hx.symm
  · rintro rfl
    exact hc

/-- A product with a multiple of a power of two depends on the lower bits. -/
theorem mul_congr_low {c y : BitVec w} (hs : s ≤ w) (hc : 2 ^ s ∣ c.toNat) (h : x.extractLsb' 0 (w - s) = y.extractLsb' 0 (w - s)) :
    x * c = y * c := by
  obtain ⟨q, hq⟩ := hc
  have hmod : x.toNat ≡ y.toNat [MOD 2 ^ (w - s)] := by
    have hval := congrArg BitVec.toNat h
    rw [BitVec.extractLsb'_toNat, BitVec.extractLsb'_toNat, Nat.shiftRight_zero, Nat.shiftRight_zero] at hval
    exact hval
  have hpow : 2 ^ w = 2 ^ (w - s) * 2 ^ s := by rw [← Nat.pow_add, Nat.sub_add_cancel hs]
  apply BitVec.eq_of_toNat_eq
  rw [BitVec.toNat_mul, BitVec.toNat_mul, hq, ← Nat.mul_assoc, ← Nat.mul_assoc, hpow]
  exact (hmod.mul_right' _).mul_right _

theorem extract_add (y : BitVec w) {n : Nat} (hn : n ≤ w) : (x + y).extractLsb' 0 n = x.extractLsb' 0 n + y.extractLsb' 0 n := by
  rw [← BitVec.setWidth_eq_extractLsb' hn, ← BitVec.setWidth_eq_extractLsb' hn, ← BitVec.setWidth_eq_extractLsb' hn, BitVec.setWidth_add _ _ hn]

theorem extract_mul (y : BitVec w) {n : Nat} (hn : n ≤ w) : (x * y).extractLsb' 0 n = x.extractLsb' 0 n * y.extractLsb' 0 n := by
  rw [← BitVec.setWidth_eq_extractLsb' hn, ← BitVec.setWidth_eq_extractLsb' hn, ← BitVec.setWidth_eq_extractLsb' hn, BitVec.setWidth_mul _ _ hn]

end ShiftChains
