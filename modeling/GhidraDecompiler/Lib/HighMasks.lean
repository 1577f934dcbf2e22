import GhidraDecompiler.Lib.SignedPowers

/-! Masks of all the bits from one place on, and sums that are cut down to them. -/

namespace HighMasks

open SignedDivision

variable {w : Nat} {v y c : BitVec w}

theorem toNat_not_of_high (hv : v - 1#w ||| v = BitVec.allOnes w) : ∃ k, k ≤ w ∧ (~~~v).toNat = 2 ^ k - 1 := by
  by_cases hzero : v = 0#w
  · refine ⟨w, le_rfl, ?_⟩
    rw [hzero, BitVec.not_zero, BitVec.toNat_allOnes]
  · have hpos : 0 < v.toNat := Nat.pos_of_ne_zero fun h => hzero (BitVec.eq_of_toNat_eq h)
    have hsum : (~~~v).toNat + 1 = 2 ^ w - v.toNat := by
      have hlt := v.isLt
      rw [BitVec.toNat_not]
      omega
    have hnot : ~~~(v - 1#w) = -v := by rw [← BitVec.not_neg, BitVec.not_not]
    have hand : (-v) &&& ~~~v = 0#w := by
      rw [← hnot, ← BitVec.not_or, hv, BitVec.not_allOnes]
    have hnat : ((~~~v).toNat + 1) &&& ((~~~v).toNat + 1 - 1) = 0 := by
      have htoNat := congrArg BitVec.toNat hand
      rw [BitVec.toNat_and, BitVec.toNat_neg, Nat.mod_eq_of_lt (by omega), ← hsum] at htoNat
      exact htoNat
    obtain ⟨k, hk⟩ := (Nat.and_sub_one_eq_zero_iff_isPowerOfTwo (Nat.succ_ne_zero _)).mp hnat
    refine ⟨k, ?_, by omega⟩
    have hlt : 2 ^ k < 2 ^ w := by omega
    exact ((Nat.pow_lt_pow_iff_right (by decide)).mp hlt).le

/-- The sum of a number that has nothing below the mask is cut down in the other number. -/
theorem add_and (hv : v - 1#w ||| v = BitVec.allOnes w) (hy : y &&& v = y) : (y + c) &&& v = y + (c &&& v) := by
  obtain ⟨k, hk, hlow⟩ := toNat_not_of_high hv
  have hmod : ∀ z : BitVec w, (z &&& ~~~v).toNat = z.toNat % 2 ^ k := fun z => by
    rw [BitVec.toNat_and, hlow, Nat.and_two_pow_sub_one_eq_mod]
  have hyzero : y.toNat % 2 ^ k = 0 := by
    rw [← hmod, ← hy, BitVec.and_assoc, BitVec.and_not_self]
    exact congrArg BitVec.toNat BitVec.and_zero
  have hsame : (y + c) &&& ~~~v = c &&& ~~~v := by
    apply BitVec.eq_of_toNat_eq
    rw [hmod, hmod, BitVec.toNat_add, Nat.mod_mod_of_dvd _ (Nat.pow_dvd_pow 2 hk), Nat.add_mod, hyzero, Nat.zero_add, Nat.mod_mod]
  have hcut : ∀ z : BitVec w, z &&& v = z - (z &&& ~~~v) := fun z => by
    rw [← and_not_eq_sub, BitVec.not_not]
  rw [hcut, hcut, hsame, BitVec.sub_eq_add_neg, BitVec.sub_eq_add_neg, BitVec.add_assoc]

section Wide

variable {u : Nat} {m d : BitVec u}

theorem and_widen (a : BitVec w) : a &&& m.setWidth w = (a.setWidth u &&& m).setWidth w := by
  apply BitVec.eq_of_getLsbD_eq
  intro i hi
  simp only [BitVec.getLsbD_and, BitVec.getLsbD_setWidth, decide_eq_true hi, Bool.true_and]
  by_cases hlt : i < u
  · rw [decide_eq_true hlt, Bool.true_and]
  · rw [BitVec.getLsbD_of_ge m i (not_lt.mp hlt), Bool.and_false, Bool.and_false]

/-- A mask of fewer bits cuts off the carry. -/
theorem lt_of_wide_eq {y z : BitVec w} (h : u ≤ w) (hfit : y.toNat + (z.toNat + (d &&& m).toNat) < 2 ^ w)
    (heq : (y + (z + d.setWidth w)) &&& m.setWidth w = y + (z + (d &&& m).setWidth w)) : y.toNat + (z.toNat + (d &&& m).toNat) < 2 ^ u := by
  have hval := congrArg BitVec.toNat heq
  have hword : ((d &&& m).setWidth w).toNat = (d &&& m).toNat := BitVec.toNat_setWidth_of_le h
  rw [and_widen, BitVec.toNat_setWidth_of_le h, BitVec.toNat_add, BitVec.toNat_add, hword, Nat.mod_eq_of_lt (a := z.toNat + _) (by omega),
    Nat.mod_eq_of_lt hfit] at hval
  rw [← hval]
  exact BitVec.isLt _

/-- Where nothing is carried the sum is cut down as it is in the fewer bits. -/
theorem wide_eq (hm : m - 1#u ||| m = BitVec.allOnes u) {y z : BitVec u} (hy : y &&& m = y) (hz : z &&& m = z) (h : u ≤ w)
    (hfit : y.toNat + (z.toNat + (d &&& m).toNat) < 2 ^ u) :
    (y.setWidth w + (z.setWidth w + d.setWidth w)) &&& m.setWidth w = y.setWidth w + (z.setWidth w + (d &&& m).setWidth w) := by
  have hsum : (y.setWidth w + (z.setWidth w + d.setWidth w)).setWidth u = y + (z + d) := by
    have hback : ∀ a : BitVec u, (a.setWidth w).setWidth u = a := fun a => by rw [BitVec.setWidth_setWidth_of_le _ h, BitVec.setWidth_eq]
    rw [BitVec.setWidth_add _ _ h, BitVec.setWidth_add _ _ h, hback, hback, hback]
  have hpow : 2 ^ u ≤ 2 ^ w := Nat.pow_le_pow_right (by decide) h
  rw [and_widen, hsum, add_and hm hy, add_and hm hz]
  apply BitVec.eq_of_toNat_eq
  rw [BitVec.toNat_setWidth_of_le h, BitVec.toNat_add, BitVec.toNat_add, BitVec.toNat_add, BitVec.toNat_add, BitVec.toNat_setWidth_of_le h,
    BitVec.toNat_setWidth_of_le h, BitVec.toNat_setWidth_of_le h, Nat.mod_eq_of_lt (a := z.toNat + _) (by omega),
    Nat.mod_eq_of_lt (a := z.toNat + _) (by omega), Nat.mod_eq_of_lt hfit, Nat.mod_eq_of_lt (by omega)]

end Wide

end HighMasks
