import Mathlib.Data.Int.Order.Basic
import Mathlib.Tactic.Ring

namespace SignedDivision

/-- Two truncated divisions are one by the product. -/
theorem tdiv_tdiv (x a b : Int) : (x.tdiv a).tdiv b = x.tdiv (a * b) := by
  obtain ⟨n, rfl | rfl⟩ := x.eq_nat_or_neg <;> obtain ⟨k, rfl | rfl⟩ := a.eq_nat_or_neg <;>
    obtain ⟨m, rfl | rfl⟩ := b.eq_nat_or_neg <;>
    simp only [Int.neg_tdiv, Int.tdiv_neg, Int.neg_mul, Int.mul_neg, Int.neg_neg, ← Int.ofNat_tdiv, ← Int.natCast_mul, Nat.div_div_eq_div_mul]

section Chain

variable {w : Nat} {x a b : BitVec w}

theorem toInt_mul_of_fits (h : 2 * (a.toInt * b.toInt).natAbs < 2 ^ w) : (a * b).toInt = a.toInt * b.toInt := by
  rw [BitVec.toInt_mul]
  apply Int.bmod_eq_of_le
  · omega
  · omega

theorem sdiv_sdiv (h : 2 * (a.toInt * b.toInt).natAbs < 2 ^ w) (hx : x ≠ BitVec.intMin w ∨ a ≠ -1#w) :
    (x.sdiv a).sdiv b = x.sdiv (a * b) := by
  apply BitVec.eq_of_toInt_eq
  rw [BitVec.toInt_sdiv _ b, BitVec.toInt_sdiv_of_ne_or_ne x a hx, BitVec.toInt_sdiv, toInt_mul_of_fits h, tdiv_tdiv]

theorem natAbs_intMin (hpos : 0 < w) : (BitVec.intMin w).toInt.natAbs = 2 ^ (w - 1) := by
  rw [BitVec.toInt_intMin_of_pos hpos, Int.natAbs_neg, Int.natAbs_pow]
  rfl

/-- The least number does not change when it is divided by minus one, so that a second
division gives the wrong sign. -/
theorem intMin_sdiv_sdiv (hpos : 0 < w) (h : 2 * b.toInt.natAbs < 2 ^ w) (hb : b ≠ 0#w) :
    ((BitVec.intMin w).sdiv (-1#w)).sdiv b = (BitVec.intMin w).sdiv (-1#w * b) ↔ b = 1#w ∨ b = -1#w := by
  have hmul : -1#w * b = -b := by rw [BitVec.neg_mul, BitVec.one_mul]
  rw [BitVec.intMin_sdiv_neg_one, hmul]
  constructor
  · intro heq
    by_contra hne
    rw [not_or] at hne
    have hneg : -b ≠ -1#w := fun h => hne.1 (BitVec.neg_inj.mp h)
    have hdouble := Nat.two_pow_pred_add_two_pow_pred hpos
    have hmin : b ≠ BitVec.intMin w := by
      rintro rfl
      rw [natAbs_intMin hpos] at h
      omega
    have hint := congrArg BitVec.toInt heq
    rw [BitVec.toInt_sdiv_of_ne_or_ne _ b (.inr hne.2), BitVec.toInt_sdiv_of_ne_or_ne _ (-b) (.inr hneg),
      BitVec.toInt_neg_of_ne_intMin hmin, Int.tdiv_neg] at hint
    have hzero : (BitVec.intMin w).toInt.tdiv b.toInt = 0 := by omega
    have habs := congrArg Int.natAbs hzero
    have hb0 : b.toInt.natAbs ≠ 0 := by
      intro h0
      exact hb (BitVec.eq_of_toInt_eq (by rw [Int.natAbs_eq_zero.mp h0, BitVec.toInt_zero]))
    rw [Int.natAbs_tdiv, natAbs_intMin hpos] at habs
    have hlt := (Nat.div_eq_zero_iff.mp habs).resolve_left hb0
    omega
  · rintro (rfl | rfl)
    · rw [BitVec.sdiv_one, BitVec.intMin_sdiv_neg_one]
    · rw [BitVec.neg_neg, BitVec.sdiv_one, BitVec.intMin_sdiv_neg_one]

/-- Two signed divisions are one by the product for all numbers, unless the first changes
the sign of the least number, which has none. -/
theorem sdiv_sdiv_iff (hpos : 0 < w) (h : 2 * (a.toInt * b.toInt).natAbs < 2 ^ w) (hb : b ≠ 0#w) :
    (∀ x : BitVec w, (x.sdiv a).sdiv b = x.sdiv (a * b)) ↔ (a = -1#w → b = 1#w ∨ b = -1#w) := by
  have hone : a = -1#w → 2 * b.toInt.natAbs < 2 ^ w := by
    rintro rfl
    rw [BitVec.neg_one_eq_allOnes, BitVec.toInt_allOnes, if_pos hpos, Int.neg_mul, Int.one_mul, Int.natAbs_neg] at h
    exact h
  constructor
  · rintro hall rfl
    exact (intMin_sdiv_sdiv hpos (hone rfl) hb).mp (hall _)
  · intro hcond x
    by_cases hx : x ≠ BitVec.intMin w ∨ a ≠ -1#w
    · exact sdiv_sdiv h hx
    · rw [not_or, not_not, not_not] at hx
      obtain ⟨rfl, rfl⟩ := hx
      exact (intMin_sdiv_sdiv hpos (hone rfl) hb).mpr (hcond rfl)

/-- Two unsigned divisions are one by the product for all numbers if and only if the
product does not overflow. -/
theorem udiv_udiv_iff (hab : a * b ≠ 0#w) : (∀ x : BitVec w, x / a / b = x / (a * b)) ↔ a.toNat * b.toNat < 2 ^ w := by
  constructor
  · intro hall
    by_contra hge
    have hall := congrArg BitVec.toNat (hall (BitVec.allOnes w))
    have hpos : 0 < (a * b).toNat := Nat.pos_of_ne_zero fun h0 => hab (BitVec.eq_of_toNat_eq h0)
    have hlt := Nat.two_pow_pos w
    rw [BitVec.toNat_udiv, BitVec.toNat_udiv, BitVec.toNat_udiv, BitVec.toNat_allOnes, Nat.div_div_eq_div_mul,
      Nat.div_eq_of_lt (by omega)] at hall
    have hle : (a * b).toNat ≤ 2 ^ w - 1 := Nat.le_sub_one_of_lt (a * b).isLt
    exact absurd hall (Nat.div_pos hle hpos).ne
  · intro hlt x
    apply BitVec.eq_of_toNat_eq
    rw [BitVec.toNat_udiv, BitVec.toNat_udiv, BitVec.toNat_udiv, Nat.div_div_eq_div_mul, BitVec.toNat_mul, Nat.mod_eq_of_lt hlt]

end Chain

end SignedDivision
