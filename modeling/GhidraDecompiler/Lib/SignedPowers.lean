import Mathlib.Data.BitVec
import Mathlib.Tactic.Abel
import GhidraDecompiler.Lib.SignedDivision

namespace SignedDivision

variable {w t k s : Nat} {x : BitVec w}

/-- The sign of a number in all its bits. -/
def signFill (x : BitVec w) : BitVec w := if x.msb then BitVec.allOnes w else 0#w

theorem sshiftRight_eq_signFill (hs : w - 1 ≤ s) : x.sshiftRight s = signFill x := by
  apply BitVec.eq_of_getLsbD_eq
  intro i hi
  have hlast : (if s + i < w then x.getLsbD (s + i) else x.msb) = x.msb := by
    split
    · rw [BitVec.msb_eq_getLsbD_last]
      congr 1
      omega
    · rfl
  rw [BitVec.getLsbD_sshiftRight, hlast, decide_eq_false (by omega), Bool.not_false, Bool.true_and, signFill]
  cases x.msb with
  | false =>
      rw [if_neg (by decide)]
      exact BitVec.getLsbD_zero.symm
  | true => rw [if_pos rfl, BitVec.getLsbD_allOnes, decide_eq_true hi]

/-- The sign moved to the right: a number of ones, or zero. -/
theorem toNat_signFill_ushiftRight : (signFill x >>> s).toNat = if x.msb then 2 ^ (w - s) - 1 else 0 := by
  rw [BitVec.toNat_ushiftRight, signFill, Nat.shiftRight_eq_div_pow]
  cases x.msb with
  | false => rw [if_neg (by decide), if_neg (by decide), BitVec.toNat_zero, Nat.zero_div]
  | true =>
      rw [if_pos rfl, if_pos rfl, BitVec.toNat_allOnes]
      by_cases hs : s ≤ w
      · obtain ⟨d, rfl⟩ := Nat.exists_eq_add_of_le hs
        have hpos := Nat.two_pow_pos s
        have hpos' := Nat.two_pow_pos d
        rw [Nat.add_sub_cancel_left, Nat.pow_add]
        apply Nat.div_eq_of_lt_le
        · rw [Nat.sub_mul, Nat.mul_comm]
          omega
        · rw [Nat.sub_add_cancel hpos', Nat.mul_comm]
          have := Nat.mul_pos hpos hpos'
          rw [Nat.mul_comm] at this
          omega
      · have hlt : 2 ^ w < 2 ^ s := Nat.pow_lt_pow_right (by decide) (by omega)
        rw [Nat.div_eq_of_lt ((Nat.sub_le _ _).trans_lt hlt), Nat.sub_eq_zero_of_le (not_le.mp hs).le, Nat.pow_zero]

section Remainder

/-- The remainder of a difference from a multiple. -/
theorem mul_sub_mod {n c m : Nat} (hm : m ≤ n * c) : (n * c - m) % n = if m % n = 0 then 0 else n - m % n := by
  obtain rfl | hn := Nat.eq_zero_or_pos n
  · have hm0 : m = 0 := by omega
    simp [hm0]
  have hdiv := Nat.div_add_mod m n
  have hlt := Nat.mod_lt m hn
  by_cases hr : m % n = 0
  · rw [if_pos hr, Nat.sub_mod_eq_zero_of_mod_eq]
    rw [Nat.mul_mod_right, hr]
  · rw [if_neg hr]
    have hq : m / n < c := by
      by_contra hge
      have := Nat.mul_le_mul_left n (not_lt.mp hge)
      omega
    obtain ⟨d, rfl⟩ := Nat.exists_eq_add_of_lt hq
    have hsplit : n * (m / n + d + 1) - m = n * d + (n - m % n) := by
      rw [Nat.mul_add, Nat.mul_add, Nat.mul_one]
      omega
    rw [hsplit, Nat.mul_add_mod, Nat.mod_eq_of_lt (by omega)]

/-- The sign of the divisor does not count. -/
theorem srem_twoPow (x : BitVec w) (k : Nat) : x.srem (BitVec.twoPow w k) =
    if x.msb = true then -(-x % BitVec.twoPow w k) else x % BitVec.twoPow w k := by
  have hneg : (BitVec.twoPow w k).msb = true → -BitVec.twoPow w k = BitVec.twoPow w k := by
    intro hmsb
    rw [BitVec.msb_twoPow, Bool.and_eq_true, decide_eq_true_iff, decide_eq_true_iff] at hmsb
    rw [hmsb.2]
    exact BitVec.neg_intMin
  rw [BitVec.srem_eq]
  cases x.msb with
  | false =>
      rw [if_neg (by decide)]
      cases hy : (BitVec.twoPow w k).msb with
      | false => rfl
      | true => exact congrArg (x % ·) (hneg hy)
  | true =>
      rw [if_pos rfl]
      cases hy : (BitVec.twoPow w k).msb with
      | false => rfl
      | true => exact congrArg (fun y => -(-x % y)) (hneg hy)

/-- The remainder by a power of two has the sign of the number. -/
theorem toNat_srem_twoPow (hk : k < w) : (x.srem (BitVec.twoPow w k)).toNat =
    if x.msb = true ∧ x.toNat % 2 ^ k ≠ 0 then 2 ^ w - 2 ^ k + x.toNat % 2 ^ k else x.toNat % 2 ^ k := by
  have htwo : (BitVec.twoPow w k).toNat = 2 ^ k := BitVec.toNat_twoPow_of_lt hk
  have hlt := x.isLt
  have hsmall : 2 ^ k < 2 ^ w := Nat.pow_lt_pow_right (by decide) hk
  have hpos := Nat.two_pow_pos k
  have hr : x.toNat % 2 ^ k < 2 ^ k := Nat.mod_lt _ hpos
  rw [srem_twoPow]
  cases hmsb : x.msb with
  | false => rw [if_neg (by decide), if_neg (by simp), BitVec.toNat_umod, htwo]
  | true =>
      have hx : 0 < x.toNat := by
        rw [BitVec.msb_eq_decide, decide_eq_true_iff] at hmsb
        exact (Nat.two_pow_pos _).trans_le hmsb
      have hpow : 2 ^ w = 2 ^ k * 2 ^ (w - k) := by rw [← Nat.pow_add, Nat.add_sub_cancel' hk.le]
      have hsub := mul_sub_mod (hpow ▸ hlt.le)
      rw [← hpow] at hsub
      rw [if_pos rfl, BitVec.toNat_neg, BitVec.toNat_umod, BitVec.toNat_neg, htwo, Nat.mod_eq_of_lt (a := 2 ^ w - x.toNat) (by omega), hsub]
      by_cases hzero : x.toNat % 2 ^ k = 0
      · rw [if_pos hzero, if_neg (by simp [hzero]), hzero, Nat.sub_zero, Nat.mod_self]
      · rw [if_neg hzero, if_pos ⟨rfl, hzero⟩, Nat.mod_eq_of_lt (by omega)]
        omega

theorem add_pred_mod {n m : Nat} (hn : 0 < n) : (m + (n - 1)) % n = if m % n = 0 then n - 1 else m % n - 1 := by
  have hlt := Nat.mod_lt m hn
  rw [Nat.add_mod, Nat.mod_eq_of_lt (Nat.sub_lt hn Nat.one_pos)]
  split
  · next hzero => rw [hzero, Nat.zero_add, Nat.mod_eq_of_lt (Nat.sub_lt hn Nat.one_pos)]
  · rw [Nat.mod_eq_sub_mod (by omega), Nat.mod_eq_of_lt (by omega)]
    omega

/-- The low bits of the sum of a piece and a correction. -/
theorem toNat_add_and (hkt : k ≤ t) (ht : t ≤ w) {g m : BitVec t} (hm : m.toNat = 2 ^ k - 1) :
    (((x.setWidth t + g) &&& m).setWidth w).toNat = (x.toNat + g.toNat) % 2 ^ k := by
  rw [BitVec.toNat_setWidth_of_le ht, BitVec.toNat_and, hm, Nat.and_two_pow_sub_one_eq_mod, BitVec.toNat_add, BitVec.toNat_setWidth,
    Nat.mod_add_mod, Nat.mod_mod_of_dvd _ (Nat.pow_dvd_pow 2 hkt)]

/-- The low bits, with a correction for negative numbers that is taken back, are the remainder. -/
theorem add_and_sub_eq_srem (hk : k < w) (hkt : k ≤ t) (ht : t ≤ w) {g m : BitVec t} {f : BitVec w} (hm : m.toNat = 2 ^ k - 1)
    (hg : g.toNat = if x.msb then 2 ^ k - 1 else 0) (hf : f.toNat = if x.msb then 2 ^ k - 1 else 0) :
    ((x.setWidth t + g) &&& m).setWidth w - f = x.srem (BitVec.twoPow w k) := by
  apply BitVec.eq_of_toNat_eq
  have hsmall : 2 ^ k < 2 ^ w := Nat.pow_lt_pow_right (by decide) hk
  have hpos := Nat.two_pow_pos k
  have hr : x.toNat % 2 ^ k < 2 ^ k := Nat.mod_lt _ hpos
  rw [BitVec.toNat_sub, toNat_add_and hkt ht hm, toNat_srem_twoPow hk, hg, hf]
  cases hmsb : x.msb with
  | false =>
      rw [if_neg (by decide), if_neg (by simp), Nat.add_zero, Nat.sub_zero, Nat.add_mod_left, Nat.mod_eq_of_lt (hr.trans hsmall)]
  | true =>
      rw [if_pos rfl, add_pred_mod hpos]
      by_cases hzero : x.toNat % 2 ^ k = 0
      · rw [if_pos hzero, if_neg (by simp [hzero]), hzero, Nat.sub_add_cancel (by omega), Nat.mod_self]
      · rw [if_neg hzero, if_pos ⟨rfl, hzero⟩, Nat.mod_eq_of_lt (by omega)]
        omega

end Remainder

section Forms

/-- The sign alone: one for negative numbers. -/
theorem toNat_neg_signFill (hw : 0 < w) : (-signFill x).toNat = if x.msb then 1 else 0 := by
  rw [signFill]
  cases x.msb with
  | false => rw [if_neg (by decide), if_neg (by decide), BitVec.neg_zero, BitVec.toNat_zero]
  | true =>
      rw [if_pos rfl, if_pos rfl, ← BitVec.neg_one_eq_allOnes, BitVec.neg_neg, BitVec.toNat_ofNat,
        Nat.mod_eq_of_lt (Nat.one_lt_two_pow hw.ne')]

/-- The quotient, times the divisor. -/
theorem sdiv_mul_eq {y : BitVec w} (hy : x ≠ BitVec.intMin w ∨ y ≠ -1#w) : x.sdiv y * y = x - x.srem y := by
  apply BitVec.eq_of_toInt_eq
  rw [BitVec.toInt_mul, BitVec.toInt_sub, BitVec.toInt_srem, BitVec.toInt_sdiv_of_ne_or_ne x y hy, Int.tdiv_mul_self]

theorem two_eq_twoPow (hw : 1 < w) : 2#w = BitVec.twoPow w 1 := by
  apply BitVec.eq_of_toNat_eq
  have hlt : 2 ^ 1 < 2 ^ w := Nat.pow_lt_pow_right (by decide) hw
  rw [BitVec.toNat_twoPow_of_lt hw, BitVec.toNat_ofNat, Nat.mod_eq_of_lt (a := 2) (by omega)]

/-- Bits and the other bits. -/
theorem and_not_eq_sub (y m : BitVec w) : y &&& ~~~m = y - (y &&& m) := by
  have hdisjoint : (y &&& m) &&& (y &&& ~~~m) = 0#w := by
    apply BitVec.eq_of_getLsbD_eq
    intro i hi
    simp only [BitVec.getLsbD_and, BitVec.getLsbD_not, BitVec.getLsbD_zero]
    cases y.getLsbD i <;> cases m.getLsbD i <;> simp
  have hsplit : (y &&& m) + (y &&& ~~~m) = y := by
    rw [BitVec.add_eq_or_of_and_eq_zero _ _ hdisjoint]
    apply BitVec.eq_of_getLsbD_eq
    intro i hi
    simp only [BitVec.getLsbD_or, BitVec.getLsbD_and, BitVec.getLsbD_not, decide_eq_true hi, Bool.true_and]
    cases y.getLsbD i <;> cases m.getLsbD i <;> rfl
  rw [eq_comm, BitVec.sub_eq_iff_eq_add, BitVec.add_comm, hsplit]

/-- A number that is rounded to a multiple of a power of two, towards zero. -/
theorem add_and_not_eq_mul (hk0 : 0 < k) (hk : k < w) {g m : BitVec w} (hm : m.toNat = 2 ^ k - 1)
    (hg : g.toNat = if x.msb then 2 ^ k - 1 else 0) :
    (x + g) &&& ~~~m = x.sdiv (BitVec.twoPow w k) * BitVec.twoPow w k := by
  have hne : BitVec.twoPow w k ≠ -1#w := by
    intro heq
    have hnat := congrArg BitVec.toNat heq
    rw [BitVec.toNat_twoPow_of_lt hk, BitVec.neg_one_eq_allOnes, BitVec.toNat_allOnes] at hnat
    have hlow : 2 ^ 1 ≤ 2 ^ k := Nat.pow_le_pow_right (by decide) hk0
    have hhigh : 2 ^ (k + 1) ≤ 2 ^ w := Nat.pow_le_pow_right (by decide) hk
    rw [Nat.pow_succ] at hhigh
    omega
  have hsub := add_and_sub_eq_srem (f := g) hk hk.le le_rfl hm hg hg
  rw [BitVec.setWidth_eq, BitVec.setWidth_eq] at hsub
  rw [sdiv_mul_eq (.inr hne), and_not_eq_sub, ← hsub]
  abel

/-- The low bit, with the sign added and taken back. -/
theorem mod_two_eq_srem (hw : 1 < w) (ht : t ≤ w) (ht0 : 0 < t) {g m : BitVec t} (hm : m.toNat = 1)
    (hg : g.toNat = if x.msb then 1 else 0) : ((x.setWidth t + g) &&& m).setWidth w + signFill x = x.srem 2#w := by
  have hsub := add_and_sub_eq_srem (k := 1) (f := -signFill x) hw ht0 ht hm hg (toNat_neg_signFill (by omega))
  rw [← two_eq_twoPow hw, BitVec.sub_eq_add_neg, BitVec.neg_neg] at hsub
  exact hsub

/-- The quotient by two. -/
theorem sub_signFill_sshiftRight (hw : 2 < w) : (x - signFill x).sshiftRight 1 = x.sdiv 2#w := by
  apply BitVec.eq_of_toInt_eq
  have hpow : 2 ^ 2 < 2 ^ w := Nat.pow_lt_pow_right (by decide) hw
  have htwo : (2#w).toInt = 2 := by
    rw [BitVec.toInt_ofNat']
    apply Int.bmod_eq_of_le
    · omega
    · omega
  have hone : 2#w ≠ -1#w := by
    intro heq
    have hint := congrArg BitVec.toInt heq
    rw [htwo, BitVec.neg_one_eq_allOnes, BitVec.toInt_allOnes, if_pos (by omega)] at hint
    cases hint
  have hfill : (signFill x).toInt = if x.msb then -1 else 0 := by
    rw [signFill]
    cases x.msb with
    | false => rw [if_neg (by decide), if_neg (by decide), BitVec.toInt_zero]
    | true => rw [if_pos rfl, if_pos rfl, BitVec.toInt_allOnes, if_pos (by omega)]
  have hlow := BitVec.le_two_mul_toInt (x := x)
  have hhigh := BitVec.two_mul_toInt_lt (x := x)
  rw [BitVec.toInt_sshiftRight, BitVec.toInt_sub, hfill, BitVec.toInt_sdiv_of_ne_or_ne x _ (.inr hone), htwo, BitVec.msb_eq_toInt,
    Int.shiftRight_eq_div_pow]
  have hcast : ((2 : Int) ^ w) = ((2 ^ w : Nat) : Int) := by norm_cast
  by_cases hneg : x.toInt < 0
  · have hdiv : x.toInt.tdiv 2 = -(-x.toInt / 2) := by rw [← Int.tdiv_eq_ediv_of_nonneg (by omega), Int.neg_tdiv, Int.neg_neg]
    rw [decide_eq_true hneg, if_pos rfl, Int.bmod_eq_of_le (by omega) (by omega), hdiv]
    omega
  · rw [decide_eq_false hneg, if_neg (by decide), Int.bmod_eq_of_le (by omega) (by omega), Int.tdiv_eq_ediv_of_nonneg (by omega)]
    omega

end Forms

end SignedDivision
