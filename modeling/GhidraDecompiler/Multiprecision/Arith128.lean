import GhidraDecompiler.Lib.LongDivision
import GhidraDecompiler.Multiprecision.Words128

namespace GhidraDecompiler.Multiprecision

open Fallible LongDivision
open Pcode (Word)

variable (a b c d : Word)

theorem value_pair : value [a, b] = a.toNat + 2 ^ 64 * b.toNat := by simp

theorem value_pair_lt : value [a, b] < 2 ^ 128 := value_lt [a, b]

theorem value_setU128 : value (setU128 a) = a.toNat := by simp [setU128]

/-- A number of two words whose upper word is zero. -/
theorem value_low {a b : Word} : b = 0 ↔ value [a, b] < 2 ^ 64 := by
  have ha := a.isLt
  rw [value_pair, ← BitVec.toNat_inj, show (0 : Word).toNat = 0 from rfl]
  omega

theorem leftshift128_one {n : Nat} (h : n ≤ 127) : ∃ a b, leftshift128 (setU128 1) n = .ok [a, b] ∧ value [a, b] = 2 ^ n := by
  have hall : ∀ n < 128, (leftshift128 (setU128 1) n).map (fun l => (l.length, value l)) = .ok (2, 2 ^ n) := by
    decide +kernel
  have hn := hall n (by omega)
  cases hrun : leftshift128 (setU128 1) n with
  | error e =>
      rw [hrun] at hn
      cases hn
  | ok l =>
      rw [hrun] at hn
      have hn := Prod.mk.inj (Except.ok.inj hn)
      obtain ⟨a, b, rfl⟩ := List.length_eq_two.mp hn.1
      exact ⟨a, b, rfl, hn.2⟩

theorem ucompare_spec : ucompare [a, b] [c, d] 2 = .ok (compare (value [a, b]) (value [c, d])) := by
  have ha := a.isLt
  have hb := b.isLt
  have hc := c.isLt
  have hd := d.isLt
  have hget₀ : ∀ x y : Word, getIdx [x, y] 0 = .ok x := fun _ _ => rfl
  have hget₁ : ∀ x y : Word, getIdx [x, y] 1 = .ok y := fun _ _ => rfl
  simp only [ucompare, hget₀, hget₁, ok_bind, value_pair, pure_eq_ok, BitVec.lt_def, ne_eq, ← BitVec.toNat_inj]
  by_cases hbd : b.toNat = d.toNat
  · by_cases hac : a.toNat = c.toNat
    · simp [hbd, hac]
    · simp only [hbd, hac, not_true_eq_false, not_false_eq_true, if_true, if_false]
      split
      · rw [Nat.compare_eq_lt.mpr (by omega)]
      · rw [Nat.compare_eq_gt.mpr (by omega)]
  · simp only [hbd, not_false_eq_true, if_true]
    split
    · rw [Nat.compare_eq_lt.mpr (by omega)]
    · rw [Nat.compare_eq_gt.mpr (by omega)]

theorem uless128_spec : uless128 [a, b] [c, d] = .ok (decide (value [a, b] < value [c, d])) := by
  rw [uless128, ucompare_spec, ok_bind, pure_eq_ok]
  congr 1
  rw [Bool.eq_iff_iff, beq_iff_eq, decide_eq_true_iff, Nat.compare_eq_lt]

theorem ulessequal128_spec : ulessequal128 [a, b] [c, d] = .ok (decide (value [a, b] ≤ value [c, d])) := by
  rw [ulessequal128, ucompare_spec, ok_bind, pure_eq_ok]
  congr 1
  rw [Bool.eq_iff_iff, bne_iff_ne, decide_eq_true_iff, Nat.compare_ne_gt]

theorem add128_spec : ∃ e f, add128 [a, b] [c, d] = [e, f] ∧ value [e, f] = (value [a, b] + value [c, d]) % 2 ^ 128 := by
  refine ⟨_, _, rfl, ?_⟩
  have ha := a.isLt
  have hb := b.isLt
  have hc := c.isLt
  have hd := d.isLt
  have hzero : (0 : Word).toNat = 0 := rfl
  have hone : (1 : Word).toNat = 1 := rfl
  simp only [value_pair, BitVec.toNat_add, BitVec.lt_def, hzero]
  split
  · rw [hone]
    omega
  · rw [hzero]
    omega

theorem subtract128_spec :
    ∃ e f, subtract128 [a, b] [c, d] = [e, f] ∧ (value [e, f] : Int) = (value [a, b] - value [c, d]) % 2 ^ 128 := by
  refine ⟨_, _, rfl, ?_⟩
  have ha := a.isLt
  have hb := b.isLt
  have hc := c.isLt
  have hd := d.isLt
  have hzero : (0 : Word).toNat = 0 := rfl
  have hone : (1 : Word).toNat = 1 := rfl
  simp only [value_pair, BitVec.toNat_add, BitVec.toNat_sub, BitVec.lt_def, hzero]
  split
  · rw [hone]
    omega
  · rw [hzero]
    omega

end GhidraDecompiler.Multiprecision
