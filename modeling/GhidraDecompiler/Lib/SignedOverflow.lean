import Mathlib.Data.BitVec

/-! The overflow of signed sums and differences, and the sign of what is left. -/

namespace SignedOverflow

variable {w : Nat} {x y : BitVec w}

theorem two_mul_half (hw : 0 < w) : (2 : Int) * 2 ^ (w - 1) = ((2 ^ w : Nat) : Int) := by
  obtain ⟨w, rfl⟩ := Nat.exists_eq_add_of_lt hw
  rw [Nat.zero_add, Nat.add_sub_cancel, Nat.pow_succ]
  push_cast
  exact mul_comm _ _

theorem toInt_range (hw : 0 < w) (x : BitVec w) : -2 ^ (w - 1) ≤ x.toInt ∧ x.toInt < 2 ^ (w - 1) := by
  have hlow := BitVec.le_two_mul_toInt (x := x)
  have hhigh := BitVec.two_mul_toInt_lt (x := x)
  have hhalf := two_mul_half hw
  push_cast at hhalf
  omega

/-- A difference is off by the whole range when it overflows. -/
theorem toInt_sub_cases (hw : 0 < w) (x y : BitVec w) :
    (x.ssubOverflow y = false ∧ (x - y).toInt = x.toInt - y.toInt) ∨
      (x.ssubOverflow y = true ∧ y.toInt < x.toInt ∧ (x - y).toInt < 0) ∨
      (x.ssubOverflow y = true ∧ x.toInt < y.toInt ∧ 0 < (x - y).toInt) := by
  obtain ⟨hx, hx'⟩ := toInt_range hw x
  obtain ⟨hy, hy'⟩ := toInt_range hw y
  have hhalf := two_mul_half hw
  have hpos : (0 : Int) < 2 ^ (w - 1) := Int.pow_pos (by decide)
  have hover : x.ssubOverflow y = decide (x.toInt - y.toInt ≥ 2 ^ (w - 1) ∨ x.toInt - y.toInt < - 2 ^ (w - 1)) := by
    rw [BitVec.ssubOverflow, Bool.decide_or]
  rw [hover, decide_eq_false_iff_not, decide_eq_true_iff, BitVec.toInt_sub]
  have hsub : ∀ k d : Int, x.toInt - y.toInt = d + ((2 ^ w : Nat) : Int) * k → -2 ^ (w - 1) ≤ d → d < 2 ^ (w - 1) →
      (x.toInt - y.toInt).bmod (2 ^ w) = d := by
    intro k d heq hlow hhigh
    rw [heq, Int.add_mul_bmod_self_left, Int.bmod_eq_of_le_mul_two]
    · omega
    · omega
  rcases lt_or_ge (x.toInt - y.toInt) (2 ^ (w - 1)) with hlt | hge
  · rcases lt_or_ge (x.toInt - y.toInt) (- 2 ^ (w - 1)) with hlow | hlow
    · have hd := hsub (-1) (x.toInt - y.toInt + 2 * 2 ^ (w - 1)) (by omega) (by omega) (by omega)
      rw [hd]
      exact .inr (.inr ⟨.inr hlow, by omega, by omega⟩)
    · have hd := hsub 0 (x.toInt - y.toInt) (by omega) hlow hlt
      rw [hd]
      exact .inl ⟨by omega, rfl⟩
  · have hd := hsub 1 (x.toInt - y.toInt - 2 * 2 ^ (w - 1)) (by omega) (by omega) (by omega)
    rw [hd]
    exact .inr (.inl ⟨.inl hge, by omega, by omega⟩)

/-- The overflow and the negative sign of the difference. -/
theorem borrow_bne_negative (hw : 0 < w) (x y : BitVec w) : (x.ssubOverflow y != (x - y).slt 0#w) = x.slt y := by
  rw [BitVec.slt_eq_decide, BitVec.slt_eq_decide, BitVec.toInt_zero]
  rcases toInt_sub_cases hw x y with ⟨hover, hd⟩ | ⟨hover, hlt, hd⟩ | ⟨hover, hlt, hd⟩
  · rw [hover, hd, Bool.false_bne, decide_eq_decide]
    omega
  · rw [hover, decide_eq_true hd, decide_eq_false (by omega)]
    rfl
  · rw [hover, decide_eq_false (by omega), decide_eq_true hlt]
    rfl

/-- The overflow and the positive sign of the difference. -/
theorem borrow_bne_positive (hw : 0 < w) (x y : BitVec w) : (x.ssubOverflow y != (0#w).slt (x - y)) = y.slt x := by
  rw [BitVec.slt_eq_decide, BitVec.slt_eq_decide, BitVec.toInt_zero]
  rcases toInt_sub_cases hw x y with ⟨hover, hd⟩ | ⟨hover, hlt, hd⟩ | ⟨hover, hlt, hd⟩
  · rw [hover, hd, Bool.false_bne, decide_eq_decide]
    omega
  · rw [hover, decide_eq_false (by omega), decide_eq_true hlt]
    rfl
  · rw [hover, decide_eq_true hd, decide_eq_false (by omega)]
    rfl

/-- A sum is a difference, but for the number that has no negation: there one overflows
where the other does not. -/
theorem carry_eq_borrow (hw : 0 < w) (x y : BitVec w) :
    x.saddOverflow y = if y = BitVec.intMin w then !x.ssubOverflow (-y) else x.ssubOverflow (-y) := by
  obtain ⟨hx, hx'⟩ := toInt_range hw x
  obtain ⟨hy, hy'⟩ := toInt_range hw y
  have hmin : (BitVec.intMin w).toInt = -2 ^ (w - 1) := by
    rw [BitVec.toInt_intMin_of_pos hw]
  rw [BitVec.saddOverflow, BitVec.ssubOverflow, BitVec.toInt_neg_eq_ite]
  by_cases heq : y = BitVec.intMin w
  · rw [if_pos heq, if_pos heq, heq, hmin, ← Bool.decide_or, ← Bool.decide_or, ← decide_not, decide_eq_decide]
    omega
  · rw [if_neg heq, if_neg heq, ← Bool.decide_or, ← Bool.decide_or, decide_eq_decide]
    omega

theorem borrow_zero (hw : 0 < w) (x : BitVec w) : x.ssubOverflow 0#w = false := by
  obtain ⟨hx, hx'⟩ := toInt_range hw x
  rw [BitVec.ssubOverflow, BitVec.toInt_zero, decide_eq_false (by omega), decide_eq_false (by omega)]
  rfl

theorem carry_zero (hw : 0 < w) (x : BitVec w) : x.saddOverflow 0#w = false := by
  obtain ⟨hx, hx'⟩ := toInt_range hw x
  rw [BitVec.saddOverflow, BitVec.toInt_zero, decide_eq_false (by omega), decide_eq_false (by omega)]
  rfl

theorem zero_carry (hw : 0 < w) (y : BitVec w) : (0#w).saddOverflow y = false := by
  obtain ⟨hy, hy'⟩ := toInt_range hw y
  rw [BitVec.saddOverflow, BitVec.toInt_zero, decide_eq_false (by omega), decide_eq_false (by omega)]
  rfl

end SignedOverflow
