import GhidraDecompiler.Range.CircleRange

namespace GhidraDecompiler.Range

open Pcode BitWords

section Words

variable {n a b : Nat}

theorem maskOf_eq (h : ByteSize n) : maskOf n = 2 ^ (8 * n) - 1 := by
  rw [maskOf, calcMask_eq h, toNat_widen _ h.width_le, BitVec.toNat_allOnes]

theorem and_maskOf (h : ByteSize n) (a : Nat) : a &&& maskOf n = a % 2 ^ (8 * n) := by
  rw [maskOf_eq h, Nat.and_two_pow_sub_one_eq_mod]

theorem succ_and_maskOf (h : ByteSize n) (ha : a < 2 ^ (8 * n)) :
    wrappingAdd a 1 &&& maskOf n = if a = 2 ^ (8 * n) - 1 then 0 else a + 1 := by
  have hdvd : 2 ^ (8 * n) ∣ 2 ^ 64 := Nat.pow_dvd_pow 2 h.width_le
  rw [and_maskOf h, wrappingAdd, Nat.mod_mod_of_dvd _ hdvd]
  split
  · next heq => rw [heq, Nat.sub_add_cancel (Nat.one_le_two_pow), Nat.mod_self]
  · rw [Nat.mod_eq_of_lt (by omega)]

theorem maskOf_shiftRight (h : ByteSize n) : maskOf n >>> 1 = minSigned n - 1 := by
  have := two_minSigned h
  rw [maskOf_eq h, Nat.shiftRight_eq_div_pow]
  omega

theorem wrappingAdd_minSigned (h : ByteSize n) : wrappingAdd (minSigned n - 1) 1 = minSigned n := by
  have hpos := minSigned_pos n
  have hlt : minSigned n < 2 ^ 64 := Nat.pow_lt_pow_right (by decide) (by have := h.width_le; omega)
  rw [wrappingAdd, Nat.sub_add_cancel hpos, Nat.mod_eq_of_lt hlt]

theorem carryBound_eq (h : ByteSize n) (ha : a < 2 ^ (8 * n)) (hpos : a ≠ 0) :
    wrappingAdd (wrappingSub (maskOf n) a) 1 &&& maskOf n = 2 ^ (8 * n) - a := by
  have hle : 2 ^ (8 * n) ≤ 2 ^ 64 := Nat.pow_le_pow_right (by decide) h.width_le
  have hsub : wrappingSub (maskOf n) a = 2 ^ (8 * n) - 1 - a := by
    rw [wrappingSub, maskOf_eq h, Nat.mod_eq_sub_mod (by omega), Nat.mod_eq_of_lt (by omega)]
    omega
  rw [hsub, succ_and_maskOf h (by omega), if_neg (by omega)]
  omega

end Words

namespace CircleRange

section Solving

variable {r : CircleRange} {n x val : Nat}

theorem contains_of_isempty (h : r.isempty = true) : r.contains x = false := by
  rw [contains, if_pos h]

/-- Membership in steps of one. -/
theorem contains_mk {left right mask step : Nat} {isempty : Bool} (hne : isempty = false) (hstep : step = 1) :
    (CircleRange.mk left right mask isempty step).contains x = true ↔
      (left < right ∧ left ≤ x ∧ x < right) ∨ (right < left ∧ (x < right ∨ left ≤ x)) ∨ left = right := by
  rw [contains, if_neg (by simp [hne]), if_neg (by simp [hstep])]
  simp only
  split_ifs <;> simp <;> omega

theorem complement_contains (hstep : r.step = 1) : r.complement.contains x = !r.contains x := by
  obtain ⟨left, right, mask, isempty, step⟩ := r
  rw [complement]
  cases isempty with
  | true =>
      have hnone : (CircleRange.mk left right mask true step).contains x = false := contains_of_isempty rfl
      rw [if_pos rfl, hnone, Bool.not_false, contains_mk rfl hstep]
      exact .inr (.inr rfl)
  | false =>
      rw [if_neg (by simp)]
      by_cases heq : left = right
      · rw [if_pos heq, contains_of_isempty rfl, (contains_mk rfl hstep).mpr (.inr (.inr heq)), Bool.not_true]
      · rw [if_neg heq, Bool.eq_not_iff, Ne, Bool.eq_iff_iff, contains_mk rfl hstep, contains_mk rfl hstep]
        simp only
        omega

/-- The range of the inputs for which the comparison holds. -/
structure Solves (n : Nat) (solve : CircleRange → CircleRange) (holds : Nat → Bool) : Prop where
  isempty : ∀ r, r.isempty = true → (solve r).isempty = true
  step : ∀ r, (solve r).step = r.step
  contains : ∀ r, r.isempty = false → r.step = 1 → r.mask = maskOf n → ∀ x < 2 ^ (8 * n), (solve r).contains x = holds x

theorem pow_gt_one (h : ByteSize n) : 1 < 2 ^ (8 * n) := Nat.one_lt_two_pow (by have := h.width_pos; omega)

theorem solveEqual_solves (h : ByteSize n) (hval : val < 2 ^ (8 * n)) :
    Solves n (solveEqual val) fun x => decide (x = val) where
  isempty _ hr := hr
  step _ := rfl
  contains r hne hstep hmask x hx := by
    have hlt := pow_gt_one h
    rw [Bool.eq_iff_iff, decide_eq_true_iff, solveEqual, contains_mk hne hstep]
    simp only [hmask, succ_and_maskOf h hval]
    split <;> omega

theorem solveNotequal_solves (h : ByteSize n) (hval : val < 2 ^ (8 * n)) :
    Solves n (solveNotequal val) fun x => decide (x ≠ val) where
  isempty _ hr := hr
  step _ := rfl
  contains r hne hstep hmask x hx := by
    have hlt := pow_gt_one h
    rw [Bool.eq_iff_iff, decide_eq_true_iff, solveNotequal, contains_mk hne hstep]
    simp only [hmask, succ_and_maskOf h hval]
    split <;> omega

theorem solveLess_solves (h : ByteSize n) (hval : val < 2 ^ (8 * n)) (slot : Int) :
    Solves n (solveLess val slot) fun x => if slot = 0 then decide (x < val) else decide (val < x) where
  isempty r hr := by
    rw [solveLess]
    split_ifs <;> first | rfl | exact hr
  step r := by
    rw [solveLess]
    split_ifs <;> rfl
  contains r hne hstep hmask x hx := by
    have hmax := maskOf_eq h
    simp only [solveLess, hmask, succ_and_maskOf h hval]
    by_cases hslot : slot = 0
    · rw [if_pos hslot, if_pos hslot]
      by_cases hzero : val = 0
      · rw [if_pos hzero, contains_of_isempty rfl, eq_comm, decide_eq_false_iff_not]
        omega
      · rw [if_neg hzero, Bool.eq_iff_iff, decide_eq_true_iff, contains_mk hne hstep]
        omega
    · rw [if_neg hslot, if_neg hslot]
      by_cases htop : val = maskOf n
      · rw [if_pos htop, contains_of_isempty rfl, eq_comm, decide_eq_false_iff_not]
        omega
      · rw [if_neg htop, if_neg (by omega), Bool.eq_iff_iff, decide_eq_true_iff, contains_mk hne hstep]
        omega

theorem solveLessequal_solves (h : ByteSize n) (hval : val < 2 ^ (8 * n)) (slot : Int) :
    Solves n (solveLessequal val slot) fun x => if slot = 0 then decide (x ≤ val) else decide (val ≤ x) where
  isempty r hr := by
    rw [solveLessequal]
    split_ifs <;> exact hr
  step r := by
    rw [solveLessequal]
    split_ifs <;> rfl
  contains r hne hstep hmask x hx := by
    simp only [solveLessequal, hmask, succ_and_maskOf h hval]
    by_cases hslot : slot = 0
    · rw [if_pos hslot, if_pos hslot, Bool.eq_iff_iff, decide_eq_true_iff, contains_mk hne hstep]
      split <;> omega
    · rw [if_neg hslot, if_neg hslot, Bool.eq_iff_iff, decide_eq_true_iff, contains_mk hne hstep]
      omega

theorem solveSless_solves (h : ByteSize n) (hval : val < 2 ^ (8 * n)) (slot : Int) :
    Solves n (solveSless val slot) fun x =>
      if slot = 0 then decide (signedOf n x < signedOf n val) else decide (signedOf n val < signedOf n x) where
  isempty r hr := by
    rw [solveSless]
    split_ifs <;> first | rfl | exact hr
  step r := by
    rw [solveSless]
    split_ifs <;> rfl
  contains r hne hstep hmask x hx := by
    have htwo := two_minSigned h
    have hpos := minSigned_pos n
    have hcast : ((2 : Int) ^ (8 * n)) = minSigned n + minSigned n := by exact_mod_cast htwo
    simp only [solveSless, hmask, succ_and_maskOf h hval, wrappingAdd_minSigned h, maskOf_shiftRight h, signedOf, hcast]
    by_cases hslot : slot = 0
    · rw [if_pos hslot, if_pos hslot]
      by_cases hmin : val = minSigned n
      · rw [if_pos hmin, contains_of_isempty rfl, eq_comm, decide_eq_false_iff_not]
        split_ifs <;> omega
      · rw [if_neg hmin, Bool.eq_iff_iff, decide_eq_true_iff, contains_mk hne hstep]
        split_ifs <;> omega
    · rw [if_neg hslot, if_neg hslot]
      by_cases hmax : val = minSigned n - 1
      · rw [if_pos hmax, contains_of_isempty rfl, eq_comm, decide_eq_false_iff_not]
        split_ifs <;> omega
      · rw [if_neg hmax, Bool.eq_iff_iff, decide_eq_true_iff, contains_mk hne hstep]
        split_ifs <;> omega

theorem solveSlessequal_solves (h : ByteSize n) (hval : val < 2 ^ (8 * n)) (slot : Int) :
    Solves n (solveSlessequal val slot) fun x =>
      if slot = 0 then decide (signedOf n x ≤ signedOf n val) else decide (signedOf n val ≤ signedOf n x) where
  isempty r hr := by
    rw [solveSlessequal]
    split_ifs <;> exact hr
  step r := by
    rw [solveSlessequal]
    split_ifs <;> rfl
  contains r hne hstep hmask x hx := by
    have htwo := two_minSigned h
    have hpos := minSigned_pos n
    have hcast : ((2 : Int) ^ (8 * n)) = minSigned n + minSigned n := by exact_mod_cast htwo
    simp only [solveSlessequal, hmask, succ_and_maskOf h hval, maskOf_shiftRight h, wrappingAdd_minSigned h, signedOf, hcast]
    by_cases hslot : slot = 0
    · rw [if_pos hslot, if_pos hslot, Bool.eq_iff_iff, decide_eq_true_iff, contains_mk hne hstep]
      split_ifs <;> omega
    · rw [if_neg hslot, if_neg hslot, Bool.eq_iff_iff, decide_eq_true_iff, contains_mk hne hstep]
      split_ifs <;> omega

theorem solveCarry_solves (h : ByteSize n) (hval : val < 2 ^ (8 * n)) :
    Solves n (solveCarry val) fun x => decide (2 ^ (8 * n) ≤ x + val) where
  isempty r hr := by
    rw [solveCarry]
    split_ifs <;> first | rfl | exact hr
  step r := by
    rw [solveCarry]
    split_ifs <;> rfl
  contains r hne hstep hmask x hx := by
    rw [solveCarry]
    by_cases hzero : val = 0
    · rw [if_pos hzero, contains_of_isempty rfl, eq_comm, decide_eq_false_iff_not]
      omega
    · rw [if_neg hzero, Bool.eq_iff_iff, decide_eq_true_iff, contains_mk hne hstep]
      simp only [hmask, carryBound_eq h hval hzero]
      omega

end Solving

section PullBack

variable {r : CircleRange} {n x val : Nat} {slot : Int} {opc : OpCode}

/-- The operands of the comparison, with the unknown in its slot. -/
def operands (slot : Int) (x val : Nat) : Nat × Nat := if slot = 0 then (x, val) else (val, x)

theorem pullBackBinary_solves (hopc : opc ∈ comparisonOps) (h : ByteSize n) (hval : val < 2 ^ (8 * n)) (slot : Int)
    (hne : r.isempty = false) :
    ∃ solve, Solves n solve (fun x => Holds n opc (operands slot x val).1 (operands slot x val).2) ∧
      r.pullBackBinary opc val slot n 1 = (true, r.pullBackComparison n solve) := by
  have hslot : ∀ P : Nat → Nat → Bool,
      (fun x => if slot = 0 then P x val else P val x) = fun x => P (operands slot x val).1 (operands slot x val).2 := by
    intro P
    funext x
    rw [operands]
    split <;> rfl
  have hpull : r.isempty ≠ true := by simp [hne]
  simp only [comparisonOps, List.mem_cons, List.not_mem_nil, or_false] at hopc
  rcases hopc with rfl | rfl | rfl | rfl | rfl | rfl | rfl
  · refine ⟨solveEqual val, ?_, by rw [pullBackBinary, if_neg hpull]⟩
    have hfun : (fun x => decide (x = val)) = fun x => Holds n .intEqual (operands slot x val).1 (operands slot x val).2 := by
      rw [← hslot (Holds n .intEqual)]
      funext x
      simp only [Holds, eq_comm (a := val), ite_self]
    rw [← hfun]
    exact solveEqual_solves h hval
  · refine ⟨solveNotequal val, ?_, by rw [pullBackBinary, if_neg hpull]⟩
    have hfun : (fun x => decide (x ≠ val)) = fun x => Holds n .intNotequal (operands slot x val).1 (operands slot x val).2 := by
      rw [← hslot (Holds n .intNotequal)]
      funext x
      simp only [Holds, ne_comm (a := val), ite_self]
    rw [← hfun]
    exact solveNotequal_solves h hval
  · refine ⟨solveLess val slot, ?_, by rw [pullBackBinary, if_neg hpull]⟩
    rw [← hslot (Holds n .intLess)]
    exact solveLess_solves h hval slot
  · refine ⟨solveLessequal val slot, ?_, by rw [pullBackBinary, if_neg hpull]⟩
    rw [← hslot (Holds n .intLessequal)]
    exact solveLessequal_solves h hval slot
  · refine ⟨solveSless val slot, ?_, by rw [pullBackBinary, if_neg hpull]⟩
    rw [← hslot (Holds n .intSless)]
    exact solveSless_solves h hval slot
  · refine ⟨solveSlessequal val slot, ?_, by rw [pullBackBinary, if_neg hpull]⟩
    rw [← hslot (Holds n .intSlessequal)]
    exact solveSlessequal_solves h hval slot
  · refine ⟨solveCarry val, ?_, by rw [pullBackBinary, if_neg hpull]⟩
    have hfun : (fun x => decide (2 ^ (8 * n) ≤ x + val)) =
        fun x => Holds n .intCarry (operands slot x val).1 (operands slot x val).2 := by
      rw [← hslot (Holds n .intCarry)]
      funext x
      simp only [Holds, Nat.add_comm val, ite_self]
    rw [← hfun]
    exact solveCarry_solves h hval

theorem contains_zero_of_left (hne : r.isempty = false) (hleft : r.left = 0) : r.contains 0 = true := by
  rw [contains, if_neg (by simp [hne]), if_neg (by simp [hleft])]
  split
  · rw [if_neg (by omega), if_neg (by omega)]
  · rw [if_neg (by omega)]

/-- Both outputs are possible, yet only the inputs zero and one are kept. -/
theorem pullBackComparison_both {solve : CircleRange → CircleRange} (hne : r.isempty = false)
    (h0 : r.contains 0 = true) (h1 : r.contains 1 = true) :
    r.pullBackComparison n solve = ⟨0, 2, maskOf n, false, 1⟩ := by
  simp [pullBackComparison, convertToBoolean, hne, h0, h1]

theorem pullBackComparison_contains {solve : CircleRange → CircleRange} {holds : Nat → Bool} (hs : Solves n solve holds)
    (hne : r.isempty = false) (hboth : ¬ (r.contains 0 = true ∧ r.contains 1 = true)) (hx : x < 2 ^ (8 * n)) :
    (r.pullBackComparison n solve).contains x = r.contains (ofBool (holds x)).toNat := by
  have hout : r.contains (ofBool (holds x)).toNat = if holds x then r.contains 1 else r.contains 0 := by
    cases holds x <;> rfl
  rw [hout]
  cases h0 : r.contains 0 with
  | true =>
      have h1 : r.contains 1 = false := by simpa [h0] using hboth
      have hr : r.pullBackComparison n solve = (solve ⟨0, 1, maskOf n, false, 1⟩).complement := by
        simp [pullBackComparison, convertToBoolean, hne, h0, h1]
      rw [hr, complement_contains (hs.step _), hs.contains _ rfl rfl rfl x hx, h1]
      cases holds x <;> rfl
  | false =>
      have hleft : r.left ≠ 0 := by
        intro hleft
        rw [contains_zero_of_left hne hleft] at h0
        exact absurd h0 (by decide)
      cases h1 : r.contains 1 with
      | true =>
          have hr : r.pullBackComparison n solve = solve ⟨1, 2, maskOf n, false, 1⟩ := by
            simp [pullBackComparison, convertToBoolean, hne, h0, h1]
          rw [hr, hs.contains _ rfl rfl rfl x hx]
          cases holds x <;> rfl
      | false =>
          -- the stale left end is not zero, so nothing is complemented
          have hr : r.pullBackComparison n solve = solve ⟨r.left, r.right, maskOf n, true, 1⟩ := by
            simp [pullBackComparison, convertToBoolean, hne, h0, h1, hleft]
          rw [hr, contains_of_isempty (hs.isempty _ rfl), ite_self]

/-- The range that is pulled back contains exactly the inputs whose output the old
range contains. -/
def PullBackExact (r : CircleRange) (opc : OpCode) (val : Nat) (slot : Int) (n : Nat) : Prop :=
  ∀ r', r.pullBackBinary opc val slot n 1 = (true, r') → ∀ x < 2 ^ (8 * n),
    ∃ out, evaluateBinary opc 1 n (BitVec.ofNat 64 (operands slot x val).1) (BitVec.ofNat 64 (operands slot x val).2) = .ok out ∧
      r'.contains x = r.contains out.toNat

theorem operands_lt (hx : x < 2 ^ (8 * n)) (hval : val < 2 ^ (8 * n)) (slot : Int) :
    (operands slot x val).1 < 2 ^ (8 * n) ∧ (operands slot x val).2 < 2 ^ (8 * n) := by
  rw [operands]
  split
  · exact ⟨hx, hval⟩
  · exact ⟨hval, hx⟩

theorem pullBackBinary_exact_iff (r : CircleRange) (opc : OpCode) (val n : Nat) (slot : Int) (hopc : opc ∈ comparisonOps)
    (h : ByteSize n) (hval : val < 2 ^ (8 * n)) :
    PullBackExact r opc val slot n ↔ ¬ (r.contains 0 = true ∧ r.contains 1 = true) := by
  cases hne : r.isempty with
  | true =>
      have hnone : ∀ y, r.contains y = false := fun y => contains_of_isempty hne
      simp only [hnone, Bool.false_eq_true, and_self, not_false_eq_true, iff_true]
      intro r' hr' x hx
      unfold pullBackBinary at hr'
      rw [if_pos hne] at hr'
      injection hr' with _ hr'
      obtain ⟨hl, hr⟩ := operands_lt hx hval slot
      exact ⟨_, evaluate_comparison hopc h hl hr, by rw [← hr', hnone, hnone]⟩
  | false =>
      obtain ⟨solve, hs, hpull⟩ := pullBackBinary_solves hopc h hval slot hne
      constructor
      · rintro hexact ⟨h0, h1⟩
        have htwo : 2 < 2 ^ (8 * n) := by
          have : 2 ^ 2 ≤ 2 ^ (8 * n) := Nat.pow_le_pow_right (by decide) (by have := h.1; omega)
          omega
        obtain ⟨out, hout, hmem⟩ := hexact _ hpull 2 htwo
        obtain ⟨hl, hr⟩ := operands_lt htwo hval slot
        rw [evaluate_comparison hopc h hl hr] at hout
        injection hout with hout
        have hcontains : r.contains out.toNat = true := by
          rw [← hout]
          cases Holds n opc (operands slot 2 val).1 (operands slot 2 val).2
          · exact h0
          · exact h1
        rw [pullBackComparison_both hne h0 h1, hcontains] at hmem
        exact absurd hmem (by simp [contains])
      · intro hboth r' hr' x hx
        rw [hpull] at hr'
        injection hr' with _ hr'
        obtain ⟨hl, hr⟩ := operands_lt hx hval slot
        refine ⟨_, evaluate_comparison hopc h hl hr, ?_⟩
        rw [← hr']
        exact pullBackComparison_contains hs hne hboth hx

theorem pullBackBinary_exact_iff_sless :
    PullBackExact ⟨0, 1, 0xff, false, 1⟩ .intSless 0x7f 1 1 := by
  exact (pullBackBinary_exact_iff ⟨0, 1, 0xff, false, 1⟩ .intSless 0x7f 1 1 (by decide) (by decide) (by decide)).mpr (by decide)

/-- Every byte is equal to five or not, but two is not in the range. -/
theorem pullBackBinary_not_exact : WellFormed ⟨0, 2, 0xff, false, 1⟩ ∧ ¬ PullBackExact ⟨0, 2, 0xff, false, 1⟩ .intEqual 5 0 1 := by
  constructor
  · exact ⟨⟨1, by decide, rfl⟩, ⟨0, by decide, rfl⟩, by decide, by decide, by decide⟩
  · intro h
    obtain ⟨out, hout, hmem⟩ := h _ rfl 2 (by decide)
    injection hout with hout
    rw [← hout] at hmem
    exact absurd hmem (by decide)

end PullBack

end CircleRange

end GhidraDecompiler.Range
