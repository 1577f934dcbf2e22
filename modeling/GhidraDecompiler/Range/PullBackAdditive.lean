import GhidraDecompiler.Range.Spans

namespace GhidraDecompiler.Range.CircleRange

open Pcode Arcs

/-- Pulling back succeeds, and the new range contains exactly the inputs whose output
the old range contains. -/
def InputsExact (r : CircleRange) (opc : OpCode) (val : Nat) (slot : Int) (n : Nat) : Prop :=
  ∃ r', r.pullBackBinary opc val slot n n = (true, r') ∧ ∀ x < 2 ^ (8 * n),
    ∃ out, evaluateBinary opc n n (BitVec.ofNat 64 (operands slot x val).1) (BitVec.ofNat 64 (operands slot x val).2) = .ok out ∧
      r'.contains x = r.contains out.toNat

section Inputs

variable {r r' : CircleRange} {opc : OpCode} {val n : Nat} {slot : Int}

theorem inputsExact_iff (f : Nat → Nat) (hpull : r.pullBackBinary opc val slot n n = (true, r'))
    (hf : ∀ x < 2 ^ (8 * n), Gives (evaluateBinary opc n n (BitVec.ofNat 64 (operands slot x val).1)
      (BitVec.ofNat 64 (operands slot x val).2)) (f x)) :
    InputsExact r opc val slot n ↔ ∀ x < 2 ^ (8 * n), r'.contains x = r.contains (f x) := by
  constructor
  · rintro ⟨r'', hpull', hexact⟩ x hx
    rw [hpull] at hpull'
    cases hpull'
    obtain ⟨out, hout, hmem⟩ := hexact x hx
    obtain ⟨out', hout', hval⟩ := hf x hx
    rw [hout] at hout'
    cases hout'
    rw [hmem, hval]
  · intro hmem
    refine ⟨r', hpull, fun x hx => ?_⟩
    obtain ⟨out, hout, hval⟩ := hf x hx
    exact ⟨out, hout, by rw [hmem x hx, hval]⟩

end Inputs

section Additive

variable {r r' : CircleRange} {n val x : Nat}

theorem pow_eq_of_mask (h : ByteSize n) (hmask : r.mask = maskOf n) : r.mask + 1 = 2 ^ (8 * n) := by
  rw [hmask, maskOf_eq h, Nat.sub_add_cancel Nat.one_le_two_pow]

theorem WellFormed.left_eq (hr : r.WellFormed) (hM : r.mask + 1 = 2 ^ (8 * n)) : r.left = r.left % 2 ^ (8 * n) :=
  (Nat.mod_eq_of_lt (hM ▸ hr.lt.1)).symm

/-- A range that is moved along the circle. -/
theorem contains_translated {delta : Nat} (h : ByteSize n) (hr : r.WellFormed) (hne : r.isempty = false)
    (hmask : r.mask = maskOf n) (hx : x < 2 ^ (8 * n)) {left right : Nat}
    (hl : left ≡ r.left + delta [MOD 2 ^ (8 * n)]) (hright : right ≡ r.right + delta [MOD 2 ^ (8 * n)]) {y : Nat}
    (hy : y + delta ≡ x [MOD 2 ^ (8 * n)]) (hylt : y < 2 ^ (8 * n)) :
    ({ r with left := left &&& r.mask, right := right &&& r.mask } : CircleRange).contains x = r.contains y := by
  have hM := pow_eq_of_mask h hmask
  have hL := hr.left_eq hM
  have hR : r.right = (r.left + r.length) % 2 ^ (8 * n) := hM ▸ hr.right_eq
  -- the old value, counted from the left end, is as far as the new one
  obtain ⟨d, hd⟩ : ∃ d, y = (r.left + d) % 2 ^ (8 * n) := ⟨_, (add_ahead (hM ▸ hr.lt.1) hylt).symm⟩
  have hx' : x = (r.left + delta + d) % 2 ^ (8 * n) := by
    rw [← Nat.mod_eq_of_lt hx]
    refine hy.symm.trans ?_
    rw [hd, show r.left + delta + d = r.left + d + delta by omega]
    exact (Nat.mod_modEq _ _).add_right _
  rw [hd, hx']
  refine contains_moved hM rfl rfl (hM ▸ hr.dvd_or) hr.step_pos hne hne hL hR ?_ ?_
  · rw [hmask]
    exact and_eq_of_modEq h hl
  · rw [hmask, and_eq_of_modEq h hright]
    rw [hR, show r.left + delta + r.length = r.left + r.length + delta by omega]
    exact (Nat.mod_modEq _ _).add_right _

/-- With the step added on, the values taken from a number are those of the mirrored range. -/
theorem contains_negated {l e t : Nat} (h : ByteSize n) (hr : r.WellFormed) (hne : r.isempty = false)
    (hmask : r.mask = maskOf n) (hl : l + r.right ≡ t + r.step [MOD 2 ^ (8 * n)])
    (he : e + r.left ≡ t + r.step [MOD 2 ^ (8 * n)]) (hx : x < 2 ^ (8 * n)) :
    ({ r with left := l &&& r.mask, right := e &&& r.mask } : CircleRange).contains ((t + (2 ^ (8 * n) - x)) % 2 ^ (8 * n)) =
      r.contains x := by
  have hM := pow_eq_of_mask h hmask
  have hL := hr.left_eq hM
  have hR : r.right = (r.left + r.length) % 2 ^ (8 * n) := hM ▸ hr.right_eq
  have hpos := hr.length_pos
  have hle := hM ▸ hr.length_le
  have hdvd := hM ▸ hr.stride_dvd
  have hdvdlen := hr.stride_dvd_length
  have hends : e ≡ l + r.length [MOD 2 ^ (8 * n)] := by
    have hright : l + r.right ≡ l + r.length + r.left [MOD 2 ^ (8 * n)] := by
      rw [hR, Nat.add_assoc, Nat.add_comm r.length]
      exact (Nat.mod_modEq _ _).add_left l
    exact Nat.ModEq.add_right_cancel' r.left (he.trans (hl.symm.trans hright))
  -- the steps from the new start and from the old one make up the length, but for one step
  obtain ⟨k, hk, hkx⟩ : ∃ k < 2 ^ (8 * n), x = (r.left + k) % 2 ^ (8 * n) :=
    ⟨_, ahead_lt (hM ▸ hr.lt.1), (add_ahead (hM ▸ hr.lt.1) hx).symm⟩
  have hstride : r.stride ≡ r.step [MOD 2 ^ (8 * n)] := hM ▸ hr.stride_modEq
  have hS : r.stride ≤ r.length := Nat.le_of_dvd hpos hdvdlen
  have hmirror : (t + (2 ^ (8 * n) - x)) % 2 ^ (8 * n) = (l + (r.length - r.stride + (2 ^ (8 * n) - k))) % 2 ^ (8 * n) := by
    refine Nat.ModEq.add_right_cancel' (x + r.step) ?_
    rw [show t + (2 ^ (8 * n) - x) + (x + r.step) = t + r.step + 2 ^ (8 * n) by omega]
    refine Nat.add_modEq_right.trans (hl.symm.trans ?_)
    have hx' : x ≡ r.left + k [MOD 2 ^ (8 * n)] := by
      rw [hkx]
      exact Nat.mod_modEq _ _
    refine Nat.ModEq.trans ?_ ((hx'.symm.add hstride).add_left _)
    rw [show l + (r.length - r.stride + (2 ^ (8 * n) - k)) + (r.left + k + r.stride) = l + (r.left + r.length) + 2 ^ (8 * n) by omega,
      hR]
    exact ((Nat.mod_modEq _ _).add_left l).trans Nat.add_modEq_right.symm
  have hdvdk : r.stride ∣ r.length - r.stride + (2 ^ (8 * n) - k) ↔ r.stride ∣ k := by
    rw [Nat.dvd_add_right (Nat.dvd_sub hdvdlen dvd_rfl)]
    exact Nat.dvd_sub_iff_right hk.le hdvd
  have hnew : ({ r with left := l &&& r.mask, right := e &&& r.mask } : CircleRange).right = (l + r.length) % 2 ^ (8 * n) := by
    show e &&& r.mask = _
    rw [hmask]
    exact and_eq_of_modEq h hends
  rw [Bool.eq_iff_iff, hmirror, hkx, contains_span hM (hM ▸ hr.dvd_or) hr.step_pos hne hL hR,
    contains_span (r := { r with left := l &&& r.mask, right := e &&& r.mask }) hM (hM ▸ hr.dvd_or) hr.step_pos hne
      (by show l &&& r.mask = _; rw [hmask, and_maskOf h]) hnew]
  refine (and_congr_left' hdvdk).trans (and_congr_right fun hSk => ?_)
  rcases Nat.eq_or_lt_of_le hle with hfull | hlt
  · rw [hfull]
    simp
  · have hndvd : ¬ 2 ^ (8 * n) ∣ r.length := fun hd => absurd (Nat.le_of_dvd hpos hd) (by omega)
    simp only [hndvd, false_or]
    rw [Nat.mod_eq_of_lt hlt, Nat.mod_eq_of_lt hk]
    have hSpos := hr.stride_pos
    by_cases hin : k < r.length
    · have hgap := Nat.le_of_dvd (by omega) (Nat.dvd_sub hdvdlen hSk)
      rw [show r.length - r.stride + (2 ^ (8 * n) - k) = r.length - r.stride - k + 2 ^ (8 * n) by omega, Nat.add_mod_right,
        Nat.mod_eq_of_lt (by omega)]
      omega
    · have hgap := Nat.le_of_dvd (by omega) (Nat.dvd_sub hdvd hSk)
      rw [Nat.mod_eq_of_lt (by omega)]
      omega

/-- Each value of a range taken from a number. The step that is left out at one end
appears at the other, so only in two cases are the values right. -/
theorem contains_mirrored_iff (h : ByteSize n) (hr : r.WellFormed) (hne : r.isempty = false) (hmask : r.mask = maskOf n) :
    (∀ x < 2 ^ (8 * n), ({ r with left := wrappingSub val r.left &&& r.mask, right := wrappingSub val r.right &&& r.mask } :
      CircleRange).contains x = r.contains ((val + (2 ^ (8 * n) - x)) % 2 ^ (8 * n))) ↔
        r.left = r.right ∨ 2 * r.step = r.mask + 1 := by
  have hM := pow_eq_of_mask h hmask
  have hL := hr.left_eq hM
  have hR : r.right = (r.left + r.length) % 2 ^ (8 * n) := hM ▸ hr.right_eq
  have hlen := hr.length_le
  have hlt := hr.lt
  have hdvd := hr.stride_dvd
  have hdvdlen := hr.stride_dvd_length
  have hpos := hr.length_pos
  rw [hM] at hlen hlt hdvd
  set M := 2 ^ (8 * n) with hMdef
  set A := val + (M - r.left) with hA
  set r' : CircleRange :=
    { r with left := wrappingSub val r.left &&& r.mask, right := wrappingSub val r.right &&& r.mask } with hr'
  have hle : M ≤ 2 ^ 64 := pow_le_word h
  have hl' : r'.left = A % M := by
    rw [hr', hmask]
    refine and_eq_of_modEq h (wrappingSub_modEq h (hlt.1.le.trans hle) ?_)
    rw [hA, show val + (M - r.left) + r.left = val + M by omega]
    exact (Nat.add_modEq_right).symm
  have hright' : r'.right = (A + (M - r.length)) % M := by
    rw [hr', hmask]
    refine and_eq_of_modEq h (wrappingSub_modEq h (hlt.2.le.trans hle) ?_)
    rw [hR]
    refine Nat.ModEq.symm (((Nat.mod_modEq _ _).add_left _).trans ?_)
    rw [hA, show val + (M - r.left) + (M - r.length) + (r.left + r.length) = val + M + M by omega]
    exact Nat.add_modEq_right.trans Nat.add_modEq_right
  -- a value that is some way on in the new range is as far back in the old one
  have hnew : ∀ d, r'.contains ((A + d) % M) = true ↔ r.stride ∣ d ∧ (M ∣ M - r.length ∨ d % M < (M - r.length) % M) :=
    fun d => contains_span hM (hM ▸ hr.dvd_or) hr.step_pos hne hl' hright'
  have hold : ∀ d < M, r.contains ((val + (M - (A + d) % M)) % M) = true ↔
      r.stride ∣ M - d ∧ (M ∣ r.length ∨ (M - d) % M < r.length % M) := by
    intro d hd
    have hback : (val + (M - (A + d) % M)) % M = (r.left + (M - d)) % M := by
      have hlt' : (A + d) % M < M := Nat.mod_lt _ (by omega)
      have hsum : val + (M - (A + d) % M) + (A + d) ≡ r.left + (M - d) + (A + d) [MOD M] := by
        refine ((Nat.mod_modEq (A + d) M).symm.add_left _).trans ?_
        rw [show val + (M - (A + d) % M) + (A + d) % M = val + M by omega, hA,
          show r.left + (M - d) + (val + (M - r.left) + d) = val + M + M by omega]
        exact Nat.add_modEq_right.symm
      exact Nat.ModEq.add_right_cancel' _ hsum
    rw [hback]
    exact contains_span hM (hM ▸ hr.dvd_or) hr.step_pos hne hL hR
  have hvals : (∀ x < M, r'.contains x = r.contains ((val + (M - x)) % M)) ↔
      ∀ d < M, r.stride ∣ d → ((M ∣ M - r.length ∨ d % M < (M - r.length) % M) ↔
        (M ∣ r.length ∨ (M - d) % M < r.length % M)) := by
    constructor
    · intro hall d hd hstep
      have := hall _ (Nat.mod_lt (A + d) (by omega))
      rw [Bool.eq_iff_iff, hnew, hold d hd] at this
      have hback : r.stride ∣ M - d := Nat.dvd_sub hdvd hstep
      simpa only [hstep, hback, true_and] using this
    · intro hall x hx
      have hAlt : A % M < M := Nat.mod_lt _ (by omega)
      have hx' : x = (A + ahead M (A % M) x) % M := by
        rw [← Nat.mod_add_mod, add_ahead hAlt hx]
      have hd : ahead M (A % M) x < M := ahead_lt hAlt
      generalize ahead M (A % M) x = d at hx' hd
      subst hx'
      rw [Bool.eq_iff_iff, hnew, hold d hd]
      by_cases hstep : r.stride ∣ d
      · have hback : r.stride ∣ M - d := Nat.dvd_sub hdvd hstep
        simpa only [hstep, hback, true_and] using hall d hd hstep
      · have hback : ¬ r.stride ∣ M - d := fun hback =>
          hstep (by have := Nat.dvd_sub hdvd hback; rwa [show M - (M - d) = d by omega] at this)
        simp only [hstep, hback, false_and]
  rw [hvals, mirror_iff hdvd hdvdlen hpos hlen, ← hM, length_eq_iff hr]
  by_cases hfull : r.left = r.right
  · simp only [hfull, true_or]
  · have hstride : r.stride = r.step := by
      have := mt (length_eq_iff hr).mp hfull
      have := Nat.le_of_dvd hpos hdvdlen
      rw [stride] at this ⊢
      omega
    rw [hstride]

theorem pullBackAdditive_exact_iff (r : CircleRange) (opc : OpCode) (val n : Nat) (slot : Int) (h : ByteSize n)
    (hr : r.WellFormed) (hne : r.isempty = false) (hmask : r.mask = maskOf n) (hval : val < 2 ^ (8 * n))
    (hopc : opc = .intAdd ∨ opc = .intSub) (hslot : slot = 0 ∨ slot = 1) :
    InputsExact r opc val slot n ↔ opc = .intAdd ∨ slot = 0 ∨ r.left = r.right ∨ 2 * r.step = r.mask + 1 := by
  have hnot : ¬ r.isempty = true := by simp [hne]
  have hle := pow_le_word h
  have hmod : ∀ v, v % 2 ^ (8 * n) < 2 ^ (8 * n) := fun v => Nat.mod_lt v (Nat.two_pow_pos _)
  rcases hopc with rfl | rfl
  · -- the value that is added is taken off again
    have hpull : r.pullBackBinary .intAdd val slot n n = (true, { r with
        left := wrappingSub r.left val &&& r.mask, right := wrappingSub r.right val &&& r.mask }) := by
      rw [pullBackBinary, if_neg hnot]
    have hback : ∀ v, wrappingSub v val ≡ v + (2 ^ (8 * n) - val) [MOD 2 ^ (8 * n)] := by
      intro v
      refine wrappingSub_modEq h (hval.le.trans hle) ?_
      rw [show v + (2 ^ (8 * n) - val) + val = v + 2 ^ (8 * n) by omega]
      exact Nat.add_modEq_right.symm
    simp only [true_or, iff_true]
    refine (inputsExact_iff (fun x => (x + val) % 2 ^ (8 * n)) hpull fun x hx => ?_).mpr fun x hx => ?_
    · rw [operands]
      split
      · exact gives_intAdd h hx hval
      · rw [Nat.add_comm]
        exact gives_intAdd h hval hx
    · refine contains_translated h hr hne hmask hx (hback _) (hback _) ?_ (hmod _)
      refine ((Nat.mod_modEq _ _).add_right _).trans ?_
      rw [show x + val + (2 ^ (8 * n) - val) = x + 2 ^ (8 * n) by omega]
      exact Nat.add_modEq_right
  · rcases hslot with rfl | rfl
    · have hpull : r.pullBackBinary .intSub val 0 n n = (true, { r with
          left := wrappingAdd r.left val &&& r.mask, right := wrappingAdd r.right val &&& r.mask }) := by
        rw [pullBackBinary, if_neg hnot]
        rfl
      simp only [true_or, or_true, iff_true]
      refine (inputsExact_iff (fun x => (x + (2 ^ (8 * n) - val)) % 2 ^ (8 * n)) hpull fun x hx => ?_).mpr fun x hx => ?_
      · exact gives_intSub h hx hval
      · refine contains_translated h hr hne hmask hx (wrappingAdd_modEq h _ _) (wrappingAdd_modEq h _ _) ?_ (hmod _)
        refine ((Nat.mod_modEq _ _).add_right _).trans ?_
        rw [show x + (2 ^ (8 * n) - val) + val = x + 2 ^ (8 * n) by omega]
        exact Nat.add_modEq_right
    · have hpull : r.pullBackBinary .intSub val 1 n n = (true, { r with
          left := wrappingSub val r.left &&& r.mask, right := wrappingSub val r.right &&& r.mask }) := by
        rw [pullBackBinary, if_neg hnot]
        rfl
      rw [inputsExact_iff (fun x => (val + (2 ^ (8 * n) - x)) % 2 ^ (8 * n)) hpull fun x hx => gives_intSub h hval hx,
        contains_mirrored_iff h hr hne hmask]
      simp

theorem pullBackAdditive_exact_iff_difference : InputsExact ⟨0, 10, 0xff, false, 1⟩ .intSub 3 0 1 :=
  (pullBackAdditive_exact_iff ⟨0, 10, 0xff, false, 1⟩ .intSub 3 1 0 (by decide)
    ⟨⟨1, by decide, rfl⟩, ⟨0, by decide, rfl⟩, by decide, by decide, rfl⟩ rfl rfl (by decide) (.inr rfl) (.inl rfl)).mpr
      (.inr (.inl rfl))

/-- For `10 - x` below ten: one is left out, although nine is in the range. -/
theorem pullBackAdditive_not_exact :
    WellFormed ⟨0, 10, 0xff, false, 1⟩ ∧ ¬ InputsExact ⟨0, 10, 0xff, false, 1⟩ .intSub 10 1 1 := by
  constructor
  · exact ⟨⟨1, by decide, rfl⟩, ⟨0, by decide, rfl⟩, by decide, by decide, rfl⟩
  · rintro ⟨r', hpull, hexact⟩
    obtain ⟨out, hout, hmem⟩ := hexact 1 (by decide)
    cases hpull
    cases hout
    revert hmem
    decide

end Additive

end GhidraDecompiler.Range.CircleRange
