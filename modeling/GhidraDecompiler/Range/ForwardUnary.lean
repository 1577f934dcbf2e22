import GhidraDecompiler.Range.PullBackAdditive

namespace GhidraDecompiler.Range.CircleRange

open Pcode Arcs

/-- A cast has no behavior of its own: it passes its input on. -/
def behaviorOf : OpCode → OpCode
  | .cast => .copy
  | opc => opc

/-- The ends are within the mask and a whole number of steps apart. -/
structure Consistent (r : CircleRange) : Prop where
  left : r.left ≤ r.mask
  right : r.right ≤ r.mask
  congruent : r.left % r.step = r.right % r.step

/-- Some steps from a start on a circle of `M` numbers, no more than once around. -/
structure Spanned (r : CircleRange) (M A L : Nat) : Prop where
  mask : r.mask + 1 = M
  isempty : r.isempty = false
  dvd : r.step ∣ M
  dvd_length : r.step ∣ L
  left : r.left = A % M
  right : r.right = (A + L) % M
  le : L ≤ M

/-- The values of a range, each taken on, are all in the other range. -/
def Carries (in1 res : CircleRange) (n : Nat) (f : Nat → Nat) : Prop :=
  ∀ x < 2 ^ (8 * n), in1.contains x = true → res.contains (f x) = true

section Spanned

variable {r in1 : CircleRange} {M A L d n : Nat} {f : Nat → Nat}

theorem Spanned.contains (h : r.Spanned M A L) (hd : r.step ∣ d) (hlt : d < L) : r.contains ((A + d) % M) = true := by
  have hpos : 0 < M := h.mask ▸ Nat.succ_pos _
  exact contains_span_of_lt h.mask h.dvd (Nat.pos_of_dvd_of_pos h.dvd hpos) h.isempty h.left h.right h.le hd hlt

theorem Spanned.carries (h : r.Spanned M A L)
    (hsteps : ∀ x < 2 ^ (8 * n), in1.contains x = true → ∃ d < L, r.step ∣ d ∧ f x = (A + d) % M) : Carries in1 r n f := by
  intro x hx hc
  obtain ⟨d, hlt, hd, heq⟩ := hsteps x hx hc
  rw [heq]
  exact h.contains hd hlt

theorem Spanned.consistent (h : r.Spanned M A L) : r.Consistent := by
  have hM := h.mask
  have hlt : ∀ v, v % M ≤ r.mask := fun v => by
    have := Nat.mod_lt v (show 0 < M by omega)
    omega
  refine ⟨h.left ▸ hlt A, h.right ▸ hlt _, ?_⟩
  rw [h.left, h.right]
  exact ((span_mod_iff h.dvd).mpr h.dvd_length).symm

theorem Consistent.normalize (h : r.Consistent) : r.normalize.Consistent := by
  rw [CircleRange.normalize]
  split
  · refine ⟨?_, ?_, rfl⟩
    all_goals
      dsimp only
      split
      · exact (Nat.mod_le _ _).trans h.left
      · exact Nat.zero_le _
  · exact h

theorem WellFormed.consistent (h : r.WellFormed) : r.Consistent := ⟨h.left, h.right, h.congruent⟩

end Spanned

section Extension

variable {self in1 res : CircleRange} {n m x y : Nat}

theorem Fits.dvd_minSigned (h : ByteSize n) (hr : in1.Fits) (hmask : in1.mask = maskOf n) : in1.step ∣ minSigned n := by
  obtain ⟨k, -, hk⟩ := hr.step
  have hle := hr.step_le
  have hM := pow_eq_of_mask h hmask
  rw [hk] at hle ⊢
  have hlt : k < 8 * n := (Nat.pow_lt_pow_iff_right (show 1 < 2 by decide)).mp (by omega)
  exact Nat.pow_dvd_pow 2 (by omega)

theorem signExtended_eq (h : ByteSize n) (hm : ByteSize m) (hle : n ≤ m) (hx : x < 2 ^ (8 * n)) :
    signExtended x n m = sextOf n m x := by
  obtain ⟨out, hout, hval⟩ := gives_intSext h hm hle hx
  cases hout
  exact hval

theorem sextOf_mod {s : Nat} (hle : n ≤ m) (hdvd : s ∣ 2 ^ (8 * n)) : sextOf n m x ≡ x [MOD s] := by
  rw [sextOf]
  split
  · rfl
  · have hpow : s ∣ 2 ^ (8 * m) - 2 ^ (8 * n) := Nat.dvd_sub (hdvd.trans (Nat.pow_dvd_pow 2 (by omega))) hdvd
    have := (Nat.modEq_zero_iff_dvd.mpr hpow).add_left x
    rwa [Nat.add_zero] at this

/-- The last value of a range, from which the right end is a step. -/
theorem last_eq (h : ByteSize n) (hr : in1.Fits) (hmask : in1.mask = maskOf n) :
    wrappingSub in1.right in1.step &&& in1.mask = (in1.left + (in1.length - in1.step)) % 2 ^ (8 * n) := by
  have hM := pow_eq_of_mask h hmask
  have hstep : in1.step ≤ in1.length := Nat.le_of_dvd hr.length_pos (hr.stride_eq ▸ hr.stride_dvd_length)
  have hright : in1.right = (in1.left + in1.length) % 2 ^ (8 * n) := hM ▸ hr.right_eq
  rw [hmask]
  refine and_eq_of_modEq h (wrappingSub_modEq h (by have := hr.step_lt; omega) ?_)
  rw [hright, Nat.add_assoc, Nat.sub_add_cancel hstep]
  exact Nat.mod_modEq _ _

/-- The last value is not below the first, so the range does not wrap. -/
theorem not_wraps {M left k : Nat} (hl : left < M) (hk : k < M) (hup : left ≤ (left + k) % M) : left + k < M := by
  by_contra hwrap
  rw [Nat.mod_eq_sub_mod (by omega), Nat.mod_eq_of_lt (by omega)] at hup
  omega

theorem two_pow_le_of_lt (hlt : n < m) : 2 * 2 ^ (8 * n) ≤ 2 ^ (8 * m) := by
  rw [Nat.mul_comm, ← Nat.pow_succ]
  exact Nat.pow_le_pow_right (by decide) (by omega)

/-- Zero extension of a range that does not wrap. -/
theorem pushForwardZext_spanned (h : ByteSize n) (hm : ByteSize m) (hle : n ≤ m) (hr : in1.Fits) (hmask : in1.mask = maskOf n)
    (hkeep : n = m → n = 8 ∨ in1.left ≠ in1.right ∧ in1.right ≠ in1.left % in1.step)
    (hpush : self.pushForwardZext in1 m = (true, res)) :
    res.Consistent ∧ Carries in1 res n id := by
  have hM := pow_eq_of_mask h hmask
  have hMo : maskOf m + 1 = 2 ^ (8 * m) := by rw [maskOf_eq hm, Nat.sub_add_cancel Nat.one_le_two_pow]
  have hpow : 2 ^ (8 * n) ≤ 2 ^ (8 * m) := Nat.pow_le_pow_right (by decide) (by omega)
  have hword := pow_le_word hm
  have hdvd : in1.step ∣ 2 ^ (8 * n) := hM ▸ hr.dvd
  have hdvdo : in1.step ∣ 2 ^ (8 * m) := hdvd.trans (Nat.pow_dvd_pow 2 (by omega))
  have hdvdlen : in1.step ∣ in1.length := hr.stride_eq ▸ hr.stride_dvd_length
  have hstep := Nat.le_of_dvd hr.length_pos hdvdlen
  have hpos := hr.step_pos
  have hlt := hM ▸ hr.lt
  have hsle := hr.step_le
  have hlast := last_eq h hr hmask
  rw [pushForwardZext] at hpush
  simp only at hpush
  split at hpush
  · next hfull =>
      have hrem := Nat.mod_lt in1.left hpos
      have hend : wrappingAdd (wrappingAdd in1.mask 1) (in1.left % in1.step) =
          (in1.left % in1.step + 2 ^ (8 * n)) % 2 ^ (8 * m) := by
        rcases Nat.lt_or_eq_of_le hle with hnm | rfl
        · have := two_pow_le_of_lt hnm
          rw [wrappingAdd_of_lt (show in1.mask + 1 < 2 ^ 64 by omega), hM, wrappingAdd_of_lt (by omega), Nat.add_comm]
          exact (Nat.mod_eq_of_lt (by omega)).symm
        · obtain rfl | hne := hkeep rfl
          · rw [wrappingAdd, wrappingAdd, hM, Nat.mod_add_mod, Nat.add_comm]
          · exact absurd hfull hne.1
      have hleft : in1.left % in1.step % 2 ^ (8 * m) = in1.left % in1.step := Nat.mod_eq_of_lt (by omega)
      have hspan : res.Spanned (2 ^ (8 * m)) (in1.left % in1.step) (2 ^ (8 * n)) := by
        cases hpush
        exact ⟨hMo, rfl, hdvdo, hdvd, hleft.symm, hend, hpow⟩
      have hres : res.step = in1.step := by
        cases hpush
        rfl
      refine ⟨hspan.consistent, hspan.carries fun x hx hc => ?_⟩
      have hmod := ((contains_iff_arc _ _).mp hc).2.1
      have hxle := Nat.mod_le x in1.step
      refine ⟨x - in1.left % in1.step, by omega, ?_, ?_⟩
      · rw [hres, ← hmod]
        exact Nat.dvd_sub_mod x
      · rw [Nat.add_sub_cancel' (by omega), Nat.mod_eq_of_lt (by omega)]
        rfl
  · next hproper =>
      rw [hlast] at hpush
      split at hpush
      · cases hpush
      · next hup =>
          have hnowrap : in1.left + (in1.length - in1.step) < 2 ^ (8 * n) := by
            have hlen := hM ▸ hr.length_le
            exact not_wraps hlt.1 (by omega) (by omega)
          rw [Nat.mod_eq_of_lt hnowrap] at hpush
          have hend : wrappingAdd (in1.left + (in1.length - in1.step)) in1.step = (in1.left + in1.length) % 2 ^ (8 * m) := by
            rw [wrappingAdd, Nat.add_assoc, Nat.sub_add_cancel hstep]
            rcases Nat.lt_or_eq_of_le hle with hnm | rfl
            · have := two_pow_le_of_lt hnm
              rw [Nat.mod_eq_of_lt (by omega), Nat.mod_eq_of_lt (by omega)]
            · obtain rfl | hne := hkeep rfl
              · rfl
              · -- an end past the top of the circle would be the remainder
                have htop : in1.left + in1.length < 2 ^ (8 * n) := by
                  by_contra hover
                  have hright : in1.right = in1.left + in1.length - 2 ^ (8 * n) := by
                    rw [hr.right_eq, hM, Nat.mod_eq_sub_mod (by omega), Nat.mod_eq_of_lt (by omega)]
                  refine hne.2 ?_
                  rw [hr.congruent, Nat.mod_eq_of_lt (by omega)]
                rw [Nat.mod_eq_of_lt (by omega), Nat.mod_eq_of_lt (by omega)]
          have hleft : in1.left % 2 ^ (8 * m) = in1.left := Nat.mod_eq_of_lt (by omega)
          have hlen : in1.length ≤ 2 ^ (8 * m) := (hM ▸ hr.length_le).trans hpow
          have hspan : res.Spanned (2 ^ (8 * m)) in1.left in1.length := by
            cases hpush
            exact ⟨hMo, rfl, hdvdo, hdvdlen, hleft.symm, hend, hlen⟩
          have hres : res.step = in1.step := by
            cases hpush
            rfl
          refine ⟨hspan.consistent, hspan.carries fun x hx hc => ?_⟩
          obtain ⟨d, hd, hle, rfl⟩ := hr.exists_steps (by omega) hc
          refine ⟨d, by omega, hres ▸ hd, ?_⟩
          rw [hM, Nat.mod_eq_of_lt (by omega), Nat.mod_eq_of_lt (by omega)]
          rfl

/-- Sign extension keeps the order, and the distance between numbers of the same sign. -/
theorem sextOf_cases (h : ByteSize n) (hle : n ≤ m) (hx : x < 2 ^ (8 * n)) :
    (x < minSigned n ∧ sextOf n m x = x) ∨
      (minSigned n ≤ x ∧ sextOf n m x = x + (2 ^ (8 * m) - 2 ^ (8 * n)) ∧ sextOf n m x < 2 ^ (8 * m)) := by
  have hlt := sextOf_lt h hle hx
  rw [sextOf] at hlt ⊢
  split at hlt
  · exact .inl ⟨‹_›, if_pos ‹_›⟩
  · rw [if_neg ‹_›]
    exact .inr ⟨by omega, rfl, hlt⟩

theorem toInt_sextOf (h : ByteSize n) (hx : x < 2 ^ (8 * n)) :
    (BitVec.ofNat 64 (sextOf n 8 x)).toInt = if x < minSigned n then (x : Int) else x - (2 ^ (8 * n) : Nat) := by
  have htwo := two_minSigned h
  have hword := pow_le_word h
  have hn := h.width_le
  have hlt := sextOf_lt h (show n ≤ 8 by omega) hx
  rw [BitVec.toInt_eq_toNat_cond, BitVec.toNat_ofNat, Nat.mod_eq_of_lt hlt, sextOf]
  split <;> split <;> omega

theorem pushForwardSext_full (h : ByteSize n) (hm : ByteSize m) (hle : n ≤ m) (hr : in1.Fits) (hmask : in1.mask = maskOf n)
    (hfull : in1.left = in1.right) (hpush : self.pushForwardSext in1 n m = (true, res)) :
    res.Consistent ∧ Carries in1 res n (sextOf n m) := by
  have hM := pow_eq_of_mask h hmask
  have hMo : maskOf m + 1 = 2 ^ (8 * m) := by rw [maskOf_eq hm, Nat.sub_add_cancel Nat.one_le_two_pow]
  have hpow : 2 ^ (8 * n) ≤ 2 ^ (8 * m) := Nat.pow_le_pow_right (by decide) (by omega)
  have hword := pow_le_word hm
  have hdvd : in1.step ∣ 2 ^ (8 * n) := hM ▸ hr.dvd
  have hdvdo : in1.step ∣ 2 ^ (8 * m) := hdvd.trans (Nat.pow_dvd_pow 2 (by omega))
  have hhalf := hr.dvd_minSigned h hmask
  have htwo := two_minSigned h
  have hstep := Nat.le_of_dvd (minSigned_pos n) hhalf
  have hxor : maskOf m ^^^ (minSigned n - 1) = 2 ^ (8 * m) - minSigned n := by
    rw [minSigned, maskOf_xor hm (by omega)]
  have hmod : ∀ x, in1.contains x = true → x % in1.step = in1.left % in1.step :=
    fun x hc => ((contains_iff_arc _ _).mp hc).2.1
  rw [pushForwardSext, if_pos hfull] at hpush
  simp only [maskOf_shiftRight h, hxor, wrappingAdd_minSigned h] at hpush
  have hrem := Nat.mod_lt in1.left hr.step_pos
  generalize in1.left % in1.step = rem at hrem hmod hpush
  rw [wrappingAdd_of_lt (show 2 ^ (8 * m) - minSigned n + rem < 2 ^ 64 by omega),
    wrappingAdd_of_lt (show minSigned n + rem < 2 ^ 64 by omega)] at hpush
  have hleft : (2 ^ (8 * m) - minSigned n + rem) % 2 ^ (8 * m) = 2 ^ (8 * m) - minSigned n + rem :=
    Nat.mod_eq_of_lt (by omega)
  have hright : (2 ^ (8 * m) - minSigned n + rem + 2 ^ (8 * n)) % 2 ^ (8 * m) = minSigned n + rem := by
    rw [show 2 ^ (8 * m) - minSigned n + rem + 2 ^ (8 * n) = minSigned n + rem + 2 ^ (8 * m) by omega,
      Nat.add_mod_right, Nat.mod_eq_of_lt (by omega)]
  have hspan : res.Spanned (2 ^ (8 * m)) (2 ^ (8 * m) - minSigned n + rem) (2 ^ (8 * n)) := by
    cases hpush
    exact ⟨hMo, rfl, hdvdo, hdvd, hleft.symm, hright.symm, hpow⟩
  have hres : res.step = in1.step := by
    cases hpush
    rfl
  refine ⟨hspan.consistent, hspan.carries fun x hx hc => ?_⟩
  have hxrem := hmod x hc
  have hdvdx : in1.step ∣ x - rem := hxrem ▸ Nat.dvd_sub_mod x
  have hxle : rem ≤ x := hxrem ▸ Nat.mod_le x in1.step
  rw [hres]
  rcases sextOf_cases h hle hx with ⟨hneg, heq⟩ | ⟨hneg, heq, -⟩
  · refine ⟨x - rem + minSigned n, by omega, Nat.dvd_add hdvdx hhalf, ?_⟩
    rw [heq, show 2 ^ (8 * m) - minSigned n + rem + (x - rem + minSigned n) = x + 2 ^ (8 * m) by omega, Nat.add_mod_right,
      Nat.mod_eq_of_lt (by omega)]
  · -- a negative value is as far from the most negative one as the circle is long
    have hxhalf : rem ≤ x - minSigned n := by
      have hmod' : (x - minSigned n) % in1.step = rem := by
        rw [← hxrem]
        conv_rhs => rw [← Nat.sub_add_cancel hneg]
        rw [Nat.add_mod, Nat.mod_eq_zero_of_dvd hhalf, Nat.add_zero, Nat.mod_mod]
      rw [← hmod']
      exact Nat.mod_le _ _
    refine ⟨x - rem - minSigned n, by omega, Nat.dvd_sub hdvdx hhalf, ?_⟩
    rw [heq, show 2 ^ (8 * m) - minSigned n + rem + (x - rem - minSigned n) = x + (2 ^ (8 * m) - 2 ^ (8 * n)) by omega,
      Nat.mod_eq_of_lt (by omega)]

theorem sextOf_le (h : ByteSize n) (hle : n ≤ m) (hy : y < 2 ^ (8 * n)) (hxy : x ≤ y) : sextOf n m x ≤ sextOf n m y := by
  rcases sextOf_cases h hle (hxy.trans_lt hy) with ⟨hx, hsx⟩ | ⟨hx, hsx, -⟩ <;>
    rcases sextOf_cases h hle hy with ⟨hy', hsy⟩ | ⟨hy', hsy, -⟩ <;> omega

theorem sextOf_lt_of_lt (h : ByteSize n) (hle : n ≤ m) (hy : y < 2 ^ (8 * n)) (hxy : x < y) : sextOf n m x < sextOf n m y := by
  rcases sextOf_cases h hle (hxy.trans hy) with ⟨hx, hsx⟩ | ⟨hx, hsx, -⟩ <;>
    rcases sextOf_cases h hle hy with ⟨hy', hsy⟩ | ⟨hy', hsy, -⟩ <;> omega

/-- On the way up from one number to another the signed values go up with them. -/
theorem sextOf_add (h : ByteSize n) {k d : Nat} (hx : x < 2 ^ (8 * n)) (hk : k < 2 ^ (8 * n)) (hd : d ≤ k)
    (hup : (BitVec.ofNat 64 (sextOf n 8 x)).toInt ≤ (BitVec.ofNat 64 (sextOf n 8 ((x + k) % 2 ^ (8 * n)))).toInt) :
    sextOf n 8 ((x + d) % 2 ^ (8 * n)) = (sextOf n 8 x + d) % 2 ^ 64 := by
  have htwo := two_minSigned h
  have hword := pow_le_word h
  have hpos := Nat.two_pow_pos (8 * n)
  have hwrap : ∀ v < 2 ^ (8 * n), (x + v) % 2 ^ (8 * n) = if x + v < 2 ^ (8 * n) then x + v else x + v - 2 ^ (8 * n) := by
    intro v hv
    split
    · exact Nat.mod_eq_of_lt ‹_›
    · rw [Nat.mod_eq_sub_mod (by omega), Nat.mod_eq_of_lt (by omega)]
  rw [toInt_sextOf h hx, toInt_sextOf h (Nat.mod_lt _ hpos), hwrap k hk] at hup
  rw [hwrap d (by omega), sextOf, sextOf]
  generalize 2 ^ (8 * n) = M at *
  split_ifs at hup ⊢ <;> omega

theorem sub_add_step_le {s M a b : Nat} (hdvd : s ∣ M) (hle : a ≤ b) (hlt : b < M) (hmod : a ≡ b [MOD s]) : b - a + s ≤ M := by
  have hsub : s ∣ M - (b - a) := Nat.dvd_sub hdvd ((Nat.modEq_iff_dvd' hle).mp hmod)
  have := Nat.le_of_dvd (by omega) hsub
  omega

theorem pushForwardSext_proper (h : ByteSize n) (hm : ByteSize m) (hle : n ≤ m) (hr : in1.Fits) (hmask : in1.mask = maskOf n)
    (hproper : in1.left ≠ in1.right) (hpush : self.pushForwardSext in1 n m = (true, res)) :
    res.Consistent ∧ Carries in1 res n (sextOf n m) := by
  have hM := pow_eq_of_mask h hmask
  have hMo : maskOf m + 1 = 2 ^ (8 * m) := by rw [maskOf_eq hm, Nat.sub_add_cancel Nat.one_le_two_pow]
  have hpow : 2 ^ (8 * n) ≤ 2 ^ (8 * m) := Nat.pow_le_pow_right (by decide) (by omega)
  have hdvd : in1.step ∣ 2 ^ (8 * n) := hM ▸ hr.dvd
  have hdvdo : in1.step ∣ 2 ^ (8 * m) := hdvd.trans (Nat.pow_dvd_pow 2 (by omega))
  have hdvdlen : in1.step ∣ in1.length := hr.stride_eq ▸ hr.stride_dvd_length
  have hstep := Nat.le_of_dvd hr.length_pos hdvdlen
  have hlenle := hM ▸ hr.length_le
  have hpos := hr.step_pos
  have hlt := hM ▸ hr.lt
  have hk : in1.length - in1.step < 2 ^ (8 * n) := by omega
  have hlastlt : (in1.left + (in1.length - in1.step)) % 2 ^ (8 * n) < 2 ^ (8 * n) := Nat.mod_lt _ (Nat.two_pow_pos _)
  have hleft : sextOf n m in1.left % 2 ^ (8 * m) = sextOf n m in1.left := Nat.mod_eq_of_lt (sextOf_lt h hle hlt.1)
  rw [pushForwardSext, if_neg hproper] at hpush
  simp only [last_eq h hr hmask, signExtended_eq h hm hle hlt.1, signExtended_eq h hm hle hlastlt] at hpush
  split at hpush
  · cases hpush
  next hup =>
  rw [not_lt] at hup
  have hright : ∀ {A L}, sextOf n m ((in1.left + (in1.length - in1.step)) % 2 ^ (8 * n)) + in1.step ≡ A + L [MOD 2 ^ (8 * m)] →
      wrappingAdd (sextOf n m ((in1.left + (in1.length - in1.step)) % 2 ^ (8 * n))) in1.step &&& maskOf m =
        (A + L) % 2 ^ (8 * m) := fun hmod => and_eq_of_modEq hm ((wrappingAdd_modEq hm _ _).trans hmod)
  have hspan : ∀ {L}, in1.step ∣ L → L ≤ 2 ^ (8 * m) →
      sextOf n m ((in1.left + (in1.length - in1.step)) % 2 ^ (8 * n)) + in1.step ≡ sextOf n m in1.left + L [MOD 2 ^ (8 * m)] →
      res.Spanned (2 ^ (8 * m)) (sextOf n m in1.left) L := by
    intro L hdvdL hL hmod
    have hend := hright hmod
    cases hpush
    exact ⟨hMo, rfl, hdvdo, hdvdL, hleft.symm, hend, hL⟩
  have hres : res.step = in1.step := by
    cases hpush
    rfl
  clear hpush hright
  rcases Nat.lt_or_ge m 8 with hm8 | hm8
  · -- below a whole word the order is that of unsigned numbers
    have hsmall : ∀ v < 2 ^ (8 * n), (BitVec.ofNat 64 (sextOf n m v)).toInt = sextOf n m v := by
      intro v hv
      have hvlt := sextOf_lt h hle hv
      have hhalf : 2 ^ (8 * m) ≤ 2 ^ 56 := Nat.pow_le_pow_right (by decide) (by omega)
      rw [BitVec.toInt_eq_toNat_cond, BitVec.toNat_ofNat, Nat.mod_eq_of_lt (by omega), if_pos (by omega)]
    rw [hsmall _ hlt.1, hsmall _ hlastlt, Nat.cast_le] at hup
    have hnowrap : in1.left + (in1.length - in1.step) < 2 ^ (8 * n) := by
      refine not_wraps hlt.1 hk ?_
      by_contra hdown
      have := sextOf_lt_of_lt h hle hlt.1 (not_le.mp hdown)
      omega
    rw [Nat.mod_eq_of_lt hnowrap] at hup hspan
    have hmod : ∀ d, in1.step ∣ d → sextOf n m in1.left ≡ sextOf n m (in1.left + d) [MOD in1.step] := by
      intro d hd
      refine (sextOf_mod hle hdvd).trans (Nat.ModEq.trans ?_ (sextOf_mod hle hdvd).symm)
      have := (Nat.modEq_zero_iff_dvd.mpr hd).add_left in1.left
      rw [Nat.add_zero] at this
      exact this.symm
    have hlastmod := hmod _ (Nat.dvd_sub hdvdlen dvd_rfl)
    have hgap := (Nat.modEq_iff_dvd' hup).mp hlastmod
    have hspan' := hspan (Nat.dvd_add hgap dvd_rfl)
      (sub_add_step_le hdvdo hup (sextOf_lt h hle hnowrap) hlastmod)
      (by rw [← Nat.add_assoc, Nat.add_sub_cancel' hup])
    refine ⟨hspan'.consistent, hspan'.carries fun x hx hc => ?_⟩
    obtain ⟨d, hd, hdle, rfl⟩ := hr.exists_steps (by omega) hc
    rw [hM, Nat.mod_eq_of_lt (by omega), hres]
    have hlow := sextOf_le h hle (show in1.left + d < 2 ^ (8 * n) by omega) (Nat.le_add_right _ d)
    have hhigh := sextOf_le h hle hnowrap (show in1.left + d ≤ in1.left + (in1.length - in1.step) by omega)
    refine ⟨sextOf n m (in1.left + d) - sextOf n m in1.left, by omega, (Nat.modEq_iff_dvd' hlow).mp (hmod d hd), ?_⟩
    rw [Nat.add_sub_cancel' hlow, Nat.mod_eq_of_lt (sextOf_lt h hle (by omega))]
  · obtain rfl : m = 8 := by
      have := hm.width_le
      omega
    have hadd := fun d hd => sextOf_add h (d := d) hlt.1 hk hd hup
    have hspan' := hspan hdvdlen (hlenle.trans hpow) (by
      rw [hadd _ le_rfl]
      refine ((Nat.mod_modEq _ _).add_right in1.step).trans ?_
      rw [Nat.add_assoc, Nat.sub_add_cancel hstep])
    refine ⟨hspan'.consistent, hspan'.carries fun x hx hc => ?_⟩
    obtain ⟨d, hd, hdle, rfl⟩ := hr.exists_steps (by omega) hc
    exact ⟨d, by omega, hres ▸ hd, by rw [hM, hadd d (by omega)]⟩

end Extension

section Mirror

variable {in1 : CircleRange} {n l e t : Nat}

/-- Taken from a number the last value becomes the first. -/
theorem mirrored_spanned (h : ByteSize n) (hr : in1.Fits) (hmask : in1.mask = maskOf n)
    (hl : l + in1.right ≡ t + in1.step [MOD 2 ^ (8 * n)]) (he : e + in1.left ≡ t + in1.step [MOD 2 ^ (8 * n)]) :
    (⟨l &&& in1.mask, e &&& in1.mask, in1.mask, false, in1.step⟩ : CircleRange).Spanned (2 ^ (8 * n)) l in1.length := by
  have hM := pow_eq_of_mask h hmask
  have hdvdlen : in1.step ∣ in1.length := hr.stride_eq ▸ hr.stride_dvd_length
  have hright : l + in1.right ≡ l + in1.length + in1.left [MOD 2 ^ (8 * n)] := by
    rw [hr.right_eq, hM, Nat.add_assoc, Nat.add_comm in1.length]
    exact (Nat.mod_modEq _ _).add_left l
  have hends : e ≡ l + in1.length [MOD 2 ^ (8 * n)] :=
    Nat.ModEq.add_right_cancel' in1.left (he.trans (hl.symm.trans hright))
  refine ⟨hM, rfl, hM ▸ hr.dvd, hdvdlen, ?_, ?_, hM ▸ hr.length_le⟩
  · show l &&& in1.mask = _
    rw [hmask, and_maskOf h]
  · show e &&& in1.mask = _
    rw [hmask]
    exact and_eq_of_modEq h hends

theorem mirrored_carries (h : ByteSize n) (hr : in1.Fits) (hmask : in1.mask = maskOf n) (hne : in1.isempty = false)
    (hl : l + in1.right ≡ t + in1.step [MOD 2 ^ (8 * n)]) (he : e + in1.left ≡ t + in1.step [MOD 2 ^ (8 * n)]) :
    Carries in1 ⟨l &&& in1.mask, e &&& in1.mask, in1.mask, false, in1.step⟩ n
      (fun x => (t + (2 ^ (8 * n) - x)) % 2 ^ (8 * n)) := by
  have hrec : (⟨l &&& in1.mask, e &&& in1.mask, in1.mask, false, in1.step⟩ : CircleRange) =
      { in1 with left := l &&& in1.mask, right := e &&& in1.mask } := by rw [hne]
  intro x hx hc
  rw [hrec, contains_negated h hr.toWellFormed hne hmask hl he hx]
  exact hc

theorem Carries.normalize {in1 res : CircleRange} {f : Nat → Nat} (h : Carries in1 res n f) : Carries in1 res.normalize n f := by
  intro x hx hc
  rw [normalize_contains]
  exact h x hx hc

end Mirror

section Unary

variable {self in1 res : CircleRange} {opc : OpCode} {n m x : Nat}

theorem wrappingNot_add (h : ByteSize n) (hx : x < 2 ^ (8 * n)) :
    wrappingNot x + x ≡ 2 ^ (8 * n) - 1 [MOD 2 ^ (8 * n)] := by
  have hnot : wrappingNot x ≡ 2 ^ (8 * n) - 1 - x [MOD 2 ^ (8 * n)] := by
    refine wrappingNot_modEq h (hx.trans_le (pow_le_word h)) ?_
    rw [show x + (2 ^ (8 * n) - 1 - x) + 1 = 2 ^ (8 * n) by omega]
    exact (Nat.mod_self _).trans (Nat.zero_mod _).symm
  have hsum := hnot.add_right x
  rwa [show 2 ^ (8 * n) - 1 - x + x = 2 ^ (8 * n) - 1 by omega] at hsum

theorem wrappingNeg_add_step (h : ByteSize n) (step : Nat) (hx : x < 2 ^ (8 * n)) :
    wrappingAdd (wrappingAdd (wrappingNot x) 1) step + x ≡ 0 + step [MOD 2 ^ (8 * n)] := by
  have hone := (wrappingAdd_modEq h (wrappingNot x) 1).add_right (step + x)
  refine ((wrappingAdd_modEq h _ step).add_right x).trans ?_
  rw [Nat.add_assoc]
  refine hone.trans ?_
  rw [show wrappingNot x + 1 + (step + x) = wrappingNot x + x + (1 + step) by omega]
  refine ((wrappingNot_add h hx).add_right _).trans ?_
  rw [show 2 ^ (8 * n) - 1 + (1 + step) = 0 + step + 2 ^ (8 * n) by have := Nat.two_pow_pos (8 * n); omega]
  exact Nat.add_modEq_right

theorem wrappingNot_add_step (h : ByteSize n) (step : Nat) (hx : x < 2 ^ (8 * n)) :
    wrappingAdd (wrappingNot x) step + x ≡ 2 ^ (8 * n) - 1 + step [MOD 2 ^ (8 * n)] := by
  refine ((wrappingAdd_modEq h _ step).add_right x).trans ?_
  rw [show wrappingNot x + step + x = wrappingNot x + x + step by omega]
  exact (wrappingNot_add h hx).add_right _

theorem pushForwardUnary_empty {inSize outSize : Int} (hempty : in1.isempty = true) :
    self.pushForwardUnary opc in1 inSize outSize = (true, { self with isempty := true }) := by
  unfold pushForwardUnary
  rw [if_pos hempty]

theorem pushForwardUnary_int2comp (h : ByteSize n) (hr : in1.Fits) (hmask : in1.mask = maskOf n) (hne : in1.isempty = false)
    (hpush : self.pushForwardUnary .int2comp in1 n m = (true, res)) :
    res.Consistent ∧ Carries in1 res n (fun x => (2 ^ (8 * n) - x) % 2 ^ (8 * n)) := by
  have hlt := pow_eq_of_mask h hmask ▸ hr.lt
  have hend := fun v (hv : v < 2 ^ (8 * n)) => wrappingNeg_add_step h in1.step hv
  have hspan := mirrored_spanned h hr hmask (hend _ hlt.2) (hend _ hlt.1)
  have hcarries := mirrored_carries h hr hmask hne (hend _ hlt.2) (hend _ hlt.1)
  rw [pushForwardUnary, if_neg (by simp [hne])] at hpush
  cases hpush
  simp only [Nat.zero_add] at hcarries
  exact ⟨hspan.consistent.normalize, hcarries.normalize⟩

theorem pushForwardUnary_intNegate (h : ByteSize n) (hr : in1.Fits) (hmask : in1.mask = maskOf n) (hne : in1.isempty = false)
    (hpush : self.pushForwardUnary .intNegate in1 n m = (true, res)) :
    res.Consistent ∧ Carries in1 res n (fun x => 2 ^ (8 * n) - 1 - x) := by
  have hlt := pow_eq_of_mask h hmask ▸ hr.lt
  have hend := fun v (hv : v < 2 ^ (8 * n)) => wrappingNot_add_step h in1.step hv
  have hspan := mirrored_spanned h hr hmask (hend _ hlt.2) (hend _ hlt.1)
  have hcarries := mirrored_carries h hr hmask hne (hend _ hlt.2) (hend _ hlt.1)
  rw [pushForwardUnary, if_neg (by simp [hne])] at hpush
  cases hpush
  refine ⟨hspan.consistent.normalize, fun x hx hc => ?_⟩
  have hval : (2 ^ (8 * n) - 1 + (2 ^ (8 * n) - x)) % 2 ^ (8 * n) = 2 ^ (8 * n) - 1 - x := by
    rw [show 2 ^ (8 * n) - 1 + (2 ^ (8 * n) - x) = 2 ^ (8 * n) - 1 - x + 2 ^ (8 * n) by omega, Nat.add_mod_right,
      Nat.mod_eq_of_lt (by omega)]
  have hmem := hcarries.normalize x hx hc
  simp only [hval] at hmem
  exact hmem

end Unary

end GhidraDecompiler.Range.CircleRange
