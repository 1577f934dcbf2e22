import GhidraDecompiler.Range.PullBackAdditive

namespace GhidraDecompiler.Range.CircleRange

open Pcode Arcs

section Size

variable {M step left right : Nat}

/-- The distance is measured exactly on the way up, and a step less one too long around
the circle. -/
theorem pathSize_bounds (hM : M ≤ 2 ^ 64) (hl : left < M) (hr : right < M) (hne : left ≠ right)
    (hmod : left % step = right % step) :
    arcLength M left right ≤ pathSize (M - 1) step left right ∧
      pathSize (M - 1) step left right ≤ arcLength M left right + (step - 1) := by
  rw [arcLength_eq_of_ne hl hr hne, pathSize]
  split
  · omega
  · have hdvd : step ∣ left - right := (Nat.modEq_iff_dvd' (by omega)).mp hmod.symm
    have hle := Nat.le_of_dvd (by omega) hdvd
    have hpos : 0 < step := Nat.pos_of_dvd_of_pos hdvd (by omega)
    rw [wrappingAdd, wrappingSub]
    omega

end Size

section Add

variable {self in1 in2 : CircleRange} {n x y : Nat}

theorem step_min_dvd (h1 : in1.WellFormed) (h2 : in2.WellFormed) :
    (if in1.step < in2.step then in1.step else in2.step) ∣ in1.step ∧
      (if in1.step < in2.step then in1.step else in2.step) ∣ in2.step := by
  obtain ⟨i, -, hi⟩ := h1.step
  obtain ⟨j, -, hj⟩ := h2.step
  rw [hi, hj]
  split
  · next hlt => exact ⟨dvd_rfl, Nat.pow_dvd_pow 2 ((Nat.pow_lt_pow_iff_right (by decide)).mp hlt).le⟩
  · next hge =>
      exact ⟨Nat.pow_dvd_pow 2 ((Nat.pow_le_pow_iff_right (by decide)).mp (Nat.le_of_not_lt hge)), dvd_rfl⟩

theorem pushForwardAdd_general (h : ByteSize n) (h1 : in1.Fits) (h2 : in2.Fits) (hm1 : in1.mask = maskOf n)
    (hm2 : in2.mask = maskOf n) (hproper : ¬ (in1.left = in1.right ∨ in2.left = in2.right))
    (hsingle1 : ¬ in1.isSingle = true) (hsingle2 : ¬ in2.isSingle = true) {d₁ d₂ : Nat} (hd₁ : in1.step ∣ d₁)
    (hd₂ : in2.step ∣ d₂) (hle₁ : d₁ + in1.step ≤ in1.length) (hle₂ : d₂ + in2.step ≤ in2.length) :
    (self.pushForwardAdd in1 in2).contains ((in1.left + in2.left + (d₁ + d₂)) % 2 ^ (8 * n)) = true := by
  rw [not_or] at hproper
  have hM1 := pow_eq_of_mask h hm1
  have hM2 := pow_eq_of_mask h hm2
  obtain ⟨hs₁, hs₂⟩ := step_min_dvd h1.toWellFormed h2.toWellFormed
  have hlen1 := h1.stride_dvd_length
  have hlen2 := h2.stride_dvd_length
  rw [h1.stride_eq] at hlen1
  rw [h2.stride_eq] at hlen2
  have hdvd1 := hM1 ▸ h1.dvd
  have hdvd2 := hM2 ▸ h2.dvd
  have hlt1 := hM1 ▸ h1.lt
  have hlt2 := hM2 ▸ h2.lt
  have hpos1 := h1.step_pos
  have hpos2 := h2.step_pos
  have hword := pow_le_word h
  have hright1 : in1.right = (in1.left + in1.length) % 2 ^ (8 * n) := hM1 ▸ h1.right_eq
  have hright2 : in2.right = (in2.left + in2.length) % 2 ^ (8 * n) := hM2 ▸ h2.right_eq
  have hlenlt2 : in2.length + in2.step ≤ 2 ^ (8 * n) := by
    have hlt := mt (length_eq_iff h2.toWellFormed).mp hproper.2
    have hle := h2.length_le
    have hgap := Nat.le_of_dvd (by omega) (Nat.dvd_sub hdvd2 hlen2)
    omega
  have hne : ∀ {u : Bool}, ¬ u = true → u = false := by simp
  have hmask : in1.mask ||| in2.mask = maskOf n := by rw [hm1, hm2, Nat.or_self]
  rw [pushForwardAdd, if_neg (by simp [hproper]), if_neg hsingle2, if_neg hsingle1]
  simp only [hmask]
  generalize (if in1.step < in2.step then in1.step else in2.step) = s at hs₁ hs₂ ⊢
  have hspos : 0 < s := Nat.pos_of_dvd_of_pos hs₁ hpos1
  have hsle : s ≤ in2.step := Nat.le_of_dvd hpos2 hs₂
  have hsM : s ∣ 2 ^ (8 * n) := hs₁.trans hdvd1
  have hstep1 := Nat.le_of_dvd h1.length_pos hlen1
  have hstep2 := Nat.le_of_dvd h2.length_pos hlen2
  have hleft : wrappingAdd in1.left in2.left &&& maskOf n = (in1.left + in2.left) % 2 ^ (8 * n) :=
    and_eq_of_modEq h (wrappingAdd_modEq h _ _)
  have hdvd : s ∣ d₁ + d₂ := Nat.dvd_add (hs₁.trans hd₁) (hs₂.trans hd₂)
  have hM : maskOf n + 1 = 2 ^ (8 * n) := by rw [← hm1, hM1]
  obtain ⟨L, hL⟩ : ∃ L, L = in1.length - in1.step + (in2.length - in2.step) + s := ⟨_, rfl⟩
  have hdvdL : s ∣ L := by
    rw [hL]
    exact Nat.dvd_add (Nat.dvd_add (Nat.dvd_sub (hs₁.trans hlen1) hs₁) (Nat.dvd_sub (hs₂.trans hlen2) hs₂)) dvd_rfl
  have hright : wrappingAdd (wrappingSub (wrappingAdd (wrappingSub in1.right in1.step) in2.right) in2.step) s &&& maskOf n =
      (in1.left + in2.left + L) % 2 ^ (8 * n) := by
    have hlast : wrappingSub in1.right in1.step ≡ in1.left + (in1.length - in1.step) [MOD 2 ^ (8 * n)] := by
      refine wrappingSub_modEq h (by have := h1.step_lt; omega) ?_
      rw [hright1, Nat.add_assoc, Nat.sub_add_cancel hstep1]
      exact Nat.mod_modEq _ _
    have hsum : wrappingSub (wrappingAdd (wrappingSub in1.right in1.step) in2.right) in2.step ≡
        in1.left + (in1.length - in1.step) + (in2.left + (in2.length - in2.step)) [MOD 2 ^ (8 * n)] := by
      refine wrappingSub_modEq h (by have := h2.step_lt; omega) ((wrappingAdd_modEq h _ _).trans ?_)
      rw [Nat.add_assoc (in1.left + _), Nat.add_assoc in2.left, Nat.sub_add_cancel hstep2, hright2]
      exact hlast.add (Nat.mod_modEq _ _)
    refine and_eq_of_modEq h ((wrappingAdd_modEq h _ _).trans ((hsum.add_right s).trans ?_))
    rw [hL, show in1.left + (in1.length - in1.step) + (in2.left + (in2.length - in2.step)) + s =
      in1.left + in2.left + (in1.length - in1.step + (in2.length - in2.step) + s) by omega]
  rw [hleft, hright, normalize_contains]
  by_cases hsize : pathSize (maskOf n) s ((in1.left + in2.left) % 2 ^ (8 * n)) ((in1.left + in2.left + L) % 2 ^ (8 * n)) <
      pathSize in1.mask in1.step in1.left in1.right
  · simp only [if_pos hsize]
    exact contains_of_full rfl rfl (congr_steps hsM hdvd ((Nat.mod_modEq _ _).of_dvd hsM).symm)
  · simp only [if_neg hsize]
    refine (contains_span hM (.inl hsM) hspos rfl rfl rfl).mpr ⟨?_, ?_⟩
    · rw [stride, hM, Nat.min_eq_left (Nat.le_of_dvd (by omega) hsM)]
      exact hdvd
    · by_cases hwhole : 2 ^ (8 * n) ∣ L
      · exact .inl hwhole
      · right
        -- were the sums longer than the circle, their path would be too short
        have hshort : L < 2 ^ (8 * n) := by
          by_contra hlong
          have hends := mt (span_ends_eq_iff (A := in1.left + in2.left) (Nat.two_pow_pos (8 * n))).mp hwhole
          have hsize1 := (pathSize_bounds hword hlt1.1 hlt1.2 hproper.1 h1.congruent).1
          have hsizenew := (pathSize_bounds hword (Nat.mod_lt _ (Nat.two_pow_pos _)) (Nat.mod_lt _ (Nat.two_pow_pos _)) hends
            ((span_mod_iff hsM).mpr hdvdL).symm).2
          rw [arcLength_span (Nat.two_pow_pos _) hwhole, ← maskOf_eq h] at hsizenew
          rw [show arcLength _ in1.left in1.right = in1.length by rw [length, hM1], ← maskOf_eq h, ← hm1] at hsize1
          have hround : L % 2 ^ (8 * n) = L - 2 ^ (8 * n) := by
            have := hM1 ▸ h1.length_le
            rw [Nat.mod_eq_sub_mod (by omega), Nat.mod_eq_of_lt (by omega)]
          omega
        rw [Nat.mod_eq_of_lt hshort, Nat.mod_eq_of_lt (by omega)]
        omega

theorem pushForwardAdd_contains (h : ByteSize n) (h1 : in1.Fits) (h2 : in2.Fits) (hm1 : in1.mask = maskOf n)
    (hm2 : in2.mask = maskOf n) (hx : x < 2 ^ (8 * n)) (hy : y < 2 ^ (8 * n)) (hcx : in1.contains x = true)
    (hcy : in2.contains y = true) : (self.pushForwardAdd in1 in2).contains ((x + y) % 2 ^ (8 * n)) = true := by
  have hM1 := pow_eq_of_mask h hm1
  have hM2 := pow_eq_of_mask h hm2
  obtain ⟨d₁, hd₁, hle₁, rfl⟩ := h1.exists_steps (by omega) hcx
  obtain ⟨d₂, hd₂, hle₂, rfl⟩ := h2.exists_steps (by omega) hcy
  rw [hM1, hM2]
  have hsum : ((in1.left + d₁) % 2 ^ (8 * n) + (in2.left + d₂) % 2 ^ (8 * n)) % 2 ^ (8 * n) =
      (in1.left + in2.left + (d₁ + d₂)) % 2 ^ (8 * n) := by
    rw [← Nat.add_mod, show in1.left + d₁ + (in2.left + d₂) = in1.left + in2.left + (d₁ + d₂) by omega]
  have hdvd1 := hM1 ▸ h1.dvd
  have hdvd2 := hM2 ▸ h2.dvd
  have hright1 : in1.right = (in1.left + in1.length) % 2 ^ (8 * n) := hM1 ▸ h1.right_eq
  have hright2 : in2.right = (in2.left + in2.length) % 2 ^ (8 * n) := hM2 ▸ h2.right_eq
  have hmask : in1.mask ||| in2.mask = maskOf n := by rw [hm1, hm2, Nat.or_self]
  -- of a single value only the left end is taken
  have hzero : ∀ {r : CircleRange} {d : Nat}, r.Fits → r.isSingle = true → d + r.step ≤ r.length → d = 0 := by
    intro r d hr hsingle hle
    rw [hr.length_of_isSingle hsingle] at hle
    omega
  rw [hsum]
  by_cases hfull : in1.left = in1.right ∨ in2.left = in2.right
  · rw [pushForwardAdd, if_pos hfull]
    obtain ⟨hs₁, hs₂⟩ := step_min_dvd h1.toWellFormed h2.toWellFormed
    refine contains_of_full rfl rfl (congr_steps (hs₁.trans hdvd1) (Nat.dvd_add (hs₁.trans hd₁) (hs₂.trans hd₂)) ?_)
    refine Nat.ModEq.symm ((Nat.mod_modEq _ _).trans ?_)
    exact (wrappingAdd_modEq h _ _).of_dvd (hs₁.trans hdvd1)
  by_cases hsingle2 : in2.isSingle = true
  · rw [pushForwardAdd, if_neg hfull, if_pos hsingle2, hzero h2 hsingle2 hle₂, Nat.add_zero]
    refine contains_span_of_lt (L := in1.length) ?_ hdvd1 h1.step_pos rfl ?_ ?_ (hM1 ▸ h1.length_le) hd₁
      (by have := h1.step_pos; omega)
    · show (in1.mask ||| in2.mask) + 1 = _
      rw [hmask, ← hm1, hM1]
    · show wrappingAdd in1.left in2.left &&& (in1.mask ||| in2.mask) = _
      rw [hmask]
      exact and_eq_of_modEq h (wrappingAdd_modEq h _ _)
    · show wrappingAdd in1.right in2.left &&& (in1.mask ||| in2.mask) = _
      rw [hmask]
      refine and_eq_of_modEq h ((wrappingAdd_modEq h _ _).trans ?_)
      rw [hright1, show in1.left + in2.left + in1.length = in1.left + in1.length + in2.left by omega]
      exact (Nat.mod_modEq _ _).add_right _
  by_cases hsingle1 : in1.isSingle = true
  · rw [pushForwardAdd, if_neg hfull, if_neg hsingle2, if_pos hsingle1, hzero h1 hsingle1 hle₁, Nat.zero_add]
    refine contains_span_of_lt (L := in2.length) ?_ hdvd2 h2.step_pos rfl ?_ ?_ (hM2 ▸ h2.length_le) hd₂
      (by have := h2.step_pos; omega)
    · show (in1.mask ||| in2.mask) + 1 = _
      rw [hmask, ← hm1, hM1]
    · show wrappingAdd in2.left in1.left &&& (in1.mask ||| in2.mask) = _
      rw [hmask, Nat.add_comm in1.left]
      exact and_eq_of_modEq h (wrappingAdd_modEq h _ _)
    · show wrappingAdd in2.right in1.left &&& (in1.mask ||| in2.mask) = _
      rw [hmask]
      refine and_eq_of_modEq h ((wrappingAdd_modEq h _ _).trans ?_)
      rw [hright2, show in1.left + in2.left + in2.length = in2.left + in2.length + in1.left by omega]
      exact (Nat.mod_modEq _ _).add_right _
  exact pushForwardAdd_general h h1 h2 hm1 hm2 hfull hsingle1 hsingle2 hd₁ hd₂ hle₁ hle₂

theorem pushForwardBinary_empty {opc : OpCode} {inSize outSize : Int} {maxStep : Nat}
    (hempty : (in1.isempty || in2.isempty) = true) :
    self.pushForwardBinary opc in1 in2 inSize outSize maxStep = (true, { self with isempty := true }) := by
  unfold pushForwardBinary
  rw [if_pos hempty]

end Add

end GhidraDecompiler.Range.CircleRange
