import GhidraDecompiler.Lib.ArcSteps
import GhidraDecompiler.Pcode.Arithmetic
import GhidraDecompiler.Range.PushForward
import GhidraDecompiler.Range.UnionExact

namespace GhidraDecompiler.Range

open Pcode

section Words

variable {n a b c : Nat}

theorem wrappingAdd_of_lt (h : a + b < 2 ^ 64) : wrappingAdd a b = a + b := Nat.mod_eq_of_lt h

theorem wrappingAdd_modEq (h : ByteSize n) (a b : Nat) : wrappingAdd a b ≡ a + b [MOD 2 ^ (8 * n)] :=
  (Nat.mod_modEq _ _).of_dvd (pow_dvd_word h)

/-- A difference is known by what it adds up to. -/
theorem wrappingSub_modEq (h : ByteSize n) (hb : b ≤ 2 ^ 64) (hsum : a ≡ c + b [MOD 2 ^ (8 * n)]) :
    wrappingSub a b ≡ c [MOD 2 ^ (8 * n)] := by
  have hword : wrappingSub a b ≡ a + (2 ^ 64 - b) [MOD 2 ^ (8 * n)] := (Nat.mod_modEq _ _).of_dvd (pow_dvd_word h)
  have hshift : a + (2 ^ 64 - b) ≡ c + b + (2 ^ 64 - b) [MOD 2 ^ (8 * n)] := hsum.add_right _
  have hwhole : c + b + (2 ^ 64 - b) ≡ c [MOD 2 ^ (8 * n)] := by
    rw [show c + b + (2 ^ 64 - b) = c + 2 ^ 64 by omega]
    have := (Nat.modEq_zero_iff_dvd.mpr (pow_dvd_word h)).add_left c
    rwa [Nat.add_zero] at this
  exact hword.trans (hshift.trans hwhole)

theorem wrappingNot_modEq (h : ByteSize n) (ha : a < 2 ^ 64) (hsum : a + c + 1 ≡ 0 [MOD 2 ^ (8 * n)]) :
    CircleRange.wrappingNot a ≡ c [MOD 2 ^ (8 * n)] := by
  have hword : a + 1 + CircleRange.wrappingNot a ≡ a + 1 + c [MOD 2 ^ (8 * n)] := by
    rw [CircleRange.wrappingNot, show a + 1 + (2 ^ 64 - 1 - a) = 2 ^ 64 by omega, show a + 1 + c = a + c + 1 by omega]
    exact (Nat.modEq_zero_iff_dvd.mpr (pow_dvd_word h)).trans hsum.symm
  exact Nat.ModEq.add_left_cancel' _ hword

theorem and_eq_of_modEq (h : ByteSize n) (hmod : a ≡ c [MOD 2 ^ (8 * n)]) : a &&& maskOf n = c % 2 ^ (8 * n) := by
  rw [and_maskOf h]
  exact hmod

end Words

namespace CircleRange

open Arcs

section Shifting

variable {n val : Nat}

theorem shrAmount_eq (hval : val < 64) : shrAmount val = val := by
  rw [shrAmount]
  omega

theorem maskOf_shiftRight_eq (h : ByteSize n) (hval : val ≤ 8 * n) : maskOf n >>> val = 2 ^ (8 * n - val) - 1 := by
  rw [maskOf_eq h, Nat.shiftRight_eq_div_pow]
  have hpow : 2 ^ (8 * n) = 2 ^ (8 * n - val) * 2 ^ val := by rw [← pow_add, Nat.sub_add_cancel hval]
  have := Nat.two_pow_pos val
  have := Nat.two_pow_pos (8 * n - val)
  have hsplit : 2 ^ (8 * n) - 1 = (2 ^ val - 1) + 2 ^ val * (2 ^ (8 * n - val) - 1) := by
    rw [Nat.mul_sub_one, hpow, Nat.mul_comm]
    have := Nat.le_mul_of_pos_right (2 ^ val) (Nat.two_pow_pos (8 * n - val))
    omega
  rw [hsplit, Nat.add_mul_div_left _ _ (Nat.two_pow_pos val), Nat.div_eq_of_lt (by omega), Nat.zero_add]

theorem shiftLeft_and (h : ByteSize n) (e val : Nat) : (e <<< val) % 2 ^ 64 &&& maskOf n = e * 2 ^ val % 2 ^ (8 * n) := by
  rw [and_maskOf h, Nat.mod_mod_of_dvd _ (pow_dvd_word h), Nat.shiftLeft_eq]

theorem maskOf_xor (h : ByteSize n) {j : Nat} (hj : j ≤ 8 * n) : maskOf n ^^^ (2 ^ j - 1) = 2 ^ (8 * n) - 2 ^ j := by
  have hle : 2 ^ j ≤ 2 ^ (8 * n) := Nat.pow_le_pow_right (by decide) hj
  have hpos := Nat.two_pow_pos j
  have hnot := BitVec.toNat_not (x := BitVec.ofNat (8 * n) (2 ^ j - 1))
  rw [← BitVec.allOnes_xor, BitVec.toNat_xor, BitVec.toNat_allOnes, toNat_narrow (by omega)] at hnot
  rw [maskOf_eq h, hnot]
  omega

end Shifting

/-- The step as far as the circle is concerned. -/
def stride (r : CircleRange) : Nat := min r.step (r.mask + 1)

/-- How far the range goes on from its left end. -/
def length (r : CircleRange) : Nat := arcLength (r.mask + 1) r.left r.right

/-- Well formed, with a step that is not longer than the circle. -/
structure Fits (r : CircleRange) : Prop extends WellFormed r where
  step_le : r.step ≤ r.mask

section Membership

variable {r r' : CircleRange} {M n x A L A' L' d : Nat}

theorem stride_dvd (hdvd : r.step ∣ r.mask + 1 ∨ r.mask + 1 ∣ r.step) (hpos : 0 < r.step) : r.stride ∣ r.mask + 1 := by
  rw [stride]
  rcases hdvd with hdvd | hdvd
  · rw [Nat.min_eq_left (Nat.le_of_dvd (Nat.succ_pos _) hdvd)]
    exact hdvd
  · rw [Nat.min_eq_right (Nat.le_of_dvd hpos hdvd)]

theorem mod_stride_iff {u v : Nat} (hu : u ≤ r.mask) (hv : v ≤ r.mask) : u % r.stride = v % r.stride ↔ u % r.step = v % r.step := by
  rw [stride]
  by_cases hle : r.step ≤ r.mask + 1
  · rw [Nat.min_eq_left hle]
  · rw [Nat.min_eq_right (by omega), Nat.mod_eq_of_lt (by omega), Nat.mod_eq_of_lt (by omega), Nat.mod_eq_of_lt (by omega),
      Nat.mod_eq_of_lt (by omega)]

/-- Which points of a span, counted from its start, are in the range. -/
theorem contains_span (hM : r.mask + 1 = M) (hdvd : r.step ∣ M ∨ M ∣ r.step) (hpos : 0 < r.step)
    (hne : r.isempty = false) (hl : r.left = A % M) (hr : r.right = (A + L) % M) :
    r.contains ((A + d) % M) = true ↔ r.stride ∣ d ∧ (M ∣ L ∨ d % M < L % M) := by
  subst hM
  have hM := Nat.succ_pos r.mask
  have hlt : ∀ v, v % (r.mask + 1) ≤ r.mask := fun v => Nat.le_of_lt_succ (Nat.mod_lt v hM)
  rw [contains_iff_arc, hl, hr, arc_span_iff hM, ← mod_stride_iff (hlt _) (hlt _),
    span_mod_iff (stride_dvd hdvd hpos)]
  simp only [hne, true_and]

theorem contains_span_of_lt (hM : r.mask + 1 = M) (hdvd : r.step ∣ M) (hpos : 0 < r.step) (hne : r.isempty = false)
    (hl : r.left = A % M) (hr : r.right = (A + L) % M) (hle : L ≤ M) (hstep : r.step ∣ d) (hd : d < L) :
    r.contains ((A + d) % M) = true := by
  rw [contains_span hM (.inl hdvd) hpos hne hl hr]
  have hstride : r.stride = r.step := Nat.min_eq_left (Nat.le_of_dvd (Nat.succ_pos _) (hM ▸ hdvd))
  refine ⟨hstride ▸ hstep, ?_⟩
  rcases Nat.eq_or_lt_of_le hle with rfl | hlt
  · exact .inl dvd_rfl
  · right
    rwa [Nat.mod_eq_of_lt (hd.trans hlt), Nat.mod_eq_of_lt hlt]

theorem WellFormed.step_pos (h : r.WellFormed) : 0 < r.step := by
  obtain ⟨k, -, hk⟩ := h.step
  rw [hk]
  exact Nat.two_pow_pos k

theorem WellFormed.step_lt (h : r.WellFormed) : r.step < 2 ^ 31 := by
  obtain ⟨k, hlt, hk⟩ := h.step
  rw [hk]
  exact Nat.pow_lt_pow_right (by decide) hlt

theorem WellFormed.dvd_or (h : r.WellFormed) : r.step ∣ r.mask + 1 ∨ r.mask + 1 ∣ r.step := by
  obtain ⟨k, -, hk⟩ := h.step
  obtain ⟨n, -, -, hM⟩ := h.mask_succ
  rw [hk, hM]
  exact pow_dvd_or _ _

theorem WellFormed.stride_dvd (h : r.WellFormed) : r.stride ∣ r.mask + 1 := CircleRange.stride_dvd h.dvd_or h.step_pos

theorem WellFormed.stride_pos (h : r.WellFormed) : 0 < r.stride := Nat.pos_of_dvd_of_pos h.stride_dvd (Nat.succ_pos _)

theorem WellFormed.stride_modEq (h : r.WellFormed) : r.stride ≡ r.step [MOD r.mask + 1] := by
  rw [stride]
  rcases Nat.le_total r.step (r.mask + 1) with hle | hle
  · rw [Nat.min_eq_left hle]
  · rw [Nat.min_eq_right hle]
    have hdvd : r.mask + 1 ∣ r.step := by
      rcases h.dvd_or with hdvd | hdvd
      · rw [Nat.le_antisymm (Nat.le_of_dvd (Nat.succ_pos _) hdvd) hle]
      · exact hdvd
    exact (Nat.mod_self _).trans (Nat.mod_eq_zero_of_dvd hdvd).symm

theorem WellFormed.length_pos (h : r.WellFormed) : 0 < r.length := arcLength_pos h.lt.1 h.lt.2

theorem WellFormed.length_le (h : r.WellFormed) : r.length ≤ r.mask + 1 := arcLength_le h.lt.1

theorem WellFormed.stride_dvd_length (h : r.WellFormed) : r.stride ∣ r.length :=
  dvd_arcLength h.stride_dvd h.lt.1 ((mod_stride_iff h.right h.left).mpr h.congruent.symm)

theorem WellFormed.right_eq (h : r.WellFormed) : r.right = (r.left + r.length) % (r.mask + 1) :=
  (add_arcLength h.lt.1 h.lt.2).symm

/-- The values of a range are the whole steps on from its left end. -/
theorem WellFormed.contains_iff (h : r.WellFormed) (hx : x ≤ r.mask) :
    r.contains x = true ↔
      r.isempty = false ∧ ∃ d < r.length, r.stride ∣ d ∧ (r.left + d) % (r.mask + 1) = x := by
  rw [contains_iff_arc, ← mod_stride_iff hx h.left, length,
    arc_steps_iff h.stride_dvd h.lt.1 h.lt.2 (Nat.lt_succ_of_le hx)]

theorem length_eq_iff (h : r.WellFormed) : r.length = r.mask + 1 ↔ r.left = r.right := by
  rw [length, arcLength]
  split
  · exact iff_of_true rfl ‹_›
  · exact iff_of_false (ahead_lt h.lt.1).ne ‹_›

theorem Fits.dvd (h : r.Fits) : r.step ∣ r.mask + 1 := by
  obtain hdvd | hdvd := h.dvd_or
  · exact hdvd
  · have := Nat.le_of_dvd h.step_pos hdvd
    have := h.step_le
    omega

theorem Fits.stride_eq (h : r.Fits) : r.stride = r.step := Nat.min_eq_left (Nat.le_succ_of_le h.step_le)

/-- Ranges whose ends are as far apart contain the same steps from their starts. -/
theorem contains_moved (hM : r.mask + 1 = M) (hmask : r'.mask = r.mask) (hstep : r'.step = r.step)
    (hdvd : r.step ∣ M ∨ M ∣ r.step) (hpos : 0 < r.step) (hne : r.isempty = false) (hne' : r'.isempty = false)
    (hl : r.left = A % M) (hr : r.right = (A + L) % M) (hl' : r'.left = A' % M) (hr' : r'.right = (A' + L) % M) :
    r'.contains ((A' + d) % M) = r.contains ((A + d) % M) := by
  have hstride : r'.stride = r.stride := by rw [stride, stride, hstep, hmask]
  rw [Bool.eq_iff_iff, contains_span hM hdvd hpos hne hl hr,
    contains_span (hmask ▸ hM) (hstep ▸ hdvd) (hstep ▸ hpos) hne' hl' hr', hstride]

end Membership

section Results

variable {r : CircleRange} {M x d : Nat}

/-- A value is some whole steps on from the left end, and one step further is no more
than the end. -/
theorem Fits.exists_steps (h : r.Fits) (hx : x ≤ r.mask) (hc : r.contains x = true) :
    ∃ d, r.step ∣ d ∧ d + r.step ≤ r.length ∧ x = (r.left + d) % (r.mask + 1) := by
  obtain ⟨-, d, hlt, hdvd, rfl⟩ := (h.contains_iff hx).mp hc
  have hlen := h.stride_dvd_length
  rw [h.stride_eq] at hdvd hlen
  refine ⟨d, hdvd, ?_, rfl⟩
  have := Nat.le_of_dvd (by omega) (Nat.dvd_sub hlen hdvd)
  omega

theorem normalize_contains : r.normalize.contains x = r.contains x := by
  rw [normalize]
  split
  · next heq =>
      rw [Bool.eq_iff_iff, contains_iff_arc, contains_iff_arc, heq]
      simp only [arc_self, and_true]
      refine and_congr_right fun _ => ?_
      split
      · rw [Nat.mod_mod]
      · next hone =>
          simp [not_not.mp hone, Nat.mod_one]
  · rfl

theorem WellFormed.single_right (h : r.WellFormed) (hsingle : r.isSingle = true) :
    r.right = (r.left + r.step) % (r.mask + 1) := by
  obtain ⟨n, hn, hmask, hM⟩ := h.mask_succ
  obtain ⟨-, hright⟩ : r.isempty = false ∧ r.right = wrappingAdd r.left r.step &&& r.mask := by
    simpa [isSingle] using hsingle
  rw [hright, hM, hmask]
  exact and_eq_of_modEq hn (wrappingAdd_modEq hn _ _)

theorem Fits.length_of_isSingle (h : r.Fits) (hsingle : r.isSingle = true) : r.length = r.step := by
  have hlt : r.step < r.mask + 1 := Nat.lt_succ_of_le h.step_le
  have hahead : ahead (r.mask + 1) r.left r.right = r.step := by
    rw [h.single_right hsingle, ahead_add h.lt.1 hlt]
  have hne : r.left ≠ r.right := by
    intro heq
    rw [← heq, ahead_eq h.lt.1 h.lt.1, if_pos le_rfl, Nat.sub_self] at hahead
    exact h.step_pos.ne hahead
  rw [length, arcLength, if_neg hne, hahead]

/-- A full range contains all numbers with its remainder. -/
theorem contains_of_full (hne : r.isempty = false) (heq : r.left = r.right) (hmod : x ≡ r.left [MOD r.step]) :
    r.contains x = true := by
  rw [contains_iff_arc, heq]
  exact ⟨hne, heq ▸ hmod, arc_self _ _⟩

theorem congr_steps {s a b M : Nat} (hs : s ∣ M) (hd : s ∣ d) (hab : a ≡ b [MOD s]) : (a + d) % M ≡ b [MOD s] := by
  have hzero : a + d ≡ a [MOD s] := by
    have := (Nat.modEq_zero_iff_dvd.mpr hd).add_left a
    rwa [Nat.add_zero] at this
  exact ((Nat.mod_modEq _ M).of_dvd hs).trans (hzero.trans hab)

end Results

end CircleRange

end GhidraDecompiler.Range
