import GhidraDecompiler.Pcode.NzMaskSound
import GhidraDecompiler.Range.Spans

namespace GhidraDecompiler.Range

open Pcode BitWords Arcs

def bitTransitionsLoop : Nat → Nat → Nat → Nat → Nat
  | 0, _, _, res => res
  | rounds + 1, val, last, res =>
      let val := val >>> 1
      let cur := val &&& 1
      let res := if cur ≠ last then res + 1 else res
      if val = 0 then res else bitTransitionsLoop rounds val cur res

/-- How often the bits change from one to the next. -/
def bitTransitions (val : Nat) (sz : Int) : Nat := bitTransitionsLoop (8 * sz - 1).toNat val (val &&& 1) 0

/-- A step as the word it is widened to. -/
def stepValue (step : BitVec 32) : Nat := (step.signExtend 64).toNat

namespace CircleRange

/-- The values without bits outside of the mask, when the bits of the mask are in one
run. -/
def setNzMask (self : CircleRange) (nzmask : Nat) (size : Int) : Bool × CircleRange :=
  let trans := bitTransitions nzmask size
  if trans > 2 then (false, self)
  else if nzmask &&& 1 ≠ 0 ∧ trans = 2 then (false, self)
  else
    let self := { self with isempty := false }
    if trans = 0 then
      if nzmask &&& 1 = 0 then (true, { self with mask := maskOf size, step := 1, left := 0, right := 1 })
      else (true, { self with mask := maskOf size, step := 1, left := 0, right := 0 })
    else
      let shift := leastsigbitSet (BitVec.ofNat 64 nzmask)
      let self := { self with step := stepValue (1#32 <<< (shift % 32).toNat), mask := maskOf size, left := 0 }
      (true, { self with right := wrappingAdd nzmask self.step &&& self.mask })

section Transitions

variable {rounds val last res nzmask n : Nat}

theorem le_bitTransitionsLoop (rounds val last res : Nat) : res ≤ bitTransitionsLoop rounds val last res := by
  induction rounds generalizing val last res with
  | zero => exact le_rfl
  | succ rounds ih =>
      rw [bitTransitionsLoop]
      have hle : res ≤ if val >>> 1 &&& 1 ≠ last then res + 1 else res := by split <;> omega
      split
      · exact hle
      · exact hle.trans (ih _ _ _)

/-- Without a change the bits stay clear. -/
theorem clear_of_bitTransitionsLoop (h : bitTransitionsLoop rounds val 0 res = res) : val / 2 % 2 ^ rounds = 0 := by
  induction rounds generalizing val with
  | zero => rw [pow_zero, Nat.mod_one]
  | succ rounds ih =>
      rw [bitTransitionsLoop] at h
      simp only [Nat.shiftRight_one, Nat.and_one_is_mod] at h
      by_cases hbit : val / 2 % 2 = 0
      · simp only [hbit, ne_eq, not_true_eq_false, if_false] at h
        split at h
        · next hzero => rw [hzero, Nat.zero_mod]
        · have hrest := ih h
          rw [Nat.pow_succ, Nat.mul_comm, Nat.mod_mul, hbit, hrest]
      · rw [if_pos hbit] at h
        exfalso
        split at h
        · omega
        · have := le_bitTransitionsLoop rounds (val / 2) (val / 2 % 2) (res + 1)
          omega

theorem eq_zero_of_bitTransitions (h : ByteSize n) (hnz : nzmask < 2 ^ (8 * n)) (hbit : nzmask &&& 1 = 0)
    (htrans : bitTransitions nzmask n = 0) : nzmask = 0 := by
  have hpos := h.width_pos
  rw [bitTransitions, hbit, show (8 * (n : Int) - 1).toNat = 8 * n - 1 by omega] at htrans
  have hclear := clear_of_bitTransitionsLoop htrans
  have hpow : 2 ^ (8 * n) = 2 * 2 ^ (8 * n - 1) := by
    rw [← Nat.pow_succ']
    congr 1
    omega
  rw [Nat.mod_eq_of_lt (by omega)] at hclear
  rw [Nat.and_one_is_mod] at hbit
  omega

theorem bitTransitions_zero (h : ByteSize n) : bitTransitions 0 n = 0 := by
  have hpos := h.width_pos
  obtain ⟨k, hk⟩ : ∃ k, (8 * (n : Int) - 1).toNat = k + 1 := ⟨8 * n - 2, by omega⟩
  rw [bitTransitions, hk]
  rfl

end Transitions

section Steps

variable {self r : CircleRange} {nzmask n x t : Nat}

/-- The step is a bit of the low or of the high half of the word, and that of the last
bit of a half is negative. -/
theorem stepValue_shiftLeft : ∀ t < 64, stepValue (1#32 <<< (((t : Nat) : Int) % 32).toNat) =
    if t % 32 = 31 then 2 ^ 64 - 2 ^ 31 else 2 ^ (t % 32) := by
  decide

theorem within_ofNat_iff (h : ByteSize n) (hnz : nzmask < 2 ^ (8 * n)) (hx : x < 2 ^ 64) :
    x &&& wrappingNot nzmask = 0 ↔ BitWords.Within (BitVec.ofNat 64 x) (BitVec.ofNat 64 nzmask) := by
  have hword := pow_le_word h
  rw [BitWords.Within, ← BitVec.toNat_inj, BitVec.toNat_and, BitVec.toNat_not, BitVec.toNat_ofNat, BitVec.toNat_ofNat,
    Nat.mod_eq_of_lt hx, Nat.mod_eq_of_lt (hnz.trans_le hword), wrappingNot]
  rfl

/-- The lowest bit of a mask. -/
structure LowestBit (nzmask n t : Nat) : Prop where
  shift : leastsigbitSet (BitVec.ofNat 64 nzmask) = t
  lt : t < 8 * n
  dvd : ∀ x < 2 ^ 64, x &&& wrappingNot nzmask = 0 → 2 ^ t ∣ x
  bit : 2 ^ t &&& wrappingNot nzmask = 0
  dvd_mask : 2 ^ t ∣ nzmask
  le : ∀ x < 2 ^ 64, x &&& wrappingNot nzmask = 0 → x ≤ nzmask

theorem exists_lowestBit (h : ByteSize n) (hnz : nzmask < 2 ^ (8 * n)) (hne : nzmask ≠ 0) : ∃ t, LowestBit nzmask n t := by
  have hword := pow_le_word h
  have hw := h.width_le
  have hval : (BitVec.ofNat 64 nzmask).toNat = nzmask := toNat_word h hnz
  have hne' : BitVec.ofNat 64 nzmask ≠ 0#64 := by
    intro heq
    rw [heq] at hval
    exact hne hval.symm
  have hbit : (BitVec.ofNat 64 nzmask).getLsbD (trailingZeros (BitVec.ofNat 64 nzmask)) = true := getLsbD_trailingZeros hne'
  have hpow := pow_le_of_getLsbD hbit
  rw [hval] at hpow
  have hlt : trailingZeros (BitVec.ofNat 64 nzmask) < 8 * n :=
    (Nat.pow_lt_pow_iff_right (show 1 < 2 by decide)).mp (hpow.trans_lt hnz)
  refine ⟨_, by rw [leastsigbitSet, if_neg hne'], hlt, fun x hx hmask => ?_, ?_, ?_, fun x hx hmask => ?_⟩
  · have hdvd := ((within_ofNat_iff h hnz hx).mp hmask).dvd
    rwa [BitVec.toNat_ofNat, Nat.mod_eq_of_lt hx] at hdvd
  · rw [within_ofNat_iff h hnz (hpow.trans_lt (hnz.trans_le hword)), within_iff]
    intro i hi
    rw [BitVec.getLsbD_ofNat, Nat.testBit_two_pow, Bool.and_eq_true, decide_eq_true_eq, decide_eq_true_eq] at hi
    rw [← hi.2]
    exact hbit
  · have hdvd := BitWords.Within.dvd (v := BitVec.ofNat 64 nzmask) (m := BitVec.ofNat 64 nzmask) (within_iff.mpr fun _ hi => hi)
    rwa [hval] at hdvd
  · have hle := ((within_ofNat_iff h hnz hx).mp hmask).toNat_le
    rwa [hval, BitVec.toNat_ofNat, Nat.mod_eq_of_lt hx] at hle

/-- A bit that is not above the lowest bit of the mask divides the values. -/
theorem setNzMask_contains (h : ByteSize n) (hnz : nzmask < 2 ^ (8 * n)) (hlow : LowestBit nzmask n t)
    (hx : x < 2 ^ 64) (hmask : x &&& wrappingNot nzmask = 0) :
    contains ⟨0, wrappingAdd nzmask (2 ^ (t % 32)) &&& maskOf n, maskOf n, false, 2 ^ (t % 32)⟩ x = true := by
  have hw := h.width_le
  have htlt := hlow.lt
  have hpow : 2 ^ (t % 32) ≤ 2 ^ t := Nat.pow_le_pow_right (by decide) (Nat.mod_le _ _)
  have hdvdM : 2 ^ t ∣ 2 ^ (8 * n) := Nat.pow_dvd_pow 2 htlt.le
  have hgap := Nat.le_of_dvd (by omega) (Nat.dvd_sub hdvdM hlow.dvd_mask)
  have hle := hlow.le x hx hmask
  have hstep : 2 ^ (t % 32) ∣ x := (Nat.pow_dvd_pow 2 (Nat.mod_le _ _)).trans (hlow.dvd x hx hmask)
  have hright : wrappingAdd nzmask (2 ^ (t % 32)) &&& maskOf n = (nzmask + 2 ^ (t % 32)) % 2 ^ (8 * n) :=
    and_eq_of_modEq h (wrappingAdd_modEq h _ _)
  rw [contains_iff_arc]
  refine ⟨rfl, ?_, ?_⟩
  · show x % 2 ^ (t % 32) = 0 % 2 ^ (t % 32)
    rw [Nat.mod_eq_zero_of_dvd hstep, Nat.zero_mod]
  · show Arc 0 (wrappingAdd nzmask (2 ^ (t % 32)) &&& maskOf n) x
    rw [hright]
    rcases Nat.eq_or_lt_of_le (show nzmask + 2 ^ (t % 32) ≤ 2 ^ (8 * n) by omega) with heq | hlt
    · rw [heq, Nat.mod_self]
      exact arc_self _ _
    · have hpos := Nat.two_pow_pos (t % 32)
      rw [Nat.mod_eq_of_lt hlt, Arc]
      omega

theorem setNzMask_sound_iff (self : CircleRange) (nzmask n : Nat) (h : ByteSize n) (hnz : nzmask < 2 ^ (8 * n)) :
    (∀ r, self.setNzMask nzmask n = (true, r) → ∀ x < 2 ^ 64, x &&& wrappingNot nzmask = 0 → r.contains x = true) ↔
      ¬ ((leastsigbitSet (BitVec.ofNat 64 nzmask) = 31 ∨ leastsigbitSet (BitVec.ofNat 64 nzmask) = 63) ∧
        bitTransitions nzmask n ≤ 2) := by
  have hw := h.width_le
  by_cases hzero : nzmask = 0
  · subst hzero
    refine iff_of_true (fun r hset x hx hmask => ?_) (fun hlow => ?_)
    · have hset' : self.setNzMask 0 n = (true, ⟨0, 1, maskOf n, false, 1⟩) := by
        rw [setNzMask, bitTransitions_zero h]
        rfl
      rw [hset'] at hset
      cases hset
      have hx0 : x = 0 := by
        have hnot : wrappingNot 0 = 2 ^ 64 - 1 := by decide
        rw [hnot, Nat.and_two_pow_sub_one_eq_mod, Nat.mod_eq_of_lt hx] at hmask
        exact hmask
      rw [hx0]
      rfl
    · exact absurd hlow.1 (by decide)
  obtain ⟨t, hlow⟩ := exists_lowestBit h hnz hzero
  have htlt := hlow.lt
  have hval := stepValue_shiftLeft t (by omega)
  have hhalf : (leastsigbitSet (BitVec.ofNat 64 nzmask) = 31 ∨ leastsigbitSet (BitVec.ofNat 64 nzmask) = 63) ↔ t % 32 = 31 := by
    rw [hlow.shift]
    omega
  rw [hhalf]
  have hset : bitTransitions nzmask n ≠ 0 → bitTransitions nzmask n ≤ 2 → ¬ (nzmask &&& 1 ≠ 0 ∧ bitTransitions nzmask n = 2) →
      self.setNzMask nzmask n = (true, ⟨0, wrappingAdd nzmask (stepValue (1#32 <<< ((t : Int) % 32).toNat)) &&& maskOf n, maskOf n,
        false, stepValue (1#32 <<< ((t : Int) % 32).toNat)⟩) := by
    intro h0 h2 hodd
    rw [setNzMask, if_neg (by omega), if_neg hodd, if_neg h0, hlow.shift]
  constructor
  · rintro hsound ⟨ht, htrans⟩
    have heven : nzmask &&& 1 = 0 := by
      have htwo : 2 ∣ nzmask := (Dvd.intro_left _ (Nat.pow_pred_mul (by omega))).trans hlow.dvd_mask
      rw [Nat.and_one_is_mod]
      omega
    have h0 : bitTransitions nzmask n ≠ 0 := fun h0 => hzero (eq_zero_of_bitTransitions h hnz heven h0)
    have hc := hsound _ (hset h0 htrans (fun hodd => hodd.1 heven)) (2 ^ t)
      (Nat.pow_lt_pow_right (by decide) (by omega)) hlow.bit
    rw [hval, if_pos ht, contains_iff_arc] at hc
    have hmod : 2 ^ t % (2 ^ 64 - 2 ^ 31) = 0 % (2 ^ 64 - 2 ^ 31) := hc.2.1
    have ht' : t = 31 ∨ t = 63 := by omega
    rcases ht' with rfl | rfl
    · exact absurd hmod (by decide)
    · exact absurd hmod (by decide)
  · intro hkeep r hr x hx hmask
    by_cases hmany : bitTransitions nzmask n > 2
    · rw [setNzMask, if_pos hmany] at hr
      cases hr
    by_cases hodd : nzmask &&& 1 ≠ 0 ∧ bitTransitions nzmask n = 2
    · rw [setNzMask, if_neg hmany, if_pos hodd] at hr
      cases hr
    by_cases h0 : bitTransitions nzmask n = 0
    · have hone : nzmask &&& 1 ≠ 0 := fun heven => hzero (eq_zero_of_bitTransitions h hnz heven h0)
      rw [setNzMask, if_neg hmany, if_neg hodd, if_pos h0, if_neg hone] at hr
      cases hr
      exact contains_of_full rfl rfl (by rw [Nat.ModEq, Nat.mod_one, Nat.mod_one])
    · have ht : t % 32 ≠ 31 := fun ht => hkeep ⟨ht, by omega⟩
      rw [hset h0 (by omega) hodd, hval, if_neg ht] at hr
      cases hr
      exact setNzMask_contains h hnz hlow hx hmask

theorem setNzMask_sound_iff_multiples : ∃ r, (newBool true).setNzMask 0xf0 ((1 : Nat) : Int) = (true, r) ∧
    ∀ x < 2 ^ 64, x &&& wrappingNot 0xf0 = 0 → r.contains x = true := by
  have hsound := (setNzMask_sound_iff (newBool true) 0xf0 1 (by decide) (by decide)).mpr fun hlow => absurd hlow.1 (by decide)
  exact ⟨⟨0, 0, 0xff, false, 0x10⟩, by decide, hsound _ (by decide)⟩

/-- The step for bit 31 is the most negative integer, and the values but for zero have
another remainder. -/
theorem setNzMask_not_sound :
    ∃ r, (newBool true).setNzMask 0x80000000 4 = (true, r) ∧ 0x80000000 &&& wrappingNot 0x80000000 = 0 ∧
      r.contains 0x80000000 = false :=
  ⟨⟨0, 0, 0xffffffff, false, 0xffffffff80000000⟩, by decide, by decide, by decide⟩

end Steps

end CircleRange

end GhidraDecompiler.Range
