import GhidraDecompiler.Pcode.Arithmetic
import GhidraDecompiler.Pcode.NzMaskSound

namespace GhidraDecompiler.Pcode

open BitWords

/-- The three shifts of numbers. -/
inductive Shift where
  | left
  | right
  | sright

def Shift.code : Shift → OpCode
  | .left => .intLeft
  | .right => .intRight
  | .sright => .intSright

/-- A number of `s` bytes, of any size, shifted by any amount. -/
def Shift.value (sh : Shift) (s v sa : Nat) : Nat :=
  match sh with
  | .left => v * 2 ^ sa % 2 ^ (8 * s)
  | .right => v / 2 ^ sa
  | .sright => sarOf s v sa

/-- The op shifts a varnode of `s` bytes and mask `m` by the constant `sa`. -/
structure ShiftsBy (op : PcodeOp) (sh : Shift) (s : Nat) (m sa : Word) : Prop where
  code : op.code = sh.code
  output : ∃ out, op.output = some out ∧ out.size = s
  inputs : ∃ vn amount, op.inputs = [vn, amount] ∧ vn.size = s ∧ vn.nzMask = m ∧
    amount.isConstant = true ∧ amount.offset = sa

/-- A number whose low word is within the mask is shifted to one whose low word
is within the mask of the op. -/
def MasksShift (op : PcodeOp) (sh : Shift) (s : Nat) (m sa : Word) : Prop :=
  ∀ v < 2 ^ (8 * s), Within (BitVec.ofNat 64 v) m →
    ∃ mask, opGetNzMaskLocal op false = some mask ∧ Within (BitVec.ofNat 64 (sh.value s v sa.toNat)) mask

/-- The amount is not reduced to a smaller one by the machine shifts, or the
reduced one does no harm. -/
def Shift.Kept (sh : Shift) (s : Nat) (m sa : Word) : Prop :=
  let n := sa.toNat
  match sh with
  | .left => True
  | .right => n < 64 ∨ 8 * s ≤ n ∨ s ≤ 16 ∨ n % 64 = 0 ∨ 8 * s ≤ 64 * (n / 64 + 1)
  | .sright =>
      8 < s ∨ m.getLsbD (8 * s - 1) = false ∨ n < 8 * s ∨ 8 * s ≤ n % 64 ∨
        n % 2 ^ 32 < 64 ∧ Within (calcMask s >>> (n % 64)) (m >>> (n % 64))

section Amounts

variable (sa : Word)

theorem amount_mod : ((sa.setWidth 32).toInt % 64).toNat = sa.toNat % 64 := by
  rw [BitVec.toInt_setWidth, Int.bmod_def]
  omega

theorem amount_of_lt {sa : Word} (h : sa.toNat < 2 ^ 31) : (sa.setWidth 32).toInt = sa.toNat := by
  rw [BitVec.toInt_setWidth, Int.bmod_def]
  omega

theorem amount_range : (0 ≤ (sa.setWidth 32).toInt ∧ (sa.setWidth 32).toInt < 64) ↔ sa.toNat % 2 ^ 32 < 64 := by
  rw [BitVec.toInt_setWidth, Int.bmod_def]
  omega

theorem amount_toNat {sa : Word} (h : sa.toNat % 2 ^ 32 < 64) : (sa.setWidth 32).toInt.toNat = sa.toNat % 64 := by
  rw [BitVec.toInt_setWidth, Int.bmod_def]
  omega

theorem getLsbD_pcodeRight (m : Word) (i : Nat) : (pcodeRight m (sa.setWidth 32).toInt).getLsbD i =
    (decide (sa.toNat % 2 ^ 32 < 64) && m.getLsbD (sa.toNat % 64 + i)) := by
  rw [pcodeRight]
  by_cases h : sa.toNat % 2 ^ 32 < 64
  · rw [if_pos ((amount_range sa).mpr h), BitVec.getLsbD_ushiftRight, amount_toNat h, decide_eq_true h, Bool.true_and]
  · rw [if_neg (mt (amount_range sa).mp h), decide_eq_false h, Bool.false_and]
    exact BitVec.getLsbD_zero

theorem getLsbD_pcodeLeft (m : Word) (i : Nat) : (pcodeLeft m (sa.setWidth 32).toInt).getLsbD i =
    (decide (sa.toNat % 2 ^ 32 < 64) && (decide (i < 64) && !decide (i < sa.toNat % 64) && m.getLsbD (i - sa.toNat % 64))) := by
  rw [pcodeLeft]
  by_cases h : sa.toNat % 2 ^ 32 < 64
  · rw [if_pos ((amount_range sa).mpr h), BitVec.getLsbD_shiftLeft, amount_toNat h, decide_eq_true h, Bool.true_and]
  · rw [if_neg (mt (amount_range sa).mp h), decide_eq_false h, Bool.false_and]
    exact BitVec.getLsbD_zero

end Amounts

section Bits

variable {s v i : Nat} {m : Word}

/-- The mask of an operand that has any size: its low word is full from eight
bytes on. -/
theorem getLsbD_calcMask_any (hs : 1 ≤ s) : (calcMask s).getLsbD i = decide (i < 64 ∧ i < 8 * s) := by
  by_cases h : s ≤ 8
  · rw [getLsbD_calcMask ⟨hs, h⟩]
    congr 1
    apply propext
    omega
  · have hfull : calcMask s = BitVec.allOnes 64 := by
      rw [calcMask, if_neg (by omega)]
      decide
    rw [hfull, BitVec.getLsbD_allOnes]
    congr 1
    apply propext
    omega

theorem signBit_clear_iff (h : ByteSize s) :
    m &&& (calcMask s ^^^ (calcMask s >>> 1)) = 0#64 ↔ m.getLsbD (8 * s - 1) = false := by
  have hsign : calcMask s ^^^ (calcMask s >>> 1) = BitVec.twoPow 64 (8 * s - 1) := by
    obtain ⟨h₁, h₂⟩ := h
    interval_cases s <;> decide
  have hlt : 8 * s - 1 < 64 := by have := h.width_le; have := h.width_pos; omega
  rw [hsign, ← not_iff_not, ← Ne, and_twoPow_ne_zero m hlt, Bool.not_eq_false]

theorem lt_of_testBit (hv : v < 2 ^ (8 * s)) (h : v.testBit i = true) : i < 8 * s :=
  (Nat.pow_lt_pow_iff_right (by decide)).mp ((Nat.ge_two_pow_of_testBit h).trans_lt hv)

theorem within_ofNat_iff : Within (BitVec.ofNat 64 v) m ↔ ∀ i < 64, v.testBit i = true → m.getLsbD i = true := by
  rw [within_iff]
  refine forall_congr' fun i => ?_
  rw [BitVec.getLsbD_ofNat, Bool.and_eq_true, decide_eq_true_iff, and_imp]

theorem testBit_sarOf (h : ByteSize s) (hv : v < 2 ^ (8 * s)) (n : Nat) : (sarOf s v n).testBit i =
    (decide (i < 8 * s) && if n + i < 8 * s then v.testBit (n + i) else v.testBit (8 * s - 1)) := by
  have hpos := h.width_pos
  have hbits : ∀ j < 8 * s, (BitVec.ofNat (8 * s) v).getLsbD j = v.testBit j := by
    intro j hj
    rw [BitVec.getLsbD_ofNat, decide_eq_true hj, Bool.true_and]
  rw [← toNat_sshiftRight h hv, ← BitVec.getLsbD, BitVec.getLsbD_sshiftRight, BitVec.msb_eq_getLsbD_last,
    hbits (8 * s - 1) (by omega)]
  by_cases hi : i < 8 * s
  · rw [decide_eq_false (show ¬ 8 * s ≤ i by omega), decide_eq_true hi]
    split
    · next hj => rw [hbits _ hj]; rfl
    · rfl
  · rw [decide_eq_true (show 8 * s ≤ i by omega), decide_eq_false hi]
    rfl

end Bits

section Masks

variable {s : Nat} {m sa : Word}

theorem maskLeft_sound (hs : 1 ≤ s) {v : Nat} (hm : Within (BitVec.ofNat 64 v) m) :
    Within (BitVec.ofNat 64 (v * 2 ^ sa.toNat % 2 ^ (8 * s)))
      (pcodeLeft m (sa.setWidth 32).toInt &&& calcMask s) := by
  rw [within_ofNat_iff] at hm ⊢
  intro i hi hbit
  rw [Nat.testBit_mod_two_pow, Bool.and_eq_true, decide_eq_true_iff, Nat.testBit_mul_two_pow, Bool.and_eq_true,
    decide_eq_true_iff] at hbit
  obtain ⟨hwidth, hle, hbit⟩ := hbit
  have hmod : sa.toNat % 64 = sa.toNat := by omega
  rw [BitVec.getLsbD_and, getLsbD_calcMask_any hs, getLsbD_pcodeLeft, hmod, hm (i - sa.toNat) (by omega) hbit,
    decide_eq_true (show sa.toNat % 2 ^ 32 < 64 by omega), decide_eq_true hi, decide_eq_false (show ¬ i < sa.toNat by omega),
    decide_eq_true (show i < 64 ∧ i < 8 * s from ⟨hi, hwidth⟩)]
  rfl

/-- An amount below the width of the operand is not changed by the cast to 32
bits. -/
theorem amount_of_lt_width (hw : 8 * s < 2 ^ 31) (hn : sa.toNat < 8 * s) :
    (sa.setWidth 32).toInt = sa.toNat := amount_of_lt (by omega)

theorem maskRight_low (hs : 1 ≤ s) (hw : 8 * s < 2 ^ 31) (hn : sa.toNat < 64) {v : Nat} (hv : v < 2 ^ (8 * s))
    (hm : Within (BitVec.ofNat 64 v) m) : Within (BitVec.ofNat 64 (v / 2 ^ sa.toNat)) (NzMask.intRight s m sa) := by
  rw [within_ofNat_iff] at hm ⊢
  intro i hi hbit
  rw [Nat.testBit_div_two_pow] at hbit
  have hwidth := lt_of_testBit hv hbit
  have hamount : (sa.setWidth 32).toInt = sa.toNat := amount_of_lt_width hw (by omega)
  have hmask : i + sa.toNat < 64 → (pcodeRight m (sa.setWidth 32).toInt).getLsbD i = true := by
    intro hlt
    rw [getLsbD_pcodeRight, decide_eq_true (show sa.toNat % 2 ^ 32 < 64 by omega), Bool.true_and,
      Nat.mod_eq_of_lt hn, Nat.add_comm]
    exact hm _ hlt hbit
  rw [NzMask.intRight]
  by_cases hbig : s > 8
  · rw [if_pos hbig, if_neg (by omega), if_neg (by omega), BitVec.getLsbD_or, Bool.or_eq_true]
    by_cases hlt : i + sa.toNat < 64
    · exact .inl (hmask hlt)
    · right
      rw [wrappingShl, BitVec.getLsbD_shiftLeft, hamount, show (0 - 1 : Word) = BitVec.allOnes 64 by decide,
        BitVec.getLsbD_allOnes, decide_eq_true hi, decide_eq_true (show i - _ < 64 by omega), decide_eq_false (by omega)]
      rfl
  · rw [if_neg hbig]
    exact hmask (by omega)

/-- From one word on, the mask shows the high part of the operand, which is full. -/
theorem getLsbD_intRight_high (hw : 8 * s < 2 ^ 31) (h64 : 64 ≤ sa.toNat) (hn : sa.toNat < 8 * s) (i : Nat) :
    (NzMask.intRight s m sa).getLsbD i = decide (sa.toNat % 64 + i < 64 ∧ sa.toNat % 64 + i + 64 < 8 * s) := by
  have hamount : (sa.setWidth 32).toInt = sa.toNat := amount_of_lt_width hw hn
  have hmod : (((sa.setWidth 32).toInt - 64) % 64).toNat = sa.toNat % 64 := by omega
  have hsize : ((s : Int) - 8) = ((s - 8 : Nat) : Int) := by omega
  rw [NzMask.intRight, if_pos (by omega), if_neg (by omega), if_pos (by omega), wrappingShr, BitVec.getLsbD_ushiftRight, hmod,
    hsize, getLsbD_calcMask_any (by omega)]
  congr 1
  apply propext
  omega

theorem within_zero (m : Word) : Within (BitVec.ofNat 64 0) m := within_ofNat_iff.mpr (by simp)

theorem maskRight_iff (hs : 1 ≤ s) (hw : 8 * s < 2 ^ 31) :
    (∀ v < 2 ^ (8 * s), Within (BitVec.ofNat 64 v) m →
      Within (BitVec.ofNat 64 (v / 2 ^ sa.toNat)) (NzMask.intRight s m sa)) ↔ Shift.right.Kept s m sa := by
  simp only [Shift.Kept]
  by_cases hout : 8 * s ≤ sa.toNat
  · refine iff_of_true (fun v hv _ => ?_) (.inr (.inl hout))
    rw [Nat.div_eq_of_lt (hv.trans_le (Nat.pow_le_pow_right (by decide) hout))]
    exact within_zero _
  by_cases hlow : sa.toNat < 64
  · exact iff_of_true (fun v hv hm => maskRight_low hs hw hlow hv hm) (.inl hlow)
  have hbits := getLsbD_intRight_high (m := m) hw (by omega) (Nat.lt_of_not_le hout)
  constructor
  · intro h
    by_contra hkept
    -- the first bit of the high part that falls off the reduced shift
    have hlt : (2 : Nat) ^ (64 * (sa.toNat / 64 + 1)) < 2 ^ (8 * s) := Nat.pow_lt_pow_right (by decide) (by omega)
    have hzero : Within (BitVec.ofNat 64 (2 ^ (64 * (sa.toNat / 64 + 1)))) m := by
      rw [within_ofNat_iff]
      intro i hi hbit
      rw [Nat.testBit_two_pow, decide_eq_true_iff] at hbit
      omega
    have hmask := within_ofNat_iff.mp (h _ hlt hzero) (64 - sa.toNat % 64) (by omega) (by
      rw [Nat.testBit_div_two_pow, Nat.testBit_two_pow, decide_eq_true_iff]
      omega)
    rw [hbits, decide_eq_true_iff] at hmask
    omega
  · intro hkept v hv _
    rw [within_ofNat_iff]
    intro i hi hbit
    rw [Nat.testBit_div_two_pow] at hbit
    have hwidth := lt_of_testBit hv hbit
    rw [hbits, decide_eq_true_iff]
    omega

/-- The bits above the reduced amount, and those of the mask where the amount
did not leave the word. -/
theorem getLsbD_intSright (h : ByteSize s) (hsign : m.getLsbD (8 * s - 1) = true) (i : Nat) :
    (NzMask.intSright (calcMask s) m sa).getLsbD i = true ↔
      (sa.toNat % 2 ^ 32 < 64 ∧ m.getLsbD (sa.toNat % 64 + i) = true) ∨ (i < 8 * s ∧ 8 * s ≤ sa.toNat % 64 + i) := by
  have hw := h.width_le
  rw [NzMask.intSright, if_neg (mt (signBit_clear_iff h).mp (by rw [hsign]; decide)), BitVec.getLsbD_or,
    Bool.or_eq_true, getLsbD_pcodeRight, Bool.and_eq_true, decide_eq_true_iff, BitVec.getLsbD_xor, wrappingShr,
    BitVec.getLsbD_ushiftRight, amount_mod, getLsbD_calcMask h, getLsbD_calcMask h, bne_iff_ne, ne_eq, decide_eq_decide]
  refine or_congr_right ?_
  omega

theorem maskSright_positive (h : ByteSize s) (hsign : m.getLsbD (8 * s - 1) = false) {v : Nat} (hv : v < 2 ^ (8 * s))
    (hm : Within (BitVec.ofNat 64 v) m) :
    Within (BitVec.ofNat 64 (sarOf s v sa.toNat)) (NzMask.intSright (calcMask s) m sa) := by
  have hw := h.width_le
  have hpos := h.width_pos
  rw [within_ofNat_iff] at hm ⊢
  intro i hi hbit
  have htop : v.testBit (8 * s - 1) = false := by
    rw [← Bool.not_eq_true]
    intro htop
    rw [hm _ (by omega) htop] at hsign
    contradiction
  rw [testBit_sarOf h hv, htop, Bool.and_eq_true, decide_eq_true_iff] at hbit
  obtain ⟨hi8, hbit⟩ := hbit
  split at hbit
  · next hlt =>
      have hmod : sa.toNat % 64 = sa.toNat := by omega
      rw [NzMask.intSright, if_pos ((signBit_clear_iff h).mpr hsign), getLsbD_pcodeRight,
        decide_eq_true (show sa.toNat % 2 ^ 32 < 64 by omega), Bool.true_and, hmod]
      exact hm _ (by omega) hbit
  · contradiction

theorem maskSright_iff (h : ByteSize s) :
    (∀ v < 2 ^ (8 * s), Within (BitVec.ofNat 64 v) m →
      Within (BitVec.ofNat 64 (sarOf s v sa.toNat)) (NzMask.intSright (calcMask s) m sa)) ↔ Shift.sright.Kept s m sa := by
  have hw := h.width_le
  have hpos := h.width_pos
  simp only [Shift.Kept]
  cases hsign : m.getLsbD (8 * s - 1) with
  | false => exact iff_of_true (fun v hv hm => maskSright_positive h hsign hv hm) (.inr (.inl rfl))
  | true =>
      have hmask := @getLsbD_intSright s m sa h hsign
      constructor
      · intro hall
        by_contra hkept
        -- the least number with the sign bit is shifted to all ones
        have htop : (2 : Nat) ^ (8 * s - 1) < 2 ^ (8 * s) := Nat.pow_lt_pow_right (by decide) (by omega)
        have hmin : Within (BitVec.ofNat 64 (2 ^ (8 * s - 1))) m := by
          rw [within_ofNat_iff]
          intro i hi hbit
          rw [Nat.testBit_two_pow, decide_eq_true_iff] at hbit
          rw [← hbit, hsign]
        have hones : ∀ i < 8 * s, (NzMask.intSright (calcMask s) m sa).getLsbD i = true := by
          intro i hi
          refine within_ofNat_iff.mp (hall _ htop hmin) i (by omega) ?_
          rw [testBit_sarOf h htop, decide_eq_true hi, Bool.true_and, if_neg (by omega), Nat.testBit_two_pow_self]
        have hzero := (hmask 0).mp (hones 0 hpos)
        apply hkept
        refine .inr (.inr (.inr (.inr ⟨by omega, ?_⟩)))
        rw [within_iff]
        intro i hi
        rw [BitVec.getLsbD_ushiftRight, getLsbD_calcMask h, decide_eq_true_iff] at hi
        rw [BitVec.getLsbD_ushiftRight]
        obtain ⟨_, hm⟩ | ⟨_, hge⟩ := (hmask i).mp (hones i (by omega))
        · exact hm
        · omega
      · intro hkept v hv hm
        rw [within_ofNat_iff] at hm ⊢
        intro i hi hbit
        rw [testBit_sarOf h hv, Bool.and_eq_true, decide_eq_true_iff] at hbit
        obtain ⟨hi8, hbit⟩ := hbit
        rw [hmask]
        obtain hbig | hclear | hn | hfar | ⟨hn, hin⟩ := hkept
        · exact absurd h.2 (by omega)
        · contradiction
        · have hmod : sa.toNat % 64 = sa.toNat := by omega
          rw [hmod]
          split at hbit
          · exact .inl ⟨by omega, hm _ (by omega) hbit⟩
          · exact .inr (by omega)
        · exact .inr (by omega)
        · by_cases hlt : sa.toNat % 64 + i < 8 * s
          · left
            refine ⟨hn, ?_⟩
            rw [within_iff] at hin
            have := hin i (by rw [BitVec.getLsbD_ushiftRight, getLsbD_calcMask h, decide_eq_true hlt])
            rwa [BitVec.getLsbD_ushiftRight] at this
          · exact .inr (by omega)

end Masks

section Ops

variable {op : PcodeOp} {sh : Shift} {s : Nat} {m sa : Word}

/-- The mask of each shift by a constant. -/
def Shift.mask (sh : Shift) (s : Nat) (m sa : Word) : Word :=
  match sh with
  | .left => pcodeLeft m (sa.setWidth 32).toInt &&& calcMask s
  | .right => NzMask.intRight s m sa
  | .sright => if s > 8 then calcMask s else NzMask.intSright (calcMask s) m sa

theorem ShiftsBy.mask_eq (h : ShiftsBy op sh s m sa) : opGetNzMaskLocal op false = some (sh.mask s m sa) := by
  obtain ⟨hcode, ⟨out, hout, rfl⟩, vn, amount, hin, hsize, rfl, hconst, rfl⟩ := h
  cases sh with
  | left => simp [opGetNzMaskLocal, hcode, hout, hin, hconst, Shift.code, Shift.mask]
  | right => simp [opGetNzMaskLocal, hcode, hout, hin, hconst, hsize, Shift.code, Shift.mask]
  | sright =>
      by_cases hbig : out.size > 8
      · simp [opGetNzMaskLocal, hcode, hout, hin, hconst, hbig, Shift.code, Shift.mask]
      · simp [opGetNzMaskLocal, hcode, hout, hin, hconst, hbig, Shift.code, Shift.mask]

theorem masksShift_iff (h : ShiftsBy op sh s m sa) : MasksShift op sh s m sa ↔ ∀ v < 2 ^ (8 * s),
    Within (BitVec.ofNat 64 v) m → Within (BitVec.ofNat 64 (sh.value s v sa.toNat)) (sh.mask s m sa) := by
  simp only [MasksShift, h.mask_eq, Option.some.injEq, exists_eq_left']

/-- For each operand size whose bits the code can count: a shift by a constant
is masked soundly exactly when the reduction of the amount does no harm. -/
theorem shiftMask_sound_iff (h : ShiftsBy op sh s m sa) (hs : 1 ≤ s) (hw : 8 * s < 2 ^ 31) :
    MasksShift op sh s m sa ↔ sh.Kept s m sa := by
  rw [masksShift_iff h]
  cases sh with
  | left => exact iff_of_true (fun v _ hm => maskLeft_sound hs hm) trivial
  | right => exact maskRight_iff hs hw
  | sright =>
      by_cases hbig : s > 8
      · refine iff_of_true (fun v _ _ => ?_) (.inl hbig)
        rw [Shift.mask, if_pos hbig, within_ofNat_iff]
        intro i hi _
        rw [getLsbD_calcMask_any hs, decide_eq_true_iff]
        omega
      · rw [Shift.mask, if_neg hbig]
        exact maskSright_iff ⟨hs, by omega⟩

/-- An op that shifts a varnode by a constant. -/
def shiftOp (sh : Shift) (s : Nat) (m sa : Word) : PcodeOp where
  code := sh.code
  output := some { size := s, nzMask := calcMask s, isConstant := false, offset := 0 }
  inputs := [{ size := s, nzMask := m, isConstant := false, offset := 0 },
    { size := 4, nzMask := sa, isConstant := true, offset := sa }]
  isCalculatedBool := false
  parent := none

theorem shiftOp_shiftsBy (sh : Shift) (s : Nat) (m sa : Word) : ShiftsBy (shiftOp sh s m sa) sh s m sa :=
  ⟨rfl, ⟨_, rfl, rfl⟩, _, _, rfl, rfl, rfl, rfl, rfl⟩

/-- The high half of a number of 32 bytes, moved down to bit 1. -/
theorem shiftMask_sound_iff_wide : MasksShift (shiftOp .right 32 0 129) .right 32 0 129 ↔ Shift.right.Kept 32 0 129 :=
  shiftMask_sound_iff (shiftOp_shiftsBy .right 32 0 129) (by decide) (by decide)

/-- A negative number of eight bytes shifted by 64: the mask is empty, the value
has all its bits. -/
theorem shiftMask_not_sound : ¬ MasksShift (shiftOp .sright 8 0x8000000000000000 64) .sright 8 0x8000000000000000 64 := by
  intro h
  obtain ⟨mask, heq, hin⟩ := h (2 ^ 63) (by decide) (by decide)
  have hmask : opGetNzMaskLocal (shiftOp .sright 8 0x8000000000000000 64) false = some 0 := by decide
  rw [hmask, Option.some.injEq] at heq
  rw [← heq] at hin
  revert hin
  decide

end Ops

end GhidraDecompiler.Pcode
