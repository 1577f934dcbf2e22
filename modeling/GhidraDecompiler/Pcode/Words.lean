import GhidraDecompiler.Lib.BitWords

namespace GhidraDecompiler.Pcode

open BitWords

/-- Machine words of 64 bits, signed or not. -/
abbrev Word := BitVec 64

/-- Shifts take the amount modulo the width of the word; the amount is cast from
a signed integer. -/
def wrappingShl (val : Word) (sa : Int) : Word := val <<< (sa % 64).toNat

def wrappingShr (val : Word) (sa : Int) : Word := val >>> (sa % 64).toNat

/-- The shift of a signed word. -/
def wrappingSar (val : Word) (sa : Int) : Word := val.sshiftRight (sa % 64).toNat

def uintbMasks : List Word :=
  [0, 0xff, 0xffff, 0xffffff, 0xffffffff, 0xffffffffff, 0xffffffffffff, 0xffffffffffffff, 0xffffffffffffffff]

def calcMask (size : Int) : Word := uintbMasks.getD (if 0 ≤ size ∧ size < 8 then size.toNat else 8) 0

def calcIntMin (size : Int) : Word := wrappingShl 1 (size * 8 - 1)

def calcIntMax (size : Int) : Word := calcMask size >>> 1

def signExtend (val : Word) (bit : Int) : Word := wrappingSar (wrappingShl val (64 - (bit + 1))) (64 - (bit + 1))

def zeroExtend (val : Word) (bit : Int) : Word := wrappingShr (wrappingShl val (64 - (bit + 1))) (64 - (bit + 1))

def signbitNegative (val : Word) (size : Int) : Bool := val &&& wrappingShl 0x80 (8 * (size - 1)) != 0#64

def uintbNegate (input : Word) (size : Int) : Word := ~~~input &&& calcMask size

def signExtendSize (input : Word) (sizein sizeout : Int) : Word :=
  let sizein := if 0 ≤ sizein ∧ sizein < 8 then sizein else 8
  let sizeout := if 0 ≤ sizeout ∧ sizeout < 8 then sizeout else 8
  let sval := wrappingShl input ((8 - sizein) * 8)
  let res := wrappingSar sval ((sizeout - sizein) * 8)
  wrappingShr res ((8 - sizeout) * 8)

def popcount (val : Word) : Int := countOnes val

def countLeadingZeros (val : Word) : Int := leadingZeros val

section Narrow

/-- A size of one to eight bytes. -/
def ByteSize (size : Nat) : Prop := 1 ≤ size ∧ size ≤ 8

instance (size : Nat) : Decidable (ByteSize size) := inferInstanceAs (Decidable (_ ∧ _))

variable {size sizeout : Nat} {v v' : BitVec (8 * size)}

theorem ByteSize.width_le (h : ByteSize size) : 8 * size ≤ 64 := by
  have := h.2
  omega

theorem ByteSize.width_pos (h : ByteSize size) : 0 < 8 * size := by
  have := h.1
  omega

theorem calcMask_eq (h : ByteSize size) : calcMask size = (BitVec.allOnes (8 * size)).setWidth 64 := by
  obtain ⟨h₁, h₂⟩ := h
  interval_cases size <;> rfl

theorem and_calcMask (h : ByteSize size) (x : Word) : x &&& calcMask size = (x.setWidth (8 * size)).setWidth 64 := by
  rw [calcMask_eq h, and_mask]

/-- The highest bit of a narrow value. -/
theorem msb_eq_getLsbD (x : Word) (h : ByteSize size) : (x.setWidth (8 * size)).msb = x.getLsbD (8 * size - 1) := by
  rw [BitVec.msb_setWidth, decide_eq_true h.width_pos, Bool.true_and]

theorem signMask_eq (h : ByteSize size) : wrappingShl 0x80 (8 * ((size : Int) - 1)) = BitVec.twoPow 64 (8 * size - 1) := by
  obtain ⟨h₁, h₂⟩ := h
  interval_cases size <;> rfl

theorem and_twoPow_ne_zero (x : Word) {i : Nat} (hi : i < 64) : (x &&& BitVec.twoPow 64 i ≠ 0#64) ↔ x.getLsbD i = true := by
  rw [BitVec.and_twoPow]
  cases x.getLsbD i with
  | false => simp
  | true =>
      simp only [if_true, iff_true]
      intro h
      have := congrArg (fun z => z.getLsbD i) h
      simp [hi] at this

theorem signbitNegative_eq (h : ByteSize size) (v : BitVec (8 * size)) :
    signbitNegative (v.setWidth 64) size = v.msb := by
  have hlt : 8 * size - 1 < 64 := by have := h.width_le; have := h.width_pos; omega
  rw [signbitNegative, signMask_eq h, Bool.eq_iff_iff, bne_iff_ne, and_twoPow_ne_zero _ hlt, ← msb_eq_getLsbD _ h,
    setWidth_narrow v h.width_le]

theorem amount_eq {sa : Int} {k : Nat} (h : sa = k) (hk : k < 64) : (sa % 64).toNat = k := by omega

theorem signExtend_eq (h : ByteSize size) (v : BitVec (8 * size)) :
    signExtend (v.setWidth 64) ((size : Int) * 8 - 1) = v.signExtend 64 := by
  have hle := h.width_le
  have hpos := h.width_pos
  have hsa : ((64 - ((size : Int) * 8 - 1 + 1)) % 64).toNat = 64 - 8 * size := amount_eq (by omega) (by omega)
  rw [signExtend, wrappingSar, wrappingShl, hsa, shiftUp_sshiftRight v hle hpos]

theorem zeroExtend_eq (h : ByteSize size) (x : Word) :
    zeroExtend x ((size : Int) * 8 - 1) = (x.setWidth (8 * size)).setWidth 64 := by
  have hle := h.width_le
  have hpos := h.width_pos
  have hsa : ((64 - ((size : Int) * 8 - 1 + 1)) % 64).toNat = 64 - 8 * size := amount_eq (by omega) (by omega)
  rw [zeroExtend, wrappingShr, wrappingShl, hsa, shiftUp_ushiftRight x hle]

theorem cap_eq (h : ByteSize size) : (if 0 ≤ (size : Int) ∧ (size : Int) < 8 then (size : Int) else 8) = size := by
  have := h.2
  split <;> omega

theorem signExtendSize_eq (h : ByteSize size) (hout : ByteSize sizeout) (hle : size ≤ sizeout) (v : BitVec (8 * size)) :
    signExtendSize (v.setWidth 64) size sizeout = (v.signExtend (8 * sizeout)).setWidth 64 := by
  have h₁ := h.width_le
  have h₂ := hout.width_le
  have h₃ := h.width_pos
  have hshl : ((8 - (size : Int)) * 8 % 64).toNat = 64 - 8 * size := amount_eq (by omega) (by omega)
  have hsar : (((sizeout : Int) - size) * 8 % 64).toNat = 8 * sizeout - 8 * size := amount_eq (by omega) (by omega)
  have hshr : ((8 - (sizeout : Int)) * 8 % 64).toNat = 64 - 8 * sizeout := amount_eq (by omega) (by omega)
  simp only [signExtendSize, cap_eq h, cap_eq hout, wrappingShl, wrappingSar, wrappingShr, hshl, hsar, hshr]
  exact shiftUp_sshiftRight_ushiftRight v h₃ (by omega) h₂

end Narrow

end GhidraDecompiler.Pcode
