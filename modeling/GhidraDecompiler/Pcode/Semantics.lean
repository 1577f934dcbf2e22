import GhidraDecompiler.Pcode.OpBehavior

namespace GhidraDecompiler.Pcode

open BitWords

/-- A value of some number of bytes. -/
structure Operand where
  size : Nat
  val : BitVec (8 * size)

namespace Operand

/-- How an operand is passed to the emulator. -/
def word (x : Operand) : Word := x.val.setWidth 64

end Operand

/-- Truth values are bytes. -/
def truth (b : Bool) : BitVec (8 * 1) := (BitVec.ofBool b).setWidth 8

/-- The evaluator for the number of operands; the size of the first one is
passed along. -/
def evaluate (opc : OpCode) (sizeout : Nat) : List Operand → Except Error Word
  | [a] => evaluateUnary opc sizeout a.size a.word
  | [a, b] => evaluateBinary opc sizeout a.size a.word b.word
  | [a, b, c] => evaluateTernary opc sizeout a.size a.word b.word c.word
  | _ => .error (.lowlevel ("Cannot perform simple execution of " ++ getOpname opc))

/-- What the operations mean on bit vectors: the operands with legal sizes, and
the value, if it is defined. -/
inductive Denotes : OpCode → List Operand → (sizeout : Nat) → Option (BitVec (8 * sizeout)) → Prop
  | copy {n : Nat} (x : BitVec (8 * n)) : Denotes .copy [⟨n, x⟩] n (some x)
  | intZext {n m : Nat} (h : n ≤ m) (x : BitVec (8 * n)) : Denotes .intZext [⟨n, x⟩] m (some (x.setWidth (8 * m)))
  | intSext {n m : Nat} (h : n ≤ m) (x : BitVec (8 * n)) : Denotes .intSext [⟨n, x⟩] m (some (x.signExtend (8 * m)))
  | int2comp {n : Nat} (x : BitVec (8 * n)) : Denotes .int2comp [⟨n, x⟩] n (some (-x))
  | intNegate {n : Nat} (x : BitVec (8 * n)) : Denotes .intNegate [⟨n, x⟩] n (some (~~~x))
  | popcount {n : Nat} (m : Nat) (x : BitVec (8 * n)) :
      Denotes .popcount [⟨n, x⟩] m (some (BitVec.ofNat (8 * m) (countOnes x)))
  | lzcount {n : Nat} (m : Nat) (x : BitVec (8 * n)) :
      Denotes .lzcount [⟨n, x⟩] m (some (BitVec.ofNat (8 * m) (leadingZeros x)))
  | intEqual {n : Nat} (x y : BitVec (8 * n)) : Denotes .intEqual [⟨n, x⟩, ⟨n, y⟩] 1 (some (truth (x == y)))
  | intNotequal {n : Nat} (x y : BitVec (8 * n)) :
      Denotes .intNotequal [⟨n, x⟩, ⟨n, y⟩] 1 (some (truth (x != y)))
  | intSless {n : Nat} (x y : BitVec (8 * n)) : Denotes .intSless [⟨n, x⟩, ⟨n, y⟩] 1 (some (truth (x.slt y)))
  | intSlessequal {n : Nat} (x y : BitVec (8 * n)) :
      Denotes .intSlessequal [⟨n, x⟩, ⟨n, y⟩] 1 (some (truth (x.sle y)))
  | intLess {n : Nat} (x y : BitVec (8 * n)) : Denotes .intLess [⟨n, x⟩, ⟨n, y⟩] 1 (some (truth (x.ult y)))
  | intLessequal {n : Nat} (x y : BitVec (8 * n)) :
      Denotes .intLessequal [⟨n, x⟩, ⟨n, y⟩] 1 (some (truth (x.ule y)))
  | intCarry {n : Nat} (x y : BitVec (8 * n)) :
      Denotes .intCarry [⟨n, x⟩, ⟨n, y⟩] 1 (some (truth (x.uaddOverflow y)))
  | intScarry {n : Nat} (x y : BitVec (8 * n)) :
      Denotes .intScarry [⟨n, x⟩, ⟨n, y⟩] 1 (some (truth (x.saddOverflow y)))
  | intSborrow {n : Nat} (x y : BitVec (8 * n)) :
      Denotes .intSborrow [⟨n, x⟩, ⟨n, y⟩] 1 (some (truth (x.ssubOverflow y)))
  | intAdd {n : Nat} (x y : BitVec (8 * n)) : Denotes .intAdd [⟨n, x⟩, ⟨n, y⟩] n (some (x + y))
  | intSub {n : Nat} (x y : BitVec (8 * n)) : Denotes .intSub [⟨n, x⟩, ⟨n, y⟩] n (some (x - y))
  | intMult {n : Nat} (x y : BitVec (8 * n)) : Denotes .intMult [⟨n, x⟩, ⟨n, y⟩] n (some (x * y))
  | intXor {n : Nat} (x y : BitVec (8 * n)) : Denotes .intXor [⟨n, x⟩, ⟨n, y⟩] n (some (x ^^^ y))
  | intAnd {n : Nat} (x y : BitVec (8 * n)) : Denotes .intAnd [⟨n, x⟩, ⟨n, y⟩] n (some (x &&& y))
  | intOr {n : Nat} (x y : BitVec (8 * n)) : Denotes .intOr [⟨n, x⟩, ⟨n, y⟩] n (some (x ||| y))
  | intLeft {n m : Nat} (x : BitVec (8 * n)) (y : BitVec (8 * m)) :
      Denotes .intLeft [⟨n, x⟩, ⟨m, y⟩] n (some (x <<< y.toNat))
  | intRight {n m : Nat} (x : BitVec (8 * n)) (y : BitVec (8 * m)) :
      Denotes .intRight [⟨n, x⟩, ⟨m, y⟩] n (some (x >>> y.toNat))
  | intSright {n m : Nat} (x : BitVec (8 * n)) (y : BitVec (8 * m)) :
      Denotes .intSright [⟨n, x⟩, ⟨m, y⟩] n (some (x.sshiftRight y.toNat))
  | intDiv {n : Nat} (x y : BitVec (8 * n)) :
      Denotes .intDiv [⟨n, x⟩, ⟨n, y⟩] n (if y = 0#(8 * n) then none else some (x / y))
  | intSdiv {n : Nat} (x y : BitVec (8 * n)) :
      Denotes .intSdiv [⟨n, x⟩, ⟨n, y⟩] n (if y = 0#(8 * n) then none else some (x.sdiv y))
  | intRem {n : Nat} (x y : BitVec (8 * n)) :
      Denotes .intRem [⟨n, x⟩, ⟨n, y⟩] n (if y = 0#(8 * n) then none else some (x % y))
  | intSrem {n : Nat} (x y : BitVec (8 * n)) :
      Denotes .intSrem [⟨n, x⟩, ⟨n, y⟩] n (if y = 0#(8 * n) then none else some (x.srem y))
  | boolNegate (a : Bool) : Denotes .boolNegate [⟨1, truth a⟩] 1 (some (truth !a))
  | boolXor (a b : Bool) : Denotes .boolXor [⟨1, truth a⟩, ⟨1, truth b⟩] 1 (some (truth (a ^^ b)))
  | boolAnd (a b : Bool) : Denotes .boolAnd [⟨1, truth a⟩, ⟨1, truth b⟩] 1 (some (truth (a && b)))
  | boolOr (a b : Bool) : Denotes .boolOr [⟨1, truth a⟩, ⟨1, truth b⟩] 1 (some (truth (a || b)))
  -- on bytes that are no truth values the connectives act on the bits
  | boolNegateBits {n : Nat} (x : BitVec (8 * n)) : Denotes .boolNegate [⟨n, x⟩] n (some (x ^^^ 1#(8 * n)))
  | boolXorBits {n : Nat} (x y : BitVec (8 * n)) : Denotes .boolXor [⟨n, x⟩, ⟨n, y⟩] n (some (x ^^^ y))
  | boolAndBits {n : Nat} (x y : BitVec (8 * n)) : Denotes .boolAnd [⟨n, x⟩, ⟨n, y⟩] n (some (x &&& y))
  | boolOrBits {n : Nat} (x y : BitVec (8 * n)) : Denotes .boolOr [⟨n, x⟩, ⟨n, y⟩] n (some (x ||| y))
  | piece {n m k : Nat} (h : n + m = k) (x : BitVec (8 * n)) (y : BitVec (8 * m)) :
      Denotes .piece [⟨n, x⟩, ⟨m, y⟩] k (some ((x ++ y).setWidth (8 * k)))
  | subpiece {n m : Nat} (k : Nat) (x : BitVec (8 * n)) (y : BitVec (8 * m)) :
      Denotes .subpiece [⟨n, x⟩, ⟨m, y⟩] k (some (x.extractLsb' (8 * y.toNat) (8 * k)))
  | ptradd {n m k : Nat} (x : BitVec (8 * n)) (y : BitVec (8 * m)) (z : BitVec (8 * k)) :
      Denotes .ptradd [⟨n, x⟩, ⟨m, y⟩, ⟨k, z⟩] n (some (x + y.setWidth (8 * n) * z.setWidth (8 * n)))
  | ptrsub {n m : Nat} (x : BitVec (8 * n)) (y : BitVec (8 * m)) :
      Denotes .ptrsub [⟨n, x⟩, ⟨m, y⟩] n (some (x + y.setWidth (8 * n)))

/-- An evaluation returns a value as a word, and fails where there is none. -/
def Returns {w : Nat} (r : Except Error Word) : Option (BitVec w) → Prop
  | some v => r = .ok (v.setWidth 64)
  | none => ∃ e, r = .error e

section Widening

variable {n m k : Nat}

attribute [local simp] evaluateUnary evaluateBinary evaluateTernary

theorem truth_word (b : Bool) : (truth b).setWidth 64 = ofBool b := by
  cases b with
  | false => rfl
  | true => rfl

theorem beq_widen (h : ByteSize n) (x y : BitVec (8 * n)) : (x.setWidth 64 == y.setWidth 64) = (x == y) := by
  rw [Bool.eq_iff_iff, beq_iff_eq, beq_iff_eq, widen_inj h.width_le]

theorem ult_widen (h : ByteSize n) (x y : BitVec (8 * n)) : (x.setWidth 64).ult (y.setWidth 64) = x.ult y := by
  rw [BitVec.ult, BitVec.ult, toNat_widen x h.width_le, toNat_widen y h.width_le]

theorem ule_widen (h : ByteSize n) (x y : BitVec (8 * n)) : (x.setWidth 64).ule (y.setWidth 64) = x.ule y := by
  rw [BitVec.ule, BitVec.ule, toNat_widen x h.width_le, toNat_widen y h.width_le]

theorem and_signMask (h : ByteSize n) (x : BitVec (8 * n)) :
    x.setWidth 64 &&& wrappingShl 0x80 (8 * ((n : Int) - 1)) = if x.msb then BitVec.twoPow 64 (8 * n - 1) else 0#64 := by
  rw [signMask_eq h, BitVec.and_twoPow, ← msb_eq_getLsbD _ h, setWidth_narrow x h.width_le]

theorem twoPow_ne_zero {i : Nat} (hi : i < 64) : BitVec.twoPow 64 i ≠ 0#64 := by
  intro heq
  have := congrArg (fun z => z.getLsbD i) heq
  simp [hi] at this

/-- Values with different signs are decided by the sign bit alone, others as if
they were unsigned. -/
theorem signedLess_eq (h : ByteSize n) (x y : BitVec (8 * n)) (orEqual : Bool) :
    signedLess n (x.setWidth 64) (y.setWidth 64) orEqual = ofBool (if orEqual then x.sle y else x.slt y) := by
  have hpos := h.width_pos
  have hle := h.width_le
  have htop : BitVec.twoPow 64 (8 * n - 1) ≠ 0#64 := twoPow_ne_zero (by omega)
  have hbne : (BitVec.twoPow 64 (8 * n - 1) != 0#64) = true := bne_iff_ne.mpr htop
  have hsle : x.sle y = !y.slt x := BitVec.sle_eq_not_slt
  have hn : ¬ (n : Int) ≤ 0 := by have := h.1; omega
  simp only [signedLess, if_neg hn, and_signMask h, ult_widen h, ule_widen h]
  by_cases hmsb : x.msb = y.msb
  · have hslt := BitVec.slt_eq_ult_of_msb_eq hmsb
    have hslt' := BitVec.slt_eq_ult_of_msb_eq hmsb.symm
    rw [hmsb]
    cases orEqual with
    | false => simp [hslt]
    | true => simp [hsle, hslt', BitVec.ule_eq_not_ult]
  · have hslt := BitVec.slt_eq_not_ult_of_msb_neq hmsb
    have hult := BitVec.ult_eq_msb_of_msb_neq hmsb
    have hslt' := BitVec.slt_eq_not_ult_of_msb_neq (Ne.symm hmsb)
    have hult' := BitVec.ult_eq_msb_of_msb_neq (Ne.symm hmsb)
    cases hx : x.msb with
    | false =>
        have hy : y.msb = true := by simpa [hx] using Ne.symm hmsb
        cases orEqual <;> simp [hsle, hslt, hslt', hult, hult', hx, hy, Ne.symm htop]
    | true =>
        have hy : y.msb = false := by simpa [hx] using Ne.symm hmsb
        cases orEqual <;> simp [hsle, hslt, hslt', hult, hult', hx, hy, htop, -bne_iff_ne, hbne]

theorem add_and_calcMask (h : ByteSize n) (x y : Word) :
    (x + y) &&& calcMask n = (x.setWidth (8 * n) + y.setWidth (8 * n)).setWidth 64 := by
  rw [and_calcMask h, BitVec.setWidth_add _ _ h.width_le]

theorem sub_and_calcMask (h : ByteSize n) (x y : Word) :
    (x - y) &&& calcMask n = (x.setWidth (8 * n) - y.setWidth (8 * n)).setWidth 64 := by
  rw [and_calcMask h, sub_setWidth _ _ h.width_le]

theorem mul_and_calcMask (h : ByteSize n) (x y : Word) :
    (x * y) &&& calcMask n = (x.setWidth (8 * n) * y.setWidth (8 * n)).setWidth 64 := by
  rw [and_calcMask h, BitVec.setWidth_mul _ _ h.width_le]

theorem uintbNegate_eq (h : ByteSize n) (x : Word) : uintbNegate x n = (~~~(x.setWidth (8 * n))).setWidth 64 := by
  rw [uintbNegate, and_calcMask h, BitVec.setWidth_not h.width_le]

theorem uintbNegate_sub_one (h : ByteSize n) (x : Word) : uintbNegate (x - 1) n = (-(x.setWidth (8 * n))).setWidth 64 := by
  have hneg : ~~~(x - 1) = -x := by
    rw [show (1 : Word) = 1#64 from rfl, BitVec.not_sub_one_eq_not_add_one, ← BitVec.neg_eq_not_add]
  rw [uintbNegate, hneg, and_calcMask h, BitVec.setWidth_neg_of_le h.width_le]

theorem carry_eq (h : ByteSize n) (x y : BitVec (8 * n)) :
    ((x.setWidth 64 + y.setWidth 64) &&& calcMask n).ult (x.setWidth 64) = x.uaddOverflow y := by
  rw [add_and_calcMask h, setWidth_narrow x h.width_le, setWidth_narrow y h.width_le, ult_widen h]
  have hx := x.isLt
  have hy := y.isLt
  rw [BitVec.ult, BitVec.uaddOverflow, Bool.eq_iff_iff, decide_eq_true_iff, decide_eq_true_iff, BitVec.toNat_add]
  by_cases hlt : x.toNat + y.toNat < 2 ^ (8 * n)
  · rw [Nat.mod_eq_of_lt hlt]
    omega
  · rw [Nat.mod_eq_sub_mod (by omega), Nat.mod_eq_of_lt (by omega)]
    omega

theorem signBitOf_eq (h : ByteSize n) (x : Word) :
    signBitOf x n = (BitVec.ofBool (x.setWidth (8 * n)).msb).setWidth 32 := by
  have hpos := h.width_pos
  have hle := h.width_le
  have hsa : (((n : Int) * 8 - 1) % 64).toNat = 8 * n - 1 := amount_eq (by omega) (by omega)
  rw [signBitOf, wrappingShr, hsa, msb_eq_getLsbD x h]
  refine BitVec.eq_of_getLsbD_eq fun i _ => ?_
  cases i with
  | zero => simp
  | succ i => simp

theorem signBitOf_widen (h : ByteSize n) (x : BitVec (8 * n)) :
    signBitOf (x.setWidth 64) n = (BitVec.ofBool x.msb).setWidth 32 := by
  rw [signBitOf_eq h, setWidth_narrow x h.width_le]

theorem scarry_eq (h : ByteSize n) (x y : BitVec (8 * n)) :
    ((signBitOf (x.setWidth 64 + y.setWidth 64) n ^^^ signBitOf (x.setWidth 64) n) &&&
      (signBitOf (x.setWidth 64) n ^^^ signBitOf (y.setWidth 64) n ^^^ 1)).setWidth 64 = ofBool (x.saddOverflow y) := by
  rw [signBitOf_widen h, signBitOf_widen h, signBitOf_eq h, BitVec.setWidth_add _ _ h.width_le,
    setWidth_narrow x h.width_le, setWidth_narrow y h.width_le, BitVec.saddOverflow_eq]
  cases x.msb <;> cases y.msb <;> cases (x + y).msb <;> rfl

theorem sborrow_eq (h : ByteSize n) (x y : BitVec (8 * n)) :
    ((signBitOf (x.setWidth 64) n ^^^ signBitOf (x.setWidth 64 - y.setWidth 64) n) &&&
      (signBitOf (x.setWidth 64 - y.setWidth 64) n ^^^ signBitOf (y.setWidth 64) n ^^^ 1)).setWidth 64 =
        ofBool (x.ssubOverflow y) := by
  rw [signBitOf_widen h, signBitOf_widen h, signBitOf_eq h, sub_setWidth _ _ h.width_le,
    setWidth_narrow x h.width_le, setWidth_narrow y h.width_le, BitVec.ssubOverflow_eq]
  cases x.msb <;> cases y.msb <;> cases (x - y).msb <;> rfl

/-- The guard of the shifts. -/
theorem width_ule (h : ByteSize n) (y : Word) : (cxxInt ((n : Int) * 8)).ule y = decide (8 * n ≤ y.toNat) := by
  have hle := h.width_le
  have hcast : cxxInt ((n : Int) * 8) = BitVec.ofNat 64 (8 * n) := by
    rw [cxxInt, show ((n : Int) * 8) = ((8 * n : Nat) : Int) by omega, BitVec.ofInt_natCast]
  rw [hcast, BitVec.ule, BitVec.toNat_ofNat, Nat.mod_eq_of_lt (by omega)]

theorem shl_amount {y : Nat} (h : ByteSize n) (hy : ¬ 8 * n ≤ y) : ((y : Int) % 64).toNat = y :=
  amount_eq rfl (by have := h.width_le; omega)

theorem intLeft_eq (h : ByteSize n) (x : BitVec (8 * n)) (y : Word) :
    evaluateBinary .intLeft n n (x.setWidth 64) y = .ok ((x <<< y.toNat).setWidth 64) := by
  simp only [evaluateBinary, width_ule h, decide_eq_true_eq]
  split
  · next hy => rw [BitVec.shiftLeft_eq_zero hy, BitVec.setWidth_zero]; rfl
  · next hy => rw [wrappingShl, shl_amount h hy, and_calcMask h, shiftLeft_widen x h.width_le]

theorem intRight_eq (h : ByteSize n) (x : BitVec (8 * n)) (y : Word) :
    evaluateBinary .intRight n n (x.setWidth 64) y = .ok ((x >>> y.toNat).setWidth 64) := by
  simp only [evaluateBinary, width_ule h, decide_eq_true_eq]
  split
  · next hy => rw [BitVec.ushiftRight_eq_zero hy, BitVec.setWidth_zero]; rfl
  · next hy =>
      rw [wrappingShr, shl_amount h hy, and_calcMask h, setWidth_narrow x h.width_le, ushiftRight_widen x h.width_le]

theorem intSright_eq (h : ByteSize n) (x : BitVec (8 * n)) (y : Word) :
    evaluateBinary .intSright n n (x.setWidth 64) y = .ok ((x.sshiftRight y.toNat).setWidth 64) := by
  simp only [evaluateBinary, width_ule h, decide_eq_true_eq, signbitNegative_eq h]
  rw [sshiftRight_widen x h.width_le]
  split
  · next hy =>
      rw [ushiftRight_widen x h.width_le, ushiftRight_widen _ h.width_le, BitVec.ushiftRight_eq_zero hy,
        BitVec.ushiftRight_eq_zero hy, BitVec.setWidth_zero, BitVec.zero_or, BitVec.zero_xor, calcMask_eq h]
      rfl
  · next hy =>
      rw [wrappingShr, wrappingShr, shl_amount h hy, calcMask_eq h]
      split
      · rfl
      · rw [BitVec.or_zero]

theorem widen_ne_zero (h : ByteSize n) {y : BitVec (8 * n)} (hy : y ≠ 0#(8 * n)) : y.setWidth 64 ≠ 0#64 := by
  rw [← BitVec.setWidth_zero 64 (8 * n), Ne, widen_inj h.width_le]
  exact hy

theorem div_eq (h : ByteSize n) (x y : BitVec (8 * n)) (hy : y ≠ 0#(8 * n)) :
    evaluateBinary .intDiv n n (x.setWidth 64) (y.setWidth 64) = .ok ((x / y).setWidth 64) := by
  simp only [evaluateBinary, if_neg (widen_ne_zero h hy), udiv_widen x y h.width_le]

theorem rem_eq (h : ByteSize n) (x y : BitVec (8 * n)) (hy : y ≠ 0#(8 * n)) :
    evaluateBinary .intRem n n (x.setWidth 64) (y.setWidth 64) = .ok ((x % y).setWidth 64) := by
  simp only [evaluateBinary, if_neg (widen_ne_zero h hy), umod_widen x y h.width_le]

theorem sdiv_eq (h : ByteSize n) (x y : BitVec (8 * n)) (hy : y ≠ 0#(8 * n)) :
    evaluateBinary .intSdiv n n (x.setWidth 64) (y.setWidth 64) = .ok ((x.sdiv y).setWidth 64) := by
  simp only [evaluateBinary, signExtend_eq h, zeroExtend_eq h, if_neg (widen_ne_zero h hy), signExtend_eq_zero y h.width_le,
    if_neg hy, sdiv_signExtend x y h.width_le]

theorem srem_eq (h : ByteSize n) (x y : BitVec (8 * n)) (hy : y ≠ 0#(8 * n)) :
    evaluateBinary .intSrem n n (x.setWidth 64) (y.setWidth 64) = .ok ((x.srem y).setWidth 64) := by
  simp only [evaluateBinary, signExtend_eq h, zeroExtend_eq h, if_neg (widen_ne_zero h hy), signExtend_eq_zero y h.width_le,
    if_neg hy, srem_signExtend x y h.width_le]

theorem subpiece_eq (h : ByteSize n) (hk : ByteSize k) (x : BitVec (8 * n)) (y : Word) :
    evaluateBinary .subpiece k n (x.setWidth 64) y = .ok ((x.extractLsb' (8 * y.toNat) (8 * k)).setWidth 64) := by
  have hule : (8#64).ule y = decide (8 ≤ y.toNat) := rfl
  simp only [evaluateBinary, hule, decide_eq_true_eq]
  split
  · next hy =>
      have hzero : x.extractLsb' (8 * y.toNat) (8 * k) = 0#(8 * k) := by
        refine BitVec.eq_of_getLsbD_eq fun j hj => ?_
        have := h.width_le
        rw [BitVec.getLsbD_extractLsb', getLsbD_of_le x (by omega), Bool.and_false, BitVec.getLsbD_zero]
      rw [hzero, BitVec.setWidth_zero]
      rfl
  · next hy =>
      have hsa : (((y * 8).toNat : Int) % 64).toNat = 8 * y.toNat := by
        have hmul : (y * 8).toNat = y.toNat * 8 % 2 ^ 64 := BitVec.toNat_mul y 8
        rw [hmul]
        omega
      rw [wrappingShr, hsa, and_calcMask hk, extract_widen x h.width_le]

theorem piece_eq {sizeout : Nat} (h : ByteSize n) (hk : ByteSize sizeout) (hsum : n + m = sizeout)
    (x : BitVec (8 * n)) (y : BitVec (8 * m)) :
    evaluateBinary .piece sizeout n (x.setWidth 64) (y.setWidth 64) =
      .ok (((x ++ y).setWidth (8 * sizeout)).setWidth 64) := by
  have h₁ := h.1
  have h₂ := hk.2
  have hsa : (((sizeout : Int) - n) * 8 % 64).toNat = 8 * m := amount_eq (by omega) (by omega)
  simp only [evaluateBinary, wrappingShl, hsa]
  rw [setWidth_widen (x ++ y) (by omega), BitVec.setWidth_append_eq_shiftLeft_setWidth_or]

theorem popcount_eq (h : ByteSize n) (hk : ByteSize k) (x : BitVec (8 * n)) :
    cxxInt (popcount (x.setWidth 64)) = (BitVec.ofNat (8 * k) (countOnes x)).setWidth 64 := by
  have hle := countOnes_le x
  have hlt : countOnes x < 2 ^ (8 * k) := by
    have : 2 ^ 8 ≤ 2 ^ (8 * k) := Nat.pow_le_pow_right (by omega) (by have := hk.1; omega)
    have := h.width_le
    omega
  rw [cxxInt, popcount, countOnes_widen x h.width_le, BitVec.ofInt_natCast]
  apply BitVec.eq_of_toNat_eq
  rw [toNat_widen _ hk.width_le, BitVec.toNat_ofNat, BitVec.toNat_ofNat, Nat.mod_eq_of_lt hlt, Nat.mod_eq_of_lt]
  have := h.width_le
  omega

theorem lzcount_eq (h : ByteSize n) (hk : ByteSize k) (x : BitVec (8 * n)) :
    cxxInt (countLeadingZeros (x.setWidth 64)) - 8 * (8 - cxxInt n) =
      (BitVec.ofNat (8 * k) (leadingZeros x)).setWidth 64 := by
  have hle := leadingZeros_le x
  have hw := h.width_le
  have hlt : leadingZeros x < 2 ^ (8 * k) := by
    have : 2 ^ 8 ≤ 2 ^ (8 * k) := Nat.pow_le_pow_right (by omega) (by have := hk.1; omega)
    omega
  have hunused : 8 * (8 - cxxInt n) = BitVec.ofInt 64 (64 - 8 * n) := by
    obtain ⟨h₁, h₂⟩ := h
    clear hle hw hlt x
    interval_cases n <;> rfl
  have hsub : BitVec.ofInt 64 ((leadingZeros x + (64 - 8 * n) : Nat) : Int) - BitVec.ofInt 64 (64 - 8 * n) =
      BitVec.ofInt 64 (leadingZeros x) := by
    rw [show ((leadingZeros x + (64 - 8 * n) : Nat) : Int) = (leadingZeros x : Int) + (64 - 8 * n) by omega,
      BitVec.ofInt_add, BitVec.add_sub_cancel]
  rw [countLeadingZeros, leadingZeros_widen x hw, hunused, cxxInt, hsub, BitVec.ofInt_natCast]
  apply BitVec.eq_of_toNat_eq
  rw [toNat_widen _ hk.width_le, BitVec.toNat_ofNat, BitVec.toNat_ofNat, Nat.mod_eq_of_lt hlt, Nat.mod_eq_of_lt]
  omega

end Widening

/-- The emulator returns the value of an operation as a word, and an error when
there is none. -/
theorem emulator_is_bitvector_semantics (opc : OpCode) (operands : List Operand) (sizeout : Nat)
    (res : Option (BitVec (8 * sizeout))) (h : Denotes opc operands sizeout res) (hout : ByteSize sizeout)
    (hin : ∀ x ∈ operands, ByteSize x.size) : Returns (evaluate opc sizeout operands) res := by
  cases h with
  | copy x => rfl
  | intZext hle x =>
      simp only [Returns, evaluate, evaluateUnary, Operand.word]
      rw [setWidth_widen x (by omega)]
  | intSext hle x =>
      simp only [Returns, evaluate, evaluateUnary, Operand.word]
      rw [signExtendSize_eq (hin _ List.mem_cons_self) hout hle x]
  | int2comp x =>
      simp only [Returns, evaluate, evaluateUnary, Operand.word]
      rw [uintbNegate_sub_one hout, setWidth_narrow x hout.width_le]
  | intNegate x =>
      simp only [Returns, evaluate, evaluateUnary, Operand.word]
      rw [uintbNegate_eq hout, setWidth_narrow x hout.width_le]
  | popcount m x =>
      simp only [Returns, evaluate, evaluateUnary, Operand.word]
      rw [popcount_eq (hin _ List.mem_cons_self) hout]
  | lzcount m x =>
      simp only [Returns, evaluate, evaluateUnary, Operand.word]
      rw [lzcount_eq (hin _ List.mem_cons_self) hout]
  | intEqual x y =>
      simp only [Returns, evaluate, evaluateBinary, Operand.word, truth_word]
      rw [beq_widen (hin _ List.mem_cons_self)]
  | intNotequal x y =>
      simp only [Returns, evaluate, evaluateBinary, Operand.word, truth_word]
      rw [bne, beq_widen (hin _ List.mem_cons_self), bne]
  | intSless x y =>
      simp only [Returns, evaluate, evaluateBinary, Operand.word, truth_word]
      rw [signedLess_eq (hin _ List.mem_cons_self), if_neg Bool.false_ne_true]
  | intSlessequal x y =>
      simp only [Returns, evaluate, evaluateBinary, Operand.word, truth_word]
      rw [signedLess_eq (hin _ List.mem_cons_self), if_pos rfl]
  | intLess x y =>
      simp only [Returns, evaluate, evaluateBinary, Operand.word, truth_word]
      rw [ult_widen (hin _ List.mem_cons_self)]
  | intLessequal x y =>
      simp only [Returns, evaluate, evaluateBinary, Operand.word, truth_word]
      rw [ule_widen (hin _ List.mem_cons_self)]
  | intCarry x y =>
      simp only [Returns, evaluate, evaluateBinary, Operand.word, truth_word]
      rw [carry_eq (hin _ List.mem_cons_self)]
  | intScarry x y =>
      simp only [Returns, evaluate, evaluateBinary, Operand.word, truth_word]
      rw [scarry_eq (hin _ List.mem_cons_self)]
  | intSborrow x y =>
      simp only [Returns, evaluate, evaluateBinary, Operand.word, truth_word]
      rw [sborrow_eq (hin _ List.mem_cons_self)]
  | intAdd x y =>
      simp only [Returns, evaluate, evaluateBinary, Operand.word]
      rw [add_and_calcMask hout, setWidth_narrow x hout.width_le, setWidth_narrow y hout.width_le]
  | intSub x y =>
      simp only [Returns, evaluate, evaluateBinary, Operand.word]
      rw [sub_and_calcMask hout, setWidth_narrow x hout.width_le, setWidth_narrow y hout.width_le]
  | intMult x y =>
      simp only [Returns, evaluate, evaluateBinary, Operand.word]
      rw [mul_and_calcMask hout, setWidth_narrow x hout.width_le, setWidth_narrow y hout.width_le]
  | intXor x y =>
      simp only [Returns, evaluate, evaluateBinary, Operand.word]
      rw [BitVec.setWidth_xor]
  | intAnd x y =>
      simp only [Returns, evaluate, evaluateBinary, Operand.word]
      rw [BitVec.setWidth_and]
  | intOr x y =>
      simp only [Returns, evaluate, evaluateBinary, Operand.word]
      rw [BitVec.setWidth_or]
  | intLeft x y =>
      have hy := hin _ (List.mem_cons_of_mem _ List.mem_cons_self)
      simp only [Returns, evaluate, Operand.word]
      rw [intLeft_eq hout, toNat_widen y hy.width_le]
  | intRight x y =>
      have hy := hin _ (List.mem_cons_of_mem _ List.mem_cons_self)
      simp only [Returns, evaluate, Operand.word]
      rw [intRight_eq hout, toNat_widen y hy.width_le]
  | intSright x y =>
      have hy := hin _ (List.mem_cons_of_mem _ List.mem_cons_self)
      simp only [Returns, evaluate, Operand.word]
      rw [intSright_eq hout, toNat_widen y hy.width_le]
  | intDiv x y =>
      by_cases hy : y = 0#(8 * sizeout)
      · subst hy
        simp [Returns, evaluate, evaluateBinary, Operand.word]
      · simp only [if_neg hy, Returns, evaluate, Operand.word]
        rw [div_eq hout x y hy]
  | intSdiv x y =>
      by_cases hy : y = 0#(8 * sizeout)
      · subst hy
        simp [Returns, evaluate, evaluateBinary, Operand.word]
      · simp only [if_neg hy, Returns, evaluate, Operand.word]
        rw [sdiv_eq hout x y hy]
  | intRem x y =>
      by_cases hy : y = 0#(8 * sizeout)
      · subst hy
        simp [Returns, evaluate, evaluateBinary, Operand.word]
      · simp only [if_neg hy, Returns, evaluate, Operand.word]
        rw [rem_eq hout x y hy]
  | intSrem x y =>
      by_cases hy : y = 0#(8 * sizeout)
      · subst hy
        simp [Returns, evaluate, evaluateBinary, Operand.word]
      · simp only [if_neg hy, Returns, evaluate, Operand.word]
        rw [srem_eq hout x y hy]
  | boolNegate a =>
      cases a with
      | false => rfl
      | true => rfl
  | boolXor a b => cases a <;> cases b <;> rfl
  | boolAnd a b => cases a <;> cases b <;> rfl
  | boolOr a b => cases a <;> cases b <;> rfl
  | boolNegateBits x =>
      simp only [Returns, evaluate, evaluateUnary, Operand.word]
      have hone : (1#(8 * sizeout)).setWidth 64 = 1#64 := by
        have := hout.width_pos
        apply BitVec.eq_of_toNat_eq
        rw [toNat_widen _ hout.width_le, BitVec.toNat_ofNat, BitVec.toNat_ofNat, Nat.mod_eq_of_lt (Nat.one_lt_two_pow (by omega))]
      rw [BitVec.setWidth_xor, hone]
      rfl
  | boolXorBits x y =>
      simp only [Returns, evaluate, evaluateBinary, Operand.word]
      rw [BitVec.setWidth_xor]
  | boolAndBits x y =>
      simp only [Returns, evaluate, evaluateBinary, Operand.word]
      rw [BitVec.setWidth_and]
  | boolOrBits x y =>
      simp only [Returns, evaluate, evaluateBinary, Operand.word]
      rw [BitVec.setWidth_or]
  | piece hk x y =>
      simp only [Returns, evaluate, Operand.word]
      rw [piece_eq (hin _ List.mem_cons_self) hout hk]
  | subpiece k x y =>
      have hy := hin _ (List.mem_cons_of_mem _ List.mem_cons_self)
      simp only [Returns, evaluate, Operand.word]
      rw [subpiece_eq (hin _ List.mem_cons_self) hout, toNat_widen y hy.width_le]
  | ptradd x y z =>
      have hy := hin _ (List.mem_cons_of_mem _ List.mem_cons_self)
      have hz := hin _ (List.mem_cons_of_mem _ (List.mem_cons_of_mem _ List.mem_cons_self))
      simp only [Returns, evaluate, evaluateTernary, Operand.word]
      rw [add_and_calcMask hout, BitVec.setWidth_mul _ _ hout.width_le, setWidth_narrow x hout.width_le,
        setWidth_widen y hy.width_le, setWidth_widen z hz.width_le]
  | ptrsub x y =>
      have hy := hin _ (List.mem_cons_of_mem _ List.mem_cons_self)
      simp only [Returns, evaluate, evaluateBinary, Operand.word]
      rw [add_and_calcMask hout, setWidth_narrow x hout.width_le, setWidth_widen y hy.width_le]

/-- The minimum divided by minus one, and by zero. -/
theorem emulator_is_bitvector_semantics_overflow :
    Returns (evaluate .intSdiv 1 [⟨1, 0x80#8⟩, ⟨1, 0xff#8⟩]) (some (0x80#8 : BitVec (8 * 1))) ∧
      Returns (evaluate .intSdiv 1 [⟨1, 0x80#8⟩, ⟨1, 0#8⟩]) (none : Option (BitVec (8 * 1))) := by
  have hin : ∀ y : BitVec (8 * 1), ∀ x ∈ [(⟨1, 0x80#8⟩ : Operand), ⟨1, y⟩], ByteSize x.size := by
    intro y x hx
    simp only [List.mem_cons, List.not_mem_nil, or_false] at hx
    obtain rfl | rfl := hx
    · decide
    · exact ⟨le_rfl, Nat.le_add_left 1 7⟩
  have hmin := Denotes.intSdiv (n := 1) 0x80#8 0xff#8
  have hzero := Denotes.intSdiv (n := 1) 0x80#8 0#8
  constructor
  · exact emulator_is_bitvector_semantics _ _ 1 _ hmin (by decide) (hin _)
  · exact emulator_is_bitvector_semantics _ _ 1 _ hzero (by decide) (hin _)

end GhidraDecompiler.Pcode
