import GhidraDecompiler.Pcode.Semantics

namespace GhidraDecompiler.Pcode

open BitWords

def lossyRecovery : Error := .lowlevel "Cannot recover input parameter without loss of information"

def recoverInputUnary (opc : OpCode) (sizeout : Int) (out : Word) (sizein : Int) : Except Error Word :=
  match opc with
  | .copy => .ok out
  | .intZext =>
      let mask := calcMask sizein
      if mask &&& out ≠ out then .error (.evaluation "Output is not in range of zext operation")
      else .ok out
  | .intSext =>
      let masklong := calcMask sizeout
      let maskshort := calcMask sizein
      if out &&& (maskshort ^^^ (maskshort >>> 1)) = 0 then
        if out &&& maskshort ≠ out then .error (.evaluation "Output is not in range of sext operation")
        else .ok (out &&& maskshort)
      else if out &&& (masklong ^^^ maskshort) ≠ masklong ^^^ maskshort then
        .error (.evaluation "Output is not in range of sext operation")
      else .ok (out &&& maskshort)
  | .int2comp => .ok (uintbNegate (out - 1) sizein)
  | .intNegate => .ok (uintbNegate out sizein)
  | _ => .error lossyRecovery

/-- The loop of the signed shift over the bits of `testval`. -/
def countSignBits : Nat → Word → Int → Int
  | 0, _, count => count
  | bits + 1, testval, count =>
      countSignBits bits (testval >>> 1) (if testval &&& 1 ≠ 0 then count + 1 else count)

def recoverInputBinary (opc : OpCode) (slot : Int) (sizeout : Int) (out : Word) (sizein : Int) (input : Word) :
    Except Error Word :=
  match opc with
  | .intAdd => .ok ((out - input) &&& calcMask sizeout)
  | .intSub => .ok ((if slot = 0 then input + out else input - out) &&& calcMask sizeout)
  | .intLeft =>
      if slot ≠ 0 ∨ (cxxInt (sizeout * 8)).ule input then .error lossyRecovery
      else
        let shiftAmount := (input.setWidth 32).toInt
        let shifted := wrappingShl out (sizeout * 8 - shiftAmount)
        if shifted &&& calcMask sizeout ≠ 0 then
          .error (.evaluation "Output is not in range of left shift operation")
        else .ok (wrappingShr out shiftAmount)
  | .intRight =>
      if slot ≠ 0 ∨ (cxxInt (sizeout * 8)).ule input then .error lossyRecovery
      else
        let shiftAmount := (input.setWidth 32).toInt
        if wrappingShr out (sizein * 8 - shiftAmount) ≠ 0 then
          .error (.evaluation "Output is not in range of right shift operation")
        else .ok (wrappingShl out shiftAmount)
  | .intSright =>
      if slot ≠ 0 ∨ (cxxInt (sizeout * 8)).ule input then .error lossyRecovery
      else
        let shiftAmount := (input.setWidth 32).toInt
        let testval := wrappingShr out (sizein * 8 - shiftAmount - 1)
        let count := countSignBits (shiftAmount + 1).toNat testval 0
        if count ≠ shiftAmount + 1 then
          .error (.evaluation "Output is not in range of right shift operation")
        else .ok (wrappingShl out shiftAmount)
  | _ => .error lossyRecovery

/-- An operation with one unknown input. -/
inductive Unknown
  | unary (opc : OpCode) (sizeout sizein : Nat)
  | binary (opc : OpCode) (slot : Int) (size : Nat) (input : Word)

namespace Unknown

def sizein : Unknown → Nat
  | unary _ _ sizein => sizein
  | binary _ _ size _ => size

def sizeout : Unknown → Nat
  | unary _ sizeout _ => sizeout
  | binary _ _ size _ => size

def recover : Unknown → Word → Except Error Word
  | unary opc sizeout sizein, out => recoverInputUnary opc sizeout out sizein
  | binary opc slot size input, out => recoverInputBinary opc slot size out size input

/-- The operation with a value put in for the unknown input. -/
def apply : Unknown → Word → Except Error Word
  | unary opc sizeout sizein, x => evaluateUnary opc sizeout sizein x
  | binary opc slot size input, x =>
      if slot = 0 then evaluateBinary opc size size x input else evaluateBinary opc size size input x

/-- The operations whose input can be recovered, with their legal sizes. -/
inductive Recoverable : Unknown → Prop
  | copy {n : Nat} : Recoverable (unary .copy n n)
  | intZext {n m : Nat} (h : n ≤ m) : Recoverable (unary .intZext m n)
  | intSext {n m : Nat} (h : n ≤ m) : Recoverable (unary .intSext m n)
  | int2comp {n : Nat} : Recoverable (unary .int2comp n n)
  | intNegate {n : Nat} : Recoverable (unary .intNegate n n)
  | intAdd {n : Nat} {slot : Int} (input : Word) (h : slot = 0 ∨ slot = 1) : Recoverable (binary .intAdd slot n input)
  | intSub {n : Nat} {slot : Int} (input : Word) (h : slot = 0 ∨ slot = 1) : Recoverable (binary .intSub slot n input)
  | intLeft {n : Nat} {input : Word} (h : input.toNat < 8 * n) : Recoverable (binary .intLeft 0 n input)
  | intRight {n : Nat} {input : Word} (h : input.toNat < 8 * n) : Recoverable (binary .intRight 0 n input)
  | intSright {n : Nat} {input : Word} (h : input.toNat < 8 * n) : Recoverable (binary .intSright 0 n input)

/-- Recovery succeeds exactly on the values of the operation, with an input that
gives the value. -/
def Inverts (r : Unknown) (out : Word) : Prop :=
  ((∃ v, r.recover out = .ok v) ↔ ∃ x : BitVec (8 * r.sizein), r.apply (x.setWidth 64) = .ok out) ∧
    ∀ v, r.recover out = .ok v → v.toNat < 2 ^ (8 * r.sizein) ∧ r.apply v = .ok out

/-- The outputs on which recovery is not misled: a plain shift by nothing at full
width takes only zero, and of the outputs of the signed shift the non-negative ones
are refused, and the negative ones are not cut down to the size. -/
def Invertible : Unknown → Word → Prop
  | binary .intLeft _ size input, out => size = 8 → input = 0 → out = 0
  | binary .intRight _ size input, out => size = 8 → input = 0 → out = 0
  | binary .intSright _ size input, out =>
      out.toNat / 2 ^ (8 * size - 1 - input.toNat) ≠ 0 ∧
        (out.toNat / 2 ^ (8 * size - 1 - input.toNat) = 2 ^ (input.toNat + 1) - 1 → size = 8 ∨ input = 0)
  | _, _ => True

section Rules

variable {r : Unknown} {out : Word} {n : Nat}

theorem inverts_of_ok (hn : r.sizein = n) (hle : 8 * n ≤ 64) (v : BitVec (8 * n))
    (hrec : r.recover out = .ok (v.setWidth 64)) (happ : r.apply (v.setWidth 64) = .ok out) : r.Inverts out := by
  subst hn
  refine ⟨⟨fun _ => ⟨v, happ⟩, fun _ => ⟨_, hrec⟩⟩, fun v' hv' => ?_⟩
  obtain rfl : v.setWidth 64 = v' := by simpa [hrec] using hv'
  refine ⟨?_, happ⟩
  rw [toNat_widen v hle]
  exact v.isLt

theorem inverts_of_error (hn : r.sizein = n) {e : Error} (hrec : r.recover out = .error e)
    (hno : ∀ x : BitVec (8 * n), r.apply (x.setWidth 64) ≠ .ok out) : r.Inverts out := by
  subst hn
  refine ⟨⟨fun ⟨v, hv⟩ => ?_, fun ⟨x, hx⟩ => absurd hx (hno x)⟩, fun v hv => ?_⟩
  · simp [hrec] at hv
  · simp [hrec] at hv

/-- A value that is given by some input must not be refused. -/
theorem not_inverts_of_error (hn : r.sizein = n) {e : Error} (hrec : r.recover out = .error e)
    (x : BitVec (8 * n)) (hx : r.apply (x.setWidth 64) = .ok out) : ¬ r.Inverts out := by
  subst hn
  intro h
  obtain ⟨v, hv⟩ := h.1.mpr ⟨x, hx⟩
  simp [hrec] at hv

end Rules

section Extension

variable {n m : Nat}

theorem setWidth_signExtend {w u : Nat} (x : BitVec w) (h : w ≤ u) : (x.signExtend u).setWidth w = x := by
  refine BitVec.eq_of_getLsbD_eq fun i hi => ?_
  rw [BitVec.getLsbD_setWidth, BitVec.getLsbD_signExtend]
  simp [hi, show i < u by omega]

theorem getLsbD_calcMask (h : ByteSize n) (i : Nat) : (calcMask n).getLsbD i = decide (i < 8 * n) := by
  have := h.width_le
  rw [calcMask_eq h, BitVec.getLsbD_setWidth, BitVec.getLsbD_allOnes]
  by_cases hi : i < 8 * n
  · simp [hi, show i < 64 by omega]
  · simp [hi]

theorem and_eq_left_iff {w : Nat} (x mask : BitVec w) :
    x &&& mask = x ↔ ∀ i < w, x.getLsbD i = true → mask.getLsbD i = true := by
  rw [BitVec.eq_of_getLsbD_eq_iff]
  simp only [BitVec.getLsbD_and, Bool.and_eq_left_iff_imp]

/-- The sign of the short value, and the bits that have to repeat it. -/
theorem signExtend_setWidth_eq_iff (h : 0 < n) (y : BitVec (8 * m)) :
    (y.setWidth (8 * n)).signExtend (8 * m) = y ↔
      ∀ i, 8 * n ≤ i → i < 8 * m → y.getLsbD i = y.getLsbD (8 * n - 1) := by
  have hmsb : (y.setWidth (8 * n)).msb = y.getLsbD (8 * n - 1) := by
    rw [BitVec.msb_setWidth, decide_eq_true (by omega), Bool.true_and]
  rw [BitVec.eq_of_getLsbD_eq_iff]
  simp only [BitVec.getLsbD_signExtend, BitVec.getLsbD_setWidth, hmsb]
  constructor
  · intro heq i hlo hhi
    simpa [hhi, show ¬ i < 8 * n by omega] using (heq i hhi).symm
  · intro heq i hi
    by_cases hlo : i < 8 * n
    · simp [hi, hlo]
    · simpa [hi, hlo] using (heq i (by omega) hi).symm

theorem signMaskShort_eq (h : ByteSize n) : calcMask n ^^^ (calcMask n >>> 1) = BitVec.twoPow 64 (8 * n - 1) := by
  obtain ⟨h₁, h₂⟩ := h
  interval_cases n <;> rfl

theorem getLsbD_longMask (h : ByteSize n) (hm : ByteSize m) (i : Nat) :
    (calcMask m ^^^ calcMask n).getLsbD i = (decide (i < 8 * m) ^^ decide (i < 8 * n)) := by
  rw [BitVec.getLsbD_xor, getLsbD_calcMask hm, getLsbD_calcMask h]

/-- The output is taken when its upper part repeats the sign of the lower one. -/
theorem recover_intSext (h : ByteSize n) (hm : ByteSize m) (hle : n ≤ m) (y : BitVec (8 * m)) :
    recoverInputUnary .intSext m (y.setWidth 64) n =
      if (y.setWidth (8 * n)).signExtend (8 * m) = y then .ok ((y.setWidth (8 * n)).setWidth 64)
      else .error (.evaluation "Output is not in range of sext operation") := by
  have hn := h.width_le
  have hpos := h.width_pos
  have hmle := hm.width_le
  have hbit : ∀ i, (y.setWidth 64).getLsbD i = y.getLsbD i := by
    intro i
    rw [BitVec.getLsbD_setWidth]
    by_cases hi : i < 64
    · simp [hi]
    · simp [hi, getLsbD_of_le y (show 8 * m ≤ i by omega)]
  have hval : y.setWidth 64 &&& calcMask n = (y.setWidth (8 * n)).setWidth 64 := by
    rw [and_calcMask h, setWidth_widen y hmle]
  have hsign : y.setWidth 64 &&& (calcMask n ^^^ (calcMask n >>> 1)) = 0 ↔ y.getLsbD (8 * n - 1) = false := by
    rw [signMaskShort_eq h, ← hbit, ← not_iff_not, ← Ne, Bool.not_eq_false]
    exact and_twoPow_ne_zero _ (by omega)
  have hzero : y.setWidth 64 &&& calcMask n = y.setWidth 64 ↔
      ∀ i, 8 * n ≤ i → i < 8 * m → y.getLsbD i = false := by
    rw [and_eq_left_iff]
    simp only [hbit, getLsbD_calcMask h, decide_eq_true_eq]
    constructor
    · intro hall i hlo hhi
      by_contra hset
      have := hall i (by omega) (by simpa using hset)
      omega
    · intro hall i hi hset
      by_contra hlo
      by_cases hhi : i < 8 * m
      · simp [hall i (by omega) hhi] at hset
      · simp [getLsbD_of_le y (show 8 * m ≤ i by omega)] at hset
  have hones : y.setWidth 64 &&& (calcMask m ^^^ calcMask n) = calcMask m ^^^ calcMask n ↔
      ∀ i, 8 * n ≤ i → i < 8 * m → y.getLsbD i = true := by
    rw [BitVec.and_comm, and_eq_left_iff]
    simp only [hbit, getLsbD_longMask h hm]
    constructor
    · intro hall i hlo hhi
      exact hall i (by omega) (by simp [hhi, show ¬ i < 8 * n by omega])
    · intro hall i hi hset
      by_cases hhi : i < 8 * m
      · by_cases hlo : i < 8 * n
        · simp [hlo, hhi] at hset
        · exact hall i (by omega) hhi
      · simp [hhi, show ¬ i < 8 * n by omega] at hset
  rw [recoverInputUnary]
  simp only [signExtend_setWidth_eq_iff h.1, hsign, hones, ne_eq, ite_not, hzero]
  cases hs : y.getLsbD (8 * n - 1) with
  | false => simp only [if_true, hval]
  | true => simp only [Bool.true_eq_false, if_false, hval]

end Extension

section Shifts

variable {n : Nat} {input : Word}

theorem shiftAmount_eq (h : ByteSize n) (ha : input.toNat < 8 * n) : (input.setWidth 32).toInt = input.toNat := by
  have := h.width_le
  have hnat : (input.setWidth 32).toNat = input.toNat := by
    rw [BitVec.toNat_setWidth, Nat.mod_eq_of_lt (by omega)]
  rw [BitVec.toInt_eq_toNat_of_lt (by omega), hnat]

theorem shift_guard (h : ByteSize n) (ha : input.toNat < 8 * n) :
    ¬ ((0 : Int) ≠ 0 ∨ (cxxInt ((n : Int) * 8)).ule input = true) := by
  rw [width_ule h, decide_eq_true_eq]
  omega

/-- The width less the amount, where it is the amount of another shift. -/
theorem restAmount_eq (h : ByteSize n) (ha : input.toNat < 8 * n) (hfull : ¬ (n = 8 ∧ input = 0)) :
    (((n : Int) * 8 - input.toNat) % 64).toNat = 8 * n - input.toNat := by
  have := h.width_le
  have hinput : input = 0 ↔ input.toNat = 0 := by rw [← BitVec.toNat_inj]; rfl
  rw [hinput] at hfull
  omega

theorem amount_word (h : ByteSize n) (ha : input.toNat < 8 * n) : ((input.toNat : Int) % 64).toNat = input.toNat :=
  shl_amount h (by omega)

theorem widen_eq_zero (h : ByteSize n) {y : BitVec (8 * n)} : y.setWidth 64 = 0#64 ↔ y = 0#(8 * n) := by
  rw [← BitVec.setWidth_zero 64 (8 * n), widen_inj h.width_le]

/-- The bits of the output below the amount have to be zero. -/
theorem recover_intLeft (h : ByteSize n) (ha : input.toNat < 8 * n) (hfull : ¬ (n = 8 ∧ input = 0)) (y : BitVec (8 * n)) :
    recoverInputBinary .intLeft 0 n (y.setWidth 64) n input =
      if y <<< (8 * n - input.toNat) = 0#(8 * n) then .ok ((y >>> input.toNat).setWidth 64)
      else .error (.evaluation "Output is not in range of left shift operation") := by
  have hzero : wrappingShl (y.setWidth 64) ((n : Int) * 8 - input.toNat) &&& calcMask n = 0 ↔
      y <<< (8 * n - input.toNat) = 0#(8 * n) := by
    rw [wrappingShl, restAmount_eq h ha hfull, and_calcMask h, shiftLeft_widen y h.width_le]
    exact widen_eq_zero h
  have hval : wrappingShr (y.setWidth 64) input.toNat = (y >>> input.toNat).setWidth 64 := by
    rw [wrappingShr, amount_word h ha, ushiftRight_widen y h.width_le]
  simp only [recoverInputBinary, if_neg (shift_guard h ha)]
  simp only [shiftAmount_eq h ha, hval, ne_eq, ite_not, hzero]

/-- The bits of the output above the width less the amount have to be zero. -/
theorem recover_intRight (h : ByteSize n) (ha : input.toNat < 8 * n) (hfull : ¬ (n = 8 ∧ input = 0)) (y : BitVec (8 * n)) :
    recoverInputBinary .intRight 0 n (y.setWidth 64) n input =
      if y >>> (8 * n - input.toNat) = 0#(8 * n) then .ok ((y.setWidth 64) <<< input.toNat)
      else .error (.evaluation "Output is not in range of right shift operation") := by
  have hzero : wrappingShr (y.setWidth 64) ((n : Int) * 8 - input.toNat) = 0 ↔
      y >>> (8 * n - input.toNat) = 0#(8 * n) := by
    rw [wrappingShr, restAmount_eq h ha hfull, ushiftRight_widen y h.width_le]
    exact widen_eq_zero h
  have hval : wrappingShl (y.setWidth 64) input.toNat = (y.setWidth 64) <<< input.toNat := by
    rw [wrappingShl, amount_word h ha]
  simp only [recoverInputBinary, if_neg (shift_guard h ha)]
  simp only [shiftAmount_eq h ha, hval, ne_eq, ite_not, hzero]

theorem countSignBits_spec (bits : Nat) (testval : Word) (count : Int) :
    countSignBits bits testval count ≤ count + bits ∧
      (countSignBits bits testval count = count + bits ↔ ∀ i < bits, testval.getLsbD i = true) := by
  induction bits generalizing testval count with
  | zero => simp [countSignBits]
  | succ bits ih =>
      have hlow : testval &&& 1 ≠ 0 ↔ testval.getLsbD 0 = true := and_twoPow_ne_zero testval (i := 0) (by omega)
      have hshift : ∀ i, (testval >>> 1).getLsbD i = testval.getLsbD (i + 1) := by
        intro i
        rw [BitVec.getLsbD_ushiftRight, Nat.add_comm]
      obtain ⟨hle, hiff⟩ := ih (testval >>> 1) (if testval &&& 1 ≠ 0 then count + 1 else count)
      rw [countSignBits, Nat.forall_lt_succ_left]
      simp only [hshift] at hiff
      by_cases hbit : testval.getLsbD 0 = true
      · simp only [if_pos (hlow.mpr hbit)] at hle hiff ⊢
        refine ⟨by omega, ?_⟩
        rw [show count + ((bits + 1 : Nat) : Int) = count + 1 + bits by omega, hiff]
        simp [hbit]
      · simp only [if_neg (mt hlow.mp hbit)] at hle hiff ⊢
        refine ⟨by omega, iff_of_false (by omega) ?_⟩
        exact fun hall => hbit hall.1

/-- Only outputs with ones all the way down from the sign are taken. -/
theorem recover_intSright (h : ByteSize n) (ha : input.toNat < 8 * n) (y : BitVec (8 * n)) :
    recoverInputBinary .intSright 0 n (y.setWidth 64) n input =
      if ∀ i < input.toNat + 1, y.getLsbD (8 * n - 1 - input.toNat + i) = true then .ok ((y.setWidth 64) <<< input.toNat)
      else .error (.evaluation "Output is not in range of right shift operation") := by
  have hle := h.width_le
  have hval : wrappingShl (y.setWidth 64) input.toNat = (y.setWidth 64) <<< input.toNat := by
    rw [wrappingShl, amount_word h ha]
  have hsa : (((n : Int) * 8 - input.toNat - 1) % 64).toNat = 8 * n - 1 - input.toNat := amount_eq (by omega) (by omega)
  have hcount := (countSignBits_spec (input.toNat + 1)
    (wrappingShr (y.setWidth 64) ((n : Int) * 8 - input.toNat - 1)) 0).2
  have hbits : (∀ i < input.toNat + 1,
      (wrappingShr (y.setWidth 64) ((n : Int) * 8 - input.toNat - 1)).getLsbD i = true) ↔
      ∀ i < input.toNat + 1, y.getLsbD (8 * n - 1 - input.toNat + i) = true := by
    refine forall₂_congr fun i hi => ?_
    rw [wrappingShr, hsa, BitVec.getLsbD_ushiftRight, BitVec.getLsbD_setWidth, decide_eq_true (by omega), Bool.true_and]
  rw [hbits] at hcount
  simp only [recoverInputBinary, if_neg (shift_guard h ha)]
  simp only [shiftAmount_eq h ha, hval, ne_eq, ite_not]
  rw [show ((input.toNat : Int) + 1).toNat = input.toNat + 1 by omega]
  refine if_congr (Iff.trans ?_ hcount) rfl rfl
  rw [show (input.toNat : Int) + 1 = 0 + ((input.toNat + 1 : Nat) : Int) by omega]

/-- At full width the amount zero is shifted out by 64, which is taken as zero. -/
theorem recover_full {opc : OpCode} (hopc : opc = .intLeft ∨ opc = .intRight) (y : Word) :
    (∃ e, y ≠ 0 ∧ recoverInputBinary opc 0 8 y 8 0 = .error e) ∨ y = 0 ∧ recoverInputBinary opc 0 8 y 8 0 = .ok 0 := by
  have hguard : ¬ ((0 : Int) ≠ 0 ∨ (cxxInt ((8 : Int) * 8)).ule 0 = true) := by decide
  have hsa : ((0 : Word).setWidth 32).toInt = 0 := rfl
  have hmask : y &&& calcMask 8 = y := BitVec.and_allOnes
  by_cases hy : y = 0
  · subst hy
    obtain rfl | rfl := hopc
    · exact .inr ⟨rfl, rfl⟩
    · exact .inr ⟨rfl, rfl⟩
  · refine .inl ?_
    obtain rfl | rfl := hopc
    · refine ⟨.evaluation "Output is not in range of left shift operation", hy, ?_⟩
      simp only [recoverInputBinary, if_neg hguard, hsa, wrappingShl]
      rw [show (((8 : Int) * 8 - 0) % 64).toNat = 0 by decide, BitVec.shiftLeft_zero, hmask, if_pos hy]
    · refine ⟨.evaluation "Output is not in range of right shift operation", hy, ?_⟩
      simp only [recoverInputBinary, if_neg hguard, hsa, wrappingShr]
      rw [show (((8 : Int) * 8 - 0) % 64).toNat = 0 by decide, BitVec.ushiftRight_zero, if_pos hy]

theorem ushiftRight_shiftLeft_eq (y : BitVec (8 * n)) {a : Nat} (ha : a < 8 * n) (hlow : y <<< (8 * n - a) = 0#(8 * n)) :
    y >>> a <<< a = y := by
  refine BitVec.eq_of_getLsbD_eq fun i hi => ?_
  rw [BitVec.getLsbD_shiftLeft, BitVec.getLsbD_ushiftRight]
  by_cases hia : i < a
  · have hbit := congrArg (fun z => z.getLsbD (8 * n - a + i)) hlow
    simp only [BitVec.getLsbD_shiftLeft, BitVec.getLsbD_zero, show 8 * n - a + i < 8 * n by omega, decide_true,
      show ¬ 8 * n - a + i < 8 * n - a by omega, decide_false, Bool.not_false, Bool.true_and,
      Nat.add_sub_cancel_left] at hbit
    simp [hia, hbit]
  · simp [hi, hia, show a + (i - a) = i by omega]

theorem shiftLeft_shiftLeft_eq_zero (x : BitVec (8 * n)) {a : Nat} (ha : a < 8 * n) :
    x <<< a <<< (8 * n - a) = 0#(8 * n) := by
  rw [← BitVec.shiftLeft_add, BitVec.shiftLeft_eq_zero (by omega)]

theorem shiftLeft_ushiftRight_eq (y : BitVec (8 * n)) {a : Nat} (ha : a < 8 * n) (hhigh : y >>> (8 * n - a) = 0#(8 * n)) :
    y <<< a >>> a = y := by
  refine BitVec.eq_of_getLsbD_eq fun i hi => ?_
  rw [BitVec.getLsbD_ushiftRight, BitVec.getLsbD_shiftLeft, Nat.add_sub_cancel_left]
  by_cases hia : a + i < 8 * n
  · simp [hia]
  · have hbit := congrArg (fun z => z.getLsbD (i - (8 * n - a))) hhigh
    simp only [BitVec.getLsbD_ushiftRight, BitVec.getLsbD_zero, show 8 * n - a + (i - (8 * n - a)) = i by omega] at hbit
    simp [hia, hbit]

theorem ushiftRight_ushiftRight_eq_zero (x : BitVec (8 * n)) {a : Nat} (ha : a < 8 * n) :
    x >>> a >>> (8 * n - a) = 0#(8 * n) := by
  rw [← BitVec.shiftRight_add, BitVec.ushiftRight_eq_zero (by omega)]

/-- Below the width less the amount, a shift to the left stays within the size. -/
theorem shiftLeft_widen_of_high (h : ByteSize n) (y : BitVec (8 * n)) {a : Nat} (ha : a < 8 * n)
    (hhigh : y >>> (8 * n - a) = 0#(8 * n)) : y.setWidth 64 <<< a = (y <<< a).setWidth 64 := by
  have hle := h.width_le
  have hlt : y.toNat < 2 ^ (8 * n - a) := by
    have hzero := congrArg BitVec.toNat hhigh
    rw [BitVec.toNat_ushiftRight, BitVec.toNat_zero, Nat.shiftRight_eq_div_pow] at hzero
    exact (Nat.div_eq_zero_iff_lt (Nat.two_pow_pos _)).mp hzero
  have hmul : y.toNat <<< a < 2 ^ (8 * n) := by
    rw [Nat.shiftLeft_eq]
    calc y.toNat * 2 ^ a < 2 ^ (8 * n - a) * 2 ^ a := Nat.mul_lt_mul_of_pos_right hlt (Nat.two_pow_pos a)
      _ = 2 ^ (8 * n) := by rw [← Nat.pow_add, Nat.sub_add_cancel ha.le]
  apply BitVec.eq_of_toNat_eq
  rw [toNat_widen _ hle, BitVec.toNat_shiftLeft, BitVec.toNat_shiftLeft, toNat_widen y hle, Nat.mod_eq_of_lt hmul,
    Nat.mod_eq_of_lt (hmul.trans_le (Nat.pow_le_pow_right (by omega) hle))]

/-- The top bits of a signed shift repeat the sign of its input. -/
theorem getLsbD_sshiftRight_top (x : BitVec (8 * n)) {a i : Nat} (ha : a < 8 * n) (hi : i < a + 1) :
    (x.sshiftRight a).getLsbD (8 * n - 1 - a + i) = x.msb := by
  rw [BitVec.getLsbD_sshiftRight]
  obtain rfl | hpos := Nat.eq_zero_or_pos i
  · simp only [show ¬ 8 * n ≤ 8 * n - 1 - a + 0 by omega, decide_false, Bool.not_false, Bool.true_and,
      BitVec.msb_eq_getLsbD_last, show a + (8 * n - 1 - a + 0) = 8 * n - 1 by omega, ite_self]
  · simp only [show ¬ 8 * n ≤ 8 * n - 1 - a + i by omega, decide_false, Bool.not_false, Bool.true_and,
      show ¬ a + (8 * n - 1 - a + i) < 8 * n by omega, if_false]

theorem shiftLeft_sshiftRight_eq (y : BitVec (8 * n)) {a : Nat} (ha : a < 8 * n) {b : Bool}
    (htop : ∀ i < a + 1, y.getLsbD (8 * n - 1 - a + i) = b) : (y <<< a).sshiftRight a = y := by
  have hmsb : (y <<< a).msb = b := by
    have h0 := htop 0 (by omega)
    rw [BitVec.msb_eq_getLsbD_last, BitVec.getLsbD_shiftLeft]
    simp only [show 8 * n - 1 < 8 * n by omega, decide_true, show ¬ 8 * n - 1 < a by omega, decide_false, Bool.not_false,
      Bool.true_and]
    rw [← h0, Nat.add_zero]
  refine BitVec.eq_of_getLsbD_eq fun i hi => ?_
  rw [BitVec.getLsbD_sshiftRight, hmsb, BitVec.getLsbD_shiftLeft]
  by_cases hia : a + i < 8 * n
  · simp [hia, hi]
  · have hbit := htop (i - (8 * n - 1 - a)) (by omega)
    rw [show 8 * n - 1 - a + (i - (8 * n - 1 - a)) = i by omega] at hbit
    rw [if_neg hia, hbit, decide_eq_false (by omega), Bool.not_false, Bool.true_and]

/-- The top bits as a number. -/
theorem top_eq_iff (y : BitVec (8 * n)) {a : Nat} (ha : a < 8 * n) (b : Bool) :
    y.toNat / 2 ^ (8 * n - 1 - a) = (if b then 2 ^ (a + 1) - 1 else 0) ↔
      ∀ i < a + 1, y.getLsbD (8 * n - 1 - a + i) = b := by
  have hbit : ∀ i, (y.toNat / 2 ^ (8 * n - 1 - a)).testBit i = y.getLsbD (8 * n - 1 - a + i) := by
    intro i
    rw [Nat.testBit_div_two_pow, Nat.add_comm]
    rfl
  have hconst : ∀ i, (if b then 2 ^ (a + 1) - 1 else 0).testBit i = (decide (i < a + 1) && b) := by
    intro i
    cases b with
    | false => simp
    | true => simp [Nat.testBit_two_pow_sub_one]
  constructor
  · intro heq i hi
    rw [← hbit, heq, hconst, decide_eq_true hi, Bool.true_and]
  · intro htop
    refine Nat.eq_of_testBit_eq fun i => ?_
    rw [hbit, hconst]
    by_cases hi : i < a + 1
    · rw [htop i hi, decide_eq_true hi, Bool.true_and]
    · rw [getLsbD_of_le y (by omega), decide_eq_false hi, Bool.false_and]

end Shifts

section Inversion

variable {n m : Nat} {input : Word}

theorem copy_inverts (h : ByteSize n) (y : BitVec (8 * n)) : (unary .copy n n).Inverts (y.setWidth 64) :=
  inverts_of_ok (n := n) rfl h.width_le y rfl rfl

theorem intZext_inverts (h : ByteSize n) (hm : ByteSize m) (y : BitVec (8 * m)) :
    (unary .intZext m n).Inverts (y.setWidth 64) := by
  have hfit : calcMask n &&& y.setWidth 64 = (y.setWidth (8 * n)).setWidth 64 := by
    rw [BitVec.and_comm, and_calcMask h, setWidth_widen y hm.width_le]
  have hrec : recoverInputUnary .intZext m (y.setWidth 64) n =
      if (y.setWidth (8 * n)).setWidth 64 = y.setWidth 64 then .ok (y.setWidth 64)
      else .error (.evaluation "Output is not in range of zext operation") := by
    simp only [recoverInputUnary, hfit, ne_eq, ite_not]
  by_cases heq : (y.setWidth (8 * n)).setWidth 64 = y.setWidth 64
  · refine inverts_of_ok (n := n) rfl h.width_le (y.setWidth (8 * n)) ?_ (congrArg Except.ok heq)
    exact hrec.trans ((if_pos heq).trans (congrArg Except.ok heq.symm))
  · refine inverts_of_error (n := n) rfl (hrec.trans (if_neg heq)) fun x hx => heq ?_
    have hx' : x.setWidth 64 = y.setWidth 64 := Except.ok.inj hx
    rw [← setWidth_widen (n := 8 * n) y hm.width_le, ← hx', setWidth_narrow x h.width_le]

theorem intSext_inverts (h : ByteSize n) (hm : ByteSize m) (hle : n ≤ m) (y : BitVec (8 * m)) :
    (unary .intSext m n).Inverts (y.setWidth 64) := by
  have happ : ∀ x : BitVec (8 * n), (unary .intSext m n).apply (x.setWidth 64) =
      .ok ((x.signExtend (8 * m)).setWidth 64) :=
    fun x => congrArg Except.ok (signExtendSize_eq h hm hle x)
  have hrec := recover_intSext h hm hle y
  by_cases heq : (y.setWidth (8 * n)).signExtend (8 * m) = y
  · refine inverts_of_ok (n := n) rfl h.width_le (y.setWidth (8 * n)) (hrec.trans (if_pos heq)) ?_
    exact (happ _).trans (by rw [heq])
  · refine inverts_of_error (n := n) rfl (hrec.trans (if_neg heq)) fun x hx => heq ?_
    have hx' : x.signExtend (8 * m) = y := (widen_inj hm.width_le).mp (Except.ok.inj ((happ x).symm.trans hx))
    rw [← hx', setWidth_signExtend x (by omega)]

theorem int2comp_inverts (h : ByteSize n) (y : BitVec (8 * n)) : (unary .int2comp n n).Inverts (y.setWidth 64) := by
  have hneg : ∀ x : BitVec (8 * n), uintbNegate (x.setWidth 64 - 1) n = (-x).setWidth 64 := by
    intro x
    rw [uintbNegate_sub_one h, setWidth_narrow x h.width_le]
  refine inverts_of_ok (n := n) rfl h.width_le (-y) (congrArg Except.ok (hneg y)) ?_
  exact congrArg Except.ok ((hneg (-y)).trans (by rw [BitVec.neg_neg]))

theorem intNegate_inverts (h : ByteSize n) (y : BitVec (8 * n)) : (unary .intNegate n n).Inverts (y.setWidth 64) := by
  have hnot : ∀ x : BitVec (8 * n), uintbNegate (x.setWidth 64) n = (~~~x).setWidth 64 := by
    intro x
    rw [uintbNegate_eq h, setWidth_narrow x h.width_le]
  refine inverts_of_ok (n := n) rfl h.width_le (~~~y) (congrArg Except.ok (hnot y)) ?_
  exact congrArg Except.ok ((hnot (~~~y)).trans (by rw [BitVec.not_not]))

theorem intAdd_inverts (h : ByteSize n) {slot : Int} (y : BitVec (8 * n)) :
    (binary .intAdd slot n input).Inverts (y.setWidth 64) := by
  refine inverts_of_ok (n := n) rfl h.width_le (y - input.setWidth (8 * n)) ?_ ?_
  · exact congrArg Except.ok (by rw [sub_and_calcMask h, setWidth_narrow y h.width_le])
  · simp only [apply, evaluateBinary, add_and_calcMask h, setWidth_narrow _ h.width_le]
    split
    · rw [BitVec.sub_add_cancel]
    · rw [BitVec.add_comm, BitVec.sub_add_cancel]

theorem intSub_inverts (h : ByteSize n) {slot : Int} (y : BitVec (8 * n)) :
    (binary .intSub slot n input).Inverts (y.setWidth 64) := by
  by_cases hslot : slot = 0
  · refine inverts_of_ok (n := n) rfl h.width_le (input.setWidth (8 * n) + y) ?_ ?_
    · simp only [recover, recoverInputBinary, if_pos hslot, add_and_calcMask h, setWidth_narrow y h.width_le]
    · simp only [apply, if_pos hslot, evaluateBinary, sub_and_calcMask h, setWidth_narrow _ h.width_le]
      rw [BitVec.add_comm, BitVec.add_sub_cancel]
  · refine inverts_of_ok (n := n) rfl h.width_le (input.setWidth (8 * n) - y) ?_ ?_
    · simp only [recover, recoverInputBinary, if_neg hslot, sub_and_calcMask h, setWidth_narrow y h.width_le]
    · simp only [apply, if_neg hslot, evaluateBinary, sub_and_calcMask h, setWidth_narrow _ h.width_le]
      have hsub : input.setWidth (8 * n) = y + (input.setWidth (8 * n) - y) := by
        rw [BitVec.add_comm, BitVec.sub_add_cancel]
      rw [BitVec.sub_eq_iff_eq_add.mpr hsub]

theorem toNat_zero_word : (0 : Word).toNat = 0 := rfl

/-- At full width the two plain shifts take back nothing but zero. -/
theorem full_inverts_iff {opc : OpCode} (hopc : opc = .intLeft ∨ opc = .intRight) (y : Word) :
    (binary opc 0 8 0).Inverts y ↔ y = 0 := by
  have happ : ∀ x : BitVec (8 * 8), (binary opc 0 8 0).apply (x.setWidth 64) = .ok x := by
    intro x
    obtain rfl | rfl := hopc
    · exact (intLeft_eq (by decide) x 0).trans (by rw [toNat_zero_word, BitVec.shiftLeft_zero, BitVec.setWidth_eq])
    · exact (intRight_eq (by decide) x 0).trans (by rw [toNat_zero_word, BitVec.ushiftRight_zero, BitVec.setWidth_eq])
  obtain ⟨e, hy, hrec⟩ | ⟨rfl, hrec⟩ := recover_full hopc y
  · exact iff_of_false (not_inverts_of_error (n := 8) rfl hrec y (happ y)) hy
  · exact iff_of_true (inverts_of_ok (n := 8) rfl le_rfl 0 hrec (happ 0)) rfl

theorem intLeft_inverts_iff (h : ByteSize n) (ha : input.toNat < 8 * n) (y : BitVec (8 * n)) :
    (binary .intLeft 0 n input).Inverts (y.setWidth 64) ↔ (n = 8 → input = 0 → y.setWidth 64 = 0) := by
  by_cases hfull : n = 8 ∧ input = 0
  · obtain ⟨rfl, rfl⟩ := hfull
    rw [full_inverts_iff (.inl rfl)]
    simp
  · refine iff_of_true ?_ fun h₁ h₂ => absurd ⟨h₁, h₂⟩ hfull
    have hrec := recover_intLeft h ha hfull y
    have happ : ∀ x : BitVec (8 * n), (binary .intLeft 0 n input).apply (x.setWidth 64) =
        .ok ((x <<< input.toNat).setWidth 64) := fun x => intLeft_eq h x input
    by_cases hlow : y <<< (8 * n - input.toNat) = 0#(8 * n)
    · refine inverts_of_ok (n := n) rfl h.width_le _ (hrec.trans (if_pos hlow)) ?_
      rw [happ, ushiftRight_shiftLeft_eq y ha hlow]
    · refine inverts_of_error (n := n) rfl (hrec.trans (if_neg hlow)) fun x hx => hlow ?_
      have hx' : x <<< input.toNat = y := (widen_inj h.width_le).mp (Except.ok.inj ((happ x).symm.trans hx))
      rw [← hx', shiftLeft_shiftLeft_eq_zero x ha]

theorem intRight_inverts_iff (h : ByteSize n) (ha : input.toNat < 8 * n) (y : BitVec (8 * n)) :
    (binary .intRight 0 n input).Inverts (y.setWidth 64) ↔ (n = 8 → input = 0 → y.setWidth 64 = 0) := by
  by_cases hfull : n = 8 ∧ input = 0
  · obtain ⟨rfl, rfl⟩ := hfull
    rw [full_inverts_iff (.inr rfl)]
    simp
  · refine iff_of_true ?_ fun h₁ h₂ => absurd ⟨h₁, h₂⟩ hfull
    have hrec := recover_intRight h ha hfull y
    have happ : ∀ x : BitVec (8 * n), (binary .intRight 0 n input).apply (x.setWidth 64) =
        .ok ((x >>> input.toNat).setWidth 64) := fun x => intRight_eq h x input
    by_cases hhigh : y >>> (8 * n - input.toNat) = 0#(8 * n)
    · have hval := shiftLeft_widen_of_high h y ha hhigh
      refine inverts_of_ok (n := n) rfl h.width_le (y <<< input.toNat) ?_ ?_
      · exact hrec.trans ((if_pos hhigh).trans (congrArg Except.ok hval))
      · rw [happ, shiftLeft_ushiftRight_eq y ha hhigh]
    · refine inverts_of_error (n := n) rfl (hrec.trans (if_neg hhigh)) fun x hx => hhigh ?_
      have hx' : x >>> input.toNat = y := (widen_inj h.width_le).mp (Except.ok.inj ((happ x).symm.trans hx))
      rw [← hx', ushiftRight_ushiftRight_eq_zero x ha]

/-- A negative output, shifted back by some amount, leaves the size. -/
theorem shiftLeft_not_lt (h : ByteSize n) (hn : n ≠ 8) {a : Nat} (hpos : 0 < a) (ha : a < 8 * n) (y : BitVec (8 * n))
    (htop : ∀ i < a + 1, y.getLsbD (8 * n - 1 - a + i) = true) : ¬ (y.setWidth 64 <<< a).toNat < 2 ^ (8 * n) := by
  intro hlt
  have := h.width_le
  have hbit : (y.setWidth 64 <<< a).getLsbD (8 * n) = true := by
    have h₁ := htop 1 (by omega)
    rw [show 8 * n - 1 - a + 1 = 8 * n - a by omega] at h₁
    simp [show 8 * n < 64 by omega, show ¬ 8 * n < a by omega, h₁]
  have hno : (y.setWidth 64 <<< a).toNat.testBit (8 * n) = false := Nat.testBit_lt_two_pow hlt
  exact Bool.false_ne_true (hno.symm.trans hbit)

theorem intSright_inverts_iff (h : ByteSize n) (ha : input.toNat < 8 * n) (y : BitVec (8 * n)) :
    (binary .intSright 0 n input).Inverts (y.setWidth 64) ↔ (binary .intSright 0 n input).Invertible (y.setWidth 64) := by
  simp only [Invertible, toNat_widen y h.width_le]
  have hrec := recover_intSright h ha y
  have happ : ∀ x : BitVec (8 * n), (binary .intSright 0 n input).apply (x.setWidth 64) =
      .ok ((x.sshiftRight input.toNat).setWidth 64) := fun x => intSright_eq h x input
  have hones := top_eq_iff y ha true
  have hzeros := top_eq_iff y ha false
  simp only [if_true, Bool.false_eq_true, if_false] at hones hzeros
  by_cases htop : ∀ i < input.toNat + 1, y.getLsbD (8 * n - 1 - input.toNat + i) = true
  · have hne : y.toNat / 2 ^ (8 * n - 1 - input.toNat) ≠ 0 := by
      intro hzero
      have h₀ := htop 0 (by omega)
      rw [hzeros.mp hzero 0 (by omega)] at h₀
      exact Bool.false_ne_true h₀
    rw [and_iff_right hne]
    simp only [hones.mpr htop, true_imp_iff]
    by_cases hcond : n = 8 ∨ input = 0
    · refine iff_of_true (inverts_of_ok (n := n) rfl h.width_le (y <<< input.toNat) ?_ ?_) hcond
      · refine hrec.trans ((if_pos htop).trans (congrArg Except.ok ?_))
        obtain rfl | rfl := hcond
        · rw [BitVec.setWidth_eq, BitVec.setWidth_eq]
        · rw [toNat_zero_word, BitVec.shiftLeft_zero, BitVec.shiftLeft_zero]
      · rw [happ, shiftLeft_sshiftRight_eq y ha htop]
    · refine iff_of_false (fun hinv => ?_) hcond
      have hpos : 0 < input.toNat := by
        refine Nat.pos_of_ne_zero fun hzero => hcond (.inr ?_)
        exact BitVec.eq_of_toNat_eq hzero
      exact shiftLeft_not_lt h (fun hn => hcond (.inl hn)) hpos ha y htop (hinv.2 _ (hrec.trans (if_pos htop))).1
  · have hrefused := hrec.trans (if_neg htop)
    by_cases hzero : y.toNat / 2 ^ (8 * n - 1 - input.toNat) = 0
    · refine iff_of_false (not_inverts_of_error (n := n) rfl hrefused (y <<< input.toNat) ?_) fun hcond => hcond.1 hzero
      rw [happ, shiftLeft_sshiftRight_eq y ha (hzeros.mp hzero)]
    · refine iff_of_true ?_ ⟨hzero, fun hall => absurd (hones.mp hall) htop⟩
      refine inverts_of_error (n := n) rfl hrefused fun x hx => ?_
      -- an output of the shift repeats the sign, so it would be in one of the two families
      have hx' : x.sshiftRight input.toNat = y := (widen_inj h.width_le).mp (Except.ok.inj ((happ x).symm.trans hx))
      cases hmsb : x.msb with
      | false => exact hzero (hzeros.mpr fun i hi => by rw [← hx', getLsbD_sshiftRight_top x ha hi, hmsb])
      | true => exact htop fun i hi => by rw [← hx', getLsbD_sshiftRight_top x ha hi, hmsb]

end Inversion

/-- Recovery inverts the evaluation of an operation exactly on the outputs that
do not mislead it. -/
theorem inverts_iff_invertible (r : Unknown) (hr : Recoverable r) (hin : ByteSize r.sizein) (hout : ByteSize r.sizeout)
    (y : BitVec (8 * r.sizeout)) : r.Inverts (y.setWidth 64) ↔ r.Invertible (y.setWidth 64) := by
  cases hr with
  | copy => exact iff_of_true (copy_inverts hin y) trivial
  | intZext hle => exact iff_of_true (intZext_inverts hin hout y) trivial
  | intSext hle => exact iff_of_true (intSext_inverts hin hout hle y) trivial
  | int2comp => exact iff_of_true (int2comp_inverts hin y) trivial
  | intNegate => exact iff_of_true (intNegate_inverts hin y) trivial
  | intAdd input hslot => exact iff_of_true (intAdd_inverts hin y) trivial
  | intSub input hslot => exact iff_of_true (intSub_inverts hin y) trivial
  | intLeft ha => exact intLeft_inverts_iff hin ha y
  | intRight ha => exact intRight_inverts_iff hin ha y
  | intSright ha => exact intSright_inverts_iff hin ha y

/-- A byte that is negative for the signed shift by nothing. -/
theorem inverts_iff_invertible_byte : (binary .intSright 0 1 0).Inverts 0x90#64 ∧ Recoverable (binary .intSright 0 1 0) := by
  have hr : Recoverable (binary .intSright 0 1 0) := .intSright (by decide)
  exact ⟨(inverts_iff_invertible _ hr (by decide) (by decide) 0x90#8).mpr ⟨by decide, fun _ => .inr rfl⟩, hr⟩

/-- Half of the byte 0x20 is not halved back. -/
theorem intSright_not_inverts :
    Recoverable (binary .intSright 0 1 1) ∧ ¬ (binary .intSright 0 1 1).Inverts 0x10#64 := by
  refine ⟨.intSright (by decide), ?_⟩
  refine not_inverts_of_error (n := 1) (e := .evaluation "Output is not in range of right shift operation") rfl ?_ 0x20#8 ?_
  · decide
  · decide

end Unknown

end GhidraDecompiler.Pcode
