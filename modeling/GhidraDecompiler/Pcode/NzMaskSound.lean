import Mathlib.Tactic.Ring
import GhidraDecompiler.Pcode.NzMask

namespace GhidraDecompiler.Pcode

open BitWords

theorem coveringmask_covers (val : Word) : Covers (coveringmask val) val := by
  have h := (reach_one val).double.double.double.double.double.double
  exact h.covers le_rfl

theorem within_calcMask (size : Nat) (x : Word) : Within (x &&& calcMask size) (calcMask size) := by
  rw [within_iff]
  intro i hi
  rw [BitVec.getLsbD_and, Bool.and_eq_true] at hi
  exact hi.2

theorem Operand.word_within (x : Operand) (h : ByteSize x.size) : Within x.word (calcMask x.size) := by
  have hmask : x.word &&& calcMask x.size = x.word := by
    rw [and_calcMask h, Operand.word, setWidth_narrow x.val h.width_le]
  rw [← hmask]
  exact within_calcMask _ _

theorem Operand.word_lt (x : Operand) (h : ByteSize x.size) : x.word.toNat < 2 ^ (8 * x.size) := by
  rw [Operand.word, toNat_widen _ h.width_le]
  exact x.val.isLt

theorem within_and_calcMask (size : Nat) {v m : Word} (hv : Within v m) :
    Within (v &&& calcMask size) (m &&& calcMask size) := by
  rw [within_iff] at hv ⊢
  intro i hi
  rw [BitVec.getLsbD_and, Bool.and_eq_true] at hi ⊢
  exact ⟨hv i hi.1, hi.2⟩

theorem getLsbD_calcMask {size : Nat} (h : ByteSize size) (i : Nat) : (calcMask size).getLsbD i = decide (i < 8 * size) := by
  have := h.width_le
  rw [calcMask_eq h, BitVec.getLsbD_setWidth, BitVec.getLsbD_allOnes]
  by_cases hi : i < 8 * size
  · simp [hi, show i < 64 by omega]
  · simp [hi]

theorem within_calcMask_of_lt {size : Nat} (h : ByteSize size) {x : Word} (hx : x.toNat < 2 ^ (8 * size)) :
    Within x (calcMask size) := by
  rw [within_iff]
  intro i hi
  rw [getLsbD_calcMask h, decide_eq_true_iff]
  have := pow_le_of_getLsbD hi
  exact (Nat.pow_lt_pow_iff_right (by decide)).mp (this.trans_lt hx)

theorem within_one_ofBool (b : Bool) : Within (ofBool b) 1 := by
  cases b with
  | false => decide
  | true => decide

theorem mostsigbitSet_eq {val : Word} (h : val ≠ 0#64) : mostsigbitSet val = val.toNat.log2 := by
  have hlt := log2_lt h
  rw [mostsigbitSet, if_neg h, leadingZeros, if_neg h]
  omega

theorem signExtendSize_within (v m : Word) (h : Within v m) (sizein sizeout : Int) :
    Within (signExtendSize v sizein sizeout) (signExtendSize m sizein sizeout) := by
  simp only [signExtendSize, wrappingShl, wrappingSar, wrappingShr]
  exact ((h.shiftLeft _).sshiftRight _).ushiftRight _

theorem intDiv_within {x y : Word} {val : Word} {divisor : Varnode} (hx : Within x val) (hy : y ≠ 0#64)
    (hconst : divisor.isConstant = true → divisor.nzMask = y) : Within (x / y) (NzMask.intDiv val divisor) := by
  have hcover := coveringmask_covers val
  have hdiv : (x / y).toNat = x.toNat / y.toNat := BitVec.toNat_udiv
  simp only [NzMask.intDiv]
  by_cases hc : divisor.isConstant = true
  · have hmsb := mostsigbitSet_eq hy
    rw [if_pos hc, hconst hc, hmsb, if_pos (by omega), within_iff]
    intro i hi
    rw [BitVec.getLsbD_ushiftRight, Int.toNat_natCast]
    apply hcover.getLsbD
    have hpow : 2 ^ y.toNat.log2 ≤ y.toNat := Nat.log2_self_le fun h0 => hy (BitVec.eq_of_toNat_eq h0)
    have hbit := pow_le_of_getLsbD hi
    calc 2 ^ (y.toNat.log2 + i) = 2 ^ i * 2 ^ y.toNat.log2 := by rw [Nat.pow_add, Nat.mul_comm]
      _ ≤ (x / y).toNat * y.toNat := Nat.mul_le_mul hbit hpow
      _ ≤ x.toNat := by rw [hdiv]; exact Nat.div_mul_le_self _ _
      _ ≤ val.toNat := hx.toNat_le
  · rw [if_neg hc]
    apply hcover.within
    rw [hdiv]
    exact (Nat.div_le_self _ _).trans hx.toNat_le

theorem intRem_within {x y mask : Word} (hmask : Within y mask) (hy : y ≠ 0#64) : Within (x % y) (coveringmask (mask - 1)) := by
  apply (coveringmask_covers _).within
  have hpos : 0 < y.toNat := Nat.pos_of_ne_zero fun h0 => hy (BitVec.eq_of_toNat_eq h0)
  have hle := hmask.toNat_le
  have hsub : (mask - 1).toNat = mask.toNat - 1 := BitVec.toNat_sub_of_le (by rw [BitVec.le_def]; exact hpos.trans_le hle)
  have hmod : (x % y).toNat < y.toNat := by
    rw [BitVec.toNat_umod]
    exact Nat.mod_lt _ hpos
  omega

theorem toNat_cxxInt {k : Nat} (hk : k < 2 ^ 64) : (cxxInt k).toNat = k := by
  rw [cxxInt, BitVec.ofInt_natCast, BitVec.toNat_ofNat, Nat.mod_eq_of_lt hk]

theorem count_within {size count bound : Nat} (h : ByteSize size) (hle : count ≤ bound) (hbound : bound ≤ 64) :
    Within (cxxInt count) (coveringmask (cxxInt bound) &&& calcMask size) := by
  have hcover : Within (cxxInt count) (coveringmask (cxxInt bound)) := by
    apply (coveringmask_covers _).within
    rw [toNat_cxxInt (by omega), toNat_cxxInt (by omega)]
    exact hle
  have hmask : Within (cxxInt count) (calcMask size) := by
    apply within_calcMask_of_lt h
    have hpow : 2 ^ 8 ≤ 2 ^ (8 * size) := Nat.pow_le_pow_right (by omega) (by have := h.1; omega)
    rw [toNat_cxxInt (by omega)]
    omega
  rw [within_iff] at hcover hmask ⊢
  intro i hi
  rw [BitVec.getLsbD_and, hcover i hi, hmask i hi, Bool.and_self]

theorem popcount_within {size : Nat} (h : ByteSize size) {x mask : Word} (hx : Within x mask) :
    Within (cxxInt (popcount x)) (coveringmask (cxxInt (popcount mask)) &&& calcMask size) :=
  count_within h hx.countOnes_le (countOnes_le mask)

theorem lzcount_within {size n : Nat} (h : ByteSize size) (hn : ByteSize n) (x : BitVec (8 * n)) :
    Within (cxxInt (countLeadingZeros (x.setWidth 64)) - 8 * (8 - cxxInt n))
      (coveringmask (cxxInt ((n : Int) * 8)) &&& calcMask size) := by
  have hle := leadingZeros_le x
  have hw := hn.width_le
  rw [lzcount_eq hn (k := 8) (by decide)]
  have hval : (BitVec.ofNat (8 * 8) (leadingZeros x)).setWidth 64 = cxxInt (leadingZeros x) := by
    rw [cxxInt, BitVec.ofInt_natCast]
    exact BitVec.setWidth_eq _
  rw [hval, show ((n : Int) * 8) = ((8 * n : Nat) : Int) by omega]
  exact count_within h hle hw

theorem subpiece_within {size : Nat} {vn : Varnode} (hsize : vn.size ≤ 8) {x : Word} (hx : Within x vn.nzMask) (y : Word)
    {r : Word} (heval : evaluateBinary .subpiece size vn.size x y = .ok r) :
    Within r (NzMask.subpiece (calcMask size) vn y) := by
  have hule : (8#64).ule y = decide (8 ≤ y.toNat) := rfl
  simp only [evaluateBinary, hule, decide_eq_true_eq] at heval
  split at heval
  · next hy =>
      injection heval with heval
      rw [← heval]
      rw [within_iff]
      intro i hi
      simp at hi
  · next hy =>
      injection heval with heval
      have hsz : (y.setWidth 32).toNat = y.toNat := by
        rw [BitVec.toNat_setWidth, Nat.mod_eq_of_lt (by omega)]
      have hsa : (((y * 8).toNat : Int) % 64).toNat = 8 * y.toNat := by
        have hmul : (y * 8).toNat = y.toNat * 8 % 2 ^ 64 := BitVec.toNat_mul y 8
        rw [hmul]
        omega
      simp only [NzMask.subpiece, hsz, if_pos hsize, if_pos (show y.toNat < 8 by omega)]
      rw [← heval, wrappingShr, hsa]
      exact within_and_calcMask size (hx.ushiftRight _)

theorem intAdd_within {size : Nat} {x y mask othermask : Word} (hx : Within x mask) (hy : Within y othermask) :
    Within ((x + y) &&& calcMask size) (NzMask.intAdd (calcMask size) mask othermask) := by
  rw [NzMask.intAdd]
  split
  · next hand => exact within_and_calcMask size (hx.add_disjoint hy hand)
  · exact within_and_calcMask size (hx.add hy)

theorem getLsbD_mul_and_calcMask {size : Nat} (h : ByteSize size) (x y : Word) (i : Nat) :
    ((x * y) &&& calcMask size).getLsbD i = (decide (i < 8 * size) && (x.toNat * y.toNat).testBit i) := by
  have hle := h.width_le
  rw [BitVec.getLsbD_and, getLsbD_calcMask h, BitVec.getLsbD, BitVec.toNat_mul, Nat.testBit_mod_two_pow]
  by_cases hi : i < 8 * size
  · simp [hi, show i < 64 by omega]
  · simp [hi]

/-- The number of bits of a product, from the highest and the lowest bits. -/
theorem total_cast {s₁ l₁ s₂ l₂ : Nat} (h₁ : l₁ ≤ s₁) (h₂ : l₂ ≤ s₂) :
    (if (s₁ : Int) - l₁ + 1 = 1 ∨ (s₂ : Int) - l₂ + 1 = 1 then (s₁ : Int) - l₁ + 1 + ((s₂ : Int) - l₂ + 1) - 1
      else (s₁ : Int) - l₁ + 1 + ((s₂ : Int) - l₂ + 1)) =
      productBits (s₁ + 1 - l₁) (s₂ + 1 - l₂) := by
  rw [productBits]
  split <;> split <;> omega

theorem intMult_within {size : Nat} (h : ByteSize size) {x y val mask : Word} (hx : Within x val) (hy : Within y mask) :
    Within ((x * y) &&& calcMask size) (NzMask.intMult size (calcMask size) val mask) := by
  have hzero : ∀ v : Word, Within v 0#64 → v = 0#64 := by
    intro v hv
    have := hv.toNat_le
    exact BitVec.eq_of_toNat_eq (Nat.le_zero.mp this)
  by_cases hval : val = 0#64
  · subst hval
    rw [hzero x hx, BitVec.zero_mul, BitVec.zero_and]
    exact BitVec.zero_and
  by_cases hmask : mask = 0#64
  · subst hmask
    rw [hzero y hy, BitVec.mul_zero, BitVec.zero_and]
    exact BitVec.zero_and
  obtain ⟨a, ha, hxa⟩ := hx.eq_mul hval
  obtain ⟨b, hb, hyb⟩ := hy.eq_mul hmask
  have hl₁ := trailingZeros_le_log2 hval
  have hl₂ := trailingZeros_le_log2 hmask
  have hprod : x.toNat * y.toNat = 2 ^ (trailingZeros val + trailingZeros mask) * (a * b) := by
    rw [hxa, hyb, Nat.pow_add]
    ring
  have hlt := mul_lt_productBits ha hb
  rw [within_iff]
  intro i hi
  rw [getLsbD_mul_and_calcMask h, Bool.and_eq_true, decide_eq_true_iff, hprod, Nat.testBit_two_pow_mul, Bool.and_eq_true,
    decide_eq_true_iff] at hi
  obtain ⟨hi, hsa, hbit⟩ := hi
  have htotal := (Nat.pow_lt_pow_iff_right (by decide)).mp ((Nat.ge_two_pow_of_testBit hbit).trans_lt hlt)
  have hcast := total_cast hl₁ hl₂
  have hm₁ : ¬ (val.toNat.log2 : Int) = -1 := by omega
  have hm₂ : ¬ (mask.toNat.log2 : Int) = -1 := by omega
  simp only [NzMask.intMult, if_neg (show ¬ size > 8 by have := h.2; omega), mostsigbitSet_eq hval, mostsigbitSet_eq hmask,
    leastsigbitSet, if_neg hval, if_neg hmask, hm₁, hm₂, or_self, if_false, hcast]
  rw [if_neg (by omega), BitVec.getLsbD_and, getLsbD_calcMask h, decide_eq_true hi, Bool.and_true, BitVec.getLsbD_shiftLeft,
    show ((trailingZeros val : Int) + trailingZeros mask).toNat = trailingZeros val + trailingZeros mask by omega,
    decide_eq_true (show i < 64 by have := h.width_le; omega), decide_eq_false (show ¬ i < _ by omega), Bool.not_false,
    Bool.true_and, Bool.true_and]
  split
  · rw [BitVec.getLsbD_ushiftRight, getLsbD_calcMask h, decide_eq_true_iff]
    omega
  · rw [getLsbD_calcMask h, decide_eq_true_iff]
    omega

theorem Reads.masked {vn : Varnode} {x : Operand} (h : Reads vn x) : Within x.word vn.nzMask := h.within

theorem Reads.word_le {vn : Varnode} {x : Operand} (h : Reads vn x) {size : Nat} (hs : x.size = size) :
    Within x.word (calcMask size) := by
  rw [← hs]
  exact x.word_within h.bytes

theorem within_one_of_le {x : Word} (h : x = 0#64 ∨ x = 1#64) : Within x 1 := by
  rcases h with rfl | rfl
  · decide
  · decide

theorem signBitOf_cases (x : Word) (size : Int) : signBitOf x size = 0#32 ∨ signBitOf x size = 1#32 := by
  rw [signBitOf]
  have hand : ∀ y : Word, y &&& 1 = 0#64 ∨ y &&& 1 = 1#64 := by
    intro y
    have hlt : (y &&& 1).toNat ≤ 1 := by
      rw [BitVec.toNat_and]
      exact Nat.and_le_right
    have : (y &&& 1).toNat = 0 ∨ (y &&& 1).toNat = 1 := by omega
    exact this.imp (fun h => BitVec.eq_of_toNat_eq h) (fun h => BitVec.eq_of_toNat_eq h)
  rcases hand (wrappingShr x (size * 8 - 1)) with h | h
  · left
    rw [h]
    rfl
  · right
    rw [h]
    rfl

theorem signedLess_within (sizein : Int) (x y : Word) (orEqual : Bool) : Within (signedLess sizein x y orEqual) 1 := by
  simp only [signedLess]
  split
  · decide
  · split
    · exact within_one_ofBool _
    · split
      · exact within_one_ofBool _
      · exact within_one_ofBool _

theorem sound_unary {code : OpCode} {out vn : Varnode} {x : Operand} {r : Word} {b : Bool} {parent : Option (Nat → Bool)}
    (hout : ByteSize out.size) (hlegal : LegalSizes out.size code [x.size]) (hread : Reads vn x)
    (hbool : code ∈ booleanOps → x.word = 0#64 ∨ x.word = 1#64)
    (heval : evaluate code out.size [x] = .ok r) :
    ∃ m, opGetNzMaskLocal ⟨code, some out, [vn], b, parent⟩ false = some m ∧ Within r m := by
  cases code with
  | copy =>
      injection heval with heval
      subst heval
      exact ⟨_, rfl, hread.within⟩
  | intZext =>
      injection heval with heval
      subst heval
      exact ⟨_, rfl, hread.within⟩
  | intSext =>
      injection heval with heval
      subst heval
      refine ⟨_, rfl, ?_⟩
      rw [hread.size]
      exact signExtendSize_within _ _ hread.within _ _
  | popcount =>
      injection heval with heval
      subst heval
      exact ⟨_, rfl, popcount_within hout hread.within⟩
  | lzcount =>
      injection heval with heval
      subst heval
      refine ⟨_, rfl, ?_⟩
      rw [hread.size]
      exact lzcount_within hout hread.bytes x.val
  | boolNegate =>
      injection heval with heval
      subst heval
      refine ⟨_, rfl, within_one_of_le ?_⟩
      rcases hbool (by decide) with h | h
      · right
        rw [h]
        rfl
      · left
        rw [h]
        rfl
  | _ => exact hlegal.elim

theorem bit_and_bit {a b : BitVec 32} (ha : a = 0#32 ∨ a = 1#32) : Within ((a &&& b).setWidth 64) 1 := by
  rw [within_iff]
  intro i hi
  rw [BitVec.getLsbD_setWidth, BitVec.getLsbD_and] at hi
  rcases ha with rfl | rfl
  · simp at hi
  · cases i with
    | zero => rfl
    | succ i => simp at hi

theorem bit_xor_bit {a b : BitVec 32} (ha : a = 0#32 ∨ a = 1#32) (hb : b = 0#32 ∨ b = 1#32) :
    a ^^^ b = 0#32 ∨ a ^^^ b = 1#32 := by
  rcases ha with rfl | rfl <;> rcases hb with rfl | rfl <;> decide

theorem sound_binary {code : OpCode} {out vn₁ vn₂ : Varnode} {x y : Operand} {r : Word} {b : Bool}
    {parent : Option (Nat → Bool)} (hout : ByteSize out.size) (hlegal : LegalSizes out.size code [x.size, y.size])
    (hx : Reads vn₁ x) (hy : Reads vn₂ y) (hconst : code = .subpiece → vn₂.isConstant = true)
    (hbool : code ∈ booleanOps → (x.word = 0#64 ∨ x.word = 1#64) ∧ (y.word = 0#64 ∨ y.word = 1#64))
    (heval : evaluate code out.size [x, y] = .ok r) :
    ∃ m, opGetNzMaskLocal ⟨code, some out, [vn₁, vn₂], b, parent⟩ false = some m ∧ Within r m := by
  cases code with
  | intXor =>
      injection heval with heval
      subst heval
      by_cases hfull : vn₁.nzMask = calcMask out.size
      · refine ⟨vn₁.nzMask, by simp [opGetNzMaskLocal, hfull], ?_⟩
        have := (hx.word_le hlegal.1).xor (hy.word_le hlegal.2)
        rw [BitVec.or_self] at this
        rwa [hfull]
      · exact ⟨vn₁.nzMask ||| vn₂.nzMask, by simp [opGetNzMaskLocal, hfull], hx.masked.xor hy.masked⟩
  | intOr =>
      injection heval with heval
      subst heval
      by_cases hfull : vn₁.nzMask = calcMask out.size
      · refine ⟨vn₁.nzMask, by simp [opGetNzMaskLocal, hfull], ?_⟩
        have := (hx.word_le hlegal.1).or (hy.word_le hlegal.2)
        rw [BitVec.or_self] at this
        rwa [hfull]
      · exact ⟨vn₁.nzMask ||| vn₂.nzMask, by simp [opGetNzMaskLocal, hfull], hx.masked.or hy.masked⟩
  | intAnd =>
      injection heval with heval
      subst heval
      by_cases hzero : vn₁.nzMask = 0#64
      · refine ⟨vn₁.nzMask, by simp [opGetNzMaskLocal, hzero], ?_⟩
        have := hx.masked.and hy.masked
        rw [hzero, BitVec.zero_and] at this
        rwa [hzero]
      · exact ⟨vn₁.nzMask &&& vn₂.nzMask, by simp [opGetNzMaskLocal, hzero], hx.masked.and hy.masked⟩
  | intAdd =>
      injection heval with heval
      subst heval
      by_cases hfull : vn₁.nzMask = calcMask out.size
      · refine ⟨vn₁.nzMask, by simp [opGetNzMaskLocal, hfull], ?_⟩
        rw [hfull]
        exact within_calcMask _ _
      · exact ⟨NzMask.intAdd (calcMask out.size) vn₁.nzMask vn₂.nzMask, by simp [opGetNzMaskLocal, hfull],
          intAdd_within hx.masked hy.masked⟩
  | intMult =>
      injection heval with heval
      subst heval
      exact ⟨_, rfl, intMult_within hout hx.masked hy.masked⟩
  | intDiv =>
      simp only [evaluate, evaluateBinary] at heval
      split at heval
      · cases heval
      · next hne =>
          injection heval with heval
          subst heval
          exact ⟨_, rfl, intDiv_within hx.masked hne fun hc => (hy.constant hc).2⟩
  | intRem =>
      simp only [evaluate, evaluateBinary] at heval
      split at heval
      · cases heval
      · next hne =>
          injection heval with heval
          subst heval
          exact ⟨_, rfl, intRem_within hy.masked hne⟩
  | subpiece =>
      refine ⟨_, rfl, ?_⟩
      rw [(hy.constant (hconst rfl)).1]
      refine subpiece_within ?_ hx.masked y.word ?_
      · rw [hx.size]
        exact hx.bytes.2
      · rw [hx.size]
        exact heval
  | piece =>
      injection heval with heval
      subst heval
      have hsum : x.size + y.size = out.size := hlegal
      have hsa : (((out.size : Int) - x.size) * 8 % 64).toNat = 8 * y.size :=
        amount_eq (by omega) (by have := hout.2; have := hx.bytes.1; omega)
      refine ⟨_, rfl, ?_⟩
      rw [hy.size, if_pos (by have := hout.2; have := hx.bytes.1; omega), wrappingShl, hsa]
      exact (hx.masked.shiftLeft _).or hy.masked
  | intEqual | intNotequal | intLess | intLessequal | intCarry =>
      injection heval with heval
      subst heval
      exact ⟨_, rfl, within_one_ofBool _⟩
  | intSless | intSlessequal =>
      injection heval with heval
      subst heval
      exact ⟨_, rfl, signedLess_within _ _ _ _⟩
  | intScarry =>
      injection heval with heval
      subst heval
      exact ⟨_, rfl, bit_and_bit (bit_xor_bit (signBitOf_cases _ _) (signBitOf_cases _ _))⟩
  | intSborrow =>
      injection heval with heval
      subst heval
      exact ⟨_, rfl, bit_and_bit (bit_xor_bit (signBitOf_cases _ _) (signBitOf_cases _ _))⟩
  | boolXor =>
      injection heval with heval
      subst heval
      obtain ⟨h₁, h₂⟩ := hbool (by decide)
      exact ⟨_, rfl, (within_one_of_le h₁).xor (within_one_of_le h₂)⟩
  | boolAnd =>
      injection heval with heval
      subst heval
      obtain ⟨h₁, h₂⟩ := hbool (by decide)
      exact ⟨_, rfl, (within_one_of_le h₁).and (within_one_of_le h₂)⟩
  | boolOr =>
      injection heval with heval
      subst heval
      obtain ⟨h₁, h₂⟩ := hbool (by decide)
      exact ⟨_, rfl, (within_one_of_le h₁).or (within_one_of_le h₂)⟩
  | _ => exact hlegal.elim

/-- A result has no bit outside of the mask that is derived from masks of the
operands; the operands of the boolean operations are truth values. -/
theorem opGetNzMaskLocal_sound (op : PcodeOp) (out : Varnode) (operands : List Operand) (r : Word)
    (hout : op.output = some out) (hbytes : ByteSize out.size)
    (hlegal : LegalSizes out.size op.code (operands.map Operand.size)) (hreads : List.Forall₂ Reads op.inputs operands)
    (hconst : op.code = .subpiece → ∀ vn, op.inputs[1]? = some vn → vn.isConstant = true)
    (hbool : op.code ∈ booleanOps → ∀ x ∈ operands, x.word = 0#64 ∨ x.word = 1#64)
    (heval : evaluate op.code out.size operands = .ok r) :
    ∃ m, opGetNzMaskLocal op false = some m ∧ r &&& ~~~m = 0#64 := by
  obtain ⟨code, output, inputs, isCalculatedBool, parent⟩ := op
  cases hout
  cases hreads with
  | nil => cases code <;> exact hlegal.elim
  | cons hx hrest =>
      cases hrest with
      | nil =>
          apply sound_unary hbytes hlegal hx ?_ heval
          intro hcode
          exact hbool hcode _ List.mem_cons_self
      | cons hy hrest =>
          cases hrest with
          | nil =>
              apply sound_binary hbytes hlegal hx hy ?_ ?_ heval
              · intro hcode
                exact hconst hcode _ rfl
              · intro hcode
                exact ⟨hbool hcode _ List.mem_cons_self, hbool hcode _ (List.mem_cons_of_mem _ List.mem_cons_self)⟩
          | cons hz hrest => cases code <;> exact hlegal.elim

theorem opGetNzMaskLocal_sound_mult :
    ∃ m, opGetNzMaskLocal ⟨.intMult, some ⟨1, 0xff, false, 0⟩, [⟨1, 0x0c, false, 0⟩, ⟨1, 6, true, 6⟩], false, none⟩ false =
      some m ∧ 0x48#64 &&& ~~~m = 0#64 := by
  have hx : Reads ⟨1, 0x0c, false, 0⟩ ⟨1, 0x0c#8⟩ := ⟨rfl, by decide, by decide, fun h => absurd h (by decide)⟩
  have hy : Reads ⟨1, 6, true, 6⟩ ⟨1, 6#8⟩ := ⟨rfl, by decide, by decide, fun _ => ⟨by decide, by decide⟩⟩
  exact opGetNzMaskLocal_sound ⟨.intMult, some ⟨1, 0xff, false, 0⟩, [⟨1, 0x0c, false, 0⟩, ⟨1, 6, true, 6⟩], false, none⟩
    ⟨1, 0xff, false, 0⟩ [⟨1, 0x0c#8⟩, ⟨1, 6#8⟩] 0x48#64 rfl (by decide) ⟨rfl, rfl⟩ (.cons hx (.cons hy .nil))
    (fun h => absurd h (by decide)) (fun h => absurd h (by decide)) rfl

/-- A byte that is no truth value: the negation of two is three. -/
theorem opGetNzMaskLocal_boolNegate_two :
    evaluate .boolNegate 1 [⟨1, 2#8⟩] = .ok 3#64 ∧
      LegalSizes 1 .boolNegate [1] ∧ Reads ⟨1, 2, false, 0⟩ ⟨1, 2#8⟩ ∧
      opGetNzMaskLocal ⟨.boolNegate, some ⟨1, 0xff, false, 0⟩, [⟨1, 2, false, 0⟩], false, none⟩ false = some 1 ∧
      3#64 &&& ~~~1 ≠ 0#64 := by
  refine ⟨rfl, ⟨rfl, rfl⟩, ⟨rfl, by decide, by decide, ?_⟩, rfl, by decide⟩
  intro h
  exact absurd h (by decide)

end GhidraDecompiler.Pcode
