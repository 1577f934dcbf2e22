import GhidraDecompiler.Dataflow.FunctionalEquality
import GhidraDecompiler.Lib.SignedDivision
import GhidraDecompiler.Pcode.ShiftMasks
import GhidraDecompiler.RuleAction.Preservation

namespace GhidraDecompiler.RuleAction

open Pcode Dataflow BitWords SignedDivision
open Expression (VarnodeId OpId)
open Editing (Funcdata)
open RangeMeld.Funcdata (inputVn constantVn writtenVn logicalOp)

namespace RuleDivChain

def getOpList : List OpCode := [.intDiv, .intSdiv]

/-- A constant with its sign bit cleared by a negation. -/
def magnitude (val : Word) (sz : Nat) : Word := if signbitNegative val sz then (~~~val + 1) &&& Pcode.calcMask sz else val

def applyOp (data : Funcdata) (op : OpId) : Option (Int × Funcdata) := do
  let opc2 := (data.op op).code
  let constVn2 ← (data.op op).inrefs[1]?
  if !(data.vn constVn2).isConstant then return (0, data)
  let vn ← (data.op op).inrefs[0]?
  let some divOp := (data.vn vn).getDef | return (0, data)
  let opc1 := (data.op divOp).code
  if opc1 ≠ opc2 ∧ (opc2 ≠ .intDiv ∨ opc1 ≠ .intRight) then return (0, data)
  let constVn1 ← (data.op divOp).inrefs[1]?
  if !(data.vn constVn1).isConstant then return (0, data)
  if (data.loneDescend vn).isNone then return (0, data)
  let val1 :=
    if opc1 = opc2 then (data.vn constVn1).offset
    else wrappingShl 1 ((data.vn constVn1).offset.setWidth 32).toInt
  let baseVn ← (data.op divOp).inrefs[0]?
  if (data.vn baseVn).isFree then return (0, data)
  let sz := (data.vn vn).size
  let val2 := (data.vn constVn2).offset
  let resval := val1 * val2 &&& Pcode.calcMask sz
  if resval = 0 then return (0, data)
  let bitcount := mostsigbitSet (magnitude val1 sz) + mostsigbitSet (magnitude val2 sz) + 2
  if opc2 = .intDiv ∧ bitcount > sz * 8 then return (0, data)
  if opc2 = .intSdiv ∧ bitcount > sz * 8 - 2 then return (0, data)
  let data := data.opSetInput op baseVn 0
  let (constvn, data) := data.newConstant sz resval
  return (1, data.opSetInput op constvn 1)

/-- The divisor that the first op stands for. -/
def firstDivisor (opc : OpCode) (val : Word) : Word := if opc = .intRight then BitVec.twoPow 64 val.toNat else val

/-- The product of the divisors does not overflow, and where the signs count the first
one is not minus one. -/
def Exact (opc opc1 : OpCode) (sz : Nat) (val1 val2 : Word) : Prop :=
  (opc = .intSdiv → val1 = Pcode.calcMask sz → val2 = 1 ∨ val2 = Pcode.calcMask sz) ∧
    (opc ≠ .intSdiv → (firstDivisor opc1 val1).toNat * val2.toNat < 2 ^ (8 * sz))

instance (opc opc1 : OpCode) (sz : Nat) (val1 val2 : Word) : Decidable (Exact opc opc1 sz val1 val2) :=
  inferInstanceAs (Decidable (_ ∧ _))

section Numbers

variable {n : Nat} {val : Word}

theorem toNat_magnitude (h : ByteSize n) (hv : val.toNat < 2 ^ (8 * n)) :
    (magnitude val n).toNat = (val.setWidth (8 * n)).toInt.natAbs := by
  obtain ⟨v, rfl⟩ : ∃ v : BitVec (8 * n), val = v.setWidth 64 := by
    refine ⟨BitVec.ofNat _ val.toNat, ?_⟩
    apply BitVec.eq_of_toNat_eq
    rw [toNat_widen _ h.width_le, BitVec.toNat_ofNat, Nat.mod_eq_of_lt hv]
  rw [magnitude, signbitNegative_eq h, setWidth_narrow v h.width_le, BitVec.toInt_eq_msb_cond]
  have hlt := v.isLt
  cases hmsb : v.msb with
  | false =>
      rw [if_neg (by decide), if_neg (by decide), toNat_widen v h.width_le, Int.natAbs_natCast]
  | true =>
      have hpos : 0 < v.toNat := by
        rw [BitVec.msb_eq_decide, decide_eq_true_iff] at hmsb
        exact (Nat.two_pow_pos _).trans_le hmsb
      have hneg : (~~~v.setWidth 64 + 1) = -(v.setWidth 64) := (BitVec.neg_eq_not_add _).symm
      rw [if_pos rfl, if_pos rfl, hneg, and_calcMask h, toNat_widen _ h.width_le, BitVec.setWidth_neg_of_le h.width_le,
        setWidth_narrow v h.width_le, BitVec.toNat_neg, Nat.mod_eq_of_lt (by omega)]
      have hcast : ((2 : Int) ^ (8 * n)) = ((2 ^ (8 * n) : Nat) : Int) := by norm_cast
      omega

/-- The bits of two numbers bound their product. -/
theorem mul_lt_of_bitcount {a b : Word} {k : Nat} (ha : a ≠ 0#64) (hb : b ≠ 0#64) (h : mostsigbitSet a + mostsigbitSet b + 2 ≤ k) :
    a.toNat * b.toNat < 2 ^ k := by
  rw [mostsigbitSet_eq ha, mostsigbitSet_eq hb] at h
  have hlog : ∀ c : Word, c.toNat < 2 ^ (c.toNat.log2 + 1) := fun c => Nat.lt_log2_self
  calc a.toNat * b.toNat < 2 ^ (a.toNat.log2 + 1) * 2 ^ (b.toNat.log2 + 1) :=
        Nat.mul_lt_mul'' (hlog a) (hlog b)
    _ = 2 ^ (a.toNat.log2 + 1 + (b.toNat.log2 + 1)) := (Nat.pow_add _ _ _).symm
    _ ≤ 2 ^ k := Nat.pow_le_pow_right (by decide) (by omega)

theorem narrow_mul (h : ByteSize n) (a b : Word) :
    (a * b &&& Pcode.calcMask n).setWidth (8 * n) = a.setWidth (8 * n) * b.setWidth (8 * n) := by
  rw [and_calcMask h, setWidth_narrow _ h.width_le, BitVec.setWidth_mul _ _ h.width_le]

theorem narrow_inj {a b : Word} (ha : a.toNat < 2 ^ (8 * n)) (hb : b.toNat < 2 ^ (8 * n)) :
    a.setWidth (8 * n) = b.setWidth (8 * n) ↔ a = b := by
  refine ⟨fun heq => ?_, fun heq => by rw [heq]⟩
  have htoNat := congrArg BitVec.toNat heq
  rw [BitVec.toNat_setWidth, BitVec.toNat_setWidth, Nat.mod_eq_of_lt ha, Nat.mod_eq_of_lt hb] at htoNat
  exact BitVec.eq_of_toNat_eq htoNat

theorem narrow_ne_zero (h : ByteSize n) {a b : Word} (hzero : a * b &&& Pcode.calcMask n ≠ 0) :
    a.setWidth (8 * n) * b.setWidth (8 * n) ≠ 0#(8 * n) := by
  intro heq
  have hnarrow : (a * b).setWidth (8 * n) = 0#(8 * n) := by rw [BitVec.setWidth_mul _ _ h.width_le, heq]
  rw [and_calcMask h, hnarrow] at hzero
  exact hzero (BitVec.setWidth_zero _ _)

theorem twoPow_narrow {k w : Nat} (hk : k < w) (hk64 : k < 64) : (BitVec.twoPow 64 k).setWidth w = BitVec.twoPow w k := by
  apply BitVec.eq_of_getLsbD_eq
  intro i hi
  rw [BitVec.getLsbD_setWidth, BitVec.getLsbD_twoPow, BitVec.getLsbD_twoPow, decide_eq_true hi, decide_eq_true hk]
  by_cases hki : k = i
  · subst hki
    simp [hk64]
  · rw [decide_eq_false hki, Bool.and_false, Bool.and_false]

theorem calcMask_lt (h : ByteSize n) : (Pcode.calcMask n).toNat < 2 ^ (8 * n) := by
  rw [calcMask_eq h, toNat_widen _ h.width_le]
  exact BitVec.isLt _

variable {c1 c2 : Word}

/-- The unsigned divisions. -/
theorem udiv_exact_iff (h : ByteSize n) (hc1 : c1.toNat < 2 ^ (8 * n)) (hc2 : c2.toNat < 2 ^ (8 * n))
    (hzero : c1 * c2 &&& Pcode.calcMask n ≠ 0) : (∀ y : BitVec (8 * n),
      y / c1.setWidth _ / c2.setWidth _ = y / (c1 * c2 &&& Pcode.calcMask n).setWidth _) ↔ c1.toNat * c2.toNat < 2 ^ (8 * n) := by
  rw [narrow_mul h, udiv_udiv_iff (narrow_ne_zero h hzero), BitVec.toNat_setWidth, BitVec.toNat_setWidth,
    Nat.mod_eq_of_lt hc1, Nat.mod_eq_of_lt hc2]

/-- The signed divisions: the bits that are left keep the product exact. -/
theorem sdiv_exact_iff (h : ByteSize n) (hc1 : c1.toNat < 2 ^ (8 * n)) (hc2 : c2.toNat < 2 ^ (8 * n))
    (hzero : c1 * c2 &&& Pcode.calcMask n ≠ 0)
    (hbits : mostsigbitSet (magnitude c1 n) + mostsigbitSet (magnitude c2 n) + 2 ≤ n * 8 - 2) : (∀ y : BitVec (8 * n),
      (y.sdiv (c1.setWidth _)).sdiv (c2.setWidth _) = y.sdiv ((c1 * c2 &&& Pcode.calcMask n).setWidth _)) ↔
        (c1 = Pcode.calcMask n → c2 = 1 ∨ c2 = Pcode.calcMask n) := by
  have hne := narrow_ne_zero h hzero
  have hne1 : c1.setWidth (8 * n) ≠ 0#(8 * n) := fun h0 => hne (by rw [h0, BitVec.zero_mul])
  have hne2 : c2.setWidth (8 * n) ≠ 0#(8 * n) := fun h0 => hne (by rw [h0, BitVec.mul_zero])
  have hmag : ∀ {c : Word}, c.toNat < 2 ^ (8 * n) → c.setWidth (8 * n) ≠ 0#(8 * n) → magnitude c n ≠ 0#64 := by
    intro c hc h0 hzero
    have habs := toNat_magnitude h hc
    rw [hzero, BitVec.toNat_zero] at habs
    exact h0 (BitVec.eq_of_toInt_eq (by rw [Int.natAbs_eq_zero.mp habs.symm, BitVec.toInt_zero]))
  have hone := h.1
  have hfit := mul_lt_of_bitcount (hmag hc1 hne1) (hmag hc2 hne2) (k := 8 * n - 2) (by omega)
  rw [toNat_magnitude h hc1, toNat_magnitude h hc2, ← Int.natAbs_mul] at hfit
  have hpow : 2 ^ (8 * n) = 4 * 2 ^ (8 * n - 2) := by
    have hsplit := Nat.pow_add 2 2 (8 * n - 2)
    rwa [show 2 + (8 * n - 2) = 8 * n by omega] at hsplit
  have hmask : -1#(8 * n) = (Pcode.calcMask n).setWidth (8 * n) := by
    rw [calcMask_eq h, setWidth_narrow _ h.width_le, BitVec.neg_one_eq_allOnes]
  have h1 : 1#(8 * n) = (1 : Word).setWidth (8 * n) := by
    apply BitVec.eq_of_toNat_eq
    rw [BitVec.toNat_setWidth, BitVec.toNat_ofNat]
    rfl
  have hlt1 : (1 : Word).toNat < 2 ^ (8 * n) := Nat.one_lt_two_pow h.width_pos.ne'
  rw [narrow_mul h, sdiv_sdiv_iff h.width_pos (by omega) hne2, hmask, h1, narrow_inj hc1 (calcMask_lt h),
    narrow_inj hc2 (calcMask_lt h), narrow_inj hc2 hlt1]

end Numbers

section Rewriting

variable {data data' : Funcdata} {op divOp vn x c1 c2 : Nat}

/-- The value of the first constant, as the rule multiplies it. -/
def firstValue (data : Funcdata) (op divOp c1 : Nat) : Word :=
  if (data.op divOp).code = (data.op op).code then (data.vn c1).offset
  else wrappingShl 1 ((data.vn c1).offset.setWidth 32).toInt

/-- What the rule has checked when it rewrites, and what it makes of the op. -/
structure Rewrites (data data' : Funcdata) (op divOp vn x c1 c2 : Nat) : Prop where
  const2 : (data.vn c2).isConstant = true
  const1 : (data.vn c1).isConstant = true
  codes : (data.op divOp).code = (data.op op).code ∨ (data.op op).code = .intDiv ∧ (data.op divOp).code = .intRight
  notFree : (data.vn x).isFree = false
  nonzero : firstValue data op divOp c1 * (data.vn c2).offset &&& Pcode.calcMask (data.vn vn).size ≠ 0
  signed : (data.op op).code = .intSdiv → mostsigbitSet (magnitude (firstValue data op divOp c1) (data.vn vn).size) +
    mostsigbitSet (magnitude (data.vn c2).offset (data.vn vn).size) + 2 ≤ (data.vn vn).size * 8 - 2
  result : data' = ((data.opSetInput op x 0).newConstant (data.vn vn).size
    (firstValue data op divOp c1 * (data.vn c2).offset &&& Pcode.calcMask (data.vn vn).size)).2.opSetInput op
      ((data.opSetInput op x 0).newConstant (data.vn vn).size
        (firstValue data op divOp c1 * (data.vn c2).offset &&& Pcode.calcMask (data.vn vn).size)).1 1

theorem applyOp_rewrites (hin : (data.op op).inrefs = [vn, c2]) (hdef : (data.vn vn).getDef = some divOp)
    (hin1 : (data.op divOp).inrefs = [x, c1]) (h : applyOp data op = some (1, data')) :
    Rewrites data data' op divOp vn x c1 c2 := by
  have hval : (if (data.op divOp).code = (data.op op).code then (data.vn c1).offset
      else wrappingShl 1 ((data.vn c1).offset.setWidth 32).toInt) = firstValue data op divOp c1 := rfl
  simp only [applyOp, hin, hdef, hin1, List.getElem?_cons_zero, List.getElem?_cons_succ, Option.bind_eq_bind, Option.bind_some,
    Option.pure_def, hval] at h
  split_ifs at h with hconst2 hcodes hconst1 hlone hfree hzero hudiv hsdiv <;> cases h
  rw [Bool.not_eq_true, Bool.not_eq_false'] at hconst2 hconst1
  refine ⟨hconst2, hconst1, ?_, Bool.eq_false_of_not_eq_true hfree, hzero, ?_, rfl⟩
  · by_cases hsame : (data.op divOp).code = (data.op op).code
    · exact .inl hsame
    · by_contra hno
      rw [not_or, not_and_or] at hno
      exact hcodes ⟨hsame, hno.2⟩
  · intro hcode
    by_contra hgt
    exact hsdiv ⟨hcode, not_le.mp hgt⟩

/-- The op has got the first operand of the inner op, and the product. -/
theorem Rewrites.edited (hlegal : data.Legal) (hop : op < data.numOps) (hin : (data.op op).inrefs = [vn, c2])
    (h : Rewrites data data' op divOp vn x c1 c2) :
    data.Edited data' op (data.op op).code [x, data.numVarnodes] [.constant (data.vn vn).size
      (firstValue data op divOp c1 * (data.vn c2).offset &&& Pcode.calcMask (data.vn vn).size)] := by
  have hedit := (Funcdata.Edited.refl hlegal.blank hlegal.live hop).setInput (.inl (hlegal.not_constant h.notFree)) 0
  rw [hin] at hedit
  rw [h.result]
  exact hedit.setConstant _ _ 1

end Rewriting

section Preservation

variable {sem : Semantics} {data data' : Funcdata} {op divOp vn x c1 c2 : Nat}

/-- The division of the op, signed or not. -/
def divide {w : Nat} (opc : OpCode) (y c : BitVec w) : BitVec w := if opc = .intSdiv then y.sdiv c else y / c

theorem denotes_divide {n : Nat} {opc : OpCode} (hopc : opc ∈ getOpList) (y : BitVec (8 * n)) {c : BitVec (8 * n)}
    (hc : c ≠ 0#(8 * n)) : Denotes opc [⟨n, y⟩, ⟨n, c⟩] n (some (divide opc y c)) := by
  simp only [getOpList, List.mem_cons, List.not_mem_nil, or_false] at hopc
  rcases hopc with rfl | rfl
  · have hdiv := Denotes.intDiv y c
    rwa [if_neg hc] at hdiv
  · have hdiv := Denotes.intSdiv y c
    rwa [if_neg hc] at hdiv

theorem not_leaf_of_mem {opc : OpCode} (hopc : opc ∈ getOpList) : isLeafOp opc = false ∧ opc ≠ .load := by
  simp only [getOpList, List.mem_cons, List.not_mem_nil, or_false] at hopc
  rcases hopc with rfl | rfl
  · exact ⟨rfl, by decide⟩
  · exact ⟨rfl, by decide⟩

/-- An amount below the width is the exponent of the divisor. -/
theorem firstValue_eq (hcodes : (data.op divOp).code = (data.op op).code ∨
      (data.op op).code = .intDiv ∧ (data.op divOp).code = .intRight) (hop : (data.op op).code ∈ getOpList)
    (hshift : (data.op divOp).code = .intRight → (data.vn c1).offset.toNat < 64) :
    firstValue data op divOp c1 = firstDivisor (data.op divOp).code (data.vn c1).offset := by
  rw [firstValue, firstDivisor]
  by_cases hright : (data.op divOp).code = .intRight
  · have hne : (data.op divOp).code ≠ (data.op op).code := by
      intro heq
      rw [← heq, hright] at hop
      simp [getOpList] at hop
    rw [if_neg hne, if_pos hright, wrappingShl, amount_mod, Nat.mod_eq_of_lt (hshift hright), BitVec.twoPow_eq]
    rfl
  · have hsame : (data.op divOp).code = (data.op op).code := by
      rcases hcodes with hsame | ⟨-, hr⟩
      · exact hsame
      · exact absurd hr hright
    rw [if_pos hsame, if_neg hright]

/-- The operands of a division have the size of the output. -/
theorem sizes_of_divide (hlegal : data.Legal) {v o a b : Nat} (hop : (data.op o).code ∈ getOpList) (hdef : (data.vn v).getDef = some o)
    (hin : (data.op o).inrefs = [a, b]) : (data.vn a).size = (data.vn v).size ∧ (data.vn b).size = (data.vn v).size := by
  refine (hlegal.sizes_binary hdef hin).1 ?_
  simp only [getOpList, List.mem_cons, List.not_mem_nil, or_false] at hop
  rcases hop with hop | hop
  · rw [hop]
    decide
  · rw [hop]
    decide

theorem size_of_right (hlegal : data.Legal) {v o a b : Nat} (hop : (data.op o).code = .intRight) (hdef : (data.vn v).getDef = some o)
    (hin : (data.op o).inrefs = [a, b]) : (data.vn a).size = (data.vn v).size :=
  (hlegal.sizes_binary hdef hin).2.1 (by rw [hop]; decide)

section Values

variable {n : Nat} {leaf : VarnodeId → Prop} (val : Valuation sem data.toFuncdata leaf)

/-- The value of a division by a constant. -/
theorem bits_divide (hlegal : data.Legal) {v o a b : Nat} (hop : (data.op o).code ∈ getOpList) (hdef : (data.vn v).getDef = some o)
    (hleaf : ¬ leaf v) (hin : (data.op o).inrefs = [a, b]) (hconst : (data.vn b).isConstant = true) (hn : (data.vn v).size = n)
    (hne : (data.vn b).offset.setWidth (8 * n) ≠ 0#(8 * n)) :
    val.bits n v = divide (data.op o).code (val.bits n a) ((data.vn b).offset.setWidth _) := by
  obtain ⟨hcode, hload⟩ := not_leaf_of_mem hop
  obtain ⟨ha, hb⟩ := sizes_of_divide hlegal hop hdef hin
  exact val.bits_binary_constant (fun y => denotes_divide hop y hne) hcode hload hdef hleaf rfl hin hn (ha.trans hn)
    (hb.trans hn) hconst rfl

/-- The value of the inner op: a shift divides by the power of two. -/
theorem bits_inner (hlegal : data.Legal) (hcodes : (data.op divOp).code = (data.op op).code ∨
      (data.op op).code = .intDiv ∧ (data.op divOp).code = .intRight) (hop : (data.op op).code ∈ getOpList)
    (hdef : (data.vn vn).getDef = some divOp) (hleaf : ¬ leaf vn) (hin1 : (data.op divOp).inrefs = [x, c1])
    (hconst : (data.vn c1).isConstant = true) (hsize : ByteSize n) (hn : (data.vn vn).size = n)
    (hshift : (data.op divOp).code = .intRight → (data.vn c1).offset.toNat < 8 * n)
    (hne : (firstDivisor (data.op divOp).code (data.vn c1).offset).setWidth (8 * n) ≠ 0#(8 * n)) : val.bits n vn =
      divide (data.op op).code (val.bits n x) ((firstDivisor (data.op divOp).code (data.vn c1).offset).setWidth _) := by
  by_cases hright : (data.op divOp).code = .intRight
  · have hcode : (data.op op).code = .intDiv := by
      rcases hcodes with hsame | ⟨hdiv, -⟩
      · rw [← hsame, hright] at hop
        simp [getOpList] at hop
      · exact hdiv
    have hlt := hshift hright
    have hwithin := (hlegal.constant c1 hconst).2.2
    rw [val.bits_binary_constant (f := fun y => y >>> (data.vn c1).offset.toNat)
      (fun y => ?_) rfl (by decide) hdef hleaf hright hin1 hn ((size_of_right hlegal hright hdef hin1).trans hn) rfl hconst rfl]
    · rw [firstDivisor, if_pos hright, divide, hcode, if_neg (by decide), twoPow_narrow hlt (hlt.trans_le hsize.width_le), BitVec.udiv_twoPow_eq_of_lt hlt]
    · have hshr := Denotes.intRight y ((data.vn c1).offset.setWidth (8 * (data.vn c1).size))
      rwa [BitVec.toNat_setWidth, Nat.mod_eq_of_lt hwithin] at hshr
  · rw [firstDivisor, if_neg hright] at hne ⊢
    have hsame : (data.op divOp).code = (data.op op).code := by
      rcases hcodes with hsame | ⟨-, hr⟩
      · exact hsame
      · exact absurd hr hright
    rw [← hsame]
    exact bits_divide val hlegal (hsame ▸ hop) hdef hleaf hin1 hconst hn hne

end Values

/-- The inner op reads the base, at the size of the outputs. -/
theorem inner_reads (hlegal : data.Legal) (hacyclic : Acyclic data.toFuncdata noLeaf) (hop : (data.op op).code ∈ getOpList)
    (hdef : (data.vn vn).getDef = some divOp) (hin1 : (data.op divOp).inrefs = [x, c1]) (hr : Rewrites data data' op divOp vn x c1 c2) :
    (data.vn x).size = (data.vn vn).size ∧ hacyclic.rank x < hacyclic.rank vn ∧ ((data.op divOp).code = .intRight ∨
      (data.vn c1).offset.toNat < 2 ^ (8 * (data.vn vn).size)) := by
  have hmem : x ∈ (data.op divOp).inrefs := by
    rw [hin1]
    exact List.mem_cons_self
  rcases hr.codes with hsame | ⟨-, hright⟩
  · have hmem1 : (data.op divOp).code ∈ getOpList := hsame ▸ hop
    obtain ⟨hx, hc⟩ := sizes_of_divide hlegal hmem1 hdef hin1
    refine ⟨hx, hacyclic.below vn divOp x ⟨hdef, not_false, (not_leaf_of_mem hmem1).1⟩ hmem, .inr ?_⟩
    rw [← hc]
    exact (hlegal.constant c1 hr.const1).2.2
  · refine ⟨size_of_right hlegal hright hdef hin1, hacyclic.below vn divOp x ⟨hdef, not_false, ?_⟩ hmem, .inl hright⟩
    rw [hright]
    rfl

/-- The rewrite keeps the values when the two divisions are one by the product. -/
theorem Rewrites.extends_iff (hlegal : data.Legal) (hacyclic : Acyclic data.toFuncdata noLeaf) (hop : (data.op op).code ∈ getOpList)
    (hout : (data.vn (data.op op).output).getDef = some op) (hin : (data.op op).inrefs = [vn, c2])
    (hdef : (data.vn vn).getDef = some divOp) (hin1 : (data.op divOp).inrefs = [x, c1]) (hsize : ByteSize (data.vn vn).size)
    (hshift : (data.op divOp).code = .intRight → (data.vn c1).offset.toNat < 8 * (data.vn vn).size)
    (hr : Rewrites data data' op divOp vn x c1 c2) {d1 : Word} (hd1 : firstDivisor (data.op divOp).code (data.vn c1).offset = d1)
    (hzero : d1 * (data.vn c2).offset &&& Pcode.calcMask (data.vn vn).size ≠ 0)
    (hedit : data.Edited data' op (data.op op).code [x, data.numVarnodes] [.constant (data.vn vn).size
      (d1 * (data.vn c2).offset &&& Pcode.calcMask (data.vn vn).size)]) (val : Valuation sem data.toFuncdata (· = x)) :
    Funcdata.Extends val data' ↔
      divide (data.op op).code (divide (data.op op).code (val.bits (data.vn vn).size x) (d1.setWidth _)) ((data.vn c2).offset.setWidth _) =
      divide (data.op op).code (val.bits (data.vn vn).size x) ((d1 * (data.vn c2).offset &&& Pcode.calcMask (data.vn vn).size).setWidth _) := by
  obtain ⟨hsizevn, hsize2⟩ := sizes_of_divide hlegal hop hout hin
  obtain ⟨hsizex, hbelow, -⟩ := inner_reads hlegal hacyclic hop hdef hin1 hr
  obtain ⟨hcode, hload⟩ := not_leaf_of_mem hop
  have hbelow' : hacyclic.rank vn < hacyclic.rank (data.op op).output :=
    hacyclic.below _ op vn ⟨hout, not_false, hcode⟩ (by rw [hin]; exact List.mem_cons_self)
  have hvnx : ¬ vn = x := by
    rintro rfl
    exact absurd hbelow (lt_irrefl _)
  have houtx : ¬ (data.op op).output = x := by
    intro heq
    rw [heq] at hbelow'
    omega
  have hx : x < data.numVarnodes := hlegal.inrefs divOp (hlegal.live _ _ hdef) x (by rw [hin1]; exact List.mem_cons_self)
  have hne := narrow_ne_zero hsize hzero
  have hne1 : d1.setWidth (8 * (data.vn vn).size) ≠ 0#_ := fun h0 => hne (by rw [h0, BitVec.zero_mul])
  have hne2 : (data.vn c2).offset.setWidth (8 * (data.vn vn).size) ≠ 0#_ := fun h0 => hne (by rw [h0, BitVec.mul_zero])
  have hnew : (d1 * (data.vn c2).offset &&& Pcode.calcMask (data.vn vn).size).setWidth (8 * (data.vn vn).size) ≠ 0#_ := by
    rw [narrow_mul hsize]
    exact hne
  have hold : ∀ v : Nat, data.numVarnodes ≤ v → ¬ v = x := by
    intro v hv heq
    omega
  have hinner := bits_inner val hlegal hr.codes hop hdef hvnx hin1 hr.const1 hsize rfl hshift (by rwa [hd1])
  rw [hd1] at hinner
  rw [hedit.extends_iff_constant hlegal hold hout houtx hcode hload hx hsizex hsizevn.symm
    (fun y => denotes_divide hop y hnew), bits_divide val hlegal hop hout houtx hin hr.const2 hsizevn.symm hne2, hinner]

/-- The rewrite keeps all the values when the two divisions are one by the product on all
numbers. -/
theorem extends_iff_forall (hlegal : data.Legal) (hacyclic : Acyclic data.toFuncdata noLeaf) (hop : (data.op op).code ∈ getOpList)
    (hout : (data.vn (data.op op).output).getDef = some op) (hin : (data.op op).inrefs = [vn, c2])
    (hdef : (data.vn vn).getDef = some divOp) (hin1 : (data.op divOp).inrefs = [x, c1]) (hsize : ByteSize (data.vn vn).size)
    (hshift : (data.op divOp).code = .intRight → (data.vn c1).offset.toNat < 8 * (data.vn vn).size)
    (h : applyOp data op = some (1, data')) : (∀ val : Valuation sem data.toFuncdata (· = x), Funcdata.Extends val data') ↔
      ∀ y : BitVec (8 * (data.vn vn).size), divide (data.op op).code (divide (data.op op).code y
        ((firstDivisor (data.op divOp).code (data.vn c1).offset).setWidth _)) ((data.vn c2).offset.setWidth _) =
          divide (data.op op).code y ((firstDivisor (data.op divOp).code (data.vn c1).offset *
            (data.vn c2).offset &&& Pcode.calcMask (data.vn vn).size).setWidth _) := by
  have hr := applyOp_rewrites hin hdef hin1 h
  have hfirst : firstValue data op divOp c1 = _ := firstValue_eq hr.codes hop fun hright => (hshift hright).trans_le hsize.width_le
  have hedit := hr.edited hlegal (hlegal.live _ _ hout) hin
  have hzero := hr.nonzero
  rw [hfirst] at hzero hedit
  obtain ⟨hsizex, -, -⟩ := inner_reads hlegal hacyclic hop hdef hin1 hr
  rw [forall_congr' (hr.extends_iff hlegal hacyclic hop hout hin hdef hin1 hsize hshift rfl hzero hedit)]
  exact Valuation.forall_bits_iff sem (hacyclic.mono (q := (· = x)) fun _ hv => hv.elim) (hlegal.not_constant hr.notFree)
    hsizex (fun y => divide (data.op op).code (divide (data.op op).code y
      ((firstDivisor (data.op divOp).code (data.vn c1).offset).setWidth _)) ((data.vn c2).offset.setWidth _) =
        divide (data.op op).code y ((firstDivisor (data.op divOp).code (data.vn c1).offset *
          (data.vn c2).offset &&& Pcode.calcMask (data.vn vn).size).setWidth _))

/-- The rewritten op has the value of the chain for every value of the base if and only if
the product does not overflow, and the first of two signed divisors is not minus one. -/
theorem divChain_extends_iff (hlegal : data.Legal) (hacyclic : Acyclic data.toFuncdata noLeaf) (hop : (data.op op).code ∈ getOpList)
    (hout : (data.vn (data.op op).output).getDef = some op) (hin : (data.op op).inrefs = [vn, c2])
    (hdef : (data.vn vn).getDef = some divOp) (hin1 : (data.op divOp).inrefs = [x, c1]) (hsize : ByteSize (data.vn vn).size)
    (hshift : (data.op divOp).code = .intRight → (data.vn c1).offset.toNat < 8 * (data.vn vn).size)
    (h : applyOp data op = some (1, data')) : (∀ val : Valuation sem data.toFuncdata (· = x), Funcdata.Extends val data') ↔
      Exact (data.op op).code (data.op divOp).code (data.vn vn).size (data.vn c1).offset (data.vn c2).offset := by
  rw [extends_iff_forall hlegal hacyclic hop hout hin hdef hin1 hsize hshift h]
  have hr := applyOp_rewrites hin hdef hin1 h
  have hfirst : firstValue data op divOp c1 = _ := firstValue_eq hr.codes hop fun hright => (hshift hright).trans_le hsize.width_le
  have hzero := hr.nonzero
  rw [hfirst] at hzero
  obtain ⟨-, -, hwithin1⟩ := inner_reads hlegal hacyclic hop hdef hin1 hr
  have hwithin2 : (data.vn c2).offset.toNat < 2 ^ (8 * (data.vn vn).size) := by
    obtain ⟨hsizevn, hsize2⟩ := sizes_of_divide hlegal hop hout hin
    rw [hsizevn, ← hsize2]
    exact (hlegal.constant c2 hr.const2).2.2
  by_cases hcode : (data.op op).code = .intSdiv
  · have hright : (data.op divOp).code ≠ .intRight := by
      intro hright
      rcases hr.codes with hsame | ⟨hdiv, -⟩
      · rw [hsame, hcode] at hright
        cases hright
      · rw [hdiv] at hcode
        cases hcode
    have hbits := hr.signed hcode
    rw [hfirst] at hbits
    simp only [firstDivisor, if_neg hright] at hbits hzero ⊢
    simp only [divide, if_pos hcode]
    rw [sdiv_exact_iff hsize (hwithin1.resolve_left hright) hwithin2 hzero hbits]
    exact ⟨fun hexact => ⟨fun _ => hexact, fun hne => absurd hcode hne⟩, fun hexact => hexact.1 hcode⟩
  · simp only [divide, if_neg hcode]
    have hexact : Exact (data.op op).code (data.op divOp).code (data.vn vn).size (data.vn c1).offset (data.vn c2).offset ↔
        (firstDivisor (data.op divOp).code (data.vn c1).offset).toNat * (data.vn c2).offset.toNat < 2 ^ (8 * (data.vn vn).size) :=
      ⟨fun hexact => hexact.2 hcode, fun hlt => ⟨fun heq => absurd heq hcode, fun _ => hlt⟩⟩
    rw [hexact]
    refine udiv_exact_iff hsize ?_ hwithin2 hzero
    rw [firstDivisor]
    by_cases hright : (data.op divOp).code = .intRight
    · have hlt := hshift hright
      rw [if_pos hright, BitVec.toNat_twoPow_of_lt (hlt.trans_le hsize.width_le)]
      exact Nat.pow_lt_pow_right (by decide) hlt
    · rw [if_neg hright]
      exact hwithin1.resolve_left hright

/-- A byte that is divided by two constants. -/
def chain (code1 code2 : OpCode) (val1 val2 : Word) : Funcdata :=
  Funcdata.ofLists [inputVn 1, constantVn 1 val1, writtenVn 0, constantVn 1 val2, writtenVn 1]
    [logicalOp code1 [0, 1] 2, logicalOp code2 [2, 3] 4]

/-- Division by 3 and 5 is division by 15. -/
theorem divChain_extends_iff_fifteen : ∃ data', applyOp (chain .intDiv .intDiv 3 5) 1 = some (1, data') ∧
    ∀ val : Valuation bitVectors (chain .intDiv .intDiv 3 5).toFuncdata (· = 0), Funcdata.Extends val data' := by
  have hordered : Funcdata.Ordered [inputVn 1, constantVn 1 3, writtenVn 0, constantVn 1 5, writtenVn 1]
    [logicalOp .intDiv [0, 1] 2, logicalOp .intDiv [2, 3] 4] := by decide
  obtain ⟨data', happly⟩ : ∃ data', applyOp (chain .intDiv .intDiv 3 5) 1 = some (1, data') := Funcdata.exists_rewritten (by decide)
  exact ⟨data', happly, (divChain_extends_iff hordered.legal (hordered.acyclic _) (by decide) rfl rfl rfl rfl (by decide)
    (fun h => by cases h) happly).mpr (by decide)⟩

/-- Division by 255 and 2 gives zero, and division by their product 254 does not. -/
theorem divChain_not_extends : ∃ data', applyOp (chain .intDiv .intDiv 0xff 2) 1 = some (1, data') ∧
    ¬ ∀ val : Valuation bitVectors (chain .intDiv .intDiv 0xff 2).toFuncdata (· = 0), Funcdata.Extends val data' := by
  have hordered : Funcdata.Ordered [inputVn 1, constantVn 1 0xff, writtenVn 0, constantVn 1 2, writtenVn 1]
    [logicalOp .intDiv [0, 1] 2, logicalOp .intDiv [2, 3] 4] := by decide
  obtain ⟨data', happly⟩ : ∃ data', applyOp (chain .intDiv .intDiv 0xff 2) 1 = some (1, data') := Funcdata.exists_rewritten (by decide)
  refine ⟨data', happly, fun hall => ?_⟩
  have hdiv := (extends_iff_forall hordered.legal (hordered.acyclic _) (by decide) rfl rfl rfl rfl (by decide)
    (fun h => by cases h) happly).mp hall (BitVec.allOnes _)
  exact absurd hdiv (by decide)

end Preservation

end RuleDivChain

end GhidraDecompiler.RuleAction
