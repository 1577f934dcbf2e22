import GhidraDecompiler.Lib.BitPieces
import GhidraDecompiler.RuleAction.RuleValues

namespace GhidraDecompiler.RuleAction

open Pcode Dataflow BitPieces BitWindows BitWords SignedDivision
open Expression (VarnodeId OpId)
open Editing (Funcdata)
open Editing.Funcdata
open Matching
open RangeMeld.Funcdata (inputVn constantVn writtenVn logicalOp)

namespace RuleShiftPiece

def getOpList : List OpCode := [.intOr, .intXor, .intAdd]

/-- The low part of the concatenation, or the number whose sign is above it. -/
inductive Target
  | concat (vn2 : VarnodeId)
  | extend (vn2 bigVn : VarnodeId)
deriving DecidableEq

structure Found where
  shiftop : OpId
  zextloop : OpId
  shiftAmount : Int
  zexthiop : OpId
  vn1 : VarnodeId
  concatsize : Int
  target : Target
deriving DecidableEq

section Rule

variable (data : Funcdata) (nz : VarnodeId → Word)

/-- The exponent of the power of two, or minus one. -/
def multPowerOf2 (op : OpId) : Int :=
  let opc := (data.op op).code
  if opc ≠ .intLeft ∧ opc ≠ .intMult then -1
  else
    match constantIn data op 1 with
    | none => -1
    | some cvn =>
        let val := (data.vn cvn).offset
        if opc = .intLeft then toI32 val
        else
          let shiftAmount := leastsigbitSet val
          if shiftAmount ≥ 0 ∧ wrappingShr val shiftAmount = 1 then shiftAmount else -1

/-- The op that shifts comes first. -/
def orderOps (op0 op1 : OpId) : Option (OpId × OpId × Int) :=
  let shiftAmount := multPowerOf2 data op0
  if shiftAmount < 0 then
    let shiftAmount := multPowerOf2 data op1
    if shiftAmount < 0 then none else some (op1, op0, shiftAmount)
  else some (op0, op1, shiftAmount)

/-- The high part is the sign of a piece of the other input, that has nothing above the
piece. -/
def findSign (vn1 : VarnodeId) (zextloop : OpId) (shiftAmount : Int) : Option Target := do
  let rShiftOp ← definedBy data vn1 .intSright
  let rsavn ← constantIn data rShiftOp 1
  let vn2 ← getIn data rShiftOp 0
  let subop ← definedBy data vn2 .subpiece
  let offvn ← getIn data subop 1
  guard ((data.vn offvn).offset = 0)
  let bigVn := (data.op zextloop).output
  guard (getIn data subop 0 = some bigVn)
  guard (toI32 (data.vn rsavn).offset = (data.vn vn2).size * 8 - 1)
  guard (wrappingShr (nz bigVn) shiftAmount = 0)
  guard (shiftAmount = 8 * (data.vn vn2).size)
  return .extend vn2 bigVn

def findLow (zextloop : OpId) (shiftAmount : Int) : Option Target := do
  let vn2 ← getIn data zextloop 0
  guard !(data.vn vn2).isFree
  guard (shiftAmount = 8 * (data.vn vn2).size)
  return .concat vn2

def findTarget (vn1 : VarnodeId) (zextloop : OpId) (shiftAmount : Int) : Option Target :=
  if (data.op zextloop).code ≠ .intZext then findSign data nz vn1 zextloop shiftAmount else findLow data zextloop shiftAmount

/-- A small constant is no part of a concatenation, nor is a free varnode. -/
def partOk (vn1 : VarnodeId) : Bool := if (data.vn vn1).isConstant then 8 ≤ (data.vn vn1).size else !(data.vn vn1).isFree

def find (op : OpId) : Option Found := do
  let in0 ← getIn data op 0
  let op0 ← (data.vn in0).getDef
  let in1 ← getIn data op 1
  let op1 ← (data.vn in1).getDef
  let (shiftop, zextloop, shiftAmount) ← orderOps data op0 op1
  let hivn ← getIn data shiftop 0
  let zexthiop ← (data.vn hivn).getDef
  guard ((data.op zexthiop).code = .intZext ∨ (data.op zexthiop).code = .intSext)
  let vn1 ← getIn data zexthiop 0
  guard (partOk data vn1)
  let concatsize := addI32 shiftAmount (8 * (data.vn vn1).size)
  guard (concatsize ≤ outSize data op * 8)
  let target ← findTarget data nz vn1 zextloop shiftAmount
  return {
    shiftop := shiftop, zextloop := zextloop, shiftAmount := shiftAmount, zexthiop := zexthiop, vn1 := vn1,
    concatsize := concatsize, target := target }

def rewrite (op : OpId) (found : Found) : Funcdata :=
  match found.target with
  | .extend vn2 _ =>
      let data := data.opSetOpcode op .intSext
      let data := data.opSetInput op vn2 0
      data.opRemoveInput op 1
  | .concat vn2 =>
      if found.concatsize = outSize data op * 8 then
        let data := data.opSetOpcode op .piece
        let data := data.opSetInput op found.vn1 0
        data.opSetInput op vn2 1
      else
        let (newop, data) := data.newOp .piece (data.op op).addr
        let (newout, data) := data.newUniqueOut (found.concatsize / 8).toNat newop
        let data := data.opSetInput newop found.vn1 0
        let data := data.opSetInput newop vn2 1
        let extopc := (data.op found.zexthiop).code
        let data := data.opSetOpcode op extopc
        let data := data.opRemoveInput op 1
        data.opSetInput op newout 0

def applyOp (op : OpId) : Int × Funcdata :=
  match find data nz op with
  | none => (0, data)
  | some found => (1, rewrite data op found)

end Rule

/-- The value of the leaf may be any: the high part, or the number that has a sign. -/
def Found.leafVn (found : Found) : VarnodeId :=
  match found.target with
  | .concat _ => found.vn1
  | .extend _ bigVn => bigVn

/-- The amount that is read as a number of 32 bits is the whole amount. -/
def Proper (data : Funcdata) (shiftop : OpId) : Prop :=
  (data.op shiftop).code = .intLeft → ∀ cvn, getIn data shiftop 1 = some cvn → (data.vn cvn).offset.toNat < 2 ^ 32

/-- When the values are kept. -/
def Found.Exact (found : Found) (data : Funcdata) (nz : VarnodeId → Word) (n : Nat) : Prop :=
  match found.target with
  | .concat _ => Proper data found.shiftop ∨ ∀ i < 8 * (data.vn found.vn1).size, ¬ mayBeSet data nz found.vn1 i
  | .extend vn2 bigVn => n ≤ 8 ∧ ((nz bigVn).getLsbD (8 * (data.vn vn2).size - 1) = false ∨
      Proper data found.shiftop ∧ ((data.op found.zexthiop).code = .intSext ∨ 2 * (data.vn vn2).size = n))

section Matches

variable {data : Funcdata} {nz : VarnodeId → Word} {op : Nat} {found : Found}

/-- What was found: the shift and the other input, in either order, and the extension
that is shifted. -/
structure Found.Matches (found : Found) (data : Funcdata) (nz : VarnodeId → Word) (op shiftvn othervn hivn : Nat) : Prop where
  inputs : getIn data op 0 = some shiftvn ∧ getIn data op 1 = some othervn ∨ getIn data op 0 = some othervn ∧ getIn data op 1 = some shiftvn
  shiftDef : (data.vn shiftvn).getDef = some found.shiftop
  otherDef : (data.vn othervn).getDef = some found.zextloop
  amount : multPowerOf2 data found.shiftop = found.shiftAmount ∧ 0 ≤ found.shiftAmount
  hiIn : getIn data found.shiftop 0 = some hivn
  hiDef : (data.vn hivn).getDef = some found.zexthiop
  ext : (data.op found.zexthiop).code = .intZext ∨ (data.op found.zexthiop).code = .intSext
  vn1 : getIn data found.zexthiop 0 = some found.vn1
  concatsize : found.concatsize = addI32 found.shiftAmount (8 * (data.vn found.vn1).size) ∧ found.concatsize ≤ outSize data op * 8
  target : findTarget data nz found.vn1 found.zextloop found.shiftAmount = some found.target

theorem orderOps_cases {op0 op1 shiftop zextloop : Nat} {amount : Int} (h : orderOps data op0 op1 = some (shiftop, zextloop, amount)) :
    (shiftop = op0 ∧ zextloop = op1 ∨ shiftop = op1 ∧ zextloop = op0) ∧ multPowerOf2 data shiftop = amount ∧ 0 ≤ amount := by
  simp only [orderOps] at h
  split at h
  · split at h
    · cases h
    · next hge =>
        cases h
        exact ⟨.inr ⟨rfl, rfl⟩, rfl, not_lt.mp hge⟩
  · next hge =>
      cases h
      exact ⟨.inl ⟨rfl, rfl⟩, rfl, not_lt.mp hge⟩

theorem find_matches (hfind : find data nz op = some found) : ∃ shiftvn othervn hivn : Nat, found.Matches data nz op shiftvn othervn hivn := by
  simp only [find, Option.bind_eq_bind, Option.bind_eq_some_iff, Option.guard_eq_some', exists_and_left, exists_const, Option.pure_def,
    Option.some.injEq] at hfind
  obtain ⟨in0, hin0, op0, hop0, in1, hin1, op1, hop1, ⟨shiftop, zextloop, amount⟩, horder, hivn, hhivn, zexthiop, hzexthi, hext, vn1, hvn1, -,
    hconcat, target, htarget, rfl⟩ := hfind
  obtain ⟨hops, hamount⟩ := orderOps_cases horder
  rcases hops with ⟨rfl, rfl⟩ | ⟨rfl, rfl⟩
  · exact ⟨in0, in1, hivn, .inl ⟨hin0, hin1⟩, hop0, hop1, hamount, hhivn, hzexthi, hext, hvn1, ⟨rfl, hconcat⟩, htarget⟩
  · exact ⟨in1, in0, hivn, .inr ⟨hin0, hin1⟩, hop1, hop0, hamount, hhivn, hzexthi, hext, hvn1, ⟨rfl, hconcat⟩, htarget⟩

theorem toI32_of_nonneg {val : Word} (h : 0 ≤ toI32 val) : toI32 val = (val.toNat % 2 ^ 32 : Nat) := by
  rw [toI32, BitVec.toInt_setWidth, Int.bmod_def] at h ⊢
  omega

/-- A power of two is one that is shifted. -/
theorem eq_two_pow_of_leastsigbit {val : Word} (h : leastsigbitSet val ≥ 0) (hone : wrappingShr val (leastsigbitSet val) = 1) :
    ∃ a : Nat, a < 64 ∧ val.toNat = 2 ^ a ∧ leastsigbitSet val = a := by
  rw [leastsigbitSet] at h hone ⊢
  by_cases hval : val = 0#64
  · rw [if_pos hval] at h
    omega
  rw [if_neg hval] at hone ⊢
  have hlog : trailingZeros val < 64 := (trailingZeros_le_log2 hval).trans_lt (log2_lt hval)
  refine ⟨trailingZeros val, hlog, ?_, rfl⟩
  have hamount : ((trailingZeros val : Int) % 64).toNat = trailingZeros val := by omega
  rw [wrappingShr, hamount] at hone
  have hdiv := congrArg BitVec.toNat hone
  rw [BitVec.toNat_ushiftRight, Nat.shiftRight_eq_div_pow] at hdiv
  have hdvd : 2 ^ trailingZeros val ∣ val.toNat := Within.dvd (within_iff.mpr fun _ hk => hk)
  obtain ⟨q, hq⟩ := hdvd
  rw [hq, Nat.mul_div_cancel_left _ (Nat.two_pow_pos _)] at hdiv
  rw [hq, hdiv]
  exact Nat.mul_one _

/-- The op shifts by an amount of which the low word is known. -/
theorem multPowerOf2_shifts (h : WellSized data) {shiftop shiftvn hivn : Nat} {amount : Int} (hdef : (data.vn shiftvn).getDef = some shiftop)
    (hpow : multPowerOf2 data shiftop = amount) (hpos : 0 ≤ amount) (hhivn : getIn data shiftop 0 = some hivn) :
    (data.vn hivn).size = (data.vn shiftvn).size ∧ ∃ a : Nat, amount = (a % 2 ^ 32 : Nat) ∧ (Proper data shiftop ↔ a < 2 ^ 32) ∧
      ∀ {sem : Semantics} {leaf : VarnodeId → Prop} (val : Valuation sem data.toFuncdata leaf) {n : Nat}, ¬ leaf shiftvn →
        (data.vn shiftvn).size = n → val.bits n shiftvn = val.bits n hivn <<< a := by
  simp only [multPowerOf2] at hpow
  split at hpow
  · omega
  next hcodes =>
  split at hpow
  · omega
  next cvn hcvn =>
  obtain ⟨hin1, hconst⟩ := constantIn_eq.mp hcvn
  split at hpow
  · next hleft =>
      have hw := written_two h hdef hleft (by decide) hhivn hin1
      have hamount : amount = ((data.vn cvn).offset.toNat % 2 ^ 32 : Nat) := by
        rw [← hpow]
        exact toI32_of_nonneg (hpow ▸ hpos)
      refine ⟨h.shift_size hw (by decide), (data.vn cvn).offset.toNat, hamount, ?_, fun val n hleaf hn => ?_⟩
      · constructor
        · exact fun hproper => hproper hleft cvn hin1
        · intro hlt _ cvn' hcvn'
          rw [hin1] at hcvn'
          cases hcvn'
          exact hlt
      · rw [h.bits_left val hleaf hn hw rfl, h.toNat_bits_constant val hconst rfl]
  · next hleft =>
      have hmult : (data.op shiftop).code = .intMult := by
        by_contra hne
        exact hcodes ⟨hleft, hne⟩
      split at hpow
      · next hbit =>
          have hw := written_two h hdef hmult (by decide) hhivn hin1
          obtain ⟨hsize, hsizec⟩ := h.same_sizes hw (by decide)
          obtain ⟨a, ha, hval, hleast⟩ := eq_two_pow_of_leastsigbit hbit.1 hbit.2
          refine ⟨hsize, a, by omega, ?_, fun val n hleaf hn => ?_⟩
          · refine iff_of_true (fun hcode => absurd hcode hleft) (by omega)
          · have hc : val.bits n cvn = BitVec.twoPow (8 * n) a := by
              apply BitVec.eq_of_toNat_eq
              rw [h.toNat_bits_constant val hconst (hsizec.trans hn), BitVec.toNat_twoPow, hval, Nat.mod_eq_of_lt]
              rw [← hval, ← hn, ← hsizec]
              exact (h.constant cvn hconst).2.2
            rw [h.bits_mult val hleaf hn hw, hc, BitVec.mul_twoPow_eq_shiftLeft]
      · omega

end Matches

section Values

variable {sem : Semantics} {data : Funcdata} {nz : VarnodeId → Word} {op shiftvn othervn hivn : Nat} {found : Found}
  {leaf : VarnodeId → Prop} (h : WellSized data) (hm : found.Matches data nz op shiftvn othervn hivn)
  (hout : (data.vn (data.op op).output).getDef = some op) (hcode : (data.op op).code ∈ getOpList)

include h hm hout hcode

theorem Found.Matches.inrefs : (data.op op).inrefs = [shiftvn, othervn] ∨ (data.op op).inrefs = [othervn, shiftvn] := by
  have hsub : ∀ opc ∈ getOpList, opc ∈ twoInputOps := by decide
  rcases hm.inputs with ⟨h0, h1⟩ | ⟨h0, h1⟩
  · exact .inl (inrefs_two h hout rfl (hsub _ hcode) h0 h1)
  · exact .inr (inrefs_two h hout rfl (hsub _ hcode) h0 h1)

theorem Found.Matches.sizes : (data.vn shiftvn).size = outSize data op ∧ (data.vn othervn).size = outSize data op := by
  have hsub : ∀ opc ∈ getOpList, opc ∈ sameSizeOps ++ logicOps := by decide
  rcases hm.inrefs h hout hcode with hin | hin
  · exact h.same_sizes ⟨op, hout, rfl, hin⟩ (hsub _ hcode)
  · exact (h.same_sizes ⟨op, hout, rfl, hin⟩ (hsub _ hcode)).symm

/-- The inputs are put together, where they have no bit in common. -/
theorem Found.Matches.bits_output (val : Valuation sem data.toFuncdata leaf) (hleaf : ¬ leaf (data.op op).output)
    (hdisjoint : val.bits (outSize data op) shiftvn &&& val.bits (outSize data op) othervn = 0#_) :
    val.bits (outSize data op) (data.op op).output = val.bits (outSize data op) shiftvn ||| val.bits (outSize data op) othervn := by
  have hone : ∀ a b, Written data (data.op op).output (data.op op).code [a, b] →
      val.bits (outSize data op) a &&& val.bits (outSize data op) b = 0#_ →
      val.bits (outSize data op) (data.op op).output = val.bits (outSize data op) a ||| val.bits (outSize data op) b := by
    intro a b hw hdisjoint
    simp only [getOpList, List.mem_cons, List.not_mem_nil, or_false] at hcode
    rcases hcode with hcode | hcode | hcode
    · rw [hcode] at hw
      exact h.bits_or val hleaf rfl hw
    · rw [hcode] at hw
      rw [← xor_eq_or_of_and_eq_zero hdisjoint]
      exact h.bits_xor val hleaf rfl hw
    · rw [hcode] at hw
      rw [← BitVec.add_eq_or_of_and_eq_zero _ _ hdisjoint]
      exact h.bits_add val hleaf rfl hw
  rcases hm.inrefs h hout hcode with hin | hin
  · exact hone _ _ ⟨op, hout, rfl, hin⟩ hdisjoint
  · rw [BitVec.or_comm]
    rw [BitVec.and_comm] at hdisjoint
    exact hone _ _ ⟨op, hout, rfl, hin⟩ hdisjoint

/-- The high part is extended and shifted. -/
theorem Found.Matches.bits_shift : (data.vn found.vn1).size ≤ outSize data op ∧ (data.vn hivn).size = outSize data op ∧
    ∃ a : Nat, found.shiftAmount = (a % 2 ^ 32 : Nat) ∧ (Proper data found.shiftop ↔ a < 2 ^ 32) ∧
      ∀ {sem : Semantics} {leaf : VarnodeId → Prop} (val : Valuation sem data.toFuncdata leaf), ¬ leaf shiftvn → ¬ leaf hivn →
        val.bits (outSize data op) shiftvn = fillTo (decide ((data.op found.zexthiop).code = .intSext))
          (val.bits (data.vn found.vn1).size found.vn1) (8 * outSize data op) <<< a := by
  obtain ⟨hsize, -⟩ := hm.sizes h hout hcode
  obtain ⟨hhivn, a, hamount, hproper, hvalue⟩ := multPowerOf2_shifts h hm.shiftDef hm.amount.1 hm.amount.2 hm.hiIn
  have hmem : (data.op found.zexthiop).code ∈ unaryOps := by
    rcases hm.ext with hext | hext
    · rw [hext]
      decide
    · rw [hext]
      decide
  have hw := written_one h hm.hiDef rfl (List.mem_append_left _ (List.mem_append_left _ hmem)) hm.vn1
  have hle := h.extension_size hw hmem
  refine ⟨hle.trans (hhivn.trans hsize).le, hhivn.trans hsize, a, hamount, hproper, fun val hleaf hleaf' => ?_⟩
  rw [hvalue val hleaf hsize]
  rcases hm.ext with hext | hext
  · rw [hext] at hw
    rw [h.bits_zext val hleaf' (hhivn.trans hsize) hw rfl, hext]
    rfl
  · rw [hext] at hw
    rw [h.bits_sext val hleaf' (hhivn.trans hsize) hw rfl, hext]
    rfl

/-- The ranks of the shift and of the extension. -/
theorem Found.Matches.below (hacyclic : Acyclic data.toFuncdata noLeaf) :
    hacyclic.rank found.vn1 < hacyclic.rank hivn ∧ hacyclic.rank hivn < hacyclic.rank shiftvn ∧
      hacyclic.rank shiftvn < hacyclic.rank (data.op op).output ∧ hacyclic.rank othervn < hacyclic.rank (data.op op).output := by
  have hmem : ∀ {o : Nat} {slot : Nat} {v : Nat}, getIn data o slot = some v → v ∈ (data.op o).inrefs := fun hv => List.mem_of_getElem? hv
  have hshift : isLeafOp (data.op found.shiftop).code = false := by
    have hpow := hm.amount
    simp only [multPowerOf2] at hpow
    split at hpow
    · omega
    · next hcodes =>
        by_cases hleft : (data.op found.shiftop).code = .intLeft
        · rw [hleft]
          rfl
        · by_cases hmult : (data.op found.shiftop).code = .intMult
          · rw [hmult]
            rfl
          · exact absurd ⟨hleft, hmult⟩ hcodes
  have hext : isLeafOp (data.op found.zexthiop).code = false := by
    rcases hm.ext with hext | hext
    · rw [hext]
      rfl
    · rw [hext]
      rfl
  have hop : isLeafOp (data.op op).code = false := by
    have hall : ∀ opc ∈ getOpList, isLeafOp opc = false := by decide
    exact hall _ hcode
  refine ⟨hacyclic.below _ _ _ ⟨hm.hiDef, not_false, hext⟩ (hmem hm.vn1), hacyclic.below _ _ _ ⟨hm.shiftDef, not_false, hshift⟩ (hmem hm.hiIn),
    ?_, ?_⟩
  · rcases hm.inrefs h hout hcode with hin | hin
    · exact hacyclic.below _ _ _ ⟨hout, not_false, hop⟩ (by rw [hin]; simp)
    · exact hacyclic.below _ _ _ ⟨hout, not_false, hop⟩ (by rw [hin]; simp)
  · rcases hm.inrefs h hout hcode with hin | hin
    · exact hacyclic.below _ _ _ ⟨hout, not_false, hop⟩ (by rw [hin]; simp)
    · exact hacyclic.below _ _ _ ⟨hout, not_false, hop⟩ (by rw [hin]; simp)

end Values

section Concat

variable {sem : Semantics} {data : Funcdata} {nz : VarnodeId → Word} {op shiftvn othervn hivn vn2 : Nat} {found : Found}

structure Found.Low (found : Found) (data : Funcdata) (othervn vn2 : Nat) : Prop where
  written : Written data othervn .intZext [vn2]
  amount : found.shiftAmount = 8 * (data.vn vn2).size

theorem findTarget_concat (h : WellSized data) (hm : found.Matches data nz op shiftvn othervn hivn) (htarget : found.target = .concat vn2) :
    found.Low data othervn vn2 := by
  have hfind := hm.target
  rw [findTarget, htarget] at hfind
  split at hfind
  · simp only [findSign, Option.bind_eq_bind, Option.bind_eq_some_iff, Option.guard_eq_some', exists_and_left, exists_const,
      Option.pure_def, Option.some.injEq, reduceCtorEq, and_false, exists_false] at hfind
  · next hzext =>
      simp only [findLow, Option.bind_eq_bind, Option.bind_eq_some_iff, Option.guard_eq_some', exists_and_left, exists_const,
        Option.pure_def, Option.some.injEq, Target.concat.injEq] at hfind
      obtain ⟨vn2, hvn2, -, hamount, rfl⟩ := hfind
      exact ⟨written_one h hm.otherDef (not_not.mp hzext) (by decide) hvn2, hamount⟩

variable (h : WellSized data) (hm : found.Matches data nz op shiftvn othervn hivn) (htarget : found.target = .concat vn2)
  (hout : (data.vn (data.op op).output).getDef = some op) (hcode : (data.op op).code ∈ getOpList)
  (hwidth : 8 * outSize data op < 2 ^ 30)

include h hm hout hcode htarget hwidth

/-- The concatenation fits the output. -/
theorem Found.Matches.concat_sizes : (data.vn vn2).size ≤ outSize data op ∧
    found.concatsize = 8 * ((data.vn found.vn1).size + (data.vn vn2).size : Nat) ∧
    (data.vn found.vn1).size + (data.vn vn2).size ≤ outSize data op := by
  obtain ⟨hw, hamount⟩ := findTarget_concat h hm htarget
  obtain ⟨hle, -⟩ := hm.bits_shift h hout hcode
  obtain ⟨-, hother⟩ := hm.sizes h hout hcode
  have hle' := (h.extension_size hw (by decide)).trans hother.le
  obtain ⟨hconcat, hfits⟩ := hm.concatsize
  have hsum : found.concatsize = 8 * ((data.vn found.vn1).size + (data.vn vn2).size : Nat) := by
    rw [hconcat, hamount, addI32, Int.bmod_def]
    omega
  exact ⟨hle', hsum, by omega⟩

/-- The inputs of the op are replaced, or those of a new concatenation that it extends. -/
theorem rewrite_concat : (found.concatsize = outSize data op * 8 ∧ Rewired data (rewrite data op found)
      [{ entryOf data op (data.op op).output with code := .piece, args := [data.arg found.vn1, data.arg vn2] }]) ∨
    ∃ newop newout : Nat, data.numVarnodes ≤ newout ∧ Rewired data (rewrite data op found)
      [{ entryOf data op (data.op op).output with code := (data.op found.zexthiop).code, args := [.varnode newout] },
        ⟨newop, newout, (data.vn found.vn1).size + (data.vn vn2).size, .piece, [data.arg found.vn1, data.arg vn2]⟩] := by
  obtain ⟨-, hsum, -⟩ := hm.concat_sizes h htarget hout hcode hwidth
  have hedit := (Rewired.refl h.toLegal).edit h.toLegal hout (fun _ he => absurd he List.not_mem_nil)
  obtain ⟨a, b, hin⟩ : ∃ a b, (data.op op).inrefs = [a, b] := by
    rcases hm.inrefs h hout hcode with hin | hin
    · exact ⟨_, _, hin⟩
    · exact ⟨_, _, hin⟩
  have hargs : (entryOf data op (data.op op).output).args = [data.arg a, data.arg b] := by
    rw [entryOf, hin, List.map_cons, List.map_cons, List.map_nil]
  have hlt1 := h.inrefs _ (h.live _ _ hm.hiDef) _ (List.mem_of_getElem? hm.vn1)
  have hlt2 := ((findTarget_concat h hm htarget).written.lt h.toLegal).2 vn2 (by simp)
  by_cases hfull : found.concatsize = outSize data op * 8
  · refine .inl ⟨hfull, ?_⟩
    have hset := ((hedit.setOpcode .piece).setOld hlt1 0).setOld hlt2 1
    simp only [hargs] at hset
    simp only [rewrite, htarget, if_pos hfull]
    exact hset
  · refine .inr ⟨data.numOps, data.numVarnodes, le_rfl, ?_⟩
    have hnew := ((hedit.newOut .piece (data.op op).addr (found.concatsize / 8).toNat).setOld hlt1 0).setOld hlt2 1
    have hsize : (found.concatsize / 8).toNat = (data.vn found.vn1).size + (data.vn vn2).size := by omega
    have hset := (((hnew.perm (List.Perm.swap _ _ _)).setOpcode (data.op found.zexthiop).code).removeInput 1).setResult
      (List.mem_cons_of_mem _ List.mem_cons_self) 0
    simp only [hargs, hsize] at hset
    -- the opcode of the extension is read after the new op was made
    have hextop : ∀ d : Funcdata, d = ((data.newOut .piece (data.op op).addr ((data.vn found.vn1).size + (data.vn vn2).size)).opSetInput
        data.numOps found.vn1 0).opSetInput data.numOps vn2 1 → (d.op found.zexthiop).code = (data.op found.zexthiop).code := by
      rintro d rfl
      have hne : found.zexthiop ≠ data.numOps := Nat.ne_of_lt (h.live _ _ hm.hiDef)
      have hout' := hedit.newOut .piece (data.op op).addr ((data.vn found.vn1).size + (data.vn vn2).size)
      have hone := hout'.setOld hlt1 0
      obtain ⟨-, hop1, -⟩ := opSetInput_reads hout'.blank (hout'.lt hlt1) data.numOps 0
      obtain ⟨-, hop2, -⟩ := opSetInput_reads hone.blank (hone.lt hlt2) data.numOps 1
      rw [hop2 _ hne, hop1 _ hne]
      show (Function.update (Function.update data.op data.numOps _) data.numOps _ found.zexthiop).code = _
      rw [Function.update_of_ne hne, Function.update_of_ne hne]
    have hrewrite : rewrite data op found = (((((data.newOut .piece (data.op op).addr
        ((data.vn found.vn1).size + (data.vn vn2).size)).opSetInput data.numOps found.vn1 0).opSetInput data.numOps vn2 1).opSetOpcode op
        (data.op found.zexthiop).code).opRemoveInput op 1).opSetInput op data.numVarnodes 0 := by
      rw [← hextop _ rfl]
      simp only [rewrite, htarget, if_neg hfull, hsize]
      rfl
    rw [hrewrite]
    exact hset

/-- The concatenation with the fill of its high part. -/
theorem concat_new_iff {leaf : VarnodeId → Prop} (val : Valuation sem data.toFuncdata leaf) (hleaf : ¬ leaf (data.op op).output)
    (hold : ∀ v : Nat, leaf v → v < data.numVarnodes) : Extends val (rewrite data op found) ↔
      val.bits (outSize data op) (data.op op).output = fillTo (decide ((data.op found.zexthiop).code = .intSext))
        (piece (8 * (data.vn found.vn1).size + 8 * (data.vn vn2).size) (val.bits (data.vn found.vn1).size found.vn1)
          (val.bits (data.vn vn2).size vn2)) (8 * outSize data op) := by
  obtain ⟨-, hsum, hfits⟩ := hm.concat_sizes h htarget hout hcode hwidth
  have hlt1 := h.inrefs _ (h.live _ _ hm.hiDef) _ (List.mem_of_getElem? hm.vn1)
  have hlt2 := ((findTarget_concat h hm htarget).written.lt h.toLegal).2 vn2 (by simp)
  rcases rewrite_concat h hm htarget hout hcode hwidth with ⟨hfull, hrew⟩ | ⟨newop, newout, hnew, hrew⟩
  · have hsizes : (data.vn found.vn1).size + (data.vn vn2).size = outSize data op := by omega
    have hopc : OpCode.piece ∈ twoInputOps ++ oneInputOps := by decide
    have hvalue : (val.bits (data.vn found.vn1).size found.vn1 ++ val.bits (data.vn vn2).size vn2).setWidth (8 * outSize data op) =
        fillTo (decide ((data.op found.zexthiop).code = .intSext)) (piece (8 * (data.vn found.vn1).size + 8 * (data.vn vn2).size)
          (val.bits (data.vn found.vn1).size found.vn1) (val.bits (data.vn vn2).size vn2)) (8 * outSize data op) := by
      rw [← fillTo_piece_eq _ _ _ (show _ = 8 * outSize data op by omega), fillTo_self, piece]
    rw [← hvalue]
    refine hrew.extends_edited val h.toLegal rfl hold hleaf hopc (h.lt_of_def hout) rfl (fun w hw => ?_) (.piece hsizes _ _)
    rw [List.map_cons, List.map_cons, List.map_nil, hrew.operand_old hw hlt1 rfl, hrew.operand_old hw hlt2 rfl]
  · have hopc : OpCode.piece ∈ twoInputOps ++ oneInputOps := by decide
    have hrargs : ∀ w, Fits data val.value [] w → [data.arg found.vn1, data.arg vn2].map (Arg.operand (rewrite data op found) w) =
        [⟨_, val.bits (data.vn found.vn1).size found.vn1⟩, ⟨_, val.bits (data.vn vn2).size vn2⟩] := by
      intro w hw
      rw [List.map_cons, List.map_cons, List.map_nil, hrew.operand_old hw hlt1 rfl, hrew.operand_old hw hlt2 rfl]
    have hmem : (data.op found.zexthiop).code ∈ twoInputOps ++ oneInputOps := by
      rcases hm.ext with hext | hext
      · rw [hext]
        decide
      · rw [hext]
        decide
    rw [← fillTo_piece_eq _ _ _ (show _ = 8 * ((data.vn found.vn1).size + (data.vn vn2).size) by omega)]
    refine hrew.extends_result val h.toLegal rfl hnew hold hleaf hmem hopc (h.lt_of_def hout) rfl rfl hrargs (.piece rfl _ _)
      (fun w _ hr => by rw [List.map_cons, List.map_nil, hr]) ?_
    rcases hm.ext with hext | hext
    · rw [hext]
      exact .intZext hfits _
    · rw [hext]
      exact .intSext hfits _

/-- A concatenation takes the place of the op, if the amount is the one that was read. -/
theorem concat_extends_iff (hacyclic : Acyclic data.toFuncdata noLeaf) (val : Valuation sem data.toFuncdata (· = found.vn1)) :
    Extends val (rewrite data op found) ↔ Proper data found.shiftop ∨ val.bits (data.vn found.vn1).size found.vn1 = 0#_ := by
  obtain ⟨hw, hamount⟩ := findTarget_concat h hm htarget
  obtain ⟨-, hsum, hfits⟩ := hm.concat_sizes h htarget hout hcode hwidth
  obtain ⟨-, -, a, ha, hproper, hshift⟩ := hm.bits_shift h hout hcode
  obtain ⟨-, hosize⟩ := hm.sizes h hout hcode
  obtain ⟨hrank1, hrank2, hrank3, -⟩ := hm.below h hout hcode hacyclic
  have hlt1 := h.inrefs _ (h.live _ _ hm.hiDef) _ (List.mem_of_getElem? hm.vn1)
  have hpos1 := h.positive _ hlt1
  have hpos2 := h.positive vn2 ((hw.lt h.toLegal).2 vn2 (by simp))
  have hnotOut : ¬ (data.op op).output = found.vn1 := by
    intro heq
    rw [heq] at hrank3
    omega
  have hnotShift : ¬ shiftvn = found.vn1 := by
    intro heq
    rw [heq] at hrank2
    omega
  have hnotHi : ¬ hivn = found.vn1 := by
    intro heq
    rw [heq] at hrank1
    omega
  have hnotOther : ¬ othervn = found.vn1 := by
    intro heq
    rw [← heq, hosize] at hfits
    omega
  have hs := hshift val hnotShift hnotHi
  have ho := h.bits_zext val hnotOther hosize hw rfl
  rw [concat_new_iff h hm htarget hout hcode hwidth val hnotOut (fun v hv => hv ▸ hlt1)]
  by_cases hp : Proper data found.shiftop
  · have haeq : a = 8 * (data.vn vn2).size := by
      have := hproper.mp hp
      omega
    refine iff_of_true ?_ (.inl hp)
    rw [hm.bits_output h hout hcode val hnotOut (by rw [hs, ho, haeq]; exact shiftLeft_and_low _ _), hs, ho, haeq]
    exact shiftLeft_or_piece _ _ _ (by omega) (by omega)
  · have hzero : val.bits (outSize data op) shiftvn = 0#_ := by
      have hge : ¬ a < 2 ^ 32 := fun hlt => hp (hproper.mpr hlt)
      rw [hs, BitVec.shiftLeft_eq_zero (by omega)]
    rw [hm.bits_output h hout hcode val hnotOut (by rw [hzero, BitVec.zero_and]), hzero, BitVec.zero_or, ho,
      low_eq_fillTo_piece_iff _ _ _ (by omega) (by omega)]
    exact ⟨.inr, fun hor => hor.resolve_left hp⟩

end Concat

section Sign

variable {sem : Semantics} {data : Funcdata} {nz : VarnodeId → Word} {op shiftvn othervn hivn vn2 bigVn : Nat} {found : Found}

/-- The high part is the sign of a piece of the other input. -/
structure Found.Sign (found : Found) (data : Funcdata) (nz : VarnodeId → Word) (vn2 bigVn rsavn offvn : Nat) : Prop where
  big : bigVn = (data.op found.zextloop).output
  right : Written data found.vn1 .intSright [vn2, rsavn]
  rsa : (data.vn rsavn).isConstant = true ∧ toI32 (data.vn rsavn).offset = (data.vn vn2).size * 8 - 1
  sub : Written data vn2 .subpiece [bigVn, offvn]
  off : (data.vn offvn).offset = 0
  mask : wrappingShr (nz bigVn) found.shiftAmount = 0
  amount : found.shiftAmount = 8 * (data.vn vn2).size

theorem findTarget_extend (h : WellSized data) (hm : found.Matches data nz op shiftvn othervn hivn) (htarget : found.target = .extend vn2 bigVn) :
    ∃ rsavn offvn, found.Sign data nz vn2 bigVn rsavn offvn := by
  have hfind := hm.target
  rw [findTarget, htarget] at hfind
  split at hfind
  · simp only [findSign, Option.bind_eq_bind, Option.bind_eq_some_iff, Option.guard_eq_some', exists_and_left, exists_const,
      Option.pure_def, Option.some.injEq, Target.extend.injEq] at hfind
    obtain ⟨rop, hrop, rsavn, hrsavn, vn2, hvn2, subop, hsubop, offvn, hoffvn, hoff, hbig, hrsa, hmask, hamount, rfl, rfl⟩ := hfind
    obtain ⟨hrdef, hright⟩ := definedBy_eq.mp hrop
    obtain ⟨hsdef, hsub⟩ := definedBy_eq.mp hsubop
    obtain ⟨hin1, hconst⟩ := constantIn_eq.mp hrsavn
    exact ⟨rsavn, offvn, rfl, written_two h hrdef hright (by decide) hvn2 hin1, ⟨hconst, hrsa⟩,
      written_two h hsdef hsub (by decide) hbig hoffvn, hoff, hmask, hamount⟩
  · simp only [findLow, Option.bind_eq_bind, Option.bind_eq_some_iff, Option.guard_eq_some', exists_and_left, exists_const,
      Option.pure_def, Option.some.injEq, reduceCtorEq, and_false, exists_false] at hfind

variable (h : WellSized data) (hm : found.Matches data nz op shiftvn othervn hivn) (htarget : found.target = .extend vn2 bigVn)
  (hout : (data.vn (data.op op).output).getDef = some op) (hcode : (data.op op).code ∈ getOpList)
  (hwidth : 8 * outSize data op < 2 ^ 30)

include h hm htarget hout hcode hwidth

theorem Found.Matches.sign_sizes : bigVn = othervn ∧ (data.vn found.vn1).size = (data.vn vn2).size ∧ 0 < (data.vn vn2).size ∧
    2 * (data.vn vn2).size ≤ outSize data op := by
  obtain ⟨rsavn, offvn, hsign⟩ := findTarget_extend h hm htarget
  have hbig : bigVn = othervn := hsign.big.trans (h.output _ _ hm.otherDef)
  obtain ⟨hle, -⟩ := hm.bits_shift h hout hcode
  obtain ⟨hconcat, hfits⟩ := hm.concatsize
  have hsize := h.shift_size hsign.right (by decide)
  refine ⟨hbig, hsize.symm, h.positive vn2 ((hsign.right.lt h.toLegal).2 vn2 (by simp)), ?_⟩
  rw [hconcat, hsign.amount, addI32, Int.bmod_def] at hfits
  omega

theorem rewrite_sign : Rewired data (rewrite data op found)
    [{ entryOf data op (data.op op).output with code := .intSext, args := [data.arg vn2] }] := by
  obtain ⟨rsavn, offvn, hsign⟩ := findTarget_extend h hm htarget
  have hlt := (hsign.right.lt h.toLegal).2 vn2 (by simp)
  obtain ⟨a, b, hin⟩ : ∃ a b, (data.op op).inrefs = [a, b] := by
    rcases hm.inrefs h hout hcode with hin | hin
    · exact ⟨_, _, hin⟩
    · exact ⟨_, _, hin⟩
  have hargs : (entryOf data op (data.op op).output).args = [data.arg a, data.arg b] := by
    rw [entryOf, hin, List.map_cons, List.map_cons, List.map_nil]
  have hedit := (Rewired.refl h.toLegal).edit h.toLegal hout (fun _ he => absurd he List.not_mem_nil)
  have hset := ((hedit.setOpcode .intSext).setOld hlt 0).removeInput 1
  simp only [hargs] at hset
  simp only [rewrite, htarget]
  exact hset

/-- The piece of the big number, and its sign in the high part. -/
theorem Found.Matches.sign_bits (hacyclic : Acyclic data.toFuncdata noLeaf) (val : Valuation sem data.toFuncdata (· = bigVn)) :
    val.bits (data.vn vn2).size vn2 = (val.bits (outSize data op) bigVn).extractLsb' 0 _ ∧
      ∃ a : Nat, found.shiftAmount = (a % 2 ^ 32 : Nat) ∧ (Proper data found.shiftop ↔ a < 2 ^ 32) ∧
        val.bits (outSize data op) shiftvn = fillTo (decide ((data.op found.zexthiop).code = .intSext))
          (signFill (val.bits (data.vn vn2).size vn2)) (8 * outSize data op) <<< a ∧ ¬ (data.op op).output = bigVn := by
  obtain ⟨rsavn, offvn, hsign⟩ := findTarget_extend h hm htarget
  obtain ⟨hbig, hsize1, hpos, hfits⟩ := hm.sign_sizes h htarget hout hcode hwidth
  obtain ⟨-, -, a, ha, hproper, hshift⟩ := hm.bits_shift h hout hcode
  obtain ⟨-, hosize⟩ := hm.sizes h hout hcode
  obtain ⟨hrank1, hrank2, hrank3, -⟩ := hm.below h hout hcode hacyclic
  have hrankSub : hacyclic.rank bigVn < hacyclic.rank vn2 := by
    obtain ⟨o, hdef, hopc, hin⟩ := hsign.sub
    exact hacyclic.below vn2 o bigVn ⟨hdef, not_false, by rw [hopc]; rfl⟩ (by rw [hin]; simp)
  have hrankRight : hacyclic.rank vn2 < hacyclic.rank found.vn1 := by
    obtain ⟨o, hdef, hopc, hin⟩ := hsign.right
    exact hacyclic.below found.vn1 o vn2 ⟨hdef, not_false, by rw [hopc]; rfl⟩ (by rw [hin]; simp)
  have hnot : ∀ v, hacyclic.rank bigVn < hacyclic.rank v → ¬ v = bigVn := by
    rintro v hlt rfl
    omega
  have hpiece := h.bits_subpiece val (hnot vn2 hrankSub) rfl hsign.sub ((congrArg (fun v => (data.vn v).size) hbig).trans hosize) rfl
  obtain ⟨hoffConst, -⟩ := h.subpiece_sizes hsign.sub
  rw [h.toNat_bits_constant val hoffConst rfl, hsign.off] at hpiece
  have hright := h.bits_sright val (hnot found.vn1 (by omega)) rfl hsign.right rfl
  rw [h.toNat_bits_constant val hsign.rsa.1 rfl, hsize1] at hright
  have hrsa : 8 * (data.vn vn2).size - 1 ≤ (data.vn rsavn).offset.toNat := by
    have hval := hsign.rsa.2
    rw [toI32_of_nonneg (by omega)] at hval
    omega
  rw [sshiftRight_eq_signFill hrsa] at hright
  have hs := hshift val (hnot shiftvn (by omega)) (hnot hivn (by omega))
  rw [hsize1, hright] at hs
  exact ⟨hpiece, a, ha, hproper, hs, hnot _ (by omega)⟩

theorem sign_new_iff (hacyclic : Acyclic data.toFuncdata noLeaf) (val : Valuation sem data.toFuncdata (· = bigVn)) :
    Extends val (rewrite data op found) ↔
      val.bits (outSize data op) (data.op op).output = (val.bits (data.vn vn2).size vn2).signExtend _ := by
  obtain ⟨rsavn, offvn, hsign⟩ := findTarget_extend h hm htarget
  obtain ⟨hbig, hsize1, hpos, hfits⟩ := hm.sign_sizes h htarget hout hcode hwidth
  obtain ⟨-, -, -, -, -, hnotOut⟩ := hm.sign_bits h htarget hout hcode hwidth hacyclic val
  have hrew := rewrite_sign h hm htarget hout hcode hwidth
  have hopc : OpCode.intSext ∈ twoInputOps ++ oneInputOps := by decide
  have hlt := (hsign.sub.lt h.toLegal).2 bigVn (by simp)
  refine hrew.extends_edited val h.toLegal rfl (fun v hv => hv ▸ hlt) hnotOut hopc (h.lt_of_def hout) rfl (fun w hw => ?_)
    (.intSext (by omega) _)
  rw [List.map_cons, List.map_nil, hrew.operand_old hw ((hsign.right.lt h.toLegal).2 vn2 (by simp)) rfl]

/-- With nothing above the piece, the sign extension keeps the value if the piece is not
negative, or if there is nothing above the sign that was put there. -/
theorem sign_extends_iff (hacyclic : Acyclic data.toFuncdata noLeaf) (val : Valuation sem data.toFuncdata (· = bigVn))
    (hclear : ∀ i, 8 * (data.vn vn2).size ≤ i → (val.bits (outSize data op) bigVn).getLsbD i = false) :
    Extends val (rewrite data op found) ↔ (val.bits (data.vn vn2).size vn2).msb = false ∨
      Proper data found.shiftop ∧ ((data.op found.zexthiop).code = .intSext ∨ 2 * (data.vn vn2).size = outSize data op) := by
  obtain ⟨rsavn, offvn, hsign⟩ := findTarget_extend h hm htarget
  obtain ⟨hbig, hsize1, hpos, hfits⟩ := hm.sign_sizes h htarget hout hcode hwidth
  obtain ⟨hpiece, a, ha, hproper, hs, hnotOut⟩ := hm.sign_bits h htarget hout hcode hwidth hacyclic val
  have hamount := hsign.amount
  have ho : val.bits (outSize data op) othervn = (val.bits (data.vn vn2).size vn2).setWidth _ := by
    rw [← hbig, hpiece]
    apply BitVec.eq_of_getLsbD_eq
    intro i hi
    rw [BitVec.getLsbD_setWidth, BitVec.getLsbD_extractLsb', decide_eq_true hi, Bool.true_and, Nat.zero_add]
    by_cases hlt : i < 8 * (data.vn vn2).size
    · rw [decide_eq_true hlt, Bool.true_and]
    · rw [decide_eq_false hlt, Bool.false_and, hclear i (by omega)]
  rw [sign_new_iff h hm htarget hout hcode hwidth hacyclic val]
  by_cases hp : Proper data found.shiftop
  · have haeq : a = 8 * (data.vn vn2).size := by
      have := hproper.mp hp
      omega
    rw [hm.bits_output h hout hcode val hnotOut (by rw [hs, ho, haeq]; exact shiftLeft_and_low _ _), hs, ho, haeq,
      shiftLeft_or_piece _ _ _ (by omega) (by omega), piece_signFill _ (by omega), fillTo_signExtend_iff _ _ (by omega) (by omega),
      decide_eq_true_iff]
    have hwide : 8 * (data.vn vn2).size + 8 * (data.vn vn2).size = 8 * outSize data op ↔ 2 * (data.vn vn2).size = outSize data op := by omega
    rw [hwide]
    exact or_congr_right ⟨fun hor => ⟨hp, hor⟩, fun hand => hand.2⟩
  · have hzero : val.bits (outSize data op) shiftvn = 0#_ := by
      have hge : ¬ a < 2 ^ 32 := fun hlt => hp (hproper.mpr hlt)
      rw [hs, BitVec.shiftLeft_eq_zero (by omega)]
    rw [hm.bits_output h hout hcode val hnotOut (by rw [hzero, BitVec.zero_and]), hzero, BitVec.zero_or, ho,
      setWidth_eq_signExtend_iff _ (by omega)]
    exact ⟨.inl, fun hor => hor.resolve_right fun hand => hp hand.1⟩

/-- In a number of more than eight bytes there may be bits above the piece that no mask
shows. -/
theorem sign_wide (sem : Semantics) (hacyclic : Acyclic data.toFuncdata noLeaf)
    (hconst : ∀ v, (data.vn v).isConstant = true → nz v = (data.vn v).offset) (hn : 8 < outSize data op) :
    ∃ val : Valuation sem data.toFuncdata (· = bigVn), WithinMask nz val bigVn ∧ ¬ Extends val (rewrite data op found) := by
  obtain ⟨hbig, hsize1, hpos, hfits⟩ := hm.sign_sizes h htarget hout hcode hwidth
  obtain ⟨-, hosize⟩ := hm.sizes h hout hcode
  have hbsize : (data.vn bigVn).size = outSize data op := (congrArg (fun v => (data.vn v).size) hbig).trans hosize
  have hfree : (data.vn bigVn).isConstant = false := by
    by_contra hc
    have hdef := (h.constant bigVn (Bool.eq_true_of_not_eq_false hc)).1
    rw [hbig, hm.otherDef] at hdef
    cases hdef
  obtain ⟨j, hj, hjz, hjn⟩ : ∃ j, 64 ≤ j ∧ 8 * (data.vn vn2).size ≤ j ∧ j < 8 * outSize data op :=
    ⟨max 64 (8 * (data.vn vn2).size), by omega, by omega, by omega⟩
  obtain ⟨val, hmask, -, hvalue⟩ := exists_bit sem h.toLegal (hacyclic.mono (q := (· = bigVn)) fun _ hf => hf.elim) hconst rfl
    (by rw [hbsize]; exact hjn) (.inr ⟨hj, hfree⟩)
  refine ⟨val, hmask, fun hext => ?_⟩
  obtain ⟨hpiece, a, -, -, hs, hnotOut⟩ := hm.sign_bits h htarget hout hcode hwidth hacyclic val
  rw [sign_new_iff h hm htarget hout hcode hwidth hacyclic val] at hext
  have hbits : ∀ i, (val.bits (outSize data op) bigVn).getLsbD i = (decide (i < 8 * outSize data op) && decide (j = i)) := by
    intro i
    rw [getLsbD_bits, hvalue hfree, Nat.testBit_two_pow]
  have hzero : val.bits (data.vn vn2).size vn2 = 0#_ := by
    rw [hpiece]
    apply BitVec.eq_of_getLsbD_eq
    intro i hi
    rw [BitVec.getLsbD_extractLsb', Nat.zero_add, hbits, decide_eq_false (show ¬ j = i by omega), Bool.and_false, Bool.and_false,
      BitVec.getLsbD_zero]
  have hsign : signFill (0#(8 * (data.vn vn2).size)) = 0#_ := by rw [signFill, BitVec.msb_zero, if_neg (by decide)]
  rw [hzero, hsign, fillTo_zero, BitVec.zero_shiftLeft] at hs
  rw [hm.bits_output h hout hcode val hnotOut (by rw [hs, BitVec.zero_and]), hs, BitVec.zero_or, ← hbig, hzero] at hext
  have hbit := congrArg (fun v => v.getLsbD j) hext
  simp only [hbits, decide_eq_true hjn, decide_true, Bool.true_and] at hbit
  rw [BitVec.signExtend_eq_setWidth_of_msb_false BitVec.msb_zero, BitVec.setWidth_zero, BitVec.getLsbD_zero] at hbit
  cases hbit

end Sign

section Preservation

variable {sem : Semantics} {data data' : Funcdata} {nz : VarnodeId → Word} {op : Nat} {found : Found}

theorem applyOp_extends_iff (h : WellSized data) (hacyclic : Acyclic data.toFuncdata noLeaf)
    (hout : (data.vn (data.op op).output).getDef = some op) (hcode : (data.op op).code ∈ getOpList)
    (hwidth : 8 * outSize data op < 2 ^ 30) (hconst : ∀ v, (data.vn v).isConstant = true → nz v = (data.vn v).offset)
    (hfind : find data nz op = some found) (happly : applyOp data nz op = (1, data')) :
    (∀ val : Valuation sem data.toFuncdata (· = found.leafVn), WithinMask nz val found.leafVn → Extends val data') ↔
      found.Exact data nz (outSize data op) := by
  rw [applyOp, hfind] at happly
  obtain rfl := (Prod.mk.inj happly).2
  obtain ⟨shiftvn, othervn, hivn, hm⟩ := find_matches hfind
  cases htarget : found.target with
  | concat vn2 =>
      have hleaf : found.leafVn = found.vn1 := by rw [Found.leafVn, htarget]
      rw [hleaf]
      simp only [Found.Exact, htarget]
      have hiff := fun val : Valuation sem data.toFuncdata (· = found.vn1) =>
        concat_extends_iff h hm htarget hout hcode hwidth hacyclic val
      constructor
      · intro hall
        by_contra hnot
        simp only [not_or, not_forall, not_not] at hnot
        obtain ⟨hproper, i, hi, hset⟩ := hnot
        obtain ⟨val, hmask, hbit, -⟩ := exists_bit sem h.toLegal (hacyclic.mono (q := (· = found.vn1)) fun _ hf => hf.elim) hconst rfl hi hset
        have hzero := ((hiff val).mp (hall val hmask)).resolve_left hproper
        rw [hzero, BitVec.getLsbD_zero] at hbit
        cases hbit
      · rintro hor val hmask
        refine (hiff val).mpr (hor.imp_right fun hclear => ?_)
        apply BitVec.eq_of_getLsbD_eq
        intro i hi
        rw [BitVec.getLsbD_zero]
        by_contra hbit
        exact hclear i hi (mayBeSet_of_bit hmask (Bool.eq_true_of_not_eq_false hbit))
  | extend vn2 bigVn =>
      have hleaf : found.leafVn = bigVn := by rw [Found.leafVn, htarget]
      rw [hleaf]
      simp only [Found.Exact, htarget]
      have hiff := fun val : Valuation sem data.toFuncdata (· = bigVn) =>
        sign_extends_iff h hm htarget hout hcode hwidth hacyclic val
      obtain ⟨rsavn, offvn, hsign⟩ := findTarget_extend h hm htarget
      obtain ⟨hbig, hsize1, hpos, hfits⟩ := hm.sign_sizes h htarget hout hcode hwidth
      obtain ⟨-, hosize⟩ := hm.sizes h hout hcode
      have hbsize : (data.vn bigVn).size = outSize data op := (congrArg (fun v => (data.vn v).size) hbig).trans hosize
      have hfree : (data.vn bigVn).isConstant = false := by
        by_contra hc
        have hdef := (h.constant bigVn (Bool.eq_true_of_not_eq_false hc)).1
        rw [hbig, hm.otherDef] at hdef
        cases hdef
      -- the sign of the piece is a bit of the big number
      have hmsb : ∀ val : Valuation sem data.toFuncdata (· = bigVn), (val.bits (data.vn vn2).size vn2).msb =
          (val.bits (outSize data op) bigVn).getLsbD (8 * (data.vn vn2).size - 1) := by
        intro val
        obtain ⟨hpiece, -⟩ := hm.sign_bits h htarget hout hcode hwidth hacyclic val
        rw [hpiece, BitVec.msb_eq_getLsbD_last, BitVec.getLsbD_extractLsb', decide_eq_true (by omega), Bool.true_and, Nat.zero_add]
      by_cases hn : outSize data op ≤ 8
      · have hclear : ∀ val : Valuation sem data.toFuncdata (· = bigVn), WithinMask nz val bigVn →
            ∀ i, 8 * (data.vn vn2).size ≤ i → (val.bits (outSize data op) bigVn).getLsbD i = false := by
          intro val hmask i hi
          by_contra hbit
          have hbit' := Bool.eq_true_of_not_eq_false hbit
          have hlt : i < 8 * outSize data op := BitVec.lt_of_getLsbD hbit'
          have hset := hmask.bit (by omega) hbit'
          have hzero := congrArg (fun v => v.getLsbD (i - 8 * (data.vn vn2).size)) hsign.mask
          have hamount : (found.shiftAmount % 64).toNat = 8 * (data.vn vn2).size := by
            rw [hsign.amount]
            omega
          simp only [wrappingShr, hamount, BitVec.getLsbD_ushiftRight, Nat.add_sub_cancel' hi, hset] at hzero
          cases hzero.trans BitVec.getLsbD_zero
        constructor
        · intro hall
          refine ⟨hn, ?_⟩
          by_contra hnot
          rw [not_or, Bool.not_eq_false] at hnot
          obtain ⟨val, hmask, hbit, -⟩ := exists_bit sem h.toLegal (hacyclic.mono (q := (· = bigVn)) fun _ hf => hf.elim) hconst rfl
            (by rw [hbsize]; omega) (.inl hnot.1)
          rw [hbsize, ← hmsb val] at hbit
          rcases (hiff val (hclear val hmask)).mp (hall val hmask) with hpositive | hexact
          · rw [hpositive] at hbit
            cases hbit
          · exact hnot.2 hexact
        · rintro ⟨-, hor⟩ val hmask
          refine (hiff val (hclear val hmask)).mpr (hor.imp_left fun hmasked => ?_)
          rw [hmsb val]
          by_contra hbit
          have hset := hmask.bit (by omega) (Bool.eq_true_of_not_eq_false hbit)
          rw [hmasked] at hset
          cases hset
      · obtain ⟨val, hmask, hnot⟩ := sign_wide h hm htarget hout hcode hwidth sem hacyclic hconst (not_le.mp hn)
        exact iff_of_false (fun hall => hnot (hall val hmask)) fun hexact => hn hexact.1

def signVns : List RangeMeld.Varnode :=
  [inputVn 4, constantVn 4 0xff, { inputVn 4 with getDef := some 0 }, constantVn 4 0, writtenVn 1, constantVn 4 7, writtenVn 2,
    { inputVn 4 with getDef := some 3 }, constantVn 4 8, { inputVn 4 with getDef := some 4 }, { inputVn 4 with getDef := some 5 }]

def signOps (ext : OpCode) : List RangeMeld.PcodeOp :=
  [logicalOp .intAnd [0, 1] 2, logicalOp .subpiece [2, 3] 4, logicalOp .intSright [4, 5] 6, logicalOp ext [6] 7,
    logicalOp .intLeft [7, 8] 9, logicalOp .intOr [9, 2] 10]

/-- The sign of a byte is put above it, with an extension of one kind or the other. -/
def signAbove (ext : OpCode) : Funcdata := ofLists signVns (signOps ext)

def byteMasks (data : Funcdata) (v : VarnodeId) : Word := if (data.vn v).isConstant then (data.vn v).offset else 0xff

def signFound : Found :=
  { shiftop := 4, zextloop := 0, shiftAmount := 8, zexthiop := 3, vn1 := 6, concatsize := 16, target := .extend 4 2 }

theorem signAbove_linked : linked signVns (signOps .intSext) = true ∧ linked signVns (signOps .intZext) = true := by decide

theorem signAbove_find : find (signAbove .intSext) (byteMasks (signAbove .intSext)) 5 = some signFound ∧
    find (signAbove .intZext) (byteMasks (signAbove .intZext)) 5 = some signFound := by decide

end Preservation

end RuleShiftPiece

end GhidraDecompiler.RuleAction
