import GhidraDecompiler.RuleAction.DoubleShift

namespace GhidraDecompiler.RuleAction

open Pcode Dataflow BitPieces BitWindows ShiftChains
open Expression (VarnodeId OpId)
open Editing (Funcdata)
open Editing.Funcdata
open Matching
open ShiftAmounts
open RangeMeld.Funcdata (inputVn constantVn writtenVn logicalOp)

namespace ShiftAmounts

/-- The shifts to the right with their extensions. -/
def rightCode (signed : Bool) : OpCode := if signed then .intSright else .intRight

def extCode (signed : Bool) : OpCode := if signed then .intSext else .intZext

section Sides

variable {sem : Semantics} {data : Funcdata} {leaf : VarnodeId → Prop} {n m k v a c : Nat}

theorem denotes_ext (signed : Bool) (hle : m ≤ n) (x : BitVec (8 * m)) :
    Denotes (extCode signed) [⟨m, x⟩] n (some (fillTo signed x (8 * n))) := by
  cases signed with
  | false => exact .intZext hle x
  | true => exact .intSext hle x

theorem denotes_right (signed : Bool) (x : BitVec (8 * n)) (y : BitVec (8 * k)) :
    Denotes (rightCode signed) [⟨n, x⟩, ⟨k, y⟩] n (some (shiftRight signed x y.toNat)) := by
  cases signed with
  | false => exact .intRight x y
  | true => exact .intSright x y

theorem rightCode_mem (signed : Bool) : rightCode signed ∈ shiftOps ∧ rightCode signed ∈ twoInputOps := by
  cases signed with
  | false => decide
  | true => decide

theorem extCode_mem (signed : Bool) : extCode signed ∈ twoInputOps ++ oneInputOps := by
  cases signed with
  | false => decide
  | true => decide

theorem exists_rightCode {opc : OpCode} (h : opc ∈ [OpCode.intRight, .intSright]) : ∃ signed, opc = rightCode signed := by
  simp only [List.mem_cons, List.not_mem_nil, or_false] at h
  rcases h with rfl | rfl
  · exact ⟨false, rfl⟩
  · exact ⟨true, rfl⟩

theorem bits_rightCode (h : WellSized data) {signed : Bool} (hw : Written data v (rightCode signed) [a, c])
    (hc : (data.vn c).isConstant = true) (val : Valuation sem data.toFuncdata leaf) (hleaf : ¬ leaf v) (hn : (data.vn v).size = n) :
    val.bits n v = shiftRight signed (val.bits n a) (data.vn c).offset.toNat := by
  cases signed with
  | false =>
      rw [h.bits_right val hleaf hn hw rfl, h.toNat_bits_constant val hc rfl]
      rfl
  | true =>
      rw [h.bits_sright val hleaf hn hw rfl, h.toNat_bits_constant val hc rfl]
      rfl

end Sides

end ShiftAmounts

namespace RuleConcatShift

def getOpList : List OpCode := [.intRight, .intSright]

structure Found where
  savn : VarnodeId
  shiftin : VarnodeId
  mainin : VarnodeId
  shiftAmount : Int
deriving DecidableEq

section Rule

variable (data : Funcdata)

def find (op : OpId) : Option Found := do
  let savn ← constantIn data op 1
  let shiftin ← getIn data op 0
  let concat ← definedBy data shiftin .piece
  let shiftAmount := toI32 (data.vn savn).offset
  let lowvn ← getIn data concat 1
  let leastsize : Int := (data.vn lowvn).size * 8
  guard (leastsize ≤ shiftAmount)
  let mainin ← getIn data concat 0
  guard !(data.vn mainin).isFree
  return { savn := savn, shiftin := shiftin, mainin := mainin, shiftAmount := shiftAmount - leastsize }

def rewrite (op : OpId) (found : Found) : Funcdata :=
  let extcode := if (data.op op).code = .intRight then .intZext else .intSext
  if found.shiftAmount = 0 then
    let data := data.opRemoveInput op 1
    let data := data.opSetOpcode op extcode
    data.opSetInput op found.mainin 0
  else
    let shiftsize := (data.vn found.shiftin).size
    let constsize := (data.vn found.savn).size
    let (extop, data) := data.newOp extcode (data.op op).addr
    let (newvn, data) := data.newUniqueOut shiftsize extop
    let data := data.opSetInput extop found.mainin 0
    let data := data.opSetInput op newvn 0
    let (newconst, data) := data.newConstant constsize (BitVec.ofInt 64 found.shiftAmount)
    data.opSetInput op newconst 1

def applyOp (op : OpId) : Int × Funcdata :=
  match find data op with
  | none => (0, data)
  | some found => (1, rewrite data op found)

end Rule

section Preservation

variable {sem : Semantics} {data data' : Funcdata} {op a : Nat} {found : Found}

/-- A shift of a concatenation, by the low part at least. -/
structure Found.Matches (found : Found) (data : Funcdata) (op concat lowvn : Nat) : Prop where
  amount : getIn data op 1 = some found.savn ∧ (data.vn found.savn).isConstant = true
  input : getIn data op 0 = some found.shiftin
  piece : (data.vn found.shiftin).getDef = some concat ∧ (data.op concat).code = .piece
  low : getIn data concat 1 = some lowvn
  high : getIn data concat 0 = some found.mainin
  atLeast : ((data.vn lowvn).size : Int) * 8 ≤ toI32 (data.vn found.savn).offset
  rest : found.shiftAmount = toI32 (data.vn found.savn).offset - (data.vn lowvn).size * 8

theorem find_matches (hfind : find data op = some found) : ∃ concat lowvn : Nat, found.Matches data op concat lowvn := by
  simp only [find, Option.bind_eq_bind, Option.bind_eq_some_iff, Option.guard_eq_some', exists_and_left, exists_const, Option.pure_def,
    Option.some.injEq] at hfind
  obtain ⟨savn, hsavn, shiftin, hshiftin, concat, hconcat, lowvn, hlow, hle, mainin, hmain, -, rfl⟩ := hfind
  exact ⟨concat, lowvn, constantIn_eq.mp hsavn, hshiftin, definedBy_eq.mp hconcat, hlow, hmain, hle, rfl⟩

theorem extcode_eq (signed : Bool) : (if rightCode signed = .intRight then OpCode.intZext else .intSext) = extCode signed := by
  cases signed with
  | false => rfl
  | true => rfl

section Edits

variable (h : WellSized data) (hout : (data.vn (data.op op).output).getDef = some op) {signed : Bool}
  (hcode : (data.op op).code = rightCode signed) (hin : (data.op op).inrefs = [found.shiftin, found.savn])
  (hx : found.mainin < data.numVarnodes)

include h hout hcode hin hx

theorem rewrite_whole (hzero : found.shiftAmount = 0) : Rewired data (rewrite data op found)
    [⟨op, (data.op op).output, outSize data op, extCode signed, [data.arg found.mainin]⟩] := by
  have hrew := (((Rewired.edit_first h hout).removeInput 1).setOpcode (extCode signed)).setOld hx 0
  simp only [entryOf, hin] at hrew
  rw [rewrite, hcode, extcode_eq]
  simp only [if_pos hzero]
  exact hrew

theorem rewrite_rest (hzero : found.shiftAmount ≠ 0) : ∃ newop newvn : Nat, data.numVarnodes ≤ newvn ∧ Rewired data (rewrite data op found) [
    ⟨op, (data.op op).output, outSize data op, rightCode signed,
      [.varnode newvn, .constant (data.vn found.savn).size (BitVec.ofInt 64 found.shiftAmount)]⟩,
    ⟨newop, newvn, (data.vn found.shiftin).size, extCode signed, [data.arg found.mainin]⟩] := by
  have hext := ((Rewired.edit_first h hout).newOut (extCode signed) (data.op op).addr (data.vn found.shiftin).size).setOld hx 0
  have hswap := hext.perm (List.Perm.swap _ _ [])
  have hrew := (hswap.setResult (List.mem_cons_of_mem _ List.mem_cons_self) 0).setConstant (data.vn found.savn).size
    (BitVec.ofInt 64 found.shiftAmount) 1
  simp only [entryOf, hin, hcode] at hrew
  rw [rewrite, hcode, extcode_eq]
  simp only [if_neg hzero]
  exact ⟨_, _, le_rfl, hrew⟩

end Edits

/-- The low part of a concatenation is shifted out. -/
theorem applyOp_extends (h : WellSized data) (hout : (data.vn (data.op op).output).getDef = some op)
    (hcode : (data.op op).code ∈ getOpList) (hin : getIn data op 0 = some a) (hsize : ByteSize (data.vn a).size)
    (hfits : AmountFits data op) (happly : applyOp data op = (1, data')) (val : Valuation sem data.toFuncdata noLeaf) :
    Extends val data' := by
  rw [applyOp] at happly
  split at happly
  · cases happly
  next found hfind =>
  obtain rfl := (Prod.mk.inj happly).2
  obtain ⟨concat, lowvn, hm⟩ := find_matches hfind
  obtain rfl : found.shiftin = a := Option.some.inj (hm.input.symm.trans hin)
  obtain ⟨signed, hsigned⟩ := exists_rightCode hcode
  have hinrefs := inrefs_two h hout hsigned (rightCode_mem signed).2 hm.input hm.amount.1
  have hw : Written data (data.op op).output (rightCode signed) [found.shiftin, found.savn] := ⟨op, hout, hsigned, hinrefs⟩
  have hw2 := written_two h hm.piece.1 hm.piece.2 (by decide) hm.high hm.low
  have hn : (data.vn found.shiftin).size = outSize data op := h.shift_size hw (rightCode_mem signed).1
  have hsum := (h.fit_two hw2).2.2.2 rfl
  have hs := hfits (by rw [hsigned]; exact (rightCode_mem signed).1) found.shiftin found.savn hinrefs hm.amount.2
  have hwidth := hsize.width_le
  have hamount : toI32 (data.vn found.savn).offset = (data.vn found.savn).offset.toNat := toI32_of_lt (by omega)
  have hle := hm.atLeast
  have hrest := hm.rest
  rw [hamount] at hle hrest
  have hmainlt := (hw2.lt h.toLegal).2 found.mainin (by simp)
  have hmainpos := h.positive found.mainin hmainlt
  obtain ⟨r, hr, hr64, hshift⟩ : ∃ r : Nat, found.shiftAmount = r ∧ r < 64 ∧ r = (data.vn found.savn).offset.toNat - 8 * (data.vn lowvn).size :=
    ⟨_, by omega, by omega, rfl⟩
  have hbits : val.bits (outSize data op) (data.op op).output = shiftRight signed
      (fillTo signed (val.bits (data.vn found.mainin).size found.mainin) (8 * outSize data op)) r := by
    rw [bits_rightCode (n := outSize data op) h hw hm.amount.2 val not_false rfl, h.bits_piece val not_false hn hw2 rfl rfl, hshift]
    exact shiftRight_piece signed _ _ (by omega) (by omega) (by omega)
  have hfit : (data.vn found.mainin).size ≤ outSize data op := by omega
  have hext := denotes_ext signed hfit (val.bits (data.vn found.mainin).size found.mainin)
  by_cases hzero : found.shiftAmount = 0
  · have hrew := rewrite_whole h hout hsigned hinrefs hmainlt hzero
    refine (hrew.extends_edited val h.toLegal rfl (fun _ hl => hl.elim) not_false (extCode_mem signed) (h.lt_of_def hout) rfl
      (fun w hw' => ?_) hext).mpr ?_
    · rw [List.map_cons, List.map_nil, hrew.operand_old hw' hmainlt rfl]
    · obtain rfl : r = 0 := by omega
      rw [shiftRight_zero] at hbits
      exact hbits
  · obtain ⟨newop, newvn, hnew, hrew⟩ := rewrite_rest h hout hsigned hinrefs hmainlt hzero
    have hconstpos := h.positive found.savn ((hw.lt h.toLegal).2 found.savn (by simp))
    rw [hr, hn] at hrew
    have hy := denotes_right signed (fillTo signed (val.bits (data.vn found.mainin).size found.mainin) (8 * outSize data op))
      ((BitVec.ofInt 64 (r : Int)).setWidth (8 * (data.vn found.savn).size))
    rw [toNat_amount hr64 hconstpos] at hy
    refine (hrew.extends_result val h.toLegal rfl hnew (fun _ hl => hl.elim) not_false
      (List.mem_append_left _ (rightCode_mem signed).2) (extCode_mem signed) (h.lt_of_def hout) rfl rfl
      (fun w hw' => ?_) hext (fun w hw' hresult => ?_) hy).mpr hbits
    · rw [List.map_cons, List.map_nil, hrew.operand_old hw' hmainlt rfl]
    · rw [List.map_cons, List.map_cons, List.map_nil, hresult]
      rfl

end Preservation

end RuleConcatShift

namespace RuleLeftRight

def getOpList : List OpCode := [.intRight, .intSright]

structure Found where
  shiftin : VarnodeId
  leftshift : OpId
  leftAmount : VarnodeId
  tsz : Int
deriving DecidableEq

section Rule

variable (data : Funcdata)

def find (op : OpId) : Option Found := do
  let savn ← constantIn data op 1
  let shiftin ← getIn data op 0
  let leftshift ← definedBy data shiftin .intLeft
  let leftAmount ← constantIn data leftshift 1
  let shiftAmount := (data.vn savn).offset
  guard ((data.vn leftAmount).offset = shiftAmount)
  guard (shiftAmount &&& 7 = 0)
  let isa := toI32 (shiftAmount >>> 3)
  let tsz := subI32 (data.vn shiftin).size isa
  guard (tsz = 1 ∨ tsz = 2 ∨ tsz = 4 ∨ tsz = 8)
  guard (data.loneDescend shiftin = some op)
  return { shiftin := shiftin, leftshift := leftshift, leftAmount := leftAmount, tsz := tsz }

/-- The inner shift becomes a truncation with an output of its own. -/
def rewrite (op : OpId) (found : Found) : Funcdata :=
  let constsize := (data.vn found.leftAmount).size
  let extcode := if (data.op op).code = .intSright then .intSext else .intZext
  let data := data.opUnsetInput op 0
  let data := data.opUnsetOutput found.leftshift
  let (newvn, data) := data.newUniqueOut found.tsz.toNat found.leftshift
  let data := data.opSetOpcode found.leftshift .subpiece
  let (zero, data) := data.newConstant constsize 0
  let data := data.opSetInput found.leftshift zero 1
  let data := data.opSetInput op newvn 0
  let data := data.opRemoveInput op 1
  data.opSetOpcode op extcode

def applyOp (op : OpId) : Int × Funcdata :=
  match find data op with
  | none => (0, data)
  | some found => (1, rewrite data op found)

end Rule

section Preservation

variable {sem : Semantics} {data data' : Funcdata} {op a : Nat} {found : Found}

/-- A shift up and one back, by the same number of bytes. -/
structure Found.Matches (found : Found) (data : Funcdata) (op savn x : Nat) : Prop where
  amount : getIn data op 1 = some savn ∧ (data.vn savn).isConstant = true
  input : getIn data op 0 = some found.shiftin
  left : (data.vn found.shiftin).getDef = some found.leftshift ∧ (data.op found.leftshift).code = .intLeft
  leftAmount : getIn data found.leftshift 1 = some found.leftAmount ∧ (data.vn found.leftAmount).isConstant = true
  same : (data.vn found.leftAmount).offset = (data.vn savn).offset
  bytes : (data.vn savn).offset &&& 7 = 0
  tsz : found.tsz = subI32 (data.vn found.shiftin).size (toI32 ((data.vn savn).offset >>> 3)) ∧
    (found.tsz = 1 ∨ found.tsz = 2 ∨ found.tsz = 4 ∨ found.tsz = 8)
  shifted : (data.op found.leftshift).inrefs = [x, found.leftAmount]

theorem find_matches (h : WellSized data) (hfind : find data op = some found) : ∃ savn x : Nat, found.Matches data op savn x := by
  simp only [find, Option.bind_eq_bind, Option.bind_eq_some_iff, Option.guard_eq_some', exists_and_left, exists_const, Option.pure_def,
    Option.some.injEq] at hfind
  obtain ⟨savn, hsavn, shiftin, hshiftin, leftshift, hleft, leftAmount, hleftAmount, hsame, hbytes, htsz, -, rfl⟩ := hfind
  obtain ⟨hdef, hcode⟩ := definedBy_eq.mp hleft
  obtain ⟨x, y, hin⟩ := h.inrefs_two hdef (by rw [hcode]; decide)
  have hamount := constantIn_eq.mp hleftAmount
  have hy := hamount.1
  rw [getIn, hin] at hy
  cases hy
  exact ⟨savn, x, constantIn_eq.mp hsavn, hshiftin, ⟨hdef, hcode⟩, hamount, hsame, hbytes, ⟨rfl, htsz⟩, hin⟩

theorem rewrite_rewired {signed : Bool} {savn x : Nat} (h : WellSized data) (hm : found.Matches data op savn x)
    (hout : (data.vn (data.op op).output).getDef = some op) (hcode : (data.op op).code = rightCode signed)
    (hin : (data.op op).inrefs = [found.shiftin, savn]) : ∃ newvn : Nat, data.numVarnodes ≤ newvn ∧ Rewired data (rewrite data op found) [
      ⟨op, (data.op op).output, outSize data op, extCode signed, [.varnode newvn]⟩,
      ⟨found.leftshift, newvn, found.tsz.toNat, .subpiece, [data.arg x, .constant (data.vn found.leftAmount).size 0]⟩] := by
  have hne : op ≠ found.leftshift := by
    rintro rfl
    rw [hm.left.2] at hcode
    revert hcode
    cases signed <;> decide
  have hboth := (Rewired.edit_first h hout).edit h.toLegal hm.left.1 fun e he => (List.mem_singleton.mp he) ▸ hne
  obtain ⟨f, hf⟩ := opUnsetInput_eq data op 0
  have hunset : Rewired data (data.opUnsetInput op 0) [entryOf data found.leftshift found.shiftin, entryOf data op (data.op op).output] := by
    rw [hf]
    exact hboth.grow (grown_refl h.blank rfl rfl rfl) rfl
  have houtput : ((data.opUnsetInput op 0).op found.leftshift).output = found.shiftin := by
    rw [hf]
    exact h.output _ _ hm.left.1
  have hout' := ((hunset.newOutput houtput found.tsz.toNat).setOpcode .subpiece).setConstant (data.vn found.leftAmount).size 0 1
  have hswap := hout'.perm (List.Perm.swap _ _ [])
  have hrew := ((hswap.setResult (List.mem_cons_of_mem _ List.mem_cons_self) 0).removeInput 1).setOpcode (extCode signed)
  simp only [entryOf, hin, hm.shifted] at hrew
  have hext : (if (data.op op).code = .intSright then OpCode.intSext else .intZext) = extCode signed := by
    rw [hcode]
    cases signed with
    | false => rfl
    | true => rfl
  rw [rewrite, hext]
  refine ⟨_, ?_, hrew⟩
  show data.numVarnodes ≤ ((data.opUnsetInput op 0).opUnsetOutput found.leftshift).numVarnodes
  rw [opUnsetOutput_numVarnodes, hf]

/-- A shift up and one back extend the lower part. -/
theorem applyOp_extends (h : WellSized data) (hout : (data.vn (data.op op).output).getDef = some op)
    (hcode : (data.op op).code ∈ getOpList) (hin : getIn data op 0 = some a) (hsize : ByteSize (data.vn a).size)
    (hfits : AmountFits data op) (happly : applyOp data op = (1, data')) (val : Valuation sem data.toFuncdata noLeaf) :
    Extends val data' := by
  rw [applyOp] at happly
  split at happly
  · cases happly
  next found hfind =>
  obtain rfl := (Prod.mk.inj happly).2
  obtain ⟨savn, x, hm⟩ := find_matches h hfind
  obtain rfl : found.shiftin = a := Option.some.inj (hm.input.symm.trans hin)
  obtain ⟨signed, hsigned⟩ := exists_rightCode hcode
  have hinrefs := inrefs_two h hout hsigned (rightCode_mem signed).2 hm.input hm.amount.1
  have hw : Written data (data.op op).output (rightCode signed) [found.shiftin, savn] := ⟨op, hout, hsigned, hinrefs⟩
  have hw2 : Written data found.shiftin .intLeft [x, found.leftAmount] := ⟨_, hm.left.1, hm.left.2, hm.shifted⟩
  have hn : (data.vn found.shiftin).size = outSize data op := h.shift_size hw (rightCode_mem signed).1
  have hx : (data.vn x).size = (data.vn found.shiftin).size := h.shift_size hw2 (by decide)
  have hs := hfits (by rw [hsigned]; exact (rightCode_mem signed).1) found.shiftin savn hinrefs hm.amount.2
  have hwidth := hsize.width_le
  -- the amount is a number of bytes
  obtain ⟨b, hb⟩ : ∃ b, (data.vn savn).offset.toNat = 8 * b := by
    have hlow := congrArg BitVec.toNat hm.bytes
    rw [BitVec.toNat_and] at hlow
    have hmod := Nat.and_two_pow_sub_one_eq_mod (data.vn savn).offset.toNat 3
    refine ⟨(data.vn savn).offset.toNat / 8, ?_⟩
    have hzero : (data.vn savn).offset.toNat % 2 ^ 3 = 0 := hmod.symm.trans hlow
    omega
  have hbytes : toI32 ((data.vn savn).offset >>> 3) = b := by
    have hval : ((data.vn savn).offset >>> 3).toNat = b := by
      rw [BitVec.toNat_ushiftRight, hb, Nat.shiftRight_eq_div_pow]
      omega
    rw [toI32_of_lt (by omega), hval]
  have htsz := hm.tsz.1
  rw [hbytes, RuleDoubleShift.subI32_of_lt (by omega) (by omega)] at htsz
  have htszle : found.tsz.toNat ≤ outSize data op := by omega
  have hbits : val.bits (outSize data op) (data.op op).output =
      fillTo signed ((val.bits (outSize data op) x).extractLsb' 0 (8 * found.tsz.toNat)) (8 * outSize data op) := by
    rw [bits_rightCode (n := outSize data op) h hw hm.amount.2 val not_false rfl, h.bits_left val not_false hn hw2 rfl,
      h.toNat_bits_constant val hm.leftAmount.2 rfl, hm.same]
    exact shiftRight_shiftLeft signed _ (by omega) (by omega)
  obtain ⟨newvn, hnew, hrew⟩ := rewrite_rewired h hm hout hsigned hinrefs
  have hlt := (hw2.lt h.toLegal).2 x (by simp)
  have hsub : OpCode.subpiece ∈ twoInputOps ++ oneInputOps := by decide
  have hzero : ((0 : Word).setWidth (8 * (data.vn found.leftAmount).size)).toNat = 0 := by
    rw [BitVec.toNat_setWidth]
    exact Nat.zero_mod _
  have hsubpiece := Denotes.subpiece found.tsz.toNat (val.bits (outSize data op) x) ((0 : Word).setWidth (8 * (data.vn found.leftAmount).size))
  rw [hzero, Nat.mul_zero] at hsubpiece
  refine (hrew.extends_result val h.toLegal rfl hnew (fun _ hl => hl.elim) not_false (extCode_mem signed) hsub (h.lt_of_def hout) rfl rfl
    (fun w hw' => ?_) hsubpiece (fun w hw' hresult => ?_) (denotes_ext signed htszle _)).mpr hbits
  · rw [List.map_cons, List.map_cons, List.map_nil, hrew.operand_old hw' hlt (hx.trans hn)]
    rfl
  · rw [List.map_cons, List.map_nil, hresult]

end Preservation

end RuleLeftRight

namespace RuleShiftCompare

def getOpList : List OpCode := [.intEqual, .intNotequal]

/-- The bits that are shifted out may have to be masked away. -/
inductive Replacement
  | plain (newconst : Word)
  | masked (newmask newconst : Word)
deriving DecidableEq

structure Found where
  constvn : VarnodeId
  mainvn : VarnodeId
  replacement : Replacement
deriving DecidableEq

/-- Whether the shift is to the left, and its amount. -/
def shiftOf (opc : OpCode) (val : Word) : Option (Bool × Int) :=
  match opc with
  | .intLeft => some (true, toI32 val)
  | .intRight => some (false, toI32 val)
  | .intMult => (powerOf2 val).map fun sa => (true, sa)
  | .intDiv => (powerOf2 val).map fun sa => (false, sa)
  | _ => none

def replace (isleft : Bool) (shiftAmount : Int) (constval nzmask : Word) (size : Nat) (lone : Bool) : Option Replacement :=
  if isleft then
    let newconst := wrappingShr constval shiftAmount
    if wrappingShl newconst shiftAmount ≠ constval then none
    else
      let tmp := wrappingShl nzmask shiftAmount &&& Pcode.calcMask size
      if wrappingShr tmp shiftAmount ≠ nzmask then
        if !lone then none else some (.masked (wrappingShl 1 (subI32 (8 * size) shiftAmount) - 1) newconst)
      else some (.plain newconst)
  else if wrappingShl (wrappingShr nzmask shiftAmount) shiftAmount ≠ nzmask then none
  else
    let newconst := wrappingShl constval shiftAmount &&& Pcode.calcMask size
    if wrappingShr newconst shiftAmount ≠ constval then none else some (.plain newconst)

section Rule

variable (data : Funcdata) (nz : VarnodeId → Word)

def find (op : OpId) : Option Found := do
  let shiftvn ← getIn data op 0
  let constvn ← constantIn data op 1
  let shiftop ← (data.vn shiftvn).getDef
  let savn ← constantIn data shiftop 1
  let (isleft, shiftAmount) ← shiftOf (data.op shiftop).code (data.vn savn).offset
  let lone := data.loneDescend shiftvn = some op
  guard (isleft ∨ lone)
  guard (shiftAmount ≠ 0)
  let mainvn ← getIn data shiftop 0
  guard !(data.vn mainvn).isFree
  guard ((data.vn mainvn).size ≤ 8)
  let replacement ← replace isleft shiftAmount (data.vn constvn).offset (nz mainvn) (data.vn shiftvn).size lone
  return { constvn := constvn, mainvn := mainvn, replacement := replacement }

def rewrite (op : OpId) (found : Found) : Funcdata :=
  let constsize := (data.vn found.constvn).size
  match found.replacement with
  | .masked newmask newconst =>
      let (newmaskvn, data) := data.newConstant constsize newmask
      let (newop, data) := data.newOp .intAnd (data.op op).addr
      let (newtmpvn, data) := data.newUniqueOut constsize newop
      let data := data.opSetInput newop found.mainvn 0
      let data := data.opSetInput newop newmaskvn 1
      let data := data.opSetInput op newtmpvn 0
      let (replacement, data) := data.newConstant constsize newconst
      data.opSetInput op replacement 1
  | .plain newconst =>
      let (newconstvn, data) := data.newConstant constsize newconst
      let data := data.opSetInput op found.mainvn 0
      data.opSetInput op newconstvn 1

def applyOp (op : OpId) : Int × Funcdata :=
  match find data nz op with
  | none => (0, data)
  | some found => (1, rewrite data op found)

end Rule

def compare (opc : OpCode) {w : Nat} (x y : BitVec w) : Bool := if opc = .intEqual then x == y else x != y

section Values

variable {n s : Nat} {opc : OpCode} {x : BitVec (8 * n)} {c nzmask : Word}

theorem denotes_compare (hopc : opc ∈ getOpList) (x y : BitVec (8 * n)) :
    Denotes opc [⟨n, x⟩, ⟨n, y⟩] 1 (some (truth (compare opc x y))) := by
  simp only [getOpList, List.mem_cons, List.not_mem_nil, or_false] at hopc
  rcases hopc with rfl | rfl
  · exact .intEqual x y
  · exact .intNotequal x y

theorem compare_congr {w : Nat} {x y x' y' : BitVec w} (h : x = y ↔ x' = y') : compare opc x y = compare opc x' y' := by
  have hbeq : (x == y) = (x' == y') := by
    rw [Bool.eq_iff_iff, beq_iff_eq, beq_iff_eq]
    exact h
  rw [compare, compare, bne, bne, hbeq]

/-- What is compared, and with what. -/
def Replacement.Says (x : BitVec (8 * n)) : Replacement → Prop
  | .plain newconst => x = newconst.setWidth (8 * n)
  | .masked newmask newconst => x &&& newmask.setWidth (8 * n) = newconst.setWidth (8 * n)

theorem setWidth_shr (hn : ByteSize n) (hc : c.toNat < 2 ^ (8 * n)) : (c >>> s).setWidth (8 * n) = c.setWidth (8 * n) >>> s := by
  apply BitVec.eq_of_toNat_eq
  have hdiv : c.toNat / 2 ^ s < 2 ^ (8 * n) := (Nat.div_le_self _ _).trans_lt hc
  rw [BitVec.toNat_setWidth, BitVec.toNat_ushiftRight, BitVec.toNat_ushiftRight, BitVec.toNat_setWidth, Nat.mod_eq_of_lt hc,
    Nat.shiftRight_eq_div_pow, Nat.mod_eq_of_lt hdiv]

theorem setWidth_shl (hn : ByteSize n) : (c <<< s).setWidth (8 * n) = c.setWidth (8 * n) <<< s :=
  BitVec.setWidth_shiftLeft_of_le hn.width_le

theorem setWidth_mask (hn : ByteSize n) : (c &&& Pcode.calcMask n).setWidth (8 * n) = c.setWidth (8 * n) := by
  have hwidth := hn.width_le
  apply BitVec.eq_of_getLsbD_eq
  intro i hi
  have hin : i < 64 := by omega
  simp only [BitVec.getLsbD_setWidth, BitVec.getLsbD_and, getLsbD_calcMask_any hn.1, hi, hin, and_self, decide_true, Bool.and_true]

theorem lowMask (hn : ByteSize n) (hs : s < 8 * n) (hpos : 0 < s) :
    (wrappingShl 1 (subI32 (8 * n) s) - 1 : Word).setWidth (8 * n) = BitVec.allOnes (8 * n) >>> s := by
  have hwidth := hn.width_le
  have hamount : (subI32 (8 * n) s % 64).toNat = 8 * n - s := by
    rw [subI32, Int.bmod_def]
    omega
  have hpow : 2 ^ (8 * n - s) < 2 ^ 64 := Nat.pow_lt_pow_right (by decide) (by omega)
  have hone : 0 < 2 ^ (8 * n - s) := Nat.two_pow_pos _
  have hval : (wrappingShl 1 (subI32 (8 * n) s) - 1 : Word).toNat = 2 ^ (8 * n - s) - 1 := by
    have hshift : (wrappingShl 1 (subI32 (8 * n) s)).toNat = 2 ^ (8 * n - s) := by
      rw [wrappingShl, hamount, BitVec.toNat_shiftLeft, Nat.shiftLeft_eq]
      exact (Nat.one_mul _).symm ▸ Nat.mod_eq_of_lt hpow
    have hle : (1 : Word) ≤ wrappingShl 1 (subI32 (8 * n) s) := by
      rw [BitVec.le_def, hshift]
      exact hone
    rw [BitVec.toNat_sub_of_le hle, hshift]
    rfl
  apply BitVec.eq_of_getLsbD_eq
  intro i hi
  rw [BitVec.getLsbD_setWidth, BitVec.getLsbD_ushiftRight, BitVec.getLsbD_allOnes, decide_eq_true hi, Bool.true_and, BitVec.getLsbD, hval,
    Nat.testBit_two_pow_sub_one, decide_eq_decide]
  omega

/-- The comparison of the shifted number is one of the number itself. -/
theorem replace_says {isleft lone : Bool} {replacement : Replacement} (hn : ByteSize n) (hs : s < 8 * n) (hpos : 0 < s)
    (hc : c.toNat < 2 ^ (8 * n)) (hnz : ∀ i, x.getLsbD i = true → nzmask.getLsbD i = true)
    (hreplace : replace isleft s c nzmask n lone = some replacement) :
    (if isleft then x <<< s else x >>> s) = c.setWidth (8 * n) ↔ replacement.Says x := by
  have hwidth := hn.width_le
  have hamount : ((s : Int) % 64).toNat = s := by omega
  rw [replace] at hreplace
  cases isleft with
  | true =>
      simp only [if_true, wrappingShr, wrappingShl, hamount] at hreplace ⊢
      split at hreplace
      · cases hreplace
      next hback =>
      have hback' : c.setWidth (8 * n) >>> s <<< s = c.setWidth (8 * n) := by
        rw [← setWidth_shr hn hc, ← setWidth_shl hn, not_not.mp hback]
      rw [shiftLeft_eq_iff hback', ← setWidth_shr hn hc]
      split at hreplace
      · split at hreplace
        · cases hreplace
        · cases hreplace
          rw [Replacement.Says, ← lowMask hn hs hpos, wrappingShl]
      · next hfit =>
          cases hreplace
          have hlow : x &&& BitVec.allOnes (8 * n) >>> s = x := by
            rw [and_low_eq_iff]
            intro i hbit
            have hset := hnz i hbit
            rw [← not_not.mp hfit, BitVec.getLsbD_ushiftRight, BitVec.getLsbD_and, Bool.and_eq_true, getLsbD_calcMask_any hn.1,
              decide_eq_true_iff] at hset
            omega
          rw [Replacement.Says, hlow]
  | false =>
      simp only [Bool.false_eq_true, if_false, wrappingShr, wrappingShl, hamount] at hreplace ⊢
      split at hreplace
      · cases hreplace
      next hlow =>
      split at hreplace
      · cases hreplace
      next hback =>
      cases hreplace
      have hx : x >>> s <<< s = x := by
        rw [high_eq_iff]
        intro i hi
        by_contra hbit
        have hset := hnz i (Bool.eq_true_of_not_eq_false hbit)
        rw [← not_not.mp hlow, BitVec.getLsbD_shiftLeft, decide_eq_true hi, Bool.not_true, Bool.and_false, Bool.false_and] at hset
        cases hset
      have hback' : c.setWidth (8 * n) <<< s >>> s = c.setWidth (8 * n) := by
        have hlt : (c <<< s &&& Pcode.calcMask n).toNat < 2 ^ (8 * n) := by
          rw [and_calcMask hn, BitWords.toNat_widen _ hwidth]
          exact BitVec.isLt _
        rw [← setWidth_shl hn, ← setWidth_mask hn, ← setWidth_shr hn hlt, not_not.mp hback]
      rw [ushiftRight_eq_iff hx hback', Replacement.Says, setWidth_mask hn, setWidth_shl hn]

end Values

section Preservation

variable {sem : Semantics} {data data' : Funcdata} {nz : VarnodeId → Word} {op a : Nat} {found : Found}

/-- A shift by a constant is compared with a constant. -/
structure Found.Matches (found : Found) (data : Funcdata) (nz : VarnodeId → Word) (op shiftvn shiftop savn : Nat) (isleft : Bool)
    (shiftAmount : Int) : Prop where
  input : getIn data op 0 = some shiftvn
  constant : getIn data op 1 = some found.constvn ∧ (data.vn found.constvn).isConstant = true
  shiftDef : (data.vn shiftvn).getDef = some shiftop
  amount : getIn data shiftop 1 = some savn ∧ (data.vn savn).isConstant = true
  shift : shiftOf (data.op shiftop).code (data.vn savn).offset = some (isleft, shiftAmount)
  nonzero : shiftAmount ≠ 0
  main : getIn data shiftop 0 = some found.mainvn
  size : (data.vn found.mainvn).size ≤ 8
  replacement : ∃ lone, replace isleft shiftAmount (data.vn found.constvn).offset (nz found.mainvn) (data.vn shiftvn).size lone =
    some found.replacement

theorem find_matches (hfind : find data nz op = some found) : ∃ (shiftvn shiftop savn : Nat) (isleft : Bool) (shiftAmount : Int),
    found.Matches data nz op shiftvn shiftop savn isleft shiftAmount := by
  simp only [find, Option.bind_eq_bind, Option.bind_eq_some_iff, Option.guard_eq_some', exists_and_left, exists_const, Option.pure_def,
    Option.some.injEq] at hfind
  obtain ⟨shiftvn, hshiftvn, constvn, hconstvn, shiftop, hshiftop, savn, hsavn, ⟨isleft, shiftAmount⟩, hshift, -, hnonzero, mainvn, hmain, -,
    hsize, replacement, hreplace, rfl⟩ := hfind
  exact ⟨shiftvn, shiftop, savn, isleft, shiftAmount, hshiftvn, constantIn_eq.mp hconstvn, hshiftop, constantIn_eq.mp hsavn, hshift, hnonzero,
    hmain, hsize, _, hreplace⟩

theorem shiftOf_shifts {v o b c n : Nat} {isleft : Bool} {sa : Int} (h : WellSized data) (hdef : (data.vn v).getDef = some o)
    (hb : getIn data o 0 = some b) (hc : getIn data o 1 = some c ∧ (data.vn c).isConstant = true) (hfits : AmountFits data o)
    (hshift : shiftOf (data.op o).code (data.vn c).offset = some (isleft, sa)) (hn : (data.vn v).size = n) (hsize : (data.vn b).size ≤ 8)
    (val : Valuation sem data.toFuncdata noLeaf) : (data.vn b).size = n ∧ ∃ s : Nat, s < 8 * n ∧ sa = s ∧
      val.bits n v = if isleft then val.bits n b <<< s else val.bits n b >>> s := by
  have hmem : (data.op o).code ∈ [OpCode.intLeft, .intRight, .intMult, .intDiv] := by
    rw [shiftOf.eq_def] at hshift
    split at hshift
    · next hcode => rw [hcode]; decide
    · next hcode => rw [hcode]; decide
    · next hcode => rw [hcode]; decide
    · next hcode => rw [hcode]; decide
    · cases hshift
  have hsub : ∀ opc ∈ [OpCode.intLeft, .intRight, .intMult, .intDiv], opc ∈ twoInputOps := by decide
  have hin := inrefs_two h hdef rfl (hsub _ hmem) hb hc.1
  simp only [List.mem_cons, List.not_mem_nil, or_false] at hmem
  rcases hmem with hcode | hcode | hcode | hcode
  · have hw : Written data v .intLeft [b, c] := ⟨o, hdef, hcode, hin⟩
    have hs := hfits (by rw [hcode]; decide) b c hin hc.2
    have hsizeb := h.shift_size hw (by decide)
    rw [hcode] at hshift
    cases hshift
    exact ⟨hsizeb.trans hn, _, by omega, toI32_of_lt (by omega), bits_shift h hw (.inl rfl) hc.2 val not_false hn⟩
  · have hw : Written data v .intRight [b, c] := ⟨o, hdef, hcode, hin⟩
    have hs := hfits (by rw [hcode]; decide) b c hin hc.2
    have hsizeb := h.shift_size hw (by decide)
    rw [hcode] at hshift
    cases hshift
    exact ⟨hsizeb.trans hn, _, by omega, toI32_of_lt (by omega), bits_shift h hw (.inr rfl) hc.2 val not_false hn⟩
  · have hw : Written data v .intMult [b, c] := ⟨o, hdef, hcode, hin⟩
    obtain ⟨hsizeb, hsizec⟩ := h.same_sizes hw (by decide)
    rw [hcode] at hshift
    obtain ⟨sa', hpow, heq⟩ := Option.map_eq_some_iff.mp hshift
    cases heq
    obtain ⟨s, -, hval, rfl⟩ := powerOf2_eq hpow
    obtain ⟨hlt, hbits⟩ := bits_power h hc.2 hval val (hsizec.trans hn)
    refine ⟨hsizeb.trans hn, s, hlt, rfl, ?_⟩
    rw [h.bits_mult val not_false hn hw, hbits, BitVec.mul_twoPow_eq_shiftLeft, if_pos rfl]
  · have hw : Written data v .intDiv [b, c] := ⟨o, hdef, hcode, hin⟩
    obtain ⟨hsizeb, hsizec⟩ := h.same_sizes hw (by decide)
    rw [hcode] at hshift
    obtain ⟨sa', hpow, heq⟩ := Option.map_eq_some_iff.mp hshift
    cases heq
    obtain ⟨s, -, hval, rfl⟩ := powerOf2_eq hpow
    obtain ⟨hlt, hbits⟩ := bits_power h hc.2 hval val (hsizec.trans hn)
    refine ⟨hsizeb.trans hn, s, hlt, rfl, ?_⟩
    have hword : (data.vn c).offset.setWidth (8 * n) = BitVec.twoPow (8 * n) s := by
      rw [← hbits, val.bits_constant (hsizec.trans hn) hc.2]
    have hne : BitVec.twoPow (8 * n) s ≠ 0#(8 * n) := by
      intro hzero
      have htoNat := congrArg BitVec.toNat hzero
      rw [BitVec.toNat_twoPow_of_lt hlt, BitVec.toNat_ofNat, Nat.zero_mod] at htoNat
      exact absurd htoNat (Nat.two_pow_pos s).ne'
    have hdiv : ∀ x : BitVec (8 * n), Denotes .intDiv [⟨n, x⟩, ⟨n, (data.vn c).offset.setWidth (8 * n)⟩] n (some (x >>> s)) := by
      intro x
      have hden := Denotes.intDiv x ((data.vn c).offset.setWidth (8 * n))
      rw [hword, if_neg hne, BitVec.udiv_twoPow_eq_of_lt hlt] at hden
      rw [hword]
      exact hden
    rw [if_neg (by decide)]
    exact val.bits_binary_constant hdiv (by decide) (by decide) hdef not_false hcode hin hn (hsizeb.trans hn) (hsizec.trans hn) hc.2 rfl

section Edits

variable {shiftvn n : Nat} (h : WellSized data) (hout : (data.vn (data.op op).output).getDef = some op)
  (hin : (data.op op).inrefs = [shiftvn, found.constvn]) (hx : found.mainvn < data.numVarnodes)
  (hc : (data.vn found.constvn).size = n)

include h hout hin hx hc

theorem rewrite_plain {newconst : Word} (hr : found.replacement = .plain newconst) : Rewired data (rewrite data op found)
    [⟨op, (data.op op).output, outSize data op, (data.op op).code, [data.arg found.mainvn, .constant n newconst]⟩] := by
  have hrew := (Rewired.edit_first h hout).setOldConstant hx n newconst 0 1
  simp only [entryOf, hin] at hrew
  rw [rewrite, hr, hc]
  exact hrew

theorem rewrite_masked {newmask newconst : Word} (hr : found.replacement = .masked newmask newconst) :
    ∃ newop newvn : Nat, data.numVarnodes ≤ newvn ∧ Rewired data (rewrite data op found) [
      ⟨op, (data.op op).output, outSize data op, (data.op op).code, [.varnode newvn, .constant n newconst]⟩,
      ⟨newop, newvn, n, .intAnd, [data.arg found.mainvn, .constant n newmask]⟩] := by
  have hmask := (Rewired.edit_first h hout).newConstant n newmask
  have hnew := hmask.newOut .intAnd (data.op op).addr n
  have hmasklt : data.numVarnodes < (data.newConstant n newmask).2.numVarnodes := Nat.lt_succ_self _
  have hset := hnew.setBoth (hnew.lt hx) (hmasklt.trans (Nat.lt_succ_self _)) 0 1
  rw [hnew.core.arg_eq hx, newOut_arg hmasklt, newConstant_arg] at hset
  have hswap := hset.perm (List.Perm.swap _ _ [])
  have hrew := (hswap.setResult (List.mem_cons_of_mem _ List.mem_cons_self) 0).setConstant n newconst 1
  simp only [entryOf, hin] at hrew
  rw [rewrite, hr, hc]
  exact ⟨_, _, hmasklt.le, hrew⟩

end Edits

/-- The shift goes away from a comparison. -/
theorem applyOp_extends (h : WellSized data) (hout : (data.vn (data.op op).output).getDef = some op)
    (hcode : (data.op op).code ∈ getOpList) (hin : getIn data op 0 = some a)
    (hfits : ∀ o : Nat, (data.vn a).getDef = some o → AmountFits data o) (happly : applyOp data nz op = (1, data'))
    (val : Valuation sem data.toFuncdata noLeaf) (hmask : ∀ v : Nat, WithinMask nz val v) : Extends val data' := by
  rw [applyOp] at happly
  split at happly
  · cases happly
  next found hfind =>
  obtain rfl := (Prod.mk.inj happly).2
  obtain ⟨shiftvn, shiftop, savn, isleft, shiftAmount, hm⟩ := find_matches hfind
  obtain rfl : shiftvn = a := Option.some.inj (hm.input.symm.trans hin)
  obtain ⟨lone, hreplace⟩ := hm.replacement
  have hsub : ∀ opc ∈ getOpList, opc ∈ twoInputOps ∧ opc ∈ compareOps := by decide
  have hinrefs := inrefs_two h hout rfl (hsub _ hcode).1 hm.input hm.constant.1
  have hw : Written data (data.op op).output (data.op op).code [shiftvn, found.constvn] := ⟨op, hout, rfl, hinrefs⟩
  obtain ⟨hsame, hout1⟩ := (h.fit_two hw).2.1 (hsub _ hcode).2
  obtain ⟨hmain, s, hs, hsa, hbits⟩ := shiftOf_shifts h hm.shiftDef hm.main hm.amount (hfits _ hm.shiftDef) hm.shift rfl hm.size val
  have hmainlt : found.mainvn < data.numVarnodes := h.inrefs shiftop (h.live _ _ hm.shiftDef) _ (List.mem_of_getElem? hm.main)
  have hpos := h.positive found.mainvn hmainlt
  have hsize8 := hm.size
  have hn : ByteSize (data.vn shiftvn).size := ⟨by omega, by omega⟩
  have hnonzero := hm.nonzero
  have hconst := (h.constant found.constvn hm.constant.2).2.2
  rw [← hsame] at hconst
  -- the mask covers what is compared
  have hnz : ∀ i, (val.bits (data.vn shiftvn).size found.mainvn).getLsbD i = true → (nz found.mainvn).getLsbD i = true := by
    intro i hbit
    have hwidth := hn.width_le
    have hi := BitVec.lt_of_getLsbD hbit
    exact (hmask found.mainvn).bit (by omega) hbit
  rw [hsa] at hreplace
  have hsays := replace_says hn hs (by omega) hconst hnz hreplace
  have hconstBits : val.bits (data.vn shiftvn).size found.constvn = (data.vn found.constvn).offset.setWidth _ :=
    val.bits_constant hsame.symm hm.constant.2
  have hvalue : val.bits 1 (data.op op).output = truth (compare (data.op op).code (val.bits (data.vn shiftvn).size shiftvn)
      ((data.vn found.constvn).offset.setWidth _)) := by
    rw [← hconstBits]
    exact h.bits_compare val not_false hw (hsub _ hcode).2 (fun x y => denotes_compare hcode x y) rfl
  have hmem := List.mem_append_left oneInputOps (hsub _ hcode).1
  cases hr : found.replacement with
  | plain newconst =>
      have hrew := rewrite_plain h hout hinrefs hmainlt hsame.symm hr
      rw [hr, Replacement.Says, ← hbits] at hsays
      have hy := denotes_compare hcode (val.bits (data.vn shiftvn).size found.mainvn) (newconst.setWidth (8 * (data.vn shiftvn).size))
      refine (hrew.extends_edited val h.toLegal rfl (fun _ hl => hl.elim) not_false hmem (h.lt_of_def hout) hout1 (fun w hw' => ?_) hy).mpr ?_
      · rw [List.map_cons, List.map_cons, List.map_nil, hrew.operand_old hw' hmainlt hmain]
        rfl
      · rw [hvalue, compare_congr hsays]
  | masked newmask newconst =>
      obtain ⟨newop, newvn, hnew, hrew⟩ := rewrite_masked h hout hinrefs hmainlt hsame.symm hr
      rw [hr, Replacement.Says, ← hbits] at hsays
      have hand : OpCode.intAnd ∈ twoInputOps ++ oneInputOps := by decide
      have hz := Denotes.intAnd (val.bits (data.vn shiftvn).size found.mainvn) (newmask.setWidth (8 * (data.vn shiftvn).size))
      have hy := denotes_compare hcode (val.bits (data.vn shiftvn).size found.mainvn &&& newmask.setWidth (8 * (data.vn shiftvn).size))
        (newconst.setWidth (8 * (data.vn shiftvn).size))
      refine (hrew.extends_result val h.toLegal rfl hnew (fun _ hl => hl.elim) not_false hmem hand (h.lt_of_def hout) hout1 rfl
        (fun w hw' => ?_) hz (fun w hw' hresult => ?_) hy).mpr ?_
      · rw [List.map_cons, List.map_cons, List.map_nil, hrew.operand_old hw' hmainlt hmain]
        rfl
      · rw [List.map_cons, List.map_cons, List.map_nil, hresult]
        rfl
      · rw [hvalue, compare_congr hsays]

end Preservation

end RuleShiftCompare

/-- The rules that put two shifts together. -/
inductive ShiftRule
  | doubleShift
  | doubleArithShift
  | concatShift
  | leftRight
  | shiftCompare

namespace ShiftRule

def getOpList : ShiftRule → List OpCode
  | .doubleShift => RuleDoubleShift.getOpList
  | .doubleArithShift => RuleDoubleArithShift.getOpList
  | .concatShift => RuleConcatShift.getOpList
  | .leftRight => RuleLeftRight.getOpList
  | .shiftCompare => RuleShiftCompare.getOpList

def applyOp (rule : ShiftRule) (data : Funcdata) (nz : VarnodeId → Word) (op : OpId) : Int × Funcdata :=
  match rule with
  | .doubleShift => RuleDoubleShift.applyOp data op
  | .doubleArithShift => RuleDoubleArithShift.applyOp data op
  | .concatShift => RuleConcatShift.applyOp data op
  | .leftRight => RuleLeftRight.applyOp data op
  | .shiftCompare => RuleShiftCompare.applyOp data nz op

variable {sem : Semantics} {data data' : Funcdata} {nz : VarnodeId → Word} {rule : ShiftRule} {op a : Nat}

def nestedVns : List RangeMeld.Varnode :=
  [inputVn 2, constantVn 4 12, { writtenVn 0 with size := 2 }, constantVn 4 8, { writtenVn 1 with size := 2 }]

def nestedOps : List RangeMeld.PcodeOp := [logicalOp .intLeft [0, 1] 2, logicalOp .intRight [2, 3] 4]

/-- A number of two bytes is shifted up by twelve bits and back by eight. -/
def nestedShifts : Funcdata := ofLists nestedVns nestedOps

end ShiftRule

end GhidraDecompiler.RuleAction
