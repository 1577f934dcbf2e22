import GhidraDecompiler.Lib.ShiftChains
import GhidraDecompiler.RuleAction.ShiftPiece

namespace GhidraDecompiler.RuleAction

open Pcode Dataflow BitWindows ShiftChains
open Expression (VarnodeId OpId)
open Editing (Funcdata)
open Editing.Funcdata
open Matching

namespace ShiftAmounts

/-- A multiplication by a power of two counts as a shift. -/
def powerOf2 (val : Word) : Option Int :=
  let sa := leastsigbitSet val
  if wrappingShr val sa = 1 then some sa else none

def subI32 (x y : Int) : Int := (x - y).bmod (2 ^ 32)

/-- A constant amount is less than the width of what is shifted. -/
def AmountFits (data : Funcdata) (op : Nat) : Prop := (data.op op).code ∈ shiftOps → ∀ a c : Nat, (data.op op).inrefs = [a, c] →
  (data.vn c).isConstant = true → (data.vn c).offset.toNat < 8 * (data.vn a).size

def shiftBy (opc : OpCode) {w : Nat} (x : BitVec w) (s : Nat) : BitVec w := if opc = .intLeft then x <<< s else x >>> s

section Amounts

variable {sem : Semantics} {data : Funcdata} {leaf : VarnodeId → Prop} {op v a c n s : Nat} {opc : OpCode} {sa : Int}

theorem toI32_of_lt {val : Word} (h : val.toNat < 64) : toI32 val = val.toNat := amount_of_lt (by omega)

/-- A constant amount as it is made. -/
theorem toNat_amount {k : Nat} (h : s < 64) (hk : 0 < k) : ((BitVec.ofInt 64 (s : Int)).setWidth (8 * k)).toNat = s := by
  have hpow : 2 ^ 8 ≤ 2 ^ (8 * k) := Nat.pow_le_pow_right (by decide) (by omega)
  have hword : (BitVec.ofInt 64 (s : Int)).toNat = s := by
    rw [BitVec.toNat_ofInt]
    omega
  rw [BitVec.toNat_setWidth, hword, Nat.mod_eq_of_lt (by omega)]

theorem powerOf2_eq {val : Word} (h : powerOf2 val = some sa) : ∃ s : Nat, s < 64 ∧ val.toNat = 2 ^ s ∧ sa = s := by
  simp only [powerOf2] at h
  split at h
  · next hone =>
      cases h
      have hpos : leastsigbitSet val ≥ 0 := by
        rw [leastsigbitSet] at hone ⊢
        by_cases hval : val = 0#64
        · rw [hval] at hone
          cases hone
        · rw [if_neg hval]
          exact Int.natCast_nonneg _
      exact RuleShiftPiece.eq_two_pow_of_leastsigbit hpos hone
  · cases h

theorem denotes_shift (hopc : opc = .intLeft ∨ opc = .intRight) {k : Nat} (x : BitVec (8 * n)) (y : BitVec (8 * k)) :
    Denotes opc [⟨n, x⟩, ⟨k, y⟩] n (some (shiftBy opc x y.toNat)) := by
  rcases hopc with rfl | rfl
  · exact .intLeft x y
  · exact .intRight x y

/-- A shift by a constant. -/
theorem bits_shift (h : WellSized data) (hw : Written data v opc [a, c]) (hopc : opc = .intLeft ∨ opc = .intRight)
    (hc : (data.vn c).isConstant = true) (val : Valuation sem data.toFuncdata leaf) (hleaf : ¬ leaf v) (hn : (data.vn v).size = n) :
    val.bits n v = shiftBy opc (val.bits n a) (data.vn c).offset.toNat := by
  rcases hopc with rfl | rfl
  · rw [h.bits_left val hleaf hn hw rfl, h.toNat_bits_constant val hc rfl]
    rfl
  · rw [h.bits_right val hleaf hn hw rfl, h.toNat_bits_constant val hc rfl]
    rfl

/-- A power of two in a number of this size. -/
theorem bits_power (h : WellSized data) (hc : (data.vn c).isConstant = true) (hs : (data.vn c).offset.toNat = 2 ^ s)
    (val : Valuation sem data.toFuncdata leaf) (hn : (data.vn c).size = n) : s < 8 * n ∧ val.bits n c = BitVec.twoPow (8 * n) s := by
  have hlt := (h.constant c hc).2.2
  rw [hs, hn] at hlt
  have hexp : s < 8 * n := (Nat.pow_lt_pow_iff_right (by decide)).mp hlt
  refine ⟨hexp, ?_⟩
  apply BitVec.eq_of_toNat_eq
  rw [h.toNat_bits_constant val hc hn, BitVec.toNat_twoPow, hs, Nat.mod_eq_of_lt hlt]

end Amounts

end ShiftAmounts

open ShiftAmounts

namespace RuleDoubleShift

def getOpList : List OpCode := [.intLeft, .intRight, .intMult]

/-- What becomes of the two shifts. -/
inductive Combined
  | shift (opc : OpCode) (amount : Int)
  | zero
  | masked (mask : Word) (diffsa : Int)
deriving DecidableEq

structure Found where
  secvn : VarnodeId
  secin : VarnodeId
  combined : Combined
deriving DecidableEq

/-- The opcode of the shift and its amount. -/
def shiftOf (opc : OpCode) (val : Word) : Option (OpCode × Int) :=
  if opc = .intMult then (powerOf2 val).map fun sa => (.intLeft, sa) else some (opc, toI32 val)

/-- The second op is applied first. -/
def combine (opc1 : OpCode) (sa1 : Int) (opc2 : OpCode) (sa2 : Int) (size : Nat) (lone : Bool) : Option Combined :=
  if opc1 = opc2 then
    if addI32 sa1 sa2 < 8 * size then some (.shift opc1 (addI32 sa1 sa2)) else some .zero
  else if size > 8 then none
  else
    let mask := Pcode.calcMask size
    if opc1 = .intLeft then
      if !lone then none
      else
        let diffsa := subI32 sa1 sa2
        if diffsa ≠ 0 then none else some (.masked (wrappingShl mask sa2 &&& mask) diffsa)
    else some (.masked (wrappingShr mask sa2 &&& mask) (subI32 sa2 sa1))

section Rule

variable (data : Funcdata)

def find (op : OpId) : Option Found := do
  let savn ← constantIn data op 1
  let secvn ← getIn data op 0
  let secop ← (data.vn secvn).getDef
  guard ((data.op secop).code ∈ getOpList)
  let savn2 ← constantIn data secop 1
  let secin ← getIn data secop 0
  guard (data.vn secin).isHeritageKnown
  let (opc1, sa1) ← shiftOf (data.op op).code (data.vn savn).offset
  let (opc2, sa2) ← shiftOf (data.op secop).code (data.vn savn2).offset
  let combined ← combine opc1 sa1 opc2 sa2 (data.vn secvn).size (data.loneDescend secvn).isSome
  return { secvn := secvn, secin := secin, combined := combined }

def rewrite (op : OpId) (found : Found) : Funcdata :=
  let size := (data.vn found.secvn).size
  match found.combined with
  | .shift opc amount =>
      let (newvn, data) := data.newConstant 4 (BitVec.ofInt 64 amount)
      let data := data.opSetOpcode op opc
      let data := data.opSetInput op found.secin 0
      data.opSetInput op newvn 1
  | .zero =>
      let (newvn, data) := data.newConstant size 0
      let data := data.opSetOpcode op .copy
      let data := data.opSetInput op newvn 0
      data.opRemoveInput op 1
  | .masked mask diffsa =>
      if diffsa = 0 then
        let (newvn, data) := data.newConstant size mask
        let data := data.opSetOpcode op .intAnd
        let data := data.opSetInput op found.secin 0
        data.opSetInput op newvn 1
      else
        let (newAnd, data) := data.newOp .intAnd (data.op op).addr
        let data := data.opSetInput newAnd found.secin 0
        let (maskvn, data) := data.newConstant size mask
        let data := data.opSetInput newAnd maskvn 1
        let (newOut, data) := data.newUniqueOut size newAnd
        let data := data.opSetOpcode op (if diffsa < 0 then .intRight else .intLeft)
        let data := data.opSetInput op newOut 0
        let (amount, data) := data.newConstant 4 (BitVec.ofInt 64 (if diffsa < 0 then subI32 0 diffsa else diffsa))
        data.opSetInput op amount 1

def applyOp (op : OpId) : Int × Funcdata :=
  match find data op with
  | none => (0, data)
  | some found => (1, rewrite data op found)

end Rule

section Matches

variable {data : Funcdata} {op n : Nat} {found : Found}

/-- What was found, with the two amounts. -/
structure Found.Matches (found : Found) (data : Funcdata) (op secop savn savn2 : Nat) (opc1 opc2 : OpCode) (sa1 sa2 : Int) : Prop where
  amount : getIn data op 1 = some savn ∧ (data.vn savn).isConstant = true
  input : getIn data op 0 = some found.secvn
  secDef : (data.vn found.secvn).getDef = some secop
  secCode : (data.op secop).code ∈ getOpList
  secAmount : getIn data secop 1 = some savn2 ∧ (data.vn savn2).isConstant = true
  secInput : getIn data secop 0 = some found.secin
  first : shiftOf (data.op op).code (data.vn savn).offset = some (opc1, sa1)
  second : shiftOf (data.op secop).code (data.vn savn2).offset = some (opc2, sa2)
  combined : combine opc1 sa1 opc2 sa2 (data.vn found.secvn).size (data.loneDescend found.secvn).isSome = some found.combined

theorem find_matches (hfind : find data op = some found) : ∃ (secop savn savn2 : Nat) (opc1 opc2 : OpCode) (sa1 sa2 : Int),
    found.Matches data op secop savn savn2 opc1 opc2 sa1 sa2 := by
  simp only [find, Option.bind_eq_bind, Option.bind_eq_some_iff, Option.guard_eq_some', exists_and_left, exists_const, Option.pure_def,
    Option.some.injEq] at hfind
  obtain ⟨savn, hsavn, secvn, hsecvn, secop, hsecop, hcode, savn2, hsavn2, secin, hsecin, -, ⟨opc1, sa1⟩, hfirst, ⟨opc2, sa2⟩, hsecond,
    combined, hcombined, rfl⟩ := hfind
  exact ⟨secop, savn, savn2, opc1, opc2, sa1, sa2, constantIn_eq.mp hsavn, hsecvn, hsecop, hcode, constantIn_eq.mp hsavn2, hsecin,
    hfirst, hsecond, hcombined⟩

/-- The op is a shift by an amount that is less than the width. -/
theorem shiftOf_shifts {v a c : Nat} {opc dir : OpCode} {sa : Int} (h : WellSized data) (hdef : (data.vn v).getDef = some op)
    (hcode : (data.op op).code = opc) (hopc : opc ∈ getOpList) (hin : (data.op op).inrefs = [a, c])
    (hc : (data.vn c).isConstant = true) (hfits : AmountFits data op) (hn : (data.vn v).size = n) (hsize : ByteSize n)
    (hshift : shiftOf opc (data.vn c).offset = some (dir, sa)) : (data.vn a).size = n ∧ (dir = .intLeft ∨ dir = .intRight) ∧
      ∃ s : Nat, s < 8 * n ∧ sa = s ∧ ∀ {sem : Semantics} {leaf : VarnodeId → Prop} (val : Valuation sem data.toFuncdata leaf),
        ¬ leaf v → val.bits n v = shiftBy dir (val.bits n a) s := by
  have hw : Written data v opc [a, c] := ⟨op, hdef, hcode, hin⟩
  rw [shiftOf] at hshift
  split at hshift
  · next hmult =>
      subst hmult
      obtain ⟨sa', hpow, heq⟩ := Option.map_eq_some_iff.mp hshift
      cases heq
      obtain ⟨hsizea, hsizec⟩ := h.same_sizes hw (by decide)
      obtain ⟨s, -, hval, rfl⟩ := powerOf2_eq hpow
      have hlt := (h.constant c hc).2.2
      rw [hval, hsizec, hn] at hlt
      refine ⟨hsizea.trans hn, .inl rfl, s, (Nat.pow_lt_pow_iff_right (by decide)).mp hlt, rfl, fun val hleaf => ?_⟩
      obtain ⟨-, hbits⟩ := bits_power h hc hval val (hsizec.trans hn)
      rw [h.bits_mult val hleaf hn hw, hbits, BitVec.mul_twoPow_eq_shiftLeft]
      rfl
  · next hne =>
      cases hshift
      have hdir : opc = .intLeft ∨ opc = .intRight := by
        simp only [getOpList, List.mem_cons, List.not_mem_nil, or_false] at hopc
        tauto
      have hmem : opc ∈ shiftOps := by
        rcases hdir with rfl | rfl
        · decide
        · decide
      have hsizea := h.shift_size hw hmem
      have hamount := hfits (hcode ▸ hmem) a c hin hc
      have hwidth := hsize.width_le
      refine ⟨hsizea.trans hn, hdir, (data.vn c).offset.toNat, ?_, toI32_of_lt (by omega), fun val hleaf => ?_⟩
      · omega
      · exact bits_shift h hw hdir hc val hleaf hn

end Matches

section Values

variable {n : Nat}

/-- What the op computes from the input of the inner shift. -/
def Combined.value (x : BitVec (8 * n)) : Combined → BitVec (8 * n)
  | .shift opc amount => shiftBy opc x amount.toNat
  | .zero => 0#_
  | .masked mask diffsa => shiftBy (if diffsa < 0 then .intRight else .intLeft) (x &&& mask.setWidth _) diffsa.natAbs

/-- The amounts that are made. -/
def Combined.Small : Combined → Prop
  | .shift opc amount => (opc = .intLeft ∨ opc = .intRight) ∧ ∃ s : Nat, s < 64 ∧ amount = s
  | .zero => True
  | .masked _ diffsa => diffsa.natAbs < 64

theorem addI32_of_lt {s t : Nat} (hs : s < 64) (ht : t < 64) : addI32 s t = (s + t : Nat) := by
  rw [addI32, Int.bmod_def]
  omega

theorem subI32_of_lt {s t : Nat} (hs : s < 64) (ht : t < 64) : subI32 s t = (s : Int) - t := by
  rw [subI32, Int.bmod_def]
  omega

theorem shl_mask {s : Nat} (hn : ByteSize n) (hs : s < 64) :
    (wrappingShl (Pcode.calcMask n) (s : Int) &&& Pcode.calcMask n).setWidth (8 * n) = BitVec.allOnes (8 * n) <<< s := by
  have hamount : ((s : Int) % 64).toNat = s := by omega
  have hwidth := hn.width_le
  rw [wrappingShl, hamount]
  apply BitVec.eq_of_getLsbD_eq
  intro i hi
  simp only [BitVec.getLsbD_setWidth, BitVec.getLsbD_and, BitVec.getLsbD_shiftLeft, getLsbD_calcMask_any hn.1, BitVec.getLsbD_allOnes, hi,
    decide_true, Bool.true_and]
  by_cases hlow : i < s
  · simp only [hlow, decide_true, Bool.not_true, Bool.and_false, Bool.false_and]
  · have hin : i - s < 64 ∧ i - s < 8 * n := by omega
    have hin' : i < 64 := by omega
    simp only [hin, hin', hlow, and_self, decide_true, decide_false, Bool.not_false, Bool.and_self]

theorem shr_mask {s : Nat} (hn : ByteSize n) (hs : s < 64) :
    (wrappingShr (Pcode.calcMask n) (s : Int) &&& Pcode.calcMask n).setWidth (8 * n) = BitVec.allOnes (8 * n) >>> s := by
  have hamount : ((s : Int) % 64).toNat = s := by omega
  have hwidth := hn.width_le
  rw [wrappingShr, hamount]
  apply BitVec.eq_of_getLsbD_eq
  intro i hi
  simp only [BitVec.getLsbD_setWidth, BitVec.getLsbD_and, BitVec.getLsbD_ushiftRight, getLsbD_calcMask_any hn.1, BitVec.getLsbD_allOnes, hi,
    decide_true, Bool.true_and]
  by_cases hhigh : s + i < 8 * n
  · have hin : s + i < 64 := by omega
    have hin' : i < 64 := by omega
    simp only [hin, hin', hhigh, and_self, decide_true, Bool.and_self]
  · simp only [hhigh, and_false, decide_false, Bool.false_and]

/-- Two shifts are one, or one of the masked number. -/
theorem combine_value {opc1 opc2 : OpCode} {s t : Nat} {lone : Bool} {combined : Combined} (hn : ByteSize n)
    (h1 : opc1 = .intLeft ∨ opc1 = .intRight) (h2 : opc2 = .intLeft ∨ opc2 = .intRight) (hs : s < 8 * n) (ht : t < 8 * n)
    (hcombine : combine opc1 s opc2 t n lone = some combined) : combined.Small ∧
      ∀ x : BitVec (8 * n), combined.value x = shiftBy opc1 (shiftBy opc2 x t) s := by
  have hwidth := hn.width_le
  have hs' : s < 64 := by omega
  have ht' : t < 64 := by omega
  simp only [combine] at hcombine
  split at hcombine
  · next heq =>
      subst heq
      rw [addI32_of_lt hs' ht'] at hcombine
      split at hcombine
      · next hlt =>
          cases hcombine
          refine ⟨⟨h1, s + t, by omega, rfl⟩, fun x => ?_⟩
          rw [Combined.value, Int.toNat_natCast, Nat.add_comm]
          rcases h1 with rfl | rfl
          · exact BitVec.shiftLeft_add _ _ _
          · exact BitVec.shiftRight_add _ _ _
      · next hge =>
          cases hcombine
          refine ⟨trivial, fun x => ?_⟩
          rcases h1 with rfl | rfl
          · exact (shiftLeft_shiftLeft (by omega)).symm
          · exact (ushiftRight_ushiftRight (by omega)).symm
  · next hne =>
      rw [if_neg (by omega), subI32_of_lt hs' ht', subI32_of_lt ht' hs'] at hcombine
      rcases h1 with rfl | rfl
      · have h2' : opc2 = .intRight := h2.resolve_left fun h => hne h.symm
        subst h2'
        rw [if_pos rfl] at hcombine
        split at hcombine
        · cases hcombine
        · split at hcombine
          · cases hcombine
          · next hzero =>
              cases hcombine
              have heq : t = s := by omega
              subst heq
              refine ⟨by rw [Combined.Small]; omega, fun x => ?_⟩
              rw [Combined.value, shl_mask hn ht', if_neg (by omega), Int.sub_self]
              show (x &&& _) <<< 0 = x >>> t <<< t
              rw [BitVec.shiftLeft_zero, BitVec.shiftLeft_ushiftRight]
      · have h2' : opc2 = .intLeft := h2.resolve_right fun h => hne h.symm
        subst h2'
        rw [if_neg (by decide)] at hcombine
        cases hcombine
        refine ⟨by rw [Combined.Small]; omega, fun x => ?_⟩
        rw [Combined.value, shr_mask hn ht']
        by_cases hle : s ≤ t
        · have habs : ((t : Int) - s).natAbs = t - s := by omega
          rw [if_neg (by omega), habs]
          exact (shiftLeft_ushiftRight_eq_left hle).symm
        · have habs : ((t : Int) - s).natAbs = s - t := by omega
          rw [if_pos (by omega), habs]
          exact (shiftLeft_ushiftRight_eq_right (by omega)).symm

end Values

section Preservation

variable {sem : Semantics} {data data' : Funcdata} {leaf : VarnodeId → Prop} {op a c n : Nat} {found : Found}

section Edits

variable (h : WellSized data) (hout : (data.vn (data.op op).output).getDef = some op) (hin : (data.op op).inrefs = [a, c])
  (hx : found.secin < data.numVarnodes)

include h hout hin hx

theorem rewrite_shift {opc : OpCode} {amount : Int} (hcombined : found.combined = .shift opc amount) :
    Rewired data (rewrite data op found) [⟨op, (data.op op).output, outSize data op, opc,
      [data.arg found.secin, .constant 4 (BitVec.ofInt 64 amount)]⟩] := by
  have hrew := ((Rewired.edit_first h hout).setOpcode opc).setOldConstant hx 4 (BitVec.ofInt 64 amount) 0 1
  simp only [entryOf, hin] at hrew
  rw [rewrite, hcombined]
  exact hrew

omit hx in
theorem rewrite_zero (hcombined : found.combined = .zero) : Rewired data (rewrite data op found)
    [⟨op, (data.op op).output, outSize data op, .copy, [.constant (data.vn found.secvn).size 0]⟩] := by
  have hrew := (((Rewired.edit_first h hout).setOpcode .copy).setConstant (data.vn found.secvn).size 0 0).removeInput 1
  simp only [entryOf, hin] at hrew
  rw [rewrite, hcombined]
  exact hrew

theorem rewrite_mask {mask : Word} (hcombined : found.combined = .masked mask 0) : Rewired data (rewrite data op found)
    [⟨op, (data.op op).output, outSize data op, .intAnd, [data.arg found.secin, .constant (data.vn found.secvn).size mask]⟩] := by
  have hrew := ((Rewired.edit_first h hout).setOpcode .intAnd).setOldConstant hx (data.vn found.secvn).size mask 0 1
  simp only [entryOf, hin] at hrew
  rw [rewrite, hcombined]
  exact hrew

theorem rewrite_masked {mask : Word} {diffsa : Int} (hcombined : found.combined = .masked mask diffsa) (hdiff : diffsa ≠ 0) :
    ∃ newop newvn : Nat, data.numVarnodes ≤ newvn ∧ Rewired data (rewrite data op found) [
      ⟨op, (data.op op).output, outSize data op, if diffsa < 0 then .intRight else .intLeft,
        [.varnode newvn, .constant 4 (BitVec.ofInt 64 (if diffsa < 0 then subI32 0 diffsa else diffsa))]⟩,
      ⟨newop, newvn, (data.vn found.secvn).size, .intAnd, [data.arg found.secin, .constant (data.vn found.secvn).size mask]⟩] := by
  have hpending := (newOp_pending h.blank .intAnd (data.op op).addr).setInput (x := found.secin) hx 0
  have hconst := hpending.newConstant (data.vn found.secvn).size mask
  have hset := hconst.setInput (Nat.lt_succ_self _) 1
  rw [newConstant_arg] at hset
  have hout' := (Rewired.edit_first h hout).pendingOut hset (data.vn found.secvn).size
  have hswap := hout'.perm (List.Perm.swap _ _ [])
  have hrew := ((hswap.setOpcode (if diffsa < 0 then .intRight else .intLeft)).setResult (List.mem_cons_of_mem _ List.mem_cons_self) 0).setConstant 4
    (BitVec.ofInt 64 (if diffsa < 0 then subI32 0 diffsa else diffsa)) 1
  simp only [entryOf, hin] at hrew
  rw [rewrite, hcombined]
  simp only [if_neg hdiff]
  exact ⟨_, _, hset.numVarnodes, hrew⟩

end Edits

theorem rewrite_extends_iff (h : WellSized data) (hout : (data.vn (data.op op).output).getDef = some op)
    (hin : (data.op op).inrefs = [a, c]) (hn : outSize data op = n) (hsec : (data.vn found.secvn).size = n)
    (hx : found.secin < data.numVarnodes) (hsize : (data.vn found.secin).size = n) (hsmall : found.combined.Small)
    (val : Valuation sem data.toFuncdata noLeaf) :
    Extends val (rewrite data op found) ↔ val.bits n (data.op op).output = found.combined.value (val.bits n found.secin) := by
  have hlt := h.lt_of_def hout
  have hdir : ∀ b : Prop, [Decidable b] → (if b then OpCode.intRight else .intLeft) = .intLeft ∨ (if b then OpCode.intRight else .intLeft) = .intRight := by
    intro b _
    split
    · exact .inr rfl
    · exact .inl rfl
  have hmem : ∀ opc, opc = OpCode.intLeft ∨ opc = .intRight → opc ∈ twoInputOps ++ oneInputOps := by
    rintro opc (rfl | rfl)
    · decide
    · decide
  have hcopy : OpCode.copy ∈ twoInputOps ++ oneInputOps := by decide
  have hand : OpCode.intAnd ∈ twoInputOps ++ oneInputOps := by decide
  cases hcombined : found.combined with
  | shift opc amount =>
      rw [hcombined] at hsmall
      obtain ⟨hopc, s, hs, rfl⟩ := hsmall
      have hrew := rewrite_shift h hout hin hx hcombined
      have hy := denotes_shift hopc (val.bits n found.secin) ((BitVec.ofInt 64 (s : Int)).setWidth (8 * 4))
      rw [toNat_amount hs (by decide)] at hy
      refine hrew.extends_edited val h.toLegal rfl (fun _ hl => hl.elim) not_false (hmem opc hopc) hlt hn (fun w hw => ?_) hy
      rw [List.map_cons, List.map_cons, List.map_nil, hrew.operand_old hw hx hsize]
      rfl
  | zero =>
      have hrew := rewrite_zero h hout hin hcombined
      rw [hsec] at hrew
      refine hrew.extends_edited val h.toLegal rfl (fun _ hl => hl.elim) not_false hcopy hlt hn (fun w hw => ?_) (.copy 0#_)
      rw [List.map_cons, List.map_nil, Arg.operand]
      congr 2
      exact BitVec.setWidth_zero _ _
  | masked mask diffsa =>
      rw [hcombined] at hsmall
      by_cases hzero : diffsa = 0
      · subst hzero
        have hrew := rewrite_mask h hout hin hx hcombined
        rw [hsec] at hrew
        have hvalue : (Combined.masked mask 0).value (val.bits n found.secin) = val.bits n found.secin &&& mask.setWidth (8 * n) :=
          BitVec.shiftLeft_zero _
        rw [hvalue]
        refine hrew.extends_edited val h.toLegal rfl (fun _ hl => hl.elim) not_false hand hlt hn (fun w hw => ?_) (.intAnd _ _)
        rw [List.map_cons, List.map_cons, List.map_nil, hrew.operand_old hw hx hsize]
        rfl
      · obtain ⟨newop, newvn, hnew, hrew⟩ := rewrite_masked h hout hin hx hcombined hzero
        rw [hsec] at hrew
        have hamount : (if diffsa < 0 then subI32 0 diffsa else diffsa) = diffsa.natAbs := by
          split
          · rw [subI32, Int.bmod_def]
            rw [Combined.Small] at hsmall
            omega
          · omega
        rw [hamount] at hrew
        have hy := denotes_shift (hdir (diffsa < 0)) (val.bits n found.secin &&& mask.setWidth (8 * n))
          ((BitVec.ofInt 64 (diffsa.natAbs : Int)).setWidth (8 * 4))
        rw [toNat_amount hsmall (by decide)] at hy
        refine hrew.extends_result val h.toLegal rfl hnew (fun _ hl => hl.elim) not_false (hmem _ (hdir (diffsa < 0))) hand hlt hn rfl
          (fun w hw => ?_) (.intAnd (val.bits n found.secin) (mask.setWidth (8 * n))) (fun w hw hresult => ?_) hy
        · rw [List.map_cons, List.map_cons, List.map_nil, hrew.operand_old hw hx hsize]
          rfl
        · rw [List.map_cons, List.map_cons, List.map_nil, hresult]
          rfl

/-- Two shifts become one. -/
theorem applyOp_extends (h : WellSized data) (hout : (data.vn (data.op op).output).getDef = some op)
    (hcode : (data.op op).code ∈ getOpList) (hin : getIn data op 0 = some a) (hsize : ByteSize (data.vn a).size)
    (hfits : AmountFits data op) (hfits' : ∀ o : Nat, (data.vn a).getDef = some o → AmountFits data o)
    (happly : applyOp data op = (1, data')) (val : Valuation sem data.toFuncdata noLeaf) : Extends val data' := by
  rw [applyOp] at happly
  split at happly
  · cases happly
  next found hfind =>
  obtain rfl := (Prod.mk.inj happly).2
  obtain ⟨secop, savn, savn2, opc1, opc2, sa1, sa2, hm⟩ := find_matches hfind
  have hsub : ∀ opc ∈ getOpList, opc ∈ twoInputOps := by decide
  have hinrefs := inrefs_two h hout rfl (hsub _ hcode) hm.input hm.amount.1
  have hinrefs' := inrefs_two h hm.secDef rfl (hsub _ hm.secCode) hm.secInput hm.secAmount.1
  obtain rfl : found.secvn = a := Option.some.inj (hm.input.symm.trans hin)
  have hone : ∀ opc ∈ getOpList, opc ∈ sameSizeOps ++ logicOps ∨ opc ∈ shiftOps := by decide
  have hn : (data.vn found.secvn).size = outSize data op := by
    rcases hone _ hcode with hmem | hmem
    · exact (h.same_sizes ⟨op, hout, rfl, hinrefs⟩ hmem).1
    · exact h.shift_size ⟨op, hout, rfl, hinrefs⟩ hmem
  obtain ⟨-, hdir1, s, hs, rfl, hval1⟩ := shiftOf_shifts h hout rfl hcode hinrefs hm.amount.2 hfits hn.symm hsize hm.first
  obtain ⟨hsecin, hdir2, t, ht, rfl, hval2⟩ :=
    shiftOf_shifts h hm.secDef rfl hm.secCode hinrefs' hm.secAmount.2 (hfits' _ hm.secDef) rfl hsize hm.second
  obtain ⟨hsmall, hvalue⟩ := combine_value hsize hdir1 hdir2 hs ht hm.combined
  have hlt : found.secin < data.numVarnodes := h.inrefs secop (h.live _ _ hm.secDef) _ (by rw [hinrefs']; exact List.mem_cons_self)
  rw [rewrite_extends_iff h hout hinrefs hn.symm rfl hlt hsecin hsmall val, hval1 val not_false, hval2 val not_false, hvalue]

end Preservation

end RuleDoubleShift

namespace RuleDoubleArithShift

def getOpList : List OpCode := [.intSright]

structure Found where
  inVn : VarnodeId
  shiftAmount : Int
deriving DecidableEq

section Rule

variable (data : Funcdata)

def find (op : OpId) : Option Found := do
  let constD ← constantIn data op 1
  let shiftin ← getIn data op 0
  let shift2op ← definedBy data shiftin .intSright
  let constC ← constantIn data shift2op 1
  let inVn ← getIn data shift2op 0
  guard !(data.vn inVn).isFree
  let max : Int := outSize data op * 8 - 1
  let shiftAmount := addI32 (toI32 (data.vn constC).offset) (toI32 (data.vn constD).offset)
  guard (0 < shiftAmount)
  return { inVn := inVn, shiftAmount := if shiftAmount > max then max else shiftAmount }

def applyOp (op : OpId) : Int × Funcdata :=
  match find data op with
  | none => (0, data)
  | some found =>
      let data := data.opSetInput op found.inVn 0
      let (newconst, data) := data.newConstant 4 (BitVec.ofInt 64 found.shiftAmount)
      (1, data.opSetInput op newconst 1)

end Rule

section Preservation

variable {sem : Semantics} {data data' : Funcdata} {op a : Nat}

/-- Two arithmetic shifts become one. -/
theorem applyOp_extends (h : WellSized data) (hout : (data.vn (data.op op).output).getDef = some op)
    (hcode : (data.op op).code ∈ getOpList) (hin : getIn data op 0 = some a) (hsize : ByteSize (data.vn a).size)
    (hfits : AmountFits data op) (hfits' : ∀ o : Nat, (data.vn a).getDef = some o → AmountFits data o)
    (happly : applyOp data op = (1, data')) (val : Valuation sem data.toFuncdata noLeaf) : Extends val data' := by
  rw [applyOp] at happly
  split at happly
  · cases happly
  next found hfind =>
  obtain rfl := (Prod.mk.inj happly).2
  simp only [find, Option.bind_eq_bind, Option.bind_eq_some_iff, Option.guard_eq_some', exists_and_left, exists_const, Option.pure_def,
    Option.some.injEq] at hfind
  obtain ⟨constD, hconstD, shiftin, hshiftin, shift2op, hshift2, constC, hconstC, inVn, hinVn, -, hpos, rfl⟩ := hfind
  obtain rfl : shiftin = a := Option.some.inj (hshiftin.symm.trans hin)
  obtain ⟨hinD, hD⟩ := constantIn_eq.mp hconstD
  obtain ⟨hinC, hC⟩ := constantIn_eq.mp hconstC
  obtain ⟨hdef, hcode2⟩ := definedBy_eq.mp hshift2
  rw [getOpList, List.mem_singleton] at hcode
  have hinrefs := inrefs_two h hout hcode (by decide) hshiftin hinD
  have hinrefs2 := inrefs_two h hdef hcode2 (by decide) hinVn hinC
  have hw : Written data (data.op op).output .intSright [shiftin, constD] := ⟨op, hout, hcode, hinrefs⟩
  have hw2 : Written data shiftin .intSright [inVn, constC] := ⟨shift2op, hdef, hcode2, hinrefs2⟩
  have hn : (data.vn shiftin).size = outSize data op := h.shift_size hw (by decide)
  have hn2 : (data.vn inVn).size = (data.vn shiftin).size := h.shift_size hw2 (by decide)
  have hwidth := hsize.width_le
  have hs := hfits (by rw [hcode]; decide) shiftin constD hinrefs hD
  have ht := hfits' shift2op hdef (by rw [hcode2]; decide) inVn constC hinrefs2 hC
  rw [hn2] at ht
  have hsum : addI32 (toI32 (data.vn constC).offset) (toI32 (data.vn constD).offset) =
      ((data.vn constC).offset.toNat + (data.vn constD).offset.toNat : Nat) := by
    rw [toI32_of_lt (by omega), toI32_of_lt (by omega), RuleDoubleShift.addI32_of_lt (by omega) (by omega)]
  obtain ⟨m, hm, hm64, hamount⟩ : ∃ m : Nat, (m = (data.vn constC).offset.toNat + (data.vn constD).offset.toNat ∨
      8 * outSize data op ≤ (data.vn constC).offset.toNat + (data.vn constD).offset.toNat ∧ m = 8 * outSize data op - 1) ∧ m < 64 ∧
      (if addI32 (toI32 (data.vn constC).offset) (toI32 (data.vn constD).offset) > outSize data op * 8 - 1 then (outSize data op * 8 - 1 : Int)
        else addI32 (toI32 (data.vn constC).offset) (toI32 (data.vn constD).offset)) = m := by
    rw [hsum]
    split
    · exact ⟨8 * outSize data op - 1, .inr ⟨by omega, rfl⟩, by omega, by omega⟩
    · exact ⟨_, .inl rfl, by omega, rfl⟩
  have hbits : val.bits (outSize data op) (data.op op).output = (val.bits (outSize data op) inVn).sshiftRight m := by
    rw [h.bits_sright (n := outSize data op) val not_false rfl hw rfl, h.toNat_bits_constant val hD rfl, h.bits_sright val not_false hn hw2 rfl,
      h.toNat_bits_constant val hC rfl]
    exact sshiftRight_sshiftRight (by omega) hm
  have hlt : inVn < data.numVarnodes := (hw2.lt h.toLegal).2 inVn (by simp)
  have hrew := ((Rewired.edit_first h hout).setOld hlt 0).setConstant 4 (BitVec.ofInt 64 (m : Int)) 1
  simp only [entryOf, hinrefs] at hrew
  dsimp only
  rw [hamount]
  have hsright : (data.op op).code ∈ twoInputOps ++ oneInputOps := by
    rw [hcode]
    decide
  have hy : Denotes (data.op op).code [⟨outSize data op, val.bits (outSize data op) inVn⟩, ⟨4, (BitVec.ofInt 64 (m : Int)).setWidth (8 * 4)⟩]
      (outSize data op) (some ((val.bits (outSize data op) inVn).sshiftRight ((BitVec.ofInt 64 (m : Int)).setWidth (8 * 4)).toNat)) := by
    rw [hcode]
    exact .intSright _ _
  rw [toNat_amount hm64 (by decide)] at hy
  refine (hrew.extends_edited val h.toLegal rfl (fun _ hl => hl.elim) not_false hsright (h.lt_of_def hout) rfl (fun w hw' => ?_) hy).mpr hbits
  rw [← hrew.operand_old hw' hlt (hn2.trans hn)]
  rfl

end Preservation

end RuleDoubleArithShift

end GhidraDecompiler.RuleAction
