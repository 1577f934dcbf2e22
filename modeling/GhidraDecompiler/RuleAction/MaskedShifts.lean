import GhidraDecompiler.RuleAction.DoubleShift

namespace GhidraDecompiler.RuleAction

open Pcode Dataflow ShiftChains
open Expression (VarnodeId OpId)
open Editing (Funcdata)
open Editing.Funcdata
open Matching
open ShiftAmounts

namespace RuleShiftBitops

def getOpList : List OpCode := [.intLeft, .intRight, .subpiece, .intMult]

def mulI32 (x y : Int) : Int := (x * y).bmod (2 ^ 32)

/-- The amount, and whether it is to the left. -/
def shiftOf (opc : OpCode) (constval : Word) : Option (Int × Bool) :=
  match opc with
  | .intLeft => some (toI32 constval, true)
  | .intRight => some (toI32 constval, false)
  | .subpiece => some (mulI32 (toI32 constval) 8, false)
  | .intMult => if leastsigbitSet constval = -1 then none else some (leastsigbitSet constval, true)
  | _ => none

/-- All the bits that may be set are shifted out. -/
def shiftedOut (nzm : Word) (shiftAmount : Int) (leftshift : Bool) (size : Nat) : Bool :=
  (if leftshift then pcodeLeft nzm shiftAmount else pcodeRight nzm shiftAmount) &&& Pcode.calcMask size = 0

/-- The input that is shifted out, and what is shifted instead: nothing for a zero. -/
structure Found where
  vn : VarnodeId
  cleared : VarnodeId
  replacement : Option VarnodeId
deriving DecidableEq

section Rule

variable (data : Funcdata) (nz : VarnodeId → Word)

def findReplacement (bitop : OpId) (slot : Nat) : Option (Option VarnodeId) :=
  if (data.op bitop).code ∈ [OpCode.intMult, .intAnd] then some none
  else do
    let vn ← getIn data bitop (1 - slot)
    guard (data.vn vn).isHeritageKnown
    return some vn

def find (op : OpId) : Option Found := do
  let constvn ← constantIn data op 1
  let vn ← getIn data op 0
  let bitop ← (data.vn vn).getDef
  guard ((data.vn vn).size ≤ 8)
  let (shiftAmount, leftshift) ← shiftOf (data.op op).code (data.vn constvn).offset
  guard ((data.op bitop).code ∈ [OpCode.intAnd, .intOr, .intXor] ∨ (data.op bitop).code ∈ [OpCode.intMult, .intAdd] ∧ leftshift)
  let slot ← (data.op bitop).inrefs.findIdx? fun u => shiftedOut (nz u) shiftAmount leftshift (outSize data op)
  let cleared ← getIn data bitop slot
  let replacement ← findReplacement data bitop slot
  return { vn := vn, cleared := cleared, replacement := replacement }

def rewrite (op : OpId) (found : Found) : Funcdata :=
  match found.replacement with
  | none =>
      let (vn, data) := data.newConstant (data.vn found.vn).size 0
      data.opSetInput op vn 0
  | some vn => data.opSetInput op vn 0

def applyOp (op : OpId) : Int × Funcdata :=
  match find data nz op with
  | none => (0, data)
  | some found => (1, rewrite data op found)

end Rule

section Values

variable {n m k start len : Nat} {x y : BitVec (8 * n)} {opc : OpCode}

/-- A shift looks at a window of its input, which is the lower part when it is to the left. -/
structure Window (left : Bool) (s n m start len : Nat) (f : BitVec (8 * n) → BitVec (8 * m)) : Prop where
  congr : ∀ x y, x.extractLsb' start len = y.extractLsb' start len → f x = f y
  toLeft : left = true → start = 0 ∧ len ≤ 8 * n ∧ len + s = 8 * n ∧ m = n
  toRight : left = false → start = s ∧ len = 8 * m

/-- The bits that are shifted out are not seen. -/
theorem Window.clear {left : Bool} {s : Nat} {f : BitVec (8 * n) → BitVec (8 * m)} {nzm : Word} (hf : Window left s n m start len f)
    (hn : ByteSize n) (hm : ByteSize m) (hs : s < 64) (hcheck : shiftedOut nzm s left m = true)
    (hnz : ∀ i < 64, x.getLsbD i = true → nzm.getLsbD i = true) : x.extractLsb' start len = 0#(len) := by
  have hwidth := hn.width_le
  have hwidth' := hm.width_le
  have hzero : (if left then pcodeLeft nzm s else pcodeRight nzm s) &&& Pcode.calcMask m = 0#64 := of_decide_eq_true hcheck
  apply BitVec.eq_of_getLsbD_eq
  intro i hi
  rw [BitVec.getLsbD_extractLsb', decide_eq_true hi, Bool.true_and, BitVec.getLsbD_zero]
  by_contra hbit
  have hbit := Bool.eq_true_of_not_eq_false hbit
  have hin := BitVec.lt_of_getLsbD hbit
  have hset := hnz _ (by omega) hbit
  cases left with
  | true =>
      obtain ⟨rfl, -, hsum, rfl⟩ := hf.toLeft rfl
      have hout := congrArg (fun v => v.getLsbD (i + s)) hzero
      simp only [if_true, pcodeLeft, if_pos (show 0 ≤ (s : Int) ∧ (s : Int) < 64 by omega), Int.toNat_natCast, BitVec.getLsbD_and,
        BitVec.getLsbD_shiftLeft, getLsbD_calcMask_any hm.1, Nat.add_sub_cancel, BitVec.getLsbD_zero] at hout
      rw [Nat.zero_add] at hset
      rw [hset, decide_eq_true (by omega), decide_eq_false (by omega), decide_eq_true (by omega)] at hout
      cases hout
  | false =>
      obtain ⟨rfl, rfl⟩ := hf.toRight rfl
      have hout := congrArg (fun v => v.getLsbD i) hzero
      simp only [Bool.false_eq_true, if_false, pcodeRight, if_pos (show 0 ≤ (start : Int) ∧ (start : Int) < 64 by omega), Int.toNat_natCast,
        BitVec.getLsbD_and, BitVec.getLsbD_ushiftRight, getLsbD_calcMask_any hm.1, BitVec.getLsbD_zero] at hout
      rw [hset, decide_eq_true (by omega)] at hout
      cases hout

section Windows

variable {s : Nat}

theorem window_left (hs : s ≤ 8 * n) : Window true s n n 0 (8 * n - s) (· <<< s) where
  congr x y hxy := by
    show x <<< s = y <<< s
    rcases hs.lt_or_eq with hlt | heq
    · rw [← BitVec.mul_twoPow_eq_shiftLeft, ← BitVec.mul_twoPow_eq_shiftLeft]
      refine mul_congr_low hs ?_ hxy
      rw [BitVec.toNat_twoPow_of_lt hlt]
    · rw [BitVec.shiftLeft_eq_zero heq.ge, BitVec.shiftLeft_eq_zero heq.ge]
  toLeft _ := ⟨rfl, Nat.sub_le _ _, Nat.sub_add_cancel hs, rfl⟩
  toRight hf := absurd hf (by decide)

theorem window_mult (hs : s ≤ 8 * n) {c : BitVec (8 * n)} (hc : 2 ^ s ∣ c.toNat) : Window true s n n 0 (8 * n - s) (· * c) where
  congr _ _ hxy := mul_congr_low hs hc hxy
  toLeft _ := ⟨rfl, Nat.sub_le _ _, Nat.sub_add_cancel hs, rfl⟩
  toRight hf := absurd hf (by decide)

theorem window_extract (n m s : Nat) : Window false s n m s (8 * m) fun x => x.extractLsb' s (8 * m) where
  congr _ _ hxy := hxy
  toLeft hf := absurd hf (by decide)
  toRight _ := ⟨rfl, rfl⟩

theorem window_right (n s : Nat) : Window false s n n s (8 * n) (· >>> s) where
  congr x y hxy := by
    apply BitVec.eq_of_getLsbD_eq
    intro i hi
    have hbit := congrArg (fun v : BitVec (8 * n) => v.getLsbD i) hxy
    simp only [BitVec.getLsbD_extractLsb', hi, decide_true, Bool.true_and] at hbit
    rw [BitVec.getLsbD_ushiftRight, BitVec.getLsbD_ushiftRight, hbit]
  toLeft hf := absurd hf (by decide)
  toRight _ := ⟨rfl, rfl⟩

end Windows

/-- A number that is not seen leaves the other one, or nothing. -/
theorem Window.absorb {left : Bool} {s : Nat} {f : BitVec (8 * n) → BitVec (8 * m)} (hf : Window left s n m start len f)
    (hx : x.extractLsb' start len = 0#(len)) : f (x &&& y) = f 0#_ ∧ f (x ||| y) = f y ∧ f (x ^^^ y) = f y ∧
      (left = true → f (x * y) = f 0#_ ∧ f (x + y) = f y) := by
  have hzero : (0#(8 * n)).extractLsb' start len = 0#(len) := by
    apply BitVec.eq_of_getLsbD_eq
    intro i _
    rw [BitVec.getLsbD_extractLsb', BitVec.getLsbD_zero, BitVec.getLsbD_zero, Bool.and_false]
  refine ⟨hf.congr _ _ ?_, hf.congr _ _ ?_, hf.congr _ _ ?_, fun hleft => ?_⟩
  · rw [BitVec.extractLsb'_and, hx, BitVec.zero_and, hzero]
  · rw [BitVec.extractLsb'_or, hx, BitVec.zero_or]
  · rw [BitVec.extractLsb'_xor, hx, BitVec.zero_xor]
  · obtain ⟨rfl, hlen, -⟩ := hf.toLeft hleft
    refine ⟨hf.congr _ _ ?_, hf.congr _ _ ?_⟩
    · rw [extract_mul y hlen, hx, BitVec.zero_mul, hzero]
    · rw [extract_add y hlen, hx, BitVec.zero_add]

/-- The shift as a function of its first input. -/
theorem shiftOf_window {data : Funcdata} {v a c op : Nat} {sa : Int} {left : Bool} (h : WellSized data)
    (hdef : (data.vn v).getDef = some op) (hcode : (data.op op).code = opc) (hopc : opc ∈ getOpList) (hin : (data.op op).inrefs = [a, c])
    (hc : (data.vn c).isConstant = true) (hfits : AmountFits data op) (hn : (data.vn a).size = n) (hsize : n ≤ 8)
    (hm : (data.vn v).size = m) (hshift : shiftOf opc (data.vn c).offset = some (sa, left)) : ByteSize n ∧ ByteSize m ∧
    ∃ (s start len : Nat) (f : BitVec (8 * n) → BitVec (8 * m)), sa = s ∧ s < 64 ∧ Window left s n m start len f ∧
      ∀ x, Denotes opc [⟨n, x⟩, ⟨(data.vn c).size, (data.vn c).offset.setWidth _⟩] m (some (f x)) := by
  have hw : Written data v opc [a, c] := ⟨op, hdef, hcode, hin⟩
  have hpos := h.positive v (hw.lt h.toLegal).1
  have hposa := h.positive a ((hw.lt h.toLegal).2 a (by simp))
  have hbound := (h.constant c hc).2.2
  have hword : ((data.vn c).offset.setWidth (8 * (data.vn c).size)).toNat = (data.vn c).offset.toNat := by
    rw [BitVec.toNat_setWidth, Nat.mod_eq_of_lt hbound]
  simp only [getOpList, List.mem_cons, List.not_mem_nil, or_false] at hopc
  rcases hopc with rfl | rfl | rfl | rfl
  · cases hshift
    have hfit := hfits (by rw [hcode]; decide) a c hin hc
    have hnm := h.shift_size hw (by decide)
    obtain rfl : m = n := by omega
    refine ⟨⟨by omega, hsize⟩, ⟨by omega, hsize⟩, _, _, _, _, toI32_of_lt (by omega), by omega, window_left (by omega), fun x => ?_⟩
    have hden := Denotes.intLeft x ((data.vn c).offset.setWidth (8 * (data.vn c).size))
    rw [hword] at hden
    exact hden
  · cases hshift
    have hfit := hfits (by rw [hcode]; decide) a c hin hc
    have hnm := h.shift_size hw (by decide)
    obtain rfl : m = n := by omega
    refine ⟨⟨by omega, hsize⟩, ⟨by omega, hsize⟩, _, _, _, _, toI32_of_lt (by omega), by omega, window_right _ _, fun x => ?_⟩
    have hden := Denotes.intRight x ((data.vn c).offset.setWidth (8 * (data.vn c).size))
    rw [hword] at hden
    exact hden
  · cases hshift
    have hfit := (h.subpiece_sizes hw).2
    refine ⟨⟨by omega, hsize⟩, ⟨by omega, by omega⟩, 8 * (data.vn c).offset.toNat, _, _, _, ?_, by omega, window_extract _ _ _, fun x => ?_⟩
    · rw [mulI32, toI32_of_lt (by omega), Int.bmod_def]
      omega
    · have hden := Denotes.subpiece m x ((data.vn c).offset.setWidth (8 * (data.vn c).size))
      rw [hword] at hden
      exact hden
  · obtain ⟨hna, hnc⟩ := h.same_sizes hw (by decide)
    obtain rfl : m = n := by omega
    rw [hnc, hm] at hbound hword ⊢
    simp only [shiftOf] at hshift
    split at hshift
    · cases hshift
    next hnonzero =>
    cases hshift
    have hval : (data.vn c).offset ≠ 0#64 := by
      intro hzero
      rw [leastsigbitSet, if_pos hzero] at hnonzero
      exact hnonzero rfl
    have hlog : BitWords.trailingZeros (data.vn c).offset < 8 * m := by
      refine (BitWords.trailingZeros_le_log2 hval).trans_lt ((Nat.log2_lt ?_).mpr hbound)
      exact fun hzero => hval (BitVec.eq_of_toNat_eq hzero)
    refine ⟨⟨by omega, hsize⟩, ⟨by omega, hsize⟩, _, _, _, _, if_neg hval, by omega, window_mult (by omega) ?_, fun x => .intMult x _⟩
    rw [hword]
    exact BitWords.Within.dvd (BitWords.within_iff.mpr fun _ hk => hk)

end Values

section Preservation

variable {sem : Semantics} {data data' : Funcdata} {nz : VarnodeId → Word} {op : Nat} {found : Found}

/-- A shift of an op of which one input is shifted out. -/
structure Found.Matches (found : Found) (data : Funcdata) (nz : VarnodeId → Word) (op constvn bitop slot : Nat) (shiftAmount : Int)
    (leftshift : Bool) : Prop where
  constant : getIn data op 1 = some constvn ∧ (data.vn constvn).isConstant = true
  input : getIn data op 0 = some found.vn
  bitDef : (data.vn found.vn).getDef = some bitop
  size : (data.vn found.vn).size ≤ 8
  shift : shiftOf (data.op op).code (data.vn constvn).offset = some (shiftAmount, leftshift)
  bitCode : (data.op bitop).code ∈ [OpCode.intAnd, .intOr, .intXor] ∨ (data.op bitop).code ∈ [OpCode.intMult, .intAdd] ∧ leftshift = true
  cleared : getIn data bitop slot = some found.cleared
  out : shiftedOut (nz found.cleared) shiftAmount leftshift (outSize data op) = true
  replacement : findReplacement data bitop slot = some found.replacement

theorem find_matches (hfind : find data nz op = some found) : ∃ (constvn bitop slot : Nat) (shiftAmount : Int) (leftshift : Bool),
    found.Matches data nz op constvn bitop slot shiftAmount leftshift := by
  simp only [find, Option.bind_eq_bind, Option.bind_eq_some_iff, Option.guard_eq_some', exists_and_left, exists_const, Option.pure_def,
    Option.some.injEq] at hfind
  obtain ⟨constvn, hconstvn, vn, hvn, bitop, hbitop, hsize, ⟨shiftAmount, leftshift⟩, hshift, hcode, slot, hslot, cleared, hcleared,
    replacement, hreplacement, rfl⟩ := hfind
  obtain ⟨hlt, hout, -⟩ := List.findIdx?_eq_some_iff_getElem.mp hslot
  have hget := List.getElem_of_getElem? hcleared
  obtain ⟨hlt', heq⟩ := hget
  refine ⟨constvn, bitop, slot, shiftAmount, leftshift, constantIn_eq.mp hconstvn, hvn, hbitop, hsize, hshift, hcode, hcleared, ?_, hreplacement⟩
  rw [← heq]
  exact hout

/-- The op that is shifted, without the input that is shifted out. -/
theorem bits_absorbed {leaf : VarnodeId → Prop} {v bitop p q a b n m s start len : Nat} {left : Bool} {f : BitVec (8 * n) → BitVec (8 * m)}
    (h : WellSized data) (hdef : (data.vn v).getDef = some bitop) (hin : (data.op bitop).inrefs = [p, q])
    (hcode : (data.op bitop).code ∈ [OpCode.intAnd, .intOr, .intXor] ∨ (data.op bitop).code ∈ [OpCode.intMult, .intAdd] ∧ left = true)
    (hab : p = a ∧ q = b ∨ p = b ∧ q = a) (val : Valuation sem data.toFuncdata leaf) (hleaf : ¬ leaf v) (hn : (data.vn v).size = n)
    (hf : Window left s n m start len f) (hclear : (val.bits n a).extractLsb' start len = 0#(len)) :
    f (val.bits n v) = f (if (data.op bitop).code ∈ [OpCode.intMult, .intAnd] then 0#_ else val.bits n b) := by
  obtain ⟨hand, hor, hxor, hleft⟩ := hf.absorb (y := val.bits n b) hclear
  have hw : Written data v (data.op bitop).code [p, q] := ⟨bitop, hdef, rfl, hin⟩
  have hcomm : ∀ g : BitVec (8 * n) → BitVec (8 * n) → BitVec (8 * n), (∀ x y, g x y = g y x) → val.bits n v = g (val.bits n p) (val.bits n q) →
      val.bits n v = g (val.bits n a) (val.bits n b) := by
    intro g hg heq
    rcases hab with ⟨rfl, rfl⟩ | ⟨rfl, rfl⟩
    · exact heq
    · rw [heq, hg]
  simp only [List.mem_cons, List.not_mem_nil, or_false] at hcode
  rcases hcode with (hc | hc | hc) | ⟨hc | hc, hl⟩
  · rw [hc] at hw
    rw [hcomm _ BitVec.and_comm (h.bits_and val hleaf hn hw), hand, hc, if_pos (by decide)]
  · rw [hc] at hw
    rw [hcomm _ BitVec.or_comm (h.bits_or val hleaf hn hw), hor, hc, if_neg (by decide)]
  · rw [hc] at hw
    rw [hcomm _ BitVec.xor_comm (h.bits_xor val hleaf hn hw), hxor, hc, if_neg (by decide)]
  · rw [hc] at hw
    rw [hcomm _ BitVec.mul_comm (h.bits_mult val hleaf hn hw), (hleft hl).1, hc, if_pos (by decide)]
  · rw [hc] at hw
    rw [hcomm _ BitVec.add_comm (h.bits_add val hleaf hn hw), (hleft hl).2, hc, if_neg (by decide)]

/-- The two inputs, in either order. -/
theorem Found.Matches.inputs {constvn bitop slot : Nat} {shiftAmount : Int} {leftshift : Bool} (h : WellSized data)
    (hm : found.Matches data nz op constvn bitop slot shiftAmount leftshift) :
    (data.op bitop).code ∈ twoInputOps ∧ ∃ p q b : Nat, (data.op bitop).inrefs = [p, q] ∧
      (p = found.cleared ∧ q = b ∨ p = b ∧ q = found.cleared) ∧ getIn data bitop (1 - slot) = some b ∧
      (data.vn b).size = (data.vn found.vn).size := by
  have hmem : (data.op bitop).code ∈ [OpCode.intAnd, .intOr, .intXor, .intMult, .intAdd] := by
    rcases hm.bitCode with hc | ⟨hc, -⟩
    · exact List.mem_append_left [OpCode.intMult, .intAdd] hc
    · exact List.mem_append_right [OpCode.intAnd, .intOr, .intXor] hc
  have hsame : ∀ opc ∈ [OpCode.intAnd, .intOr, .intXor, .intMult, .intAdd], opc ∈ twoInputOps ∧ opc ∈ sameSizeOps ++ logicOps := by decide
  obtain ⟨p, q, hin⟩ := h.inrefs_two hm.bitDef (hsame _ hmem).1
  obtain ⟨hp, hq⟩ := h.same_sizes ⟨bitop, hm.bitDef, rfl, hin⟩ (hsame _ hmem).2
  refine ⟨(hsame _ hmem).1, ?_⟩
  have hcleared := hm.cleared
  rw [getIn, hin] at hcleared
  rcases slot with _ | _ | slot
  · cases hcleared
    exact ⟨found.cleared, q, q, hin, .inl ⟨rfl, rfl⟩, by rw [getIn, hin]; rfl, hq⟩
  · cases hcleared
    exact ⟨p, found.cleared, p, hin, .inr ⟨rfl, rfl⟩, by rw [getIn, hin]; rfl, hp⟩
  · cases hcleared

theorem findReplacement_eq {bitop slot b : Nat} {r : Option VarnodeId} (hr : findReplacement data bitop slot = some r)
    (hb : getIn data bitop (1 - slot) = some b) : r = if (data.op bitop).code ∈ [OpCode.intMult, .intAnd] then none else some b := by
  rw [findReplacement] at hr
  split at hr
  · next hc =>
      rw [if_pos hc]
      exact (Option.some.inj hr).symm
  · next hc =>
      rw [hb] at hr
      simp only [Option.bind_eq_bind, Option.bind_some, Option.bind_eq_some_iff, Option.guard_eq_some', exists_and_left, exists_const,
        Option.pure_def, Option.some.injEq] at hr
      rw [if_neg hc]
      exact hr.2.symm

/-- The first input is the one that is left, or a zero. -/
theorem rewrite_rewired {vn constvn : Nat} (h : WellSized data) (hout : (data.vn (data.op op).output).getDef = some op)
    (hin : (data.op op).inrefs = [vn, constvn]) (hx : ∀ b : Nat, found.replacement = some b → b < data.numVarnodes) :
    Rewired data (rewrite data op found) [⟨op, (data.op op).output, outSize data op, (data.op op).code,
      [match found.replacement with
        | none => .constant (data.vn found.vn).size 0
        | some b => data.arg b, data.arg constvn]⟩] := by
  have hedit := Rewired.edit_first h hout
  rw [rewrite]
  cases hr : found.replacement with
  | none =>
      have hrew := hedit.setConstant (data.vn found.vn).size 0 0
      simp only [entryOf, hin] at hrew
      exact hrew
  | some b =>
      have hrew := hedit.setOld (hx b hr) 0
      simp only [entryOf, hin] at hrew
      exact hrew

/-- What is shifted out is left out. -/
theorem rewrite_extends (h : WellSized data) (hacyclic : Acyclic data.toFuncdata noLeaf)
    (hout : (data.vn (data.op op).output).getDef = some op) (hcode : (data.op op).code ∈ getOpList) (hfits : AmountFits data op)
    (hfind : find data nz op = some found) (val : Valuation sem data.toFuncdata (· = found.cleared))
    (hmask : WithinMask nz val found.cleared) : Extends val (rewrite data op found) := by
  obtain ⟨constvn, bitop, slot, shiftAmount, leftshift, hm⟩ := find_matches hfind
  have hsub : ∀ opc ∈ getOpList, opc ∈ twoInputOps := by decide
  have hin := inrefs_two h hout rfl (hsub _ hcode) hm.input hm.constant.1
  obtain ⟨hn, hmsize, s, start, len, f, rfl, hs, hf, hden⟩ := shiftOf_window h hout rfl hcode hin hm.constant.2 hfits rfl hm.size rfl hm.shift
  obtain ⟨htwo, p, q, b, hinb, hab, hother, hb⟩ := hm.inputs h
  have hbitIn := h.inrefs bitop (h.live _ _ hm.bitDef)
  have hclearedIn : found.cleared ∈ (data.op bitop).inrefs := List.mem_of_getElem? hm.cleared
  -- the leaf comes before the ops
  have hopc := List.mem_append_left oneInputOps (hsub _ hcode)
  obtain ⟨hleafOp, hloadOp⟩ := not_leaf_of_mem hopc
  obtain ⟨hleaf, hleafOut⟩ := ne_of_chain hacyclic hm.bitDef (List.mem_append_left _ htwo) hclearedIn hout hopc
    (by rw [hin]; exact List.mem_cons_self)
  have hclear := hf.clear (x := val.bits (data.vn found.vn).size found.cleared) hn hmsize hs hm.out fun i hi hbit => hmask.bit hi hbit
  have hbits : val.bits (outSize data op) (data.op op).output =
      f (if (data.op bitop).code ∈ [OpCode.intMult, .intAnd] then 0#_ else val.bits (data.vn found.vn).size b) := by
    rw [← bits_absorbed h hm.bitDef hinb hm.bitCode hab val hleaf rfl hf hclear]
    exact val.bits_binary_constant hden hleafOp hloadOp hout hleafOut rfl hin rfl rfl rfl hm.constant.2 rfl
  have hblt : b < data.numVarnodes := hbitIn b (List.mem_of_getElem? hother)
  have hreplacement := findReplacement_eq hm.replacement hother
  have hrew := rewrite_rewired h hout hin fun b' hb' => by
    rw [hreplacement] at hb'
    split at hb'
    · cases hb'
    · exact (Option.some.inj hb') ▸ hblt
  have hconstlt : constvn < data.numVarnodes := (Written.lt h.toLegal ⟨op, hout, rfl, hin⟩).2 constvn (by simp)
  have hconstbits : val.bits (data.vn constvn).size constvn = (data.vn constvn).offset.setWidth _ := val.bits_constant rfl hm.constant.2
  refine (hrew.extends_edited val h.toLegal rfl (fun v hv => hv ▸ hbitIn _ hclearedIn) hleafOut hopc
    (h.lt_of_def hout) rfl (fun w hw => ?_) (hden _)).mpr hbits
  rw [List.map_cons, List.map_cons, List.map_nil, hrew.operand_old hw hconstlt rfl, hconstbits, hreplacement]
  congr 1
  by_cases hc : (data.op bitop).code ∈ [OpCode.intMult, .intAnd]
  · rw [if_pos hc, if_pos hc]
    exact congrArg (Operand.mk (data.vn found.vn).size) (BitVec.setWidth_zero _ _)
  · rw [if_neg hc, if_neg hc]
    exact hrew.operand_old hw hblt hb

end Preservation

end RuleShiftBitops

namespace RuleShiftAnd

def getOpList : List OpCode := [.intRight, .intLeft, .intMult]

/-- A multiplication by a power of two is a shift to the left. -/
def shiftOf (opc : OpCode) (val : Word) : Option (OpCode × Int) :=
  if opc = .intRight ∨ opc = .intLeft then some (opc, toI32 val)
  else
    let shiftAmount := leastsigbitSet val
    if shiftAmount ≤ 0 then none else if wrappingShl 1 shiftAmount ≠ val then none else some (.intLeft, shiftAmount)

/-- The mask keeps all the bits that may be set where they are seen. -/
def maskKeeps (opc : OpCode) (shiftAmount : Int) (nzm mask : Word) (size : Nat) : Bool :=
  if opc = .intRight then wrappingShr mask shiftAmount &&& wrappingShr nzm shiftAmount = wrappingShr nzm shiftAmount
  else
    let fullmask := Pcode.calcMask size
    let nzm := wrappingShl nzm shiftAmount &&& fullmask
    (wrappingShl mask shiftAmount &&& fullmask) &&& nzm = nzm

structure Found where
  invn : VarnodeId
  maskvn : VarnodeId
  opc : OpCode
  shiftAmount : Int
deriving DecidableEq

section Rule

variable (data : Funcdata) (nz : VarnodeId → Word)

def find (op : OpId) : Option Found := do
  let cvn ← constantIn data op 1
  let shiftin ← getIn data op 0
  let andop ← definedBy data shiftin .intAnd
  let maskvn ← constantIn data andop 1
  let invn ← getIn data andop 0
  guard !(data.vn invn).isFree
  let (opc, shiftAmount) ← shiftOf (data.op op).code (data.vn cvn).offset
  guard (maskKeeps opc shiftAmount (nz invn) (data.vn maskvn).offset (data.vn invn).size)
  return { invn := invn, maskvn := maskvn, opc := opc, shiftAmount := shiftAmount }

def applyOp (op : OpId) : Int × Funcdata :=
  match find data nz op with
  | none => (0, data)
  | some found => (1, data.opSetInput op found.invn 0)

end Rule

/-- In a number of more than eight bytes the mask has no bits at the top; they must be
shifted out, and all the others be kept. -/
def Found.Exact (found : Found) (data : Funcdata) (n : Nat) : Prop :=
  n ≤ 8 ∨ found.opc = .intLeft ∧ ∀ i : Nat, i + found.shiftAmount < 8 * n → (data.vn found.maskvn).offset.getLsbD i = true

section Values

variable {w s i n : Nat} {opc : OpCode} {nzm mask : Word}

/-- The bit is not shifted out. -/
def Seen (opc : OpCode) (s w i : Nat) : Prop := if opc = .intLeft then i + s < w else s ≤ i ∧ i < w

theorem shiftBy_and_iff {x m : BitVec w} :
    shiftBy opc (x &&& m) s = shiftBy opc x s ↔ ∀ i, Seen opc s w i → x.getLsbD i = true → m.getLsbD i = true := by
  rw [shiftBy, shiftBy]
  simp only [Seen]
  split
  · constructor
    · intro heq i hi hbit
      have hout := congrArg (fun v : BitVec w => v.getLsbD (i + s)) heq
      simp only [BitVec.getLsbD_shiftLeft, decide_eq_true hi, decide_eq_false (show ¬ i + s < s by omega), Nat.add_sub_cancel, Bool.not_false,
        Bool.true_and, BitVec.getLsbD_and, hbit] at hout
      exact hout
    · intro hall
      apply BitVec.eq_of_getLsbD_eq
      intro i hi
      rw [BitVec.getLsbD_shiftLeft, BitVec.getLsbD_shiftLeft, BitVec.getLsbD_and]
      by_cases hlow : i < s
      · rw [decide_eq_true hlow, Bool.not_true, Bool.and_false, Bool.false_and, Bool.false_and]
      · cases hbit : x.getLsbD (i - s) with
        | false => rw [Bool.false_and]
        | true => rw [hall (i - s) (by omega) hbit, Bool.true_and]
  · constructor
    · intro heq i hi hbit
      have hout := congrArg (fun v : BitVec w => v.getLsbD (i - s)) heq
      simp only [BitVec.getLsbD_ushiftRight, Nat.add_sub_cancel' hi.1, BitVec.getLsbD_and, hbit, Bool.true_and] at hout
      exact hout
    · intro hall
      apply BitVec.eq_of_getLsbD_eq
      intro i hi
      rw [BitVec.getLsbD_ushiftRight, BitVec.getLsbD_ushiftRight, BitVec.getLsbD_and]
      cases hbit : x.getLsbD (s + i) with
      | false => rw [Bool.false_and]
      | true => rw [hall (s + i) ⟨by omega, BitVec.lt_of_getLsbD hbit⟩ hbit, Bool.true_and]

/-- The check says so for the bits of one word. -/
theorem maskKeeps_bit (hn : ByteSize n) (hs : s < 8 * n) (hopc : opc = .intLeft ∨ opc = .intRight)
    (hkeeps : maskKeeps opc s nzm mask n = true) (hi : Seen opc s (8 * n) i) (hbit : nzm.getLsbD i = true) : mask.getLsbD i = true := by
  have hwidth := hn.width_le
  have hamount : ((s : Int) % 64).toNat = s := by omega
  rw [Seen] at hi
  rcases hopc with rfl | rfl
  · rw [if_pos rfl] at hi
    simp only [maskKeeps, wrappingShl, hamount, reduceCtorEq, if_false, decide_eq_true_iff] at hkeeps
    have hout := congrArg (fun v : Word => v.getLsbD (i + s)) hkeeps
    simp only [BitVec.getLsbD_and, BitVec.getLsbD_shiftLeft, Nat.add_sub_cancel, getLsbD_calcMask_any hn.1, hbit,
      decide_eq_true (show i + s < 64 by omega), decide_eq_false (show ¬ i + s < s by omega),
      decide_eq_true (show i + s < 64 ∧ i + s < 8 * n by omega), Bool.not_false, Bool.true_and, Bool.and_true] at hout
    exact hout
  · rw [if_neg (by decide)] at hi
    simp only [maskKeeps, wrappingShr, hamount, if_true, decide_eq_true_iff] at hkeeps
    have hout := congrArg (fun v : Word => v.getLsbD (i - s)) hkeeps
    simp only [BitVec.getLsbD_and, BitVec.getLsbD_ushiftRight, Nat.add_sub_cancel' hi.1, hbit, Bool.and_true] at hout
    exact hout

end Values

section Preservation

variable {sem : Semantics} {data data' : Funcdata} {nz : VarnodeId → Word} {op n : Nat} {found : Found}

/-- A shift of a masked number. -/
structure Found.Matches (found : Found) (data : Funcdata) (nz : VarnodeId → Word) (op cvn shiftin andop : Nat) : Prop where
  constant : getIn data op 1 = some cvn ∧ (data.vn cvn).isConstant = true
  input : getIn data op 0 = some shiftin
  andDef : (data.vn shiftin).getDef = some andop ∧ (data.op andop).code = .intAnd
  mask : getIn data andop 1 = some found.maskvn ∧ (data.vn found.maskvn).isConstant = true
  invn : getIn data andop 0 = some found.invn
  notFree : (data.vn found.invn).isFree = false
  shift : shiftOf (data.op op).code (data.vn cvn).offset = some (found.opc, found.shiftAmount)
  keeps : maskKeeps found.opc found.shiftAmount (nz found.invn) (data.vn found.maskvn).offset (data.vn found.invn).size = true

theorem find_matches (hfind : find data nz op = some found) : ∃ cvn shiftin andop : Nat, found.Matches data nz op cvn shiftin andop := by
  simp only [find, Option.bind_eq_bind, Option.bind_eq_some_iff, Option.guard_eq_some', exists_and_left, exists_const, Option.pure_def,
    Option.some.injEq] at hfind
  obtain ⟨cvn, hcvn, shiftin, hshiftin, andop, handop, maskvn, hmaskvn, invn, hinvn, hfree, ⟨opc, shiftAmount⟩, hshift, hkeeps, rfl⟩ := hfind
  exact ⟨cvn, shiftin, andop, constantIn_eq.mp hcvn, hshiftin, definedBy_eq.mp handop, constantIn_eq.mp hmaskvn, hinvn,
    Bool.eq_false_of_not_eq_true (by simpa using hfree), hshift, hkeeps⟩

theorem toI32_of_lt' {val : Word} (h : val.toNat < 2 ^ 31) : toI32 val = val.toNat := amount_of_lt h

/-- The shift as the rule reads it. -/
theorem shiftOf_shifts {v a c : Nat} {opc dir : OpCode} {sa : Int} (h : WellSized data) (hdef : (data.vn v).getDef = some op)
    (hcode : (data.op op).code = opc) (hopc : opc ∈ getOpList) (hin : (data.op op).inrefs = [a, c])
    (hc : (data.vn c).isConstant = true) (hfits : AmountFits data op) (hn : (data.vn v).size = n) (hwidth : 8 * n < 2 ^ 31)
    (hshift : shiftOf opc (data.vn c).offset = some (dir, sa)) : (data.vn a).size = n ∧ (dir = .intLeft ∨ dir = .intRight) ∧
      ∃ s : Nat, s < 8 * n ∧ sa = s ∧ ∀ x : BitVec (8 * n),
        Denotes opc [⟨n, x⟩, ⟨(data.vn c).size, (data.vn c).offset.setWidth _⟩] n (some (shiftBy dir x s)) := by
  have hw : Written data v opc [a, c] := ⟨op, hdef, hcode, hin⟩
  have hbound := (h.constant c hc).2.2
  have hword : ((data.vn c).offset.setWidth (8 * (data.vn c).size)).toNat = (data.vn c).offset.toNat := by
    rw [BitVec.toNat_setWidth, Nat.mod_eq_of_lt hbound]
  rw [shiftOf] at hshift
  split at hshift
  · next hdir =>
      cases hshift
      have hmem : opc ∈ shiftOps := by
        rcases hdir with rfl | rfl
        · decide
        · decide
      have hsizea := h.shift_size hw hmem
      have hamount := hfits (hcode ▸ hmem) a c hin hc
      refine ⟨hsizea.trans hn, hdir.symm, (data.vn c).offset.toNat, by omega, toI32_of_lt' (by omega), fun x => ?_⟩
      have hden := denotes_shift hdir.symm x ((data.vn c).offset.setWidth (8 * (data.vn c).size))
      rw [hword] at hden
      exact hden
  · next hdir =>
      have hmult : opc = .intMult := by
        simp only [getOpList, List.mem_cons, List.not_mem_nil, or_false] at hopc
        tauto
      subst hmult
      obtain ⟨hna, hnc⟩ := h.same_sizes hw (by decide)
      dsimp only at hshift
      split at hshift
      · cases hshift
      next hpos =>
      split at hshift
      · cases hshift
      next hone =>
      cases hshift
      have hnonzero : (data.vn c).offset ≠ 0#64 := by
        intro hzero
        rw [leastsigbitSet, if_pos hzero] at hpos
        exact hpos (by decide)
      have htz : BitWords.trailingZeros (data.vn c).offset < 64 :=
        (BitWords.trailingZeros_le_log2 hnonzero).trans_lt (BitWords.log2_lt hnonzero)
      have hleast : leastsigbitSet (data.vn c).offset = BitWords.trailingZeros (data.vn c).offset := if_neg hnonzero
      have hpow : (data.vn c).offset.toNat = 2 ^ BitWords.trailingZeros (data.vn c).offset := by
        have hamount : (((BitWords.trailingZeros (data.vn c).offset : Nat) : Int) % 64).toNat = BitWords.trailingZeros (data.vn c).offset := by omega
        have hval := congrArg BitVec.toNat (not_not.mp hone)
        rw [hleast, wrappingShl, hamount, BitVec.toNat_shiftLeft, Nat.shiftLeft_eq] at hval
        rw [← hval]
        exact (Nat.one_mul _).symm ▸ Nat.mod_eq_of_lt (Nat.pow_lt_pow_right (by decide) htz)
      rw [hnc, hn] at hbound hword ⊢
      have hlt : BitWords.trailingZeros (data.vn c).offset < 8 * n := by
        rw [hpow] at hbound
        exact (Nat.pow_lt_pow_iff_right (by decide)).mp hbound
      refine ⟨hna.trans hn, .inl rfl, _, hlt, hleast, fun x => ?_⟩
      have hfactor : (data.vn c).offset.setWidth (8 * n) = BitVec.twoPow (8 * n) (BitWords.trailingZeros (data.vn c).offset) := by
        apply BitVec.eq_of_toNat_eq
        rw [hword, hpow, BitVec.toNat_twoPow_of_lt hlt]
      have hden := Denotes.intMult x ((data.vn c).offset.setWidth (8 * n))
      rw [hfactor, BitVec.mul_twoPow_eq_shiftLeft] at hden
      rw [hfactor]
      exact hden

/-- The mask is left out; the values are kept under all values of the number, within its
mask where it has at most eight bytes, if and only if the mask keeps all that is seen. -/
theorem rewrite_extends_iff (h : WellSized data) (hacyclic : Acyclic data.toFuncdata noLeaf)
    (hout : (data.vn (data.op op).output).getDef = some op) (hcode : (data.op op).code ∈ getOpList) (hfits : AmountFits data op)
    (hwidth : 8 * outSize data op < 2 ^ 31) (hfind : find data nz op = some found) :
    (∀ val : Valuation sem data.toFuncdata (· = found.invn), (outSize data op ≤ 8 → WithinMask nz val found.invn) →
      Extends val (data.opSetInput op found.invn 0)) ↔ found.Exact data (outSize data op) := by
  obtain ⟨cvn, shiftin, andop, hm⟩ := find_matches hfind
  have hsub : ∀ opc ∈ getOpList, opc ∈ twoInputOps := by decide
  have hin := inrefs_two h hout rfl (hsub _ hcode) hm.input hm.constant.1
  have hinand := inrefs_two h hm.andDef.1 hm.andDef.2 (by decide) hm.invn hm.mask.1
  obtain ⟨hn, hdir, s, hs, hsa, hden⟩ := shiftOf_shifts (n := outSize data op) h hout rfl hcode hin hm.constant.2 hfits rfl hwidth hm.shift
  have hwand : Written data shiftin .intAnd [found.invn, found.maskvn] := ⟨andop, hm.andDef.1, hm.andDef.2, hinand⟩
  obtain ⟨hx, hmask⟩ := h.same_sizes hwand (by decide)
  have hlt := (hwand.lt h.toLegal).2 found.invn (by simp)
  -- the leaf comes before the ops
  have hopc := List.mem_append_left oneInputOps (hsub _ hcode)
  obtain ⟨hleafOp, hloadOp⟩ := not_leaf_of_mem hopc
  obtain ⟨hleaf, hleafOut⟩ := ne_of_chain hacyclic hm.andDef.1 (by rw [hm.andDef.2]; decide) (by rw [hinand]; exact List.mem_cons_self)
    hout hopc (by rw [hin]; exact List.mem_cons_self)
  have hrew := (Rewired.edit_first h hout).setOld hlt 0
  simp only [entryOf, hin] at hrew
  have hconstlt : cvn < data.numVarnodes := (Written.lt h.toLegal ⟨op, hout, rfl, hin⟩).2 cvn (by simp)
  have hiff : ∀ val : Valuation sem data.toFuncdata (· = found.invn), Extends val (data.opSetInput op found.invn 0) ↔
      ∀ i, Seen found.opc s (8 * outSize data op) i → (val.bits (outSize data op) found.invn).getLsbD i = true →
        (data.vn found.maskvn).offset.getLsbD i = true := by
    intro val
    have hbits : val.bits (outSize data op) (data.op op).output = shiftBy found.opc (val.bits (outSize data op) found.invn &&&
        (data.vn found.maskvn).offset.setWidth _) s := by
      rw [← val.bits_constant ((hmask.trans hn) :) hm.mask.2, ← h.bits_and val hleaf hn hwand]
      exact val.bits_binary_constant hden hleafOp hloadOp hout hleafOut rfl hin rfl hn rfl hm.constant.2 rfl
    have hext : Extends val (data.opSetInput op found.invn 0) ↔
        val.bits (outSize data op) (data.op op).output = shiftBy found.opc (val.bits (outSize data op) found.invn) s := by
      refine hrew.extends_edited val h.toLegal rfl (fun v hv => hv ▸ hlt) hleafOut hopc
        (h.lt_of_def hout) rfl (fun w hw => ?_) (hden _)
      rw [← val.bits_constant (n := (data.vn cvn).size) rfl hm.constant.2, ← hrew.operand_old hw hlt (hx.trans hn),
        ← hrew.operand_old hw hconstlt rfl]
      rfl
    rw [hext, hbits, shiftBy_and_iff]
    refine forall_congr' fun i => imp_congr_right fun hi => imp_congr_right fun _ => ?_
    have hlt : i < 8 * outSize data op := by
      rw [Seen] at hi
      split at hi
      · omega
      · exact hi.2
    rw [BitVec.getLsbD_setWidth, decide_eq_true hlt, Bool.true_and]
  by_cases hwide : outSize data op ≤ 8
  · refine iff_of_true (fun val hwithin => (hiff val).mpr fun i hi hbit => ?_) (.inl hwide)
    have hsize : ByteSize (outSize data op) := ⟨h.positive _ (h.lt_of_def hout), hwide⟩
    have hkeeps := hm.keeps
    rw [hsa, hx.trans hn] at hkeeps
    have hwidth := hsize.width_le
    have hin' := BitVec.lt_of_getLsbD hbit
    exact maskKeeps_bit hsize hs hdir hkeeps hi ((hwithin hwide).bit (by omega) hbit)
  · have hall : (∀ val : Valuation sem data.toFuncdata (· = found.invn), (outSize data op ≤ 8 → WithinMask nz val found.invn) →
        Extends val (data.opSetInput op found.invn 0)) ↔
        ∀ i, Seen found.opc s (8 * outSize data op) i → (data.vn found.maskvn).offset.getLsbD i = true := by
      have hnot := h.toLegal.not_constant hm.notFree
      have hfree := Valuation.forall_bits_iff sem (hacyclic.mono (q := (· = found.invn)) fun _ hf => hf.elim) hnot (hx.trans hn)
        fun y => ∀ i, Seen found.opc s (8 * outSize data op) i → y.getLsbD i = true → (data.vn found.maskvn).offset.getLsbD i = true
      constructor
      · intro hall i hi
        have hlt : i < 8 * outSize data op := by
          rw [Seen] at hi
          split at hi
          · omega
          · exact hi.2
        refine hfree.mp (fun val => (hiff val).mp (hall val fun hle => absurd hle hwide)) (BitVec.allOnes _) i hi ?_
        rw [BitVec.getLsbD_allOnes, decide_eq_true hlt]
      · exact fun hall val _ => (hiff val).mpr fun i hi _ => hall i hi
    rw [hall, Found.Exact, or_iff_right hwide, hsa]
    rcases hdir with hleft | hright
    · simp only [Seen, hleft, if_true, true_and]
      exact forall_congr' fun i => imp_congr_left (by omega)
    · simp only [Seen, hright, reduceCtorEq, if_false, false_and, iff_false, not_forall]
      refine ⟨8 * outSize data op - 1, ⟨by omega, by omega⟩, fun hbit => ?_⟩
      have := BitVec.lt_of_getLsbD hbit
      omega

end Preservation

end RuleShiftAnd

end GhidraDecompiler.RuleAction
