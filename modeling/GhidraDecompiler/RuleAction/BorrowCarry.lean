import GhidraDecompiler.Dataflow.AddExpression
import GhidraDecompiler.Lib.SignedOverflow
import GhidraDecompiler.RuleAction.RuleValues

namespace GhidraDecompiler.RuleAction

open Pcode Dataflow SignedOverflow
open Dataflow.AddExpression (Gathering)
open Expression (VarnodeId OpId)
open Editing (Funcdata)
open Editing.Funcdata
open Matching
open RangeMeld.Funcdata (inputVn constantVn writtenVn logicalOp)

namespace FlagRules

section Patterns

variable (data : Funcdata)

def constantMatch (vn : VarnodeId) (val : Word) : Bool := (data.vn vn).isConstant && (data.vn vn).offset == val

/-- The sign test that a flag is compared with: the sum and the side of the zero. -/
structure SignTest where
  compop : OpId
  xvn : VarnodeId
  zside : Nat

/-- What the flag is compared with. -/
def comparedWith (compop : OpId) (svn : VarnodeId) : Option VarnodeId :=
  if getIn data compop 0 = some svn then getIn data compop 1 else getIn data compop 0

/-- The side of the zero, and the other input. -/
def zeroSide (in0 in1 : VarnodeId) : Option (Nat × VarnodeId) :=
  if constantMatch data in0 0 then some (0, in1) else if constantMatch data in1 0 then some (1, in0) else none

/-- The flag is compared with the sign of the value that is gathered. -/
def signTest (fuel : Nat) (gathering : Gathering) (svn : VarnodeId) (compop : OpId) : Option SignTest := do
  guard ((data.op compop).code = .intEqual ∨ (data.op compop).code = .intNotequal)
  let cvn ← comparedWith data compop svn
  let signop ← definedBy data cvn .intSless
  let in0 ← getIn data signop 0
  let in1 ← getIn data signop 1
  let (zside, xvn) ← zeroSide data in0 in1
  guard (data.vn xvn).getDef.isSome
  let expr1 ← gathering.run data.toFuncdata fuel
  let expr2 ← (Gathering.root xvn).run data.toFuncdata fuel
  guard (expr1.isEquivalent expr2 data.toFuncdata = some true)
  return { compop := compop, xvn := xvn, zside := zside }

/-- The flag is never set. -/
def clearFlag (op : OpId) : Funcdata :=
  let data := data.opSetOpcode op .copy
  let (falsevn, data) := data.newConstant 1 0
  let data := data.opSetInput op falsevn 0
  data.opRemoveInput op 1

def install (test : SignTest) (avn bvn : VarnodeId) : Funcdata :=
  if (data.op test.compop).code = .intNotequal then
    let data := data.opSetOpcode test.compop .intSless
    let data := data.opSetInput test.compop avn (1 - test.zside)
    data.opSetInput test.compop bvn test.zside
  else
    let data := data.opSetOpcode test.compop .intSlessequal
    let data := data.opSetInput test.compop avn test.zside
    data.opSetInput test.compop bvn (1 - test.zside)

end Patterns

end FlagRules

namespace FlagRules

section Tests

variable {sem : Semantics} {data d : Funcdata} {fuel : Nat} {g : Gathering} {svn compop : Nat} {test : SignTest}

theorem constantMatch_eq {vn : VarnodeId} {val : Word} :
    constantMatch data vn val = true ↔ (data.vn vn).isConstant = true ∧ (data.vn vn).offset = val := by
  rw [constantMatch, Bool.and_eq_true, beq_iff_eq]

/-- The sign test that was found. -/
structure SignTest.Found (test : SignTest) (data : Funcdata) (fuel : Nat) (g : Gathering) (svn : Nat) : Prop where
  code : (data.op test.compop).code = .intEqual ∨ (data.op test.compop).code = .intNotequal
  sign : ∃ cvn signop zvn, comparedWith data test.compop svn = some cvn ∧ (data.vn cvn).getDef = some signop ∧
    (data.op signop).code = .intSless ∧ getIn data signop 0 = some (if test.zside = 0 then zvn else test.xvn) ∧
    getIn data signop 1 = some (if test.zside = 0 then test.xvn else zvn) ∧ constantMatch data zvn 0 = true
  zside : test.zside ≤ 1
  equivalent : ∃ e e', g.run data.toFuncdata fuel = some e ∧ (Gathering.root test.xvn).run data.toFuncdata fuel = some e' ∧
    e.isEquivalent e' data.toFuncdata = some true

theorem signTest_found (h : signTest data fuel g svn compop = some test) : test.compop = compop ∧ test.Found data fuel g svn := by
  simp only [signTest, Option.bind_eq_bind, Option.bind_eq_some_iff, Option.guard_eq_some', exists_and_left, exists_const,
    Option.pure_def, Option.some.injEq] at h
  obtain ⟨hcode, cvn, hcvn, signop, hsignop, in0, hin0, in1, hin1, ⟨zside, xvn⟩, hside, hwritten, e, he, e', he', heq, rfl⟩ := h
  obtain ⟨hdef, hless⟩ := definedBy_eq.mp hsignop
  refine ⟨rfl, hcode, ?_, ?_, e, e', he, he', heq⟩
  · rw [zeroSide] at hside
    split at hside
    · next hzero =>
        cases hside
        exact ⟨cvn, signop, in0, hcvn, hdef, hless, hin0, hin1, hzero⟩
    · split at hside
      · next hzero =>
          cases hside
          exact ⟨cvn, signop, in1, hcvn, hdef, hless, hin0, hin1, hzero⟩
      · cases hside
  · rw [zeroSide] at hside
    split at hside
    · cases hside
      exact Nat.zero_le 1
    · split at hside
      · cases hside
        exact le_rfl
      · cases hside

/-- The sign of a difference, tested on either side. -/
def signOf (zside : Nat) {w : Nat} (d : BitVec w) : Bool := if zside = 0 then (0#w).slt d else d.slt 0#w

/-- The comparison that a flag and a sign stand for. -/
def lessOn (zside : Nat) {w : Nat} (x y : BitVec w) : Bool := if zside = 0 then y.slt x else x.slt y

theorem borrow_bne_sign {w : Nat} (hw : 0 < w) (zside : Nat) (x y : BitVec w) :
    (x.ssubOverflow y != signOf zside (x - y)) = lessOn zside x y := by
  rw [signOf, lessOn]
  split
  · exact borrow_bne_positive hw x y
  · exact borrow_bne_negative hw x y

theorem truth_inj {p q : Bool} : truth p = truth q ↔ p = q := by
  cases p <;> cases q <;> decide

/-- What the comparison of the flag says. -/
theorem SignTest.Found.bits_output (h : test.Found data fuel g svn) (hwell : WellSized data) (hg : SumsLegal data.toFuncdata)
    (hlinked : Linked data) (hdesc : test.compop ∈ data.descend svn) {n : Nat} (hn : ByteSize n) (hsized : g.Sized data.toFuncdata n)
    (val : Valuation sem data.toFuncdata noLeaf) {p : Bool} (hp : val.bits 1 svn = truth p) (hsize : (data.vn svn).size = 1) :
    val.bits 1 (data.op test.compop).output =
      truth (if (data.op test.compop).code = .intNotequal then p != signOf test.zside (g.total val n)
        else !(p != signOf test.zside (g.total val n))) := by
  obtain ⟨cvn, signop, zvn, hcvn, hdef, hless, hin0, hin1, hzero⟩ := h.sign
  obtain ⟨e, e', he, he', heq⟩ := h.equivalent
  obtain ⟨hconst, hoffset⟩ := constantMatch_eq.mp hzero
  -- the value whose sign is tested
  have hx : (data.vn test.xvn).size = n := Gathering.sized_of_isEquivalent hg hsized he he' heq
  have htotal : val.bits n test.xvn = g.total val n := by
    obtain ⟨-, -, hval⟩ := Gathering.run_spec he
    obtain ⟨-, -, hval'⟩ := Gathering.run_spec he'
    rw [← hval val n hg hn hsized, AddExpression.isEquivalent_sound hg val heq, hval' val n hg hn hx]
    rfl
  have hsign : val.bits 1 cvn = truth (signOf test.zside (g.total val n)) := by
    have hw := written_two hwell hdef hless (by decide) hin0 hin1
    have hsizes := ((hwell.fit_two hw).2.1 (by decide)).1
    have hzeroBits : val.bits n zvn = 0#(8 * n) := by
      have hz : (data.vn zvn).size = n := by
        split_ifs at hsizes
        · rw [hsizes, hx]
        · rw [← hsizes, hx]
      rw [val.bits_constant hz hconst, hoffset]
      exact BitVec.setWidth_zero (8 * n) 64
    have hfirst : (data.vn (if test.zside = 0 then zvn else test.xvn)).size = n := by
      split_ifs at hsizes ⊢
      · rw [hsizes, hx]
      · exact hx
    rw [hwell.bits_compare val not_false hw (by decide) .intSless hfirst, signOf, ← htotal]
    split
    · rw [hzeroBits]
    · rw [hzeroBits]
  -- the comparison has the flag and the sign as its inputs
  have hcode : (data.op test.compop).code ∈ compareOps := by
    rcases h.code with hc | hc
    · rw [hc]
      decide
    · rw [hc]
      decide
  have hsub : ∀ opc ∈ compareOps, opc ∈ twoInputOps := by decide
  have hout := hlinked.outputs svn test.compop hdesc (List.mem_append_left _ (hsub _ hcode))
  obtain ⟨a, b, hin⟩ := hwell.inrefs_two hout (hsub _ hcode)
  have hsides : (a = svn ∧ b = cvn) ∨ (a = cvn ∧ b = svn) := by
    have hmem := hlinked.reads svn test.compop hdesc
    rw [comparedWith, getIn, getIn, hin] at hcvn
    rw [hin] at hmem
    simp only [List.getElem?_cons_zero, List.getElem?_cons_succ, Option.some.injEq] at hcvn
    split at hcvn
    · next ha => exact .inl ⟨ha, Option.some.inj hcvn⟩
    · next ha =>
        refine .inr ⟨Option.some.inj hcvn, ?_⟩
        rcases List.mem_cons.mp hmem with heq | hmem
        · exact absurd heq.symm ha
        · exact (List.mem_singleton.mp hmem).symm
  have hbits : ∀ q r : Bool, val.bits 1 a = truth q → val.bits 1 b = truth r → (data.vn a).size = 1 →
      val.bits 1 (data.op test.compop).output = truth (if (data.op test.compop).code = .intNotequal then q != r else !(q != r)) := by
    intro q r hq hr ha
    rcases h.code with hc | hc
    · rw [hwell.bits_compare val not_false ⟨_, hout, hc, hin⟩ (by decide) .intEqual ha, hq, hr, hc]
      cases q <;> cases r <;> decide
    · rw [hwell.bits_compare val not_false ⟨_, hout, hc, hin⟩ (by decide) .intNotequal ha, hq, hr, hc]
      cases q <;> cases r <;> decide
  have hab := ((hwell.fit_two ⟨_, hout, rfl, hin⟩).2.1 hcode).1
  rcases hsides with ⟨rfl, rfl⟩ | ⟨rfl, rfl⟩
  · exact hbits _ _ hp hsign hsize
  · have hcomm : (signOf test.zside (g.total val n) != p) = (p != signOf test.zside (g.total val n)) := by
      rw [bne, bne, Bool.beq_comm]
    rw [hbits _ _ hsign hp (hab.trans hsize), hcomm]

end Tests

section Edits

variable {sem : Semantics} {data d : Funcdata} {test : SignTest} {e : Entry} {a b n : Nat}

theorem clearFlag_rewired (h : Rewired data d [e]) {x y : Arg} (hargs : e.args = [x, y]) :
    Rewired data (clearFlag d e.op) [{ e with code := .copy, args := [.constant 1 0] }] := by
  have hset := ((h.setOpcode .copy).setConstant 1 0 0).removeInput 1
  simp only [hargs] at hset
  exact hset

/-- Both inputs are set, the one or the other first. -/
theorem setBoth_rewired (h : Rewired data d [e]) {x y : Arg} (hargs : e.args = [x, y]) (ha : a < d.numVarnodes) (hb : b < d.numVarnodes)
    {s : Nat} (hs : s ≤ 1) : Rewired data ((d.opSetInput e.op a (1 - s)).opSetInput e.op b s)
      [{ e with args := if s = 0 then [d.arg b, d.arg a] else [d.arg a, d.arg b] }] := by
  obtain ⟨hg, -⟩ := opSetInput_reads h.blank ha e.op (1 - s)
  have hset := (h.setInput ha (1 - s)).setInput (hb.trans_le hg.numVarnodes) s
  rw [hg.core.arg_eq hb] at hset
  simp only [hargs] at hset
  match s, hs with
  | 0, _ => exact hset
  | 1, _ => exact hset

/-- The comparison has its new opcode, and the inputs in the order of the signs. -/
theorem install_rewired (h : Rewired data d [e]) {x y : Arg} (hargs : e.args = [x, y]) (hop : e.op = test.compop) (ha : a < d.numVarnodes)
    (hb : b < d.numVarnodes) (hs : test.zside ≤ 1) : Rewired data (install d test a b) [{ e with
      code := if e.code = .intNotequal then .intSless else .intSlessequal
      args := if e.code = .intNotequal ↔ test.zside = 0 then [d.arg b, d.arg a] else [d.arg a, d.arg b] }] := by
  have hcode := (h.entry e List.mem_cons_self).code
  rw [install, ← hop, hcode]
  by_cases hne : e.code = .intNotequal
  · rw [if_pos hne, if_pos hne]
    have hset := setBoth_rewired (h.setOpcode .intSless) hargs ha hb hs
    simp only [hne, true_iff]
    exact hset
  · rw [if_neg hne, if_neg hne]
    have hset := setBoth_rewired (h.setOpcode .intSlessequal) hargs ha hb (Nat.sub_le 1 test.zside)
    have hside : (1 - test.zside = 0) = ¬ test.zside = 0 := by
      rw [eq_iff_iff]
      omega
    simp only [hne, false_iff]
    simp only [hside, Nat.sub_sub_self hs] at hset
    exact hset

/-- The comparison that is installed says which of the two is less. -/
theorem install_extends (val : Valuation sem data.toFuncdata noLeaf) (hwell : WellSized data) (h : Rewired data d [e])
    {x y : Arg} (hargs : e.args = [x, y]) (hop : e.op = test.compop) (ha : a < d.numVarnodes) (hb : b < d.numVarnodes)
    (hs : test.zside ≤ 1) (hlt : e.out < data.numVarnodes) (hn : (data.vn e.out).size = 1) {u v : BitVec (8 * n)}
    (hu : ∀ w, Fits data val.value [] w → Arg.operand (install d test a b) w (d.arg a) = ⟨n, u⟩)
    (hv : ∀ w, Fits data val.value [] w → Arg.operand (install d test a b) w (d.arg b) = ⟨n, v⟩) :
    Extends val (install d test a b) ↔ val.bits 1 e.out =
      truth (if e.code = .intNotequal then lessOn test.zside u v else !lessOn test.zside u v) := by
  have hrew := install_rewired h hargs hop ha hb hs
  have hmem : (if e.code = .intNotequal then OpCode.intSless else .intSlessequal) ∈ twoInputOps ++ oneInputOps := by
    split
    · decide
    · decide
  by_cases hne : e.code = .intNotequal
  · simp only [true_iff, hne, if_true] at hrew hmem ⊢
    by_cases hz : test.zside = 0
    · rw [if_pos hz] at hrew
      rw [lessOn, if_pos hz]
      refine hrew.extends_edited val hwell.toLegal rfl (fun _ hl => hl.elim) not_false hmem hlt hn (fun w hw => ?_) (.intSless v u)
      rw [List.map_cons, List.map_cons, List.map_nil, hu w hw, hv w hw]
    · rw [if_neg hz] at hrew
      rw [lessOn, if_neg hz]
      refine hrew.extends_edited val hwell.toLegal rfl (fun _ hl => hl.elim) not_false hmem hlt hn (fun w hw => ?_) (.intSless u v)
      rw [List.map_cons, List.map_cons, List.map_nil, hu w hw, hv w hw]
  · simp only [false_iff, hne, if_false] at hrew hmem ⊢
    by_cases hz : test.zside = 0
    · rw [if_neg (not_not_intro hz)] at hrew
      rw [lessOn, if_pos hz, ← BitVec.sle_eq_not_slt]
      refine hrew.extends_edited val hwell.toLegal rfl (fun _ hl => hl.elim) not_false hmem hlt hn (fun w hw => ?_) (.intSlessequal u v)
      rw [List.map_cons, List.map_cons, List.map_nil, hu w hw, hv w hw]
    · rw [if_pos hz] at hrew
      rw [lessOn, if_neg hz, ← BitVec.sle_eq_not_slt]
      refine hrew.extends_edited val hwell.toLegal rfl (fun _ hl => hl.elim) not_false hmem hlt hn (fun w hw => ?_) (.intSlessequal v u)
      rw [List.map_cons, List.map_cons, List.map_nil, hu w hw, hv w hw]

end Edits

end FlagRules

open FlagRules

namespace RuleSborrow

def applyOp (fuel : Nat) (data : Funcdata) (op : OpId) : Int × Funcdata :=
  match getIn data op 0, getIn data op 1 with
  | some avn, some bvn =>
      if constantMatch data bvn 0 then (1, clearFlag data op)
      else
        let svn := (data.op op).output
        match (data.descend svn).findSome? (signTest data fuel (.subtract avn bvn) svn) with
        | some test => (1, install data test avn bvn)
        | none => (0, data)
  | _, _ => (0, data)

end RuleSborrow

namespace RuleScarry

/-- The constant of the sum comes last; the number without a negation is refused where the
inputs change places. -/
def orderInputs (data : Funcdata) (avn bvn : VarnodeId) : Option (VarnodeId × VarnodeId) :=
  if (data.vn bvn).isConstant then some (avn, bvn)
  else if !(data.vn avn).isConstant then none
  else
    let val := Pcode.calcMask (data.vn avn).size
    if val ^^^ (val >>> 1) = (data.vn avn).offset then none else some (bvn, avn)

def applyOp (fuel : Nat) (data : Funcdata) (op : OpId) : Int × Funcdata :=
  match getIn data op 0, getIn data op 1 with
  | some in0, some in1 =>
      if constantMatch data in1 0 || constantMatch data in0 0 then (1, clearFlag data op)
      else
        match orderInputs data in0 in1 with
        | none => (0, data)
        | some (avn, bvn) =>
            let svn := (data.op op).output
            match (data.descend svn).findSome? (signTest data fuel (.add avn bvn) svn) with
            | some test =>
                let bsize := (data.vn bvn).size
                let newval := -(data.vn bvn).offset &&& Pcode.calcMask bsize
                let (newConst, data) := data.newConstant bsize newval
                (1, install data test avn newConst)
            | none => (0, data)
  | _, _ => (0, data)

end RuleScarry

inductive FlagRule
  | sborrow
  | scarry

namespace FlagRule

def code : FlagRule → OpCode
  | .sborrow => .intSborrow
  | .scarry => .intScarry

def applyOp : FlagRule → Nat → Funcdata → OpId → Int × Funcdata
  | .sborrow => RuleSborrow.applyOp
  | .scarry => RuleScarry.applyOp

/-- The smallest signed number, that has no negation. -/
def signedMinimum (size : Nat) : Word := Pcode.calcMask size ^^^ (Pcode.calcMask size >>> 1)

/-- The second input of a sum is not the number without a negation, or the sum cannot
overflow. -/
def Exact (data : Funcdata) (op : OpId) : FlagRule → Prop
  | .sborrow => True
  | .scarry => ∀ in0 in1, (data.op op).inrefs = [in0, in1] → constantMatch data in0 0 = false →
      constantMatch data in1 (signedMinimum (data.vn in1).size) = false

section Preservation

variable {sem : Semantics} {data data' : Funcdata} {op fuel : Nat}

theorem signedMinimum_eq {n : Nat} (hn : ByteSize n) : signedMinimum n = (BitVec.intMin (8 * n)).setWidth 64 := by
  obtain ⟨hpos, hle⟩ := hn
  interval_cases n <;> decide

theorem eq_intMin_iff {n : Nat} (hn : ByteSize n) {off : Word} (hoff : off.toNat < 2 ^ (8 * n)) :
    off.setWidth (8 * n) = BitVec.intMin (8 * n) ↔ off = signedMinimum n := by
  have hback : (off.setWidth (8 * n)).setWidth 64 = off := by
    apply BitVec.eq_of_toNat_eq
    rw [BitWords.toNat_widen _ hn.width_le, BitVec.toNat_setWidth, Nat.mod_eq_of_lt hoff]
  rw [signedMinimum_eq hn]
  constructor
  · intro heq
    rw [← heq, hback]
  · intro heq
    rw [heq, BitWords.setWidth_narrow _ hn.width_le]

theorem sums_legal (h : WellSized data) (hg : PtraddLegal data.toFuncdata) : SumsLegal data.toFuncdata := by
  refine ⟨hg, fun v o hdef hcode => ?_⟩
  have hmem : (data.op o).code ∈ sameSizeOps := by
    rcases hcode with hcode | hcode
    · rw [hcode]
      decide
    · rw [hcode]
      decide
  obtain ⟨a, b, hin⟩ := h.inrefs_binary hdef (List.mem_append_left _ (List.mem_append_left _ hmem))
  exact ⟨a, b, hin, (h.sizes_binary hdef hin).1 hmem⟩

variable {a b n : Nat} (h : WellSized data) (hg : PtraddLegal data.toFuncdata) (hlinked : Linked data)
  (hout : (data.vn (data.op op).output).getDef = some op) (hin : (data.op op).inrefs = [a, b])
  (val : Valuation sem data.toFuncdata noLeaf)

include h in
/-- The flag that is never set. -/
theorem clearFlag_extends (hsize : (data.vn (data.op op).output).size = 1)
    (hbits : val.bits 1 (data.op op).output = truth false)
    (hout : (data.vn (data.op op).output).getDef = some op) (hin : (data.op op).inrefs = [a, b]) : Extends val (clearFlag data op) := by
  have hedit := (Rewired.refl h.toLegal).edit h.toLegal hout (fun _ he => absurd he List.not_mem_nil)
  have hrew := clearFlag_rewired hedit (x := data.arg a) (y := data.arg b) (by rw [entryOf, hin, List.map_cons, List.map_cons, List.map_nil])
  have hcopy : OpCode.copy ∈ twoInputOps ++ oneInputOps := by decide
  exact (hrew.extends_edited val h.toLegal rfl (fun _ hl => hl.elim) not_false hcopy (h.lt_of_def hout) hsize (fun _ _ => rfl)
    (.copy _)).mpr hbits

theorem bits_zero (val : Valuation sem data.toFuncdata noLeaf) (hb : constantMatch data b 0 = true) (hn : (data.vn b).size = n) :
    val.bits n b = 0#(8 * n) := by
  obtain ⟨hconst, hoffset⟩ := constantMatch_eq.mp hb
  rw [val.bits_constant hn hconst, hoffset]
  exact BitVec.setWidth_zero (8 * n) 64

include h hlinked in
/-- The comparison that was found is rewritten, with a flag that is the overflow of a
difference or the opposite of it. -/
theorem install_extends_iff {d : Funcdata} {g : Gathering} {test : SignTest} {avn bvn svn : Nat} {x y : BitVec (8 * n)} {s : Bool}
    (hg : SumsLegal data.toFuncdata) (hfound : test.Found data fuel g svn) (hdesc : test.compop ∈ data.descend svn) (hn : ByteSize n)
    (hsized : g.Sized data.toFuncdata n) (htotal : g.total val n = x - y) (hsize : (data.vn svn).size = 1)
    (hp : val.bits 1 svn = truth (x.ssubOverflow y != s))
    (hrew : Rewired data d [entryOf data test.compop (data.op test.compop).output]) (ha : avn < d.numVarnodes) (hb : bvn < d.numVarnodes)
    (hu : ∀ d' entries w, Rewired data d' entries → Fits data val.value [] w → Arg.operand d' w (d.arg avn) = ⟨n, x⟩)
    (hv : ∀ d' entries w, Rewired data d' entries → Fits data val.value [] w → Arg.operand d' w (d.arg bvn) = ⟨n, y⟩) :
    Extends val (install d test avn bvn) ↔ s = false := by
  have hcode : (data.op test.compop).code ∈ compareOps := by
    rcases hfound.code with hc | hc
    · rw [hc]
      decide
    · rw [hc]
      decide
  have hsub : ∀ opc ∈ compareOps, opc ∈ twoInputOps := by decide
  have hout := hlinked.outputs svn test.compop hdesc (List.mem_append_left _ (hsub _ hcode))
  obtain ⟨a, b, hin⟩ := h.inrefs_two hout (hsub _ hcode)
  have hsizeout := ((h.fit_two ⟨_, hout, rfl, hin⟩).2.1 hcode).2
  have hargs : (entryOf data test.compop (data.op test.compop).output).args = [data.arg a, data.arg b] := by
    rw [entryOf, hin, List.map_cons, List.map_cons, List.map_nil]
  have hinstalled := install_rewired hrew hargs rfl ha hb hfound.zside
  have hext := install_extends val h hrew hargs rfl ha hb hfound.zside (h.lt_of_def hout) hsizeout (fun w hw => hu _ _ w hinstalled hw)
    fun w hw => hv _ _ w hinstalled hw
  have hbits := hfound.bits_output h hg hlinked hdesc hn hsized val hp hsize
  have hless := borrow_bne_sign (Nat.mul_pos (by decide) hn.1) test.zside x y
  rw [hext, entryOf, hbits, htotal, truth_inj, ← hless]
  have hflip : ∀ o s t : Bool, (((o != s) != t) = (o != t) ↔ s = false) ∧ ((!((o != s) != t)) = (!(o != t)) ↔ s = false) := by decide
  split
  · exact (hflip _ s _).1
  · exact (hflip _ s _).2

/-- A constant is negated within its size. -/
theorem setWidth_neg_and {n : Nat} (hn : ByteSize n) (off : Word) :
    (-off &&& Pcode.calcMask n).setWidth (8 * n) = -off.setWidth (8 * n) := by
  rw [AddExpression.setWidth_and_calcMask hn, BitVec.setWidth_neg_of_le hn.width_le]

include h hg hlinked hout hin in
theorem sborrow_extends (hcode : (data.op op).code = .intSborrow) (hn : ByteSize (data.vn a).size)
    (happly : RuleSborrow.applyOp fuel data op = (1, data')) : Extends val data' := by
  have hw : Written data (data.op op).output .intSborrow [a, b] := ⟨op, hout, hcode, hin⟩
  obtain ⟨hab, hsize⟩ := (h.fit_two hw).2.1 (by decide)
  have hpos : 0 < 8 * (data.vn a).size := Nat.mul_pos (by decide) hn.1
  have hbits := h.bits_compare val not_false hw (by decide) .intSborrow rfl
  have hlt := (hw.lt h.toLegal).2
  simp only [RuleSborrow.applyOp, getIn, hin, List.getElem?_cons_zero, List.getElem?_cons_succ] at happly
  split at happly
  · next hzero =>
      obtain rfl := (Prod.mk.inj happly).2
      rw [bits_zero val hzero hab.symm, borrow_zero hpos] at hbits
      exact clearFlag_extends h val hsize hbits hout hin
  · split at happly
    · next test htest =>
        obtain rfl := (Prod.mk.inj happly).2
        obtain ⟨compop, hmem, htest⟩ := List.exists_of_findSome?_eq_some htest
        obtain ⟨rfl, hfound⟩ := signTest_found htest
        have hedit := (Rewired.refl h.toLegal).edit h.toLegal (hlinked.outputs _ _ hmem (List.mem_append_left _ ?_))
          (fun _ he => absurd he List.not_mem_nil)
        · refine (install_extends_iff h hlinked val (s := false) (sums_legal h hg) hfound hmem hn ⟨rfl, hab.symm⟩ rfl hsize ?_ hedit
            (hlt a (by simp)) (hlt b (by simp)) ?_ ?_).mpr rfl
          · rw [hbits, Bool.bne_false]
          · exact fun d' entries w hrew hfits => hrew.operand_old hfits (hlt a (by simp)) rfl
          · exact fun d' entries w hrew hfits => hrew.operand_old hfits (hlt b (by simp)) hab.symm
        · rcases hfound.code with hc | hc
          · rw [hc]
            decide
          · rw [hc]
            decide
    · cases happly

theorem carry_eq_bne {w : Nat} (hw : 0 < w) (x y : BitVec w) : x.saddOverflow y = (x.ssubOverflow (-y) != decide (y = BitVec.intMin w)) := by
  rw [carry_eq_borrow hw]
  by_cases hy : y = BitVec.intMin w
  · rw [if_pos hy, decide_eq_true hy, Bool.bne_true]
  · rw [if_neg hy, decide_eq_false hy, Bool.bne_false]

theorem carry_comm {w : Nat} (x y : BitVec w) : x.saddOverflow y = y.saddOverflow x := by
  rw [BitVec.saddOverflow, BitVec.saddOverflow, Int.add_comm]

include h hg hlinked hout hin in
/-- The sum with a constant: the flag is that of a difference, unless the constant has no
negation. -/
theorem scarry_found_extends (hcode : (data.op op).code = .intScarry) (hn : ByteSize (data.vn a).size) {avn bvn : Nat}
    (hpair : avn = a ∧ bvn = b ∨ avn = b ∧ bvn = a) (hconst : (data.vn bvn).isConstant = true) {test : SignTest}
    (htest : (data.descend (data.op op).output).findSome? (signTest data fuel (.add avn bvn) (data.op op).output) = some test) :
    Extends val (install (data.newConstant (data.vn bvn).size (-(data.vn bvn).offset &&& Pcode.calcMask (data.vn bvn).size)).2 test avn
      data.numVarnodes) ↔ constantMatch data bvn (signedMinimum (data.vn bvn).size) = false := by
  have hw : Written data (data.op op).output .intScarry [a, b] := ⟨op, hout, hcode, hin⟩
  obtain ⟨hab, hsize⟩ := (h.fit_two hw).2.1 (by decide)
  have hpos : 0 < 8 * (data.vn a).size := Nat.mul_pos (by decide) hn.1
  have hlt := (hw.lt h.toLegal).2
  have hsizes : (data.vn avn).size = (data.vn a).size ∧ (data.vn bvn).size = (data.vn a).size ∧ avn < data.numVarnodes := by
    rcases hpair with ⟨rfl, rfl⟩ | ⟨rfl, rfl⟩
    · exact ⟨rfl, hab.symm, hlt _ (by simp)⟩
    · exact ⟨hab.symm, rfl, hlt _ (by simp)⟩
  obtain ⟨hsa, hsb, hlta⟩ := hsizes
  generalize (data.vn a).size = n at *
  have hflag : val.bits 1 (data.op op).output = truth ((val.bits n avn).saddOverflow (val.bits n bvn)) := by
    have hbits := h.bits_compare val not_false hw (by decide) .intScarry (m := n) ?_
    · rcases hpair with ⟨rfl, rfl⟩ | ⟨rfl, rfl⟩
      · exact hbits
      · rw [hbits, carry_comm]
    · rcases hpair with ⟨rfl, rfl⟩ | ⟨rfl, rfl⟩
      · exact hsa
      · exact hsb
  rw [carry_eq_bne hpos] at hflag
  obtain ⟨compop, hmem, htest⟩ := List.exists_of_findSome?_eq_some htest
  obtain ⟨rfl, hfound⟩ := signTest_found htest
  have hwrites : (data.op test.compop).code ∈ twoInputOps ++ oneInputOps := by
    rcases hfound.code with hc | hc
    · rw [hc]
      decide
    · rw [hc]
      decide
  have hedit := ((Rewired.refl h.toLegal).edit h.toLegal (hlinked.outputs _ _ hmem hwrites)
    (fun _ he => absurd he List.not_mem_nil)).newConstant (data.vn bvn).size (-(data.vn bvn).offset &&& Pcode.calcMask (data.vn bvn).size)
  have hmin : constantMatch data bvn (signedMinimum n) = false ↔ decide (val.bits n bvn = BitVec.intMin (8 * n)) = false := by
    have hoff : (data.vn bvn).offset.toNat < 2 ^ (8 * n) := by
      rw [← hsb]
      exact (h.constant bvn hconst).2.2
    rw [constantMatch, hconst, Bool.true_and, beq_eq_false_iff_ne, decide_eq_false_iff_not, val.bits_constant hsb hconst,
      eq_intMin_iff hn hoff]
  rw [hsb, hmin]
  rw [hsb] at hedit
  refine install_extends_iff h hlinked val (x := val.bits n avn) (y := -val.bits n bvn) (sums_legal h hg) hfound hmem hn ⟨hsa, hsb⟩ ?_ hsize
    hflag hedit (hedit.lt hlta) (Nat.lt_succ_self _) ?_ ?_
  · rw [Gathering.total, BitVec.sub_eq_add_neg, BitVec.neg_neg]
  · intro d' entries w hrew hfits
    rw [hedit.core.arg_eq hlta]
    exact hrew.operand_old hfits hlta hsa
  · intro d' entries w hrew hfits
    rw [newConstant_arg, Arg.operand, setWidth_neg_and hn, val.bits_constant hsb hconst]

theorem orderInputs_cases {avn bvn : Nat} (horder : RuleScarry.orderInputs data a b = some (avn, bvn)) :
    (avn = a ∧ bvn = b ∧ (data.vn b).isConstant = true) ∨
      (avn = b ∧ bvn = a ∧ (data.vn b).isConstant = false ∧ (data.vn a).isConstant = true ∧
        constantMatch data a (signedMinimum (data.vn a).size) = false) := by
  simp only [RuleScarry.orderInputs] at horder
  split at horder
  · next hconst =>
      cases horder
      exact .inl ⟨rfl, rfl, hconst⟩
  · next hconst =>
      split at horder
      · cases horder
      · next hconst' =>
          split at horder
          · cases horder
          · next hne =>
              cases horder
              have hconsta : (data.vn a).isConstant = true := by simpa using hconst'
              refine .inr ⟨rfl, rfl, Bool.eq_false_of_not_eq_true hconst, hconsta, ?_⟩
              rw [constantMatch, hconsta, Bool.true_and, beq_eq_false_iff_ne]
              exact fun heq => hne heq.symm

include h hg hlinked hout hin in
theorem scarry_extends_iff (hcode : (data.op op).code = .intScarry) (hn : ByteSize (data.vn a).size)
    (happly : RuleScarry.applyOp fuel data op = (1, data')) :
    Extends val data' ↔ (constantMatch data a 0 = false → constantMatch data b (signedMinimum (data.vn b).size) = false) := by
  have hw : Written data (data.op op).output .intScarry [a, b] := ⟨op, hout, hcode, hin⟩
  obtain ⟨hab, hsize⟩ := (h.fit_two hw).2.1 (by decide)
  have hpos : 0 < 8 * (data.vn a).size := Nat.mul_pos (by decide) hn.1
  have hbits := h.bits_compare val not_false hw (by decide) .intScarry rfl
  simp only [RuleScarry.applyOp, getIn, hin, List.getElem?_cons_zero, List.getElem?_cons_succ] at happly
  split at happly
  · next hzero =>
      obtain rfl := (Prod.mk.inj happly).2
      rw [Bool.or_eq_true] at hzero
      rcases hzero with hzero | hzero
      · rw [bits_zero val hzero hab.symm, carry_zero hpos] at hbits
        refine iff_of_true (clearFlag_extends h val hsize hbits hout hin) fun _ => ?_
        obtain ⟨hconst, hoffset⟩ := constantMatch_eq.mp hzero
        have hne : (0 : Word) ≠ signedMinimum (data.vn a).size := by
          obtain ⟨hone, height⟩ := hn
          generalize (data.vn a).size = n at *
          interval_cases n <;> decide
        rw [constantMatch, hoffset, hconst, ← hab, Bool.true_and, beq_eq_false_iff_ne]
        exact hne
      · rw [bits_zero val hzero rfl, zero_carry hpos] at hbits
        refine iff_of_true (clearFlag_extends h val hsize hbits hout hin) fun hne => ?_
        rw [hzero] at hne
        cases hne
  · next hzero =>
      have hzero0 : constantMatch data a 0 = false := by
        by_contra hne
        exact hzero (by rw [Bool.eq_true_of_not_eq_false hne, Bool.or_true])
      split at happly
      · cases happly
      · next avn bvn horder =>
          split at happly
          · next test htest =>
              obtain rfl := (Prod.mk.inj happly).2
              rcases orderInputs_cases horder with ⟨rfl, rfl, hconst⟩ | ⟨rfl, rfl, hconst, hconst', hne⟩
              · refine (scarry_found_extends h hg hlinked hout hin val hcode hn (.inl ⟨rfl, rfl⟩) hconst htest).trans ?_
                exact ⟨fun hb _ => hb, fun hb => hb hzero0⟩
              · refine iff_of_true ((scarry_found_extends h hg hlinked hout hin val hcode hn (.inr ⟨rfl, rfl⟩) hconst' htest).mpr hne)
                  fun _ => ?_
                rw [constantMatch, hconst, Bool.false_and]
          · cases happly

/-- The rules keep the values if and only if a sum has no second input without a
negation. -/
theorem flagRule_iff (rule : FlagRule) (h : WellSized data) (hg : PtraddLegal data.toFuncdata) (hlinked : Linked data)
    (hout : (data.vn (data.op op).output).getDef = some op) (hcode : (data.op op).code = rule.code)
    (hn : ∀ u ∈ (data.op op).inrefs, ByteSize (data.vn u).size) (happly : rule.applyOp fuel data op = (1, data'))
    (val : Valuation sem data.toFuncdata noLeaf) : Extends val data' ↔ rule.Exact data op := by
  have hmem : (data.op op).code ∈ twoInputOps := by
    rw [hcode]
    cases rule <;> decide
  obtain ⟨a, b, hin⟩ := h.inrefs_two hout hmem
  have hna := hn a (by rw [hin]; exact List.mem_cons_self)
  cases rule with
  | sborrow => exact iff_of_true (sborrow_extends h hg hlinked hout hin val hcode hna happly) trivial
  | scarry =>
      rw [scarry_extends_iff h hg hlinked hout hin val hcode hna happly]
      constructor
      · intro hex in0 in1 hin' hzero
        rw [hin] at hin'
        cases hin'
        exact hex hzero
      · exact fun hex hzero => hex a b hin hzero

/-- The overflow of a byte and a constant is compared with the negative sign of the sum. -/
def comparedSum (val : Word) : Funcdata :=
  ofLists [inputVn 1, constantVn 1 val, writtenVn 0, writtenVn 1, constantVn 1 0, writtenVn 2, writtenVn 3]
    [logicalOp .intScarry [0, 1] 2, logicalOp .intAdd [0, 1] 3, logicalOp .intSless [3, 4] 5, logicalOp .intNotequal [2, 5] 6]

theorem comparedSum_linked (val : Word) (hval : val = 0x7f ∨ val = 0x80) : linked
    [inputVn 1, constantVn 1 val, writtenVn 0, writtenVn 1, constantVn 1 0, writtenVn 2, writtenVn 3]
    [logicalOp .intScarry [0, 1] 2, logicalOp .intAdd [0, 1] 3, logicalOp .intSless [3, 4] 5, logicalOp .intNotequal [2, 5] 6] = true := by
  rcases hval with rfl | rfl
  · decide
  · decide

end Preservation

end FlagRule

end GhidraDecompiler.RuleAction
