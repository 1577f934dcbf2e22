import GhidraDecompiler.Address
import GhidraDecompiler.Expression.BooleanMatch
import GhidraDecompiler.Range.CircleUnion

namespace GhidraDecompiler.RuleAction

open Pcode Range
open Expression (VarnodeId OpId isBoolOutput)

namespace RangeMeld

/-- A written varnode has an op that defines it. The entry of a symbol marks a
constant for display. -/
structure Varnode extends Expression.Varnode where
  isFree : Bool
  isHeritageKnown : Bool
  symbolEntry : Option Nat

/-- The ops of the rule have an output. -/
structure PcodeOp extends Expression.Op where
  output : VarnodeId
  addr : Address

/-- The varnodes are numbered from zero; the equates of the symbol table say which
values they stay close to. -/
structure Funcdata where
  vn : VarnodeId → Varnode
  op : OpId → PcodeOp
  numVarnodes : Nat
  isValueClose : Nat → Word → Nat → Bool

def isMarker (opc : OpCode) : Bool := opc = .multiequal ∨ opc = .indirect

def isCall (opc : OpCode) : Bool := opc = .call ∨ opc = .callind ∨ opc = .callother ∨ opc = .new

def isCommutative : OpCode → Bool
  | .intEqual | .intNotequal | .intAdd | .intCarry | .intScarry | .intXor | .intAnd | .intOr | .intMult
  | .boolXor | .boolAnd | .boolOr | .floatEqual | .floatNotequal | .floatAdd | .floatMult => true
  | _ => false

namespace Funcdata

section Equality

def functionalEqualityLevel0 (data : Funcdata) (vn1 vn2 : VarnodeId) : Int :=
  let first := data.vn vn1
  let second := data.vn vn2
  if vn1 = vn2 then 0
  else if first.size ≠ second.size then -1
  else if first.isConstant then
    if second.isConstant then if first.offset = second.offset then 0 else -1 else -1
  else if first.isFree || second.isFree then -1
  else 1

/-- The inputs of two ops are compared in pairs, straight or crossed. The pairs that
are left are returned with the code. -/
def functionalEqualityInputs (data : Funcdata) (commutative : Bool) (in1 in2 : List VarnodeId) :
    Option (Int × List (VarnodeId × VarnodeId)) :=
  match in1, in2 with
  | [a0], [b0] => some (data.functionalEqualityLevel0 a0 b0, [(a0, b0)])
  | [a0, a1], [b0, b1] =>
      let testval := data.functionalEqualityLevel0 a0 b0
      let testval2 := data.functionalEqualityLevel0 a1 b1
      if testval = 0 then
        if testval2 = 0 then some (0, [])
        else if testval2 < 0 then some (-1, [])
        else some (1, [(a1, b1)])
      else if testval2 = 0 then some (testval, [(a0, b0)])
      else
        let unmatchsize := if testval = 1 ∧ testval2 = 1 then 2 else -1
        if !commutative then some (unmatchsize, [(a0, b0), (a1, b1)])
        else
          let comm1 := data.functionalEqualityLevel0 a0 b1
          let comm2 := data.functionalEqualityLevel0 a1 b0
          if comm1 = 0 ∧ comm2 = 0 then some (0, [])
          else if comm1 < 0 ∨ comm2 < 0 then some (unmatchsize, [(a0, b0), (a1, b1)])
          else if comm1 = 0 then some (1, [(a1, b0)])
          else if comm2 = 0 then some (1, [(a0, b1)])
          else if unmatchsize = 2 then some (2, [(a0, b0), (a1, b1)])
          else some (2, [(a0, b1), (a1, b0)])
  | _, _ => none

/-- An op without inputs has no answer. -/
def functionalEqualityLevel (data : Funcdata) (vn1 vn2 : VarnodeId) : Option (Int × List (VarnodeId × VarnodeId)) :=
  let testval := data.functionalEqualityLevel0 vn1 vn2
  if testval ≠ 1 then some (testval, [])
  else
    match (data.vn vn1).getDef, (data.vn vn2).getDef with
    | some def1, some def2 =>
        let op1 := data.op def1
        let op2 := data.op def2
        if op1.code ≠ op2.code then some (-1, [])
        else if op1.inrefs.length ≠ op2.inrefs.length then some (-1, [])
        else if isMarker op1.code then some (-1, [])
        else if isCall op2.code then some (-1, [])
        else if op1.code = .load ∧ op1.addr ≠ op2.addr then some (-1, [])
        else
          match op1.inrefs, op2.inrefs with
          | a0 :: a1 :: a2 :: _, b0 :: b1 :: b2 :: _ =>
              if op1.code ≠ .ptradd then some (-1, [])
              else if (data.vn a2).offset ≠ (data.vn b2).offset then some (-1, [])
              else data.functionalEqualityInputs (isCommutative op1.code) [a0, a1] [b0, b1]
          | in1, in2 => data.functionalEqualityInputs (isCommutative op1.code) in1 in2
    | _, _ => some (-1, [])

def functionalEquality (data : Funcdata) (vn1 vn2 : VarnodeId) : Option Bool :=
  (data.functionalEqualityLevel vn1 vn2).map fun res => decide (res.1 = 0)

end Equality

section Rule

def pullBackInput (data : Funcdata) (r : CircleRange) (op : PcodeOp) (slot : Int) (res constvn : VarnodeId)
    (markup : Option VarnodeId) : Option (CircleRange × VarnodeId × Option VarnodeId) :=
  match r.pullBackBinary op.code (data.vn constvn).offset.toNat slot (data.vn res).size (data.vn op.output).size with
  | (true, r) => some (r, res, if (data.vn constvn).symbolEntry.isSome then some constvn else markup)
  | (false, _) => none

/-- The range of the input of the op, and the input; the mask of the bits that may be
set is not used. -/
def pullBack (data : Funcdata) (r : CircleRange) (op : OpId) (markup : Option VarnodeId) :
    Option (CircleRange × VarnodeId × Option VarnodeId) :=
  let pcodeOp := data.op op
  match pcodeOp.inrefs with
  | [res] =>
      if (data.vn res).isConstant then none
      else
        match r.pullBackUnary pcodeOp.code (data.vn res).size (data.vn pcodeOp.output).size with
        | (true, r) => some (r, res, markup)
        | (false, _) => none
  | [in0, in1] =>
      if (data.vn in0).isConstant then
        if (data.vn in1).isConstant then none else data.pullBackInput r pcodeOp 1 in1 in0 markup
      else if !(data.vn in1).isConstant then none
      else data.pullBackInput r pcodeOp 0 in0 in1 markup
  | _ => none

/-- A negation is pulled back once more. -/
def pullBackNegated (data : Funcdata) (sub : OpId) (r : CircleRange) (vn : VarnodeId) (markup : Option VarnodeId) :
    Option (CircleRange × VarnodeId × Option VarnodeId) :=
  if (data.op sub).code = .boolNegate then
    match (data.vn vn).getDef with
    | none => none
    | some op => data.pullBack r op markup
  else some (r, vn, markup)

/-- The ranges of one varnode: of two inputs with different sizes the larger one is
pulled back once more. -/
def commonInput (data : Funcdata) (range1 range2 : CircleRange) (first second : VarnodeId) (markup : Option VarnodeId) :
    Option (Option (CircleRange × CircleRange × VarnodeId × Option VarnodeId)) := do
  if ← data.functionalEquality first second then return some (range1, range2, first, markup)
  if (data.vn second).size = (data.vn first).size then return none
  match (data.vn second).getDef, (data.vn first).getDef with
  | some op, firstDef =>
      if (data.vn first).size < (data.vn second).size then
        let some (range2, second, markup) := data.pullBack range2 op markup | return none
        return if first = second then some (range1, range2, first, markup) else none
      else
        let some op := firstDef | return none
        let some (range1, first, markup) := data.pullBack range1 op markup | return none
        return if first = second then some (range1, range2, first, markup) else none
  | none, some op =>
      let some (range1, first, markup) := data.pullBack range1 op markup | return none
      return if first = second then some (range1, range2, first, markup) else none
  | none, none => return none

def newConstant (data : Funcdata) (size : Nat) (val : Word) : VarnodeId × Funcdata :=
  let vn : Varnode :=
    { size := size, isConstant := true, offset := val, getDef := none, isFree := true, isHeritageKnown := true, symbolEntry := none }
  (data.numVarnodes, { data with vn := Function.update data.vn data.numVarnodes vn, numVarnodes := data.numVarnodes + 1 })

def vnCopySymbolIfValid (data : Funcdata) (vn source : VarnodeId) : Funcdata :=
  match (data.vn source).symbolEntry with
  | none => data
  | some mapEntry =>
      if data.isValueClose mapEntry (data.vn vn).offset (data.vn vn).size then
        { data with vn := Function.update data.vn vn { data.vn vn with symbolEntry := some mapEntry } }
      else data

def opSetOpcode (data : Funcdata) (op : OpId) (opc : OpCode) : Funcdata :=
  { data with op := Function.update data.op op { data.op op with code := opc } }

def opSetInput (data : Funcdata) (op : OpId) (vn : VarnodeId) (slot : Nat) : Funcdata :=
  { data with op := Function.update data.op op { data.op op with inrefs := (data.op op).inrefs.set slot vn } }

def opRemoveInput (data : Funcdata) (op : OpId) (slot : Nat) : Funcdata :=
  { data with op := Function.update data.op op { data.op op with inrefs := (data.op op).inrefs.eraseIdx slot } }

/-- The op becomes a comparison with the constant. -/
def setComparison (data : Funcdata) (op : OpId) (first : VarnodeId) (opc : OpCode) (resc resslot : Nat)
    (markup : Option VarnodeId) : Funcdata :=
  let (newConst, data) := data.newConstant (data.vn first).size (BitVec.ofNat 64 resc)
  let data :=
    match markup with
    | some markup => data.vnCopySymbolIfValid newConst markup
    | none => data
  let data := data.opSetOpcode op opc
  let data := data.opSetInput op first (1 - resslot)
  data.opSetInput op newConst resslot

/-- The op becomes a copy of a truth value. -/
def setTruth (data : Funcdata) (op : OpId) (val : Word) : Funcdata :=
  let data := data.opSetOpcode op .copy
  let data := data.opRemoveInput op 1
  let (vn, data) := data.newConstant 1 val
  data.opSetInput op vn 0

def finish (data : Funcdata) (op : OpId) (restype : Int) : Int × Funcdata :=
  if restype = 2 then (0, data)
  else if restype = 1 then (1, data.setTruth op 1)
  else if restype = 3 then (1, data.setTruth op 0)
  else (1, data)

def applyOp (data : Funcdata) (op : OpId) : Option (Int × Funcdata) := do
  let vn1 ← (data.op op).inrefs[0]?
  let some sub1 := (data.vn vn1).getDef | return (0, data)
  let vn2 ← (data.op op).inrefs[1]?
  let some sub2 := (data.vn vn2).getDef | return (0, data)
  if !isBoolOutput (data.op sub1).code then return (0, data)
  if !isBoolOutput (data.op sub2).code then return (0, data)
  let some (range1, first, markup) := data.pullBack (.newBool true) sub1 none | return (0, data)
  let some (range2, second, markup) := data.pullBack (.newBool true) sub2 markup | return (0, data)
  let some (range1, first, markup) := data.pullBackNegated sub1 range1 first markup | return (0, data)
  let some (range2, second, markup) := data.pullBackNegated sub2 range2 second markup | return (0, data)
  let some (range1, range2, first, markup) ← data.commonInput range1 range2 first second markup | return (0, data)
  if !(data.vn first).isHeritageKnown then return (0, data)
  let (restype, range1) :=
    if (data.op op).code = .boolAnd then range1.intersect range2 else range1.circleUnion range2
  if restype ≠ 0 then return data.finish op restype
  match range1.translate2Op with
  | (0, opc, resc, resslot) => return (1, data.setComparison op first opc resc resslot markup)
  | (restype, _) => return data.finish op restype

end Rule

section Meaning

/-- The emulation of an op on the values of its inputs. -/
def emulate (data : Funcdata) (op : PcodeOp) (value : VarnodeId → Option Word) : Option Word :=
  match op.inrefs with
  | [a] => do (evaluateUnary op.code (data.vn op.output).size (data.vn a).size (← value a)).toOption
  | [a, b] => do (evaluateBinary op.code (data.vn op.output).size (data.vn a).size (← value a) (← value b)).toOption
  | _ => none

/-- The value of a varnode when the variable has value `v`; the fuel bounds the depth
of the expression. -/
def valueAt (data : Funcdata) (x : VarnodeId) (v : Word) : Nat → VarnodeId → Option Word
  | 0, _ => none
  | fuel + 1, u =>
      if u = x then some v
      else
        match (data.vn u).getDef with
        | some op => data.emulate (data.op op) (valueAt data x v fuel)
        | none => if (data.vn u).isConstant then some (data.vn u).offset else none

def outputAt (data : Funcdata) (x : VarnodeId) (v : Word) (fuel : Nat) (op : OpId) : Option Word :=
  data.emulate (data.op op) (data.valueAt x v fuel)

/-- A varnode of one to eight bytes that is not a constant. -/
structure Variable (data : Funcdata) (x : VarnodeId) : Prop where
  live : x < data.numVarnodes
  notConstant : (data.vn x).isConstant = false
  bytes : ByteSize (data.vn x).size

/-- A constant of the same size. -/
structure ConstantFor (data : Funcdata) (x c : VarnodeId) : Prop where
  isConstant : (data.vn c).isConstant = true
  notWritten : (data.vn c).getDef = none
  size : (data.vn c).size = (data.vn x).size
  within : (data.vn c).offset.toNat < 2 ^ (8 * (data.vn x).size)

/-- The varnode compares the variable with a constant, in either order. -/
structure Compares (data : Funcdata) (x u : VarnodeId) (op : OpId) (slot : Int) (c : VarnodeId) : Prop where
  written : (data.vn u).getDef = some op
  notConstant : (data.vn u).isConstant = false
  ne : u ≠ x
  opcode : (data.op op).code ∈ comparisonOps
  slots : slot = 0 ∨ slot = 1
  inrefs : (data.op op).inrefs = if slot = 0 then [x, c] else [c, x]
  constant : data.ConstantFor x c

/-- A comparison, or its negation. -/
inductive Condition (data : Funcdata) (x : VarnodeId) : VarnodeId → Prop
  | comparison {u op slot c} (h : data.Compares x u op slot c) : Condition data x u
  | negation {u w op op' slot c} (written : (data.vn u).getDef = some op) (ne : u ≠ x) (code : (data.op op).code = .boolNegate)
      (inrefs : (data.op op).inrefs = [w]) (h : data.Compares x w op' slot c) : Condition data x u

variable {data : Funcdata} {x u c : VarnodeId} {op : OpId} {slot : Int} {v : Word} {fuel : Nat}

theorem valueAt_variable (data : Funcdata) (x : VarnodeId) (v : Word) (fuel : Nat) : data.valueAt x v (fuel + 1) x = some v := by
  rw [valueAt, if_pos rfl]

theorem Variable.ne (hx : data.Variable x) (hc : data.ConstantFor x c) : c ≠ x := by
  rintro rfl
  exact absurd hc.isConstant (by simp [hx.notConstant])

theorem valueAt_constant (hx : data.Variable x) (hc : data.ConstantFor x c) :
    data.valueAt x v (fuel + 1) c = some (data.vn c).offset := by
  rw [valueAt, if_neg (hx.ne hc), hc.notWritten]
  simp only [hc.isConstant, if_true]

/-- Whether the comparison holds for a value of the variable. -/
def Compares.holds (_ : data.Compares x u op slot c) (y : Nat) : Bool :=
  Holds (data.vn x).size (data.op op).code (CircleRange.operands slot y (data.vn c).offset.toNat).1
    (CircleRange.operands slot y (data.vn c).offset.toNat).2

/-- The comparisons on words, whatever the size of the output. -/
theorem evaluate_words {opc : OpCode} {n : Nat} {a b : Word} (hopc : opc ∈ comparisonOps) (h : ByteSize n) (sizeout : Int)
    (ha : a.toNat < 2 ^ (8 * n)) (hb : b.toNat < 2 ^ (8 * n)) :
    evaluateBinary opc sizeout n a b = .ok (ofBool (Holds n opc a.toNat b.toNat)) := by
  have hout : evaluateBinary opc sizeout n a b = evaluateBinary opc 1 n a b := by
    simp only [comparisonOps, List.mem_cons, List.not_mem_nil, or_false] at hopc
    rcases hopc with rfl | rfl | rfl | rfl | rfl | rfl | rfl <;> rfl
  have heval := evaluate_comparison hopc h ha hb
  rw [BitVec.ofNat_toNat, BitVec.setWidth_eq, BitVec.ofNat_toNat, BitVec.setWidth_eq] at heval
  rw [hout, heval]

theorem emulate_comparison {o : PcodeOp} {val : VarnodeId → Option Word} (hopc : o.code ∈ comparisonOps)
    (hin : o.inrefs = if slot = 0 then [x, c] else [c, x]) (hx : ByteSize (data.vn x).size)
    (hsize : (data.vn c).size = (data.vn x).size) {w : Word} (hxv : val x = some v) (hcv : val c = some w)
    (hv : v.toNat < 2 ^ (8 * (data.vn x).size)) (hw : w.toNat < 2 ^ (8 * (data.vn x).size)) :
    data.emulate o val = some (ofBool (Holds (data.vn x).size o.code (CircleRange.operands slot v.toNat w.toNat).1
      (CircleRange.operands slot v.toNat w.toNat).2)) := by
  rw [emulate, hin]
  by_cases hslot : slot = 0
  · simp only [CircleRange.operands, if_pos hslot, hxv, hcv, Option.bind_eq_bind, Option.bind_some,
      evaluate_words hopc hx _ hv hw, Except.toOption]
  · simp only [CircleRange.operands, if_neg hslot, hxv, hcv, hsize, Option.bind_eq_bind, Option.bind_some,
      evaluate_words hopc hx _ hw hv, Except.toOption]

theorem Compares.valueAt_eq (h : data.Compares x u op slot c) (hx : data.Variable x)
    (hv : v.toNat < 2 ^ (8 * (data.vn x).size)) : data.valueAt x v (fuel + 2) u = some (ofBool (h.holds v.toNat)) := by
  rw [valueAt, if_neg h.ne, h.written]
  exact emulate_comparison h.opcode h.inrefs hx.bytes h.constant.size (valueAt_variable _ _ _ _)
    (valueAt_constant hx h.constant) hv h.constant.within

/-- The range of a truth value is pulled back to the values that give it. -/
theorem Compares.pullBack_eq (h : data.Compares x u op slot c) (hx : data.Variable x) (b : Bool) :
    ∃ r : CircleRange, r.Within (data.vn x).size ∧ (∀ y < 2 ^ (8 * (data.vn x).size), r.contains y = (h.holds y == b)) ∧
      ∀ markup, ∃ markup', data.pullBack (.newBool b) op markup = some (r, x, markup') := by
  have hin := h.inrefs
  have hx' := hx.notConstant
  have hc := h.constant.isConstant
  obtain ⟨r, hpull, hwithin, hcontains⟩ := CircleRange.pullBackBinary_newBool h.opcode hx.bytes h.constant.within slot
    (data.vn (data.op op).output).size b
  refine ⟨r, hwithin, hcontains, fun markup => ⟨if (data.vn c).symbolEntry.isSome then some c else markup, ?_⟩⟩
  rcases h.slots with rfl | rfl
  · rw [if_pos rfl] at hin
    simp only [pullBack, hin, hx', hc, Bool.false_eq_true, Bool.not_true, if_false, pullBackInput, hpull]
  · rw [if_neg (by decide)] at hin
    simp only [pullBack, hin, hx', hc, Bool.false_eq_true, if_true, if_false, pullBackInput, hpull]

/-- What the rule learns of a condition. -/
structure Ranges (data : Funcdata) (x u : VarnodeId) (op : OpId) (r : CircleRange) (holds : Nat → Bool) : Prop where
  written : (data.vn u).getDef = some op
  bool : isBoolOutput (data.op op).code = true
  within : r.Within (data.vn x).size
  contains : ∀ y < 2 ^ (8 * (data.vn x).size), r.contains y = holds y
  value : ∀ v : Word, v.toNat < 2 ^ (8 * (data.vn x).size) → ∀ fuel, data.valueAt x v (fuel + 3) u = some (ofBool (holds v.toNat))
  pullBack : ∀ markup, ∃ r' u' markup', data.pullBack (.newBool true) op markup = some (r', u', markup') ∧
    ∀ markup, ∃ markup', data.pullBackNegated op r' u' markup = some (r, x, markup')

theorem isBoolOutput_of_comparison {opc : OpCode} (h : opc ∈ comparisonOps) : isBoolOutput opc = true ∧ opc ≠ .boolNegate := by
  simp only [comparisonOps, List.mem_cons, List.not_mem_nil, or_false] at h
  rcases h with rfl | rfl | rfl | rfl | rfl | rfl | rfl <;> decide

theorem Condition.ranges (h : data.Condition x u) (hx : data.Variable x) : ∃ op r holds, data.Ranges x u op r holds := by
  cases h with
  | @comparison op slot c h =>
      obtain ⟨hbool, hneg⟩ := isBoolOutput_of_comparison h.opcode
      obtain ⟨r, hwithin, hcontains, hpull⟩ := h.pullBack_eq hx true
      refine ⟨op, r, h.holds, h.written, hbool, hwithin, ?_, ?_, ?_⟩
      · intro y hy
        rw [hcontains y hy, beq_true]
      · intro v hv fuel
        exact h.valueAt_eq hx hv
      · intro markup
        obtain ⟨markup', hpull⟩ := hpull markup
        refine ⟨r, x, markup', hpull, fun markup => ⟨markup, ?_⟩⟩
        rw [pullBackNegated, if_neg hneg]
  | @negation w op op' slot c written ne code inrefs h =>
      obtain ⟨r, hwithin, hcontains, hpull⟩ := h.pullBack_eq hx false
      refine ⟨op, r, fun y => !h.holds y, written, by rw [code]; rfl, hwithin, ?_, ?_, ?_⟩
      · intro y hy
        rw [hcontains y hy, beq_false]
      · intro v hv fuel
        rw [valueAt, if_neg ne, written]
        simp only [emulate, inrefs, h.valueAt_eq hx hv, code, Option.bind_eq_bind, Option.bind_some, evaluateUnary,
          Except.toOption]
        cases h.holds v.toNat <;> rfl
      · intro markup
        refine ⟨.newBool false, w, markup, ?_, fun markup => ?_⟩
        · simp only [pullBack, inrefs, h.notConstant, code, Bool.false_eq_true, if_false]
          rfl
        · obtain ⟨markup', hpull⟩ := hpull markup
          refine ⟨markup', ?_⟩
          rw [pullBackNegated, if_pos code, h.written]
          exact hpull

end Meaning

section Preserves

variable {data : Funcdata} {x a b : VarnodeId} {op : OpId} {v : Word} {fuel : Nat}

theorem functionalEquality_self (data : Funcdata) (x : VarnodeId) : data.functionalEquality x x = some true := by
  simp [functionalEquality, functionalEqualityLevel, functionalEqualityLevel0]

theorem commonInput_self (data : Funcdata) (r₁ r₂ : CircleRange) (x : VarnodeId) (markup : Option VarnodeId) :
    data.commonInput r₁ r₂ x x markup = some (some (r₁, r₂, x, markup)) := by
  rw [commonInput, functionalEquality_self]
  rfl

/-- The output of the op before the rule. -/
def connective (opc : OpCode) (p q : Bool) : Bool := if opc = .boolAnd then p && q else p || q

theorem outputAt_logical {p q : Bool} (hcode : (data.op op).code = .boolAnd ∨ (data.op op).code = .boolOr)
    (hin : (data.op op).inrefs = [a, b]) (ha : data.valueAt x v fuel a = some (ofBool p))
    (hb : data.valueAt x v fuel b = some (ofBool q)) :
    data.outputAt x v fuel op = some (ofBool (connective (data.op op).code p q)) := by
  rcases hcode with hcode | hcode
  · simp only [outputAt, emulate, hin, ha, hb, hcode, Option.bind_eq_bind, Option.bind_some, evaluateBinary, Except.toOption]
    cases p <;> cases q <;> rfl
  · simp only [outputAt, emulate, hin, ha, hb, hcode, Option.bind_eq_bind, Option.bind_some, evaluateBinary, Except.toOption]
    cases p <;> cases q <;> rfl

theorem outputAt_setTruth (hin : (data.op op).inrefs = [a, b]) (hx : x < data.numVarnodes) (val : Word) :
    (data.setTruth op val).outputAt x v (fuel + 1) op = some val := by
  have hne : data.numVarnodes ≠ x := Nat.ne_of_gt hx
  simp [outputAt, emulate, setTruth, opSetOpcode, opRemoveInput, opSetInput, newConstant, hin, valueAt, hne, evaluateUnary,
    Except.toOption]

/-- The new constant, next to the varnodes that were there. -/
structure AddsConstant (data data' : Funcdata) (size : Nat) (val : Word) : Prop where
  op : data'.op = data.op
  old : ∀ u ≠ data.numVarnodes, data'.vn u = data.vn u
  size : (data'.vn data.numVarnodes).size = size
  isConstant : (data'.vn data.numVarnodes).isConstant = true
  offset : (data'.vn data.numVarnodes).offset = val
  notWritten : (data'.vn data.numVarnodes).getDef = none

theorem newConstant_adds (data : Funcdata) (size : Nat) (val : Word) : AddsConstant data (data.newConstant size val).2 size val where
  op := rfl
  old _ hu := Function.update_of_ne hu _ _
  size := by simp [newConstant]
  isConstant := by simp [newConstant]
  offset := by simp [newConstant]
  notWritten := by simp [newConstant]

theorem AddsConstant.copySymbol {data' : Funcdata} {size : Nat} {val : Word} (h : AddsConstant data data' size val)
    (source : VarnodeId) : AddsConstant data (data'.vnCopySymbolIfValid data.numVarnodes source) size val := by
  rw [vnCopySymbolIfValid]
  split
  · exact h
  split
  · refine ⟨h.op, ?_, ?_, ?_, ?_, ?_⟩
    · intro u hu
      rw [← h.old u hu]
      exact Function.update_of_ne hu _ _
    all_goals simp only [Function.update_self]
    · exact h.size
    · exact h.isConstant
    · exact h.offset
    · exact h.notWritten
  · exact h

theorem outputAt_setComparison {opc : OpCode} {resc resslot : Nat} (hin : (data.op op).inrefs = [a, b]) (hx : data.Variable x)
    (hslot : resslot ≤ 1) (hopc : opc ∈ comparisonOps) (hresc : resc < 2 ^ (8 * (data.vn x).size)) (markup : Option VarnodeId)
    (hv : v.toNat < 2 ^ (8 * (data.vn x).size)) :
    (data.setComparison op x opc resc resslot markup).outputAt x v (fuel + 1) op =
      some (ofBool (Holds (data.vn x).size opc (CircleRange.operands (1 - resslot) v.toNat resc).1
        (CircleRange.operands (1 - resslot) v.toNat resc).2)) := by
  have hne : data.numVarnodes ≠ x := Nat.ne_of_gt hx.live
  have hle : 2 ^ (8 * (data.vn x).size) ≤ 2 ^ 64 := Nat.pow_le_pow_right (by decide) hx.bytes.width_le
  have hword : (BitVec.ofNat 64 resc).toNat = resc := by
    rw [BitVec.toNat_ofNat, Nat.mod_eq_of_lt (by omega)]
  -- the constant may take a symbol, and only then is the op changed
  obtain ⟨mid, hmid, hset⟩ : ∃ mid, AddsConstant data mid (data.vn x).size (BitVec.ofNat 64 resc) ∧
      data.setComparison op x opc resc resslot markup =
        ((mid.opSetOpcode op opc).opSetInput op x (1 - resslot)).opSetInput op data.numVarnodes resslot := by
    have hadds := newConstant_adds data (data.vn x).size (BitVec.ofNat 64 resc)
    cases markup with
    | none => exact ⟨_, hadds, rfl⟩
    | some source => exact ⟨_, hadds.copySymbol source, rfl⟩
  have hop : (mid.op op).inrefs = [a, b] := by
    rw [hmid.op]
    exact hin
  have hxsize : (mid.vn x).size = (data.vn x).size := by rw [hmid.old x hne.symm]
  rw [hset, outputAt]
  generalize hdata' : ((mid.opSetOpcode op opc).opSetInput op x (1 - resslot)).opSetInput op data.numVarnodes resslot = data'
  have hvn : data'.vn = mid.vn := by rw [← hdata']; rfl
  have hcode : (data'.op op).code = opc := by simp [← hdata', opSetInput, opSetOpcode]
  have hin' : (data'.op op).inrefs = if (1 - resslot : Int) = 0 then [x, data.numVarnodes] else [data.numVarnodes, x] := by
    interval_cases resslot <;> simp [← hdata', opSetInput, opSetOpcode, hop]
  have hcv : data'.valueAt x v (fuel + 1) data.numVarnodes = some (BitVec.ofNat 64 resc) := by
    rw [valueAt, if_neg hne, hvn, hmid.notWritten]
    simp only [hmid.isConstant, hmid.offset, if_true]
  have hsize : (data'.vn x).size = (data.vn x).size := by rw [hvn, hxsize]
  have hcsize : (data'.vn data.numVarnodes).size = (data'.vn x).size := by rw [hsize, hvn, hmid.size]
  have hopc' : (data'.op op).code ∈ comparisonOps := by rw [hcode]; exact hopc
  have hbytes : ByteSize (data'.vn x).size := by rw [hsize]; exact hx.bytes
  rw [emulate_comparison hopc' hin' hbytes hcsize (valueAt_variable data' x v fuel) hcv (by rw [hsize]; exact hv)
    (by rw [hsize, hword]; exact hresc), hcode, hsize, hword]

theorem finish_outputAt {restype : Int} {p : Bool} (hin : (data.op op).inrefs = [a, b]) (hx : x < data.numVarnodes)
    (hout : data.outputAt x v (fuel + 1) op = some (ofBool p)) (h1 : restype = 1 → p = true) (h3 : restype = 3 → p = false) :
    (data.finish op restype).2.outputAt x v (fuel + 1) op = some (ofBool p) := by
  rw [finish]
  split
  · exact hout
  split
  · next h =>
      rw [h1 h]
      exact outputAt_setTruth hin hx _
  split
  · next h =>
      rw [h3 h]
      exact outputAt_setTruth hin hx _
  · exact hout

/-- The ranges of the conditions are combined as the op combines the conditions. -/
theorem combined_spec {n : Nat} {r₁ r₂ : CircleRange} {p q : Nat → Bool} (opc : OpCode) (h : ByteSize n) (hw₁ : r₁.Within n)
    (hw₂ : r₂.Within n) (h₁ : ∀ y < 2 ^ (8 * n), r₁.contains y = p y) (h₂ : ∀ y < 2 ^ (8 * n), r₂.contains y = q y) :
    let res := if opc = .boolAnd then r₁.intersect r₂ else r₁.circleUnion r₂
    res.1 ≠ 1 ∧ res.1 ≠ 3 ∧ (res.1 = 0 → res.2.Within n ∧ ∀ y < 2 ^ (8 * n), res.2.contains y = connective opc (p y) (q y)) := by
  intro res
  by_cases hand : opc = .boolAnd
  · have hres : res = r₁.intersect r₂ := if_pos hand
    have hcode := CircleRange.intersect_code r₁ r₂
    rw [hres]
    refine ⟨by omega, by omega, fun h0 => ⟨(hw₁.intersect_spec h hw₂ h0 (Nat.two_pow_pos _)).1, fun y hy => ?_⟩⟩
    rw [(hw₁.intersect_spec h hw₂ h0 hy).2, h₁ y hy, h₂ y hy, connective, if_pos hand]
  · have hres : res = r₁.circleUnion r₂ := if_neg hand
    have hcode := CircleRange.circleUnion_code r₁ r₂
    rw [hres]
    refine ⟨by omega, by omega, fun h0 => ⟨(hw₁.circleUnion_spec (x := 0) hw₂ h0).1, fun y hy => ?_⟩⟩
    rw [(hw₁.circleUnion_spec hw₂ h0).2, h₁ y hy, h₂ y hy, connective, if_neg hand]

/-- Whatever the rule makes of the op, its output stays the same for every value of
the variable. -/
theorem applyOp_output (data : Funcdata) (op : OpId) (x a b : VarnodeId)
    (hcode : (data.op op).code = .boolAnd ∨ (data.op op).code = .boolOr) (hin : (data.op op).inrefs = [a, b])
    (hx : data.Variable x) (ha : data.Condition x a) (hb : data.Condition x b) :
    ∃ res data', data.applyOp op = some (res, data') ∧ ∀ v : Word, v.toNat < 2 ^ (8 * (data.vn x).size) →
      ∃ out, ∀ fuel ≥ 3, data.outputAt x v fuel op = some out ∧ data'.outputAt x v fuel op = some out := by
  obtain ⟨sub1, r₁, p, h₁⟩ := ha.ranges hx
  obtain ⟨sub2, r₂, q, h₂⟩ := hb.ranges hx
  obtain ⟨r₁', u₁, m₁, hpull₁, hneg₁⟩ := h₁.pullBack none
  obtain ⟨r₂', u₂, m₂, hpull₂, hneg₂⟩ := h₂.pullBack m₁
  obtain ⟨m₃, hneg₁⟩ := hneg₁ m₂
  obtain ⟨m₄, hneg₂⟩ := hneg₂ m₃
  have hbefore : ∀ v : Word, v.toNat < 2 ^ (8 * (data.vn x).size) → ∀ fuel,
      data.outputAt x v (fuel + 3) op = some (ofBool (connective (data.op op).code (p v.toNat) (q v.toNat))) := by
    intro v hv fuel
    exact outputAt_logical hcode hin (h₁.value v hv fuel) (h₂.value v hv fuel)
  simp only [applyOp, hin, List.getElem?_cons_zero, List.getElem?_cons_succ, Option.bind_eq_bind, Option.bind_some, h₁.written,
    h₂.written, h₁.bool, h₂.bool, Bool.not_true, Bool.false_eq_true, if_false, hpull₁, hpull₂, hneg₁, hneg₂, commonInput_self]
  -- every way out gives a function whose op has the old output
  have hdone : ∀ {res : Int} {data' : Funcdata}, (∀ v : Word, v.toNat < 2 ^ (8 * (data.vn x).size) → ∀ fuel, data'.outputAt x v (fuel + 3) op =
      some (ofBool (connective (data.op op).code (p v.toNat) (q v.toNat)))) →
      ∃ (res' : Int) (data'' : Funcdata), some (res, data') = some (res', data'') ∧ ∀ v : Word, v.toNat < 2 ^ (8 * (data.vn x).size) →
        ∃ out, ∀ fuel ≥ 3, data.outputAt x v fuel op = some out ∧ data''.outputAt x v fuel op = some out := by
    intro res data' hafter
    refine ⟨res, data', rfl, fun v hv => ⟨ofBool (connective (data.op op).code (p v.toNat) (q v.toNat)), fun fuel hfuel => ?_⟩⟩
    obtain ⟨fuel, rfl⟩ := Nat.exists_eq_add_of_le' hfuel
    exact ⟨hbefore v hv fuel, hafter v hv fuel⟩
  have hspec := combined_spec (data.op op).code hx.bytes h₁.within h₂.within h₁.contains h₂.contains
  generalize (if (data.op op).code = .boolAnd then r₁.intersect r₂ else r₁.circleUnion r₂) = res at hspec ⊢
  obtain ⟨restype, r⟩ := res
  obtain ⟨hne1, hne3, hspec⟩ := hspec
  simp only at hne1 hne3 hspec ⊢
  split
  · exact hdone hbefore
  split
  · refine hdone fun v hv fuel => ?_
    exact finish_outputAt hin hx.live (hbefore v hv fuel) (fun h => absurd h hne1) (fun h => absurd h hne3)
  · next hzero =>
      obtain ⟨hwithin, hcontains⟩ := hspec (not_not.mp hzero)
      split
      · next opc resc resslot htrans =>
          obtain ⟨hslot, htranslates⟩ := CircleRange.translate2Op_comparison hx.bytes hwithin htrans
          refine hdone fun v hv fuel => ?_
          rw [outputAt_setComparison hin hx hslot htranslates.opcode htranslates.constant m₄ hv, htranslates.holds _ hv,
            hcontains _ hv]
      · next restype _ _ htrans =>
          have hcode : r.translate2Op.1 = restype := congrArg Prod.fst htrans
          refine hdone fun v hv fuel => ?_
          apply finish_outputAt hin hx.live (hbefore v hv fuel)
          · intro h
            rw [← hcontains _ hv]
            exact CircleRange.translate2Op_full hwithin (hcode.trans h)
          · intro h
            rw [← hcontains _ hv]
            exact CircleRange.translate2Op_empty (hcode.trans h)

section Sample

def codeSpace : AddrSpace := ⟨.processor, 4, 1, 3, Nat.one_pos, AddrSpace.one_le_wordsize_limit⟩

def inputVn (size : Nat) : Varnode :=
  { size := size, isConstant := false, offset := 0, getDef := none, isFree := false, isHeritageKnown := true, symbolEntry := none }

def constantVn (size : Nat) (val : Word) : Varnode := { inputVn size with isConstant := true, offset := val, isFree := true }

def writtenVn (op : OpId) : Varnode := { inputVn 1 with getDef := some op }

def logicalOp (code : OpCode) (inrefs : List VarnodeId) (output : VarnodeId) : PcodeOp :=
  { code := code, inrefs := inrefs, output := output, addr := ⟨codeSpace, 0x1000⟩ }

/-- The first varnode is less than ten, or it is not true that ten is not equal to
it. -/
def lessOrEqualTen : Funcdata where
  vn := fun u => [inputVn 4, constantVn 4 10, writtenVn 0, writtenVn 1, writtenVn 2, writtenVn 3].getD u (inputVn 4)
  op := fun o => [logicalOp .intLess [0, 1] 2, logicalOp .intNotequal [1, 0] 3, logicalOp .boolNegate [3] 4].getD o
    (logicalOp .boolOr [2, 4] 5)
  numVarnodes := 6
  isValueClose := fun _ _ _ => false

end Sample

/-- It is less than eleven. -/
theorem applyOp_output_lessOrEqualTen :
    ((lessOrEqualTen.applyOp 3).map fun res => (res.1, (res.2.op 3).code, (res.2.op 3).inrefs, (res.2.vn 6).offset)) =
        some (1, .intLess, [0, 6], 11) ∧
      ∃ res data', lessOrEqualTen.applyOp 3 = some (res, data') ∧ ∀ v : Word, v.toNat < 2 ^ (8 * 4) →
        ∃ out, ∀ fuel ≥ 3, lessOrEqualTen.outputAt 0 v fuel 3 = some out ∧ data'.outputAt 0 v fuel 3 = some out := by
  have hc : lessOrEqualTen.ConstantFor 0 1 := ⟨rfl, rfl, rfl, by decide⟩
  have hless : lessOrEqualTen.Compares 0 2 0 0 1 := ⟨rfl, rfl, by decide, by decide, .inl rfl, rfl, hc⟩
  have hne : lessOrEqualTen.Compares 0 3 1 1 1 := ⟨rfl, rfl, by decide, by decide, .inr rfl, rfl, hc⟩
  refine ⟨by decide, ?_⟩
  have hwritten : (lessOrEqualTen.vn 4).getDef = some 2 := rfl
  exact applyOp_output lessOrEqualTen 3 0 2 4 (.inr rfl) rfl ⟨by decide, rfl, by decide⟩ (.comparison hless)
    (.negation hwritten (by decide) rfl rfl hne)

end Preserves

end Funcdata

end RangeMeld

end GhidraDecompiler.RuleAction
