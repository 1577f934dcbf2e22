import GhidraDecompiler.Pcode.Comparisons

namespace GhidraDecompiler.Expression

open Pcode

abbrev VarnodeId := Nat

abbrev OpId := Nat

/-- A varnode is written when an op defines it. -/
structure Varnode where
  size : Nat
  isConstant : Bool
  offset : Word
  getDef : Option OpId

structure Op where
  code : OpCode
  inrefs : List VarnodeId

structure Funcdata where
  vn : VarnodeId → Varnode
  op : OpId → Op

/-- The flag that the operations with a truth value as output have. -/
def isBoolOutput : OpCode → Bool
  | .intEqual | .intNotequal | .intSless | .intSlessequal | .intLess | .intLessequal | .intCarry | .intScarry | .intSborrow
  | .boolNegate | .boolXor | .boolAnd | .boolOr
  | .floatEqual | .floatNotequal | .floatLess | .floatLessequal | .floatNan => true
  | _ => false

/-- The operation with the opposite output, and whether its inputs change places. -/
def getBooleanflip : OpCode → Option (OpCode × Bool)
  | .intEqual => some (.intNotequal, false)
  | .intNotequal => some (.intEqual, false)
  | .intSless => some (.intSlessequal, true)
  | .intSlessequal => some (.intSless, true)
  | .intLess => some (.intLessequal, true)
  | .intLessequal => some (.intLess, true)
  | .boolNegate => some (.copy, false)
  | .floatEqual => some (.floatNotequal, false)
  | .floatNotequal => some (.floatEqual, false)
  | .floatLess => some (.floatLessequal, true)
  | .floatLessequal => some (.floatLess, true)
  | _ => none

inductive Correlation
  | same
  | complementary
  | uncorrelated
  deriving DecidableEq

namespace BooleanMatch

def varnodeSame (data : Funcdata) (first second : VarnodeId) : Bool :=
  if first = second then true
  else if (data.vn first).isConstant && (data.vn second).isConstant then (data.vn first).offset == (data.vn second).offset
  else false

/-- Every input of the first op has its counterpart. -/
def inputsSame (data : Funcdata) : List VarnodeId → List VarnodeId → Option Bool
  | [], _ => some true
  | _ :: _, [] => none
  | a :: as, b :: bs => if varnodeSame data a b then inputsSame data as bs else some false

/-- One op compares a value with a constant, the other the next constant with the
value. -/
def sameOpComplement (data : Funcdata) (first second : Op) : Option Bool := do
  let opcode := first.code
  if opcode = .intSless ∨ opcode = .intLess then
    let constslot := if (data.vn (← first.inrefs[1]?)).isConstant then 1 else 0
    let const1 := data.vn (← first.inrefs[constslot]?)
    if !const1.isConstant then return false
    let const2 := data.vn (← second.inrefs[1 - constslot]?)
    if !const2.isConstant then return false
    if !varnodeSame data (← first.inrefs[1 - constslot]?) (← second.inrefs[constslot]?) then return false
    let val1 := if constslot ≠ 0 then const2.offset else const1.offset
    let val2 := if constslot ≠ 0 then const1.offset else const2.offset
    if val1 + 1 ≠ val2 then return false
    if val2 = 0#64 ∧ opcode = .intLess then return false
    if opcode = .intSless then
      if signbitNegative val2 const1.size && !signbitNegative val1 const1.size then return false
    return true
  return false

def flipResult : Correlation → Correlation
  | .same => .complementary
  | .complementary => .same
  | .uncorrelated => .uncorrelated

def isLogical (opc : OpCode) : Bool := opc = .boolAnd ∨ opc = .boolOr ∨ opc = .boolXor

/-- The operands of two logical operations, matched in pairs. -/
def combine (opc1 opc2 : OpCode) (pair1 pair2 : Correlation) : Correlation :=
  if opc1 = opc2 then
    if pair1 = .same ∧ pair2 = .same then .same
    else if opc1 = .boolXor then
      if pair1 = .complementary ∧ pair2 = .complementary then .same else .complementary
    else .uncorrelated
  else if pair1 = .complementary ∧ pair2 = .complementary then .complementary
  else .uncorrelated

/-- The operands are matched straight, or else crossed. -/
def matchLogical (evaluate : VarnodeId → VarnodeId → Option Correlation) (first second : Op) : Option Correlation := do
  let opc1 := first.code
  let opc2 := second.code
  if isLogical opc2 && (opc1 = opc2 ∨ opc1 = .boolAnd ∧ opc2 = .boolOr ∨ opc1 = .boolOr ∧ opc2 = .boolAnd) then
    let pair1 ← evaluate (← first.inrefs[0]?) (← second.inrefs[0]?)
    if pair1 = .uncorrelated then
      let pair1 ← evaluate (← first.inrefs[0]?) (← second.inrefs[1]?)
      if pair1 = .uncorrelated then return .uncorrelated
      let pair2 ← evaluate (← first.inrefs[1]?) (← second.inrefs[0]?)
      if pair2 = .uncorrelated then return .uncorrelated
      return combine opc1 opc2 pair1 pair2
    else
      let pair2 ← evaluate (← first.inrefs[1]?) (← second.inrefs[1]?)
      if pair2 = .uncorrelated then return .uncorrelated
      return combine opc1 opc2 pair1 pair2
  return .uncorrelated

def matchComparison (data : Funcdata) (first second : Op) : Option Correlation := do
  if first.code = second.code then
    if ← inputsSame data first.inrefs second.inrefs then return .same
    if ← sameOpComplement data first second then return .complementary
    return .uncorrelated
  match getBooleanflip second.code with
  | none => return .uncorrelated
  | some (flipped, reorder) =>
      if first.code ≠ flipped then return .uncorrelated
      let slot2 := if reorder then 1 else 0
      if !varnodeSame data (← first.inrefs[0]?) (← second.inrefs[slot2]?) then return .uncorrelated
      if !varnodeSame data (← first.inrefs[1]?) (← second.inrefs[1 - slot2]?) then return .uncorrelated
      return .complementary

/-- The fuel bounds the recursion. There is no answer when it runs out or when an
op lacks an input. -/
def evaluate (data : Funcdata) : Nat → VarnodeId → VarnodeId → Int → Option Correlation
  | 0, _, _, _ => none
  | fuel + 1, vn1, vn2, depth => do
      if vn1 = vn2 then return .same
      let op1 := ((data.vn vn1).getDef).map data.op
      if let some first := op1 then
        if first.code = .boolNegate then
          return flipResult (← evaluate data fuel (← first.inrefs[0]?) vn2 depth)
      let some op2 := (data.vn vn2).getDef | return .uncorrelated
      let second := data.op op2
      if second.code = .boolNegate then
        return flipResult (← evaluate data fuel vn1 (← second.inrefs[0]?) depth)
      let some first := op1 | return .uncorrelated
      if !isBoolOutput first.code || !isBoolOutput second.code then return .uncorrelated
      if depth ≠ 0 ∧ isLogical first.code then
        matchLogical (fun a b => evaluate data fuel a b (depth - 1)) first second
      else matchComparison data first second

example (data : Funcdata) (vn : VarnodeId) (depth : Int) : evaluate data 1 vn vn depth = some .same := by
  rw [evaluate, if_pos rfl]
  rfl

end BooleanMatch

end GhidraDecompiler.Expression
