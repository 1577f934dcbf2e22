import GhidraDecompiler.Lib.BitMasks
import GhidraDecompiler.Pcode.Semantics

namespace GhidraDecompiler.Pcode

open BitWords

def pcodeRight (val : Word) (sa : Int) : Word := if 0 ≤ sa ∧ sa < 64 then val >>> sa.toNat else 0

def pcodeLeft (val : Word) (sa : Int) : Word := if 0 ≤ sa ∧ sa < 64 then val <<< sa.toNat else 0

def leastsigbitSet (val : Word) : Int := if val = 0#64 then -1 else trailingZeros val

def mostsigbitSet (val : Word) : Int := if val = 0#64 then -1 else 63 - leadingZeros val

/-- The shifts double until they reach the width of the word. -/
def coveringmask (val : Word) : Word := [1, 2, 4, 8, 16, 32].foldl (fun res sz => res ||| res >>> sz) val

/-- What an op reads of a varnode. -/
structure Varnode where
  size : Nat
  nzMask : Word
  isConstant : Bool
  offset : Word

/-- An op with its varnodes; the parent block says which of its in edges close a
loop. -/
structure PcodeOp where
  code : OpCode
  output : Option Varnode
  inputs : List Varnode
  isCalculatedBool : Bool
  parent : Option (Nat → Bool)

namespace NzMask

def intRight (sz1 : Nat) (nzMask offset : Word) : Word :=
  let sa := (offset.setWidth 32).toInt
  let mask := pcodeRight nzMask sa
  if sz1 > 8 then
    if sa ≥ 8 * sz1 then 0
    else if sa ≥ 64 then wrappingShr (calcMask (sz1 - 8)) (sa - 64)
    else mask ||| wrappingShl (0 - 1) (64 - sa)
  else mask

def intSright (fullmask nzMask offset : Word) : Word :=
  let sa := (offset.setWidth 32).toInt
  if nzMask &&& (fullmask ^^^ (fullmask >>> 1)) = 0#64 then pcodeRight nzMask sa
  else pcodeRight nzMask sa ||| (wrappingShr fullmask sa ^^^ fullmask)

def intDiv (val : Word) (divisor : Varnode) : Word :=
  let mask := coveringmask val
  if divisor.isConstant then
    let sa := mostsigbitSet divisor.nzMask
    if sa ≠ -1 then mask >>> sa.toNat else mask
  else mask

def subpiece (fullmask : Word) (vn : Varnode) (offset : Word) : Word :=
  let sz1 := (offset.setWidth 32).toNat
  let mask :=
    if vn.size ≤ 8 then
      if sz1 < 8 then vn.nzMask >>> (8 * sz1) else 0
    else if sz1 < 8 then
      let mask := vn.nzMask >>> (8 * sz1)
      if sz1 > 0 then mask ||| fullmask <<< (8 * (8 - sz1)) else mask
    else fullmask
  mask &&& fullmask

def intMult (size : Nat) (fullmask val mask : Word) : Word :=
  if size > 8 then fullmask
  else
    let sz1 := mostsigbitSet val
    let sz2 := mostsigbitSet mask
    if sz1 = -1 ∨ sz2 = -1 then 0
    else
      let l1 := leastsigbitSet val
      let l2 := leastsigbitSet mask
      let sa := l1 + l2
      if sa ≥ 8 * size then 0
      else
        let sz1 := sz1 - l1 + 1
        let sz2 := sz2 - l2 + 1
        let total := if sz1 = 1 ∨ sz2 = 1 then sz1 + sz2 - 1 else sz1 + sz2
        let mask := if total < 8 * size then fullmask >>> (8 * size - total).toNat else fullmask
        (mask <<< sa.toNat) &&& fullmask

def intAdd (fullmask mask othermask : Word) : Word :=
  if othermask &&& mask = 0#64 then (mask ||| othermask) &&& fullmask
  else
    let mask := mask ||| othermask
    (mask ||| mask <<< 1) &&& fullmask

end NzMask

/-- There is no mask for an op without its output or an input. -/
def opGetNzMaskLocal (op : PcodeOp) (cliploop : Bool) : Option Word := do
  let size := (← op.output).size
  let fullmask := calcMask size
  match op.code with
  | .intEqual | .intNotequal | .intSless | .intSlessequal | .intLess | .intLessequal | .intCarry | .intScarry | .intSborrow
  | .boolNegate | .boolXor | .boolAnd | .boolOr
  | .floatEqual | .floatNotequal | .floatLess | .floatLessequal | .floatNan => some 1
  | .copy | .intZext => return (← op.inputs[0]?).nzMask
  | .intSext =>
      let vn ← op.inputs[0]?
      return signExtendSize vn.nzMask vn.size size
  | .intXor | .intOr =>
      let mask := (← op.inputs[0]?).nzMask
      if mask ≠ fullmask then return mask ||| (← op.inputs[1]?).nzMask
      else return mask
  | .intAnd =>
      let mask := (← op.inputs[0]?).nzMask
      if mask ≠ 0#64 then return mask &&& (← op.inputs[1]?).nzMask
      else return mask
  | .intLeft =>
      let sa ← op.inputs[1]?
      if !sa.isConstant then return fullmask
      else return pcodeLeft (← op.inputs[0]?).nzMask (sa.offset.setWidth 32).toInt &&& fullmask
  | .intRight =>
      let sa ← op.inputs[1]?
      if !sa.isConstant then return fullmask
      else
        let vn ← op.inputs[0]?
        return NzMask.intRight vn.size vn.nzMask sa.offset
  | .intSright =>
      let sa ← op.inputs[1]?
      if !sa.isConstant || size > 8 then return fullmask
      else return NzMask.intSright fullmask (← op.inputs[0]?).nzMask sa.offset
  | .intDiv => return NzMask.intDiv (← op.inputs[0]?).nzMask (← op.inputs[1]?)
  | .intRem => return coveringmask ((← op.inputs[1]?).nzMask - 1)
  | .popcount => return coveringmask (cxxInt (popcount (← op.inputs[0]?).nzMask)) &&& fullmask
  | .lzcount => return coveringmask (cxxInt ((← op.inputs[0]?).size * 8)) &&& fullmask
  | .subpiece => return NzMask.subpiece fullmask (← op.inputs[0]?) (← op.inputs[1]?).offset
  | .piece =>
      let vn ← op.inputs[1]?
      let mask : Word := (← op.inputs[0]?).nzMask
      return (if vn.size < 8 then mask <<< (8 * vn.size) else 0) ||| vn.nzMask
  | .intMult => return NzMask.intMult size fullmask (← op.inputs[0]?).nzMask (← op.inputs[1]?).nzMask
  | .intAdd =>
      let mask := (← op.inputs[0]?).nzMask
      if mask ≠ fullmask then return NzMask.intAdd fullmask mask (← op.inputs[1]?).nzMask
      else return mask
  | .multiequal =>
      if op.inputs.isEmpty then return fullmask
      else if cliploop then
        let isLoopIn ← op.parent
        return op.inputs.zipIdx.foldl (fun mask p => if isLoopIn p.2 then mask else mask ||| p.1.nzMask) 0
      else return op.inputs.foldl (fun mask vn => mask ||| vn.nzMask) 0
  | .call | .callind | .cpoolref => return if op.isCalculatedBool then 1 else fullmask
  | _ => return fullmask

def booleanOps : List OpCode := [.boolNegate, .boolXor, .boolAnd, .boolOr]

/-- The sizes that the operands and the output may have, for the operations whose
mask is derived from integer or boolean operands. -/
def LegalSizes (sizeout : Nat) : OpCode → List Nat → Prop
  | .copy, [n] => n = sizeout
  | .intZext, [n] | .intSext, [n] => n < sizeout
  | .intXor, [n, m] | .intOr, [n, m] | .intAnd, [n, m] | .intDiv, [n, m] | .intRem, [n, m] | .intAdd, [n, m]
  | .intMult, [n, m] => n = sizeout ∧ m = sizeout
  | .subpiece, [_, _] => True
  | .piece, [n, m] => n + m = sizeout
  | .popcount, [_] | .lzcount, [_] => True
  | .intEqual, [n, m] | .intNotequal, [n, m] | .intSless, [n, m] | .intSlessequal, [n, m] | .intLess, [n, m]
  | .intLessequal, [n, m] | .intCarry, [n, m] | .intScarry, [n, m] | .intSborrow, [n, m] => n = m ∧ sizeout = 1
  | .boolNegate, [n] => n = 1 ∧ sizeout = 1
  | .boolXor, [n, m] | .boolAnd, [n, m] | .boolOr, [n, m] => n = 1 ∧ m = 1 ∧ sizeout = 1
  | _, _ => False

/-- A value that a varnode may have: the bits outside of the mask are clear, and
the mask of a constant is the constant. -/
structure Reads (vn : Varnode) (x : Operand) : Prop where
  size : vn.size = x.size
  bytes : ByteSize x.size
  within : x.word &&& ~~~vn.nzMask = 0#64
  constant : vn.isConstant = true → vn.offset = x.word ∧ vn.nzMask = x.word

end GhidraDecompiler.Pcode
