import GhidraDecompiler.OpCode
import GhidraDecompiler.Pcode.Words

namespace GhidraDecompiler.Pcode

inductive Error
  | lowlevel (message : String)
  | evaluation (message : String)
  deriving DecidableEq

def unaryUnimplemented (opcode : OpCode) : Error :=
  .lowlevel ("Unary emulation unimplemented for " ++ getOpname opcode)

def binaryUnimplemented (opcode : OpCode) : Error :=
  .lowlevel ("Binary emulation unimplemented for " ++ getOpname opcode)

def ternaryUnimplemented (opcode : OpCode) : Error :=
  .lowlevel ("Ternary emulation unimplemented for " ++ getOpname opcode)

/-- A signed integer as an unsigned word. -/
def cxxInt (value : Int) : Word := BitVec.ofInt 64 value

/-- A truth value as a word. -/
def ofBool (b : Bool) : Word := (BitVec.ofBool b).setWidth 64

def signedLess (sizein : Int) (in1 in2 : Word) (orEqual : Bool) : Word :=
  if sizein ≤ 0 then 0
  else
    let mask := wrappingShl 0x80 (8 * (sizein - 1))
    let bit1 := in1 &&& mask
    let bit2 := in2 &&& mask
    if bit1 ≠ bit2 then ofBool (bit1 != 0#64)
    else if orEqual then ofBool (in1.ule in2)
    else ofBool (in1.ult in2)

def signBitOf (value : Word) (sizein : Int) : BitVec 32 := (wrappingShr value (sizein * 8 - 1) &&& 1).setWidth 32

/-- The behaviors of the unary operations. Without a float format for its sizes
an operation on floats has none. -/
def evaluateUnary (opc : OpCode) (sizeout sizein : Int) (in1 : Word) : Except Error Word :=
  match opc with
  | .copy => .ok in1
  | .intZext => .ok in1
  | .intSext => .ok (signExtendSize in1 sizein sizeout)
  | .int2comp => .ok (uintbNegate (in1 - 1) sizein)
  | .intNegate => .ok (uintbNegate in1 sizein)
  | .boolNegate => .ok (in1 ^^^ 1)
  | .popcount => .ok (cxxInt (popcount in1))
  | .lzcount =>
      let unusedBits := 8 * (8 - cxxInt sizein)
      .ok (cxxInt (countLeadingZeros in1) - unusedBits)
  | _ => .error (unaryUnimplemented opc)

def evaluateBinary (opc : OpCode) (sizeout sizein : Int) (in1 in2 : Word) : Except Error Word :=
  match opc with
  | .intEqual => .ok (ofBool (in1 == in2))
  | .intNotequal => .ok (ofBool (in1 != in2))
  | .intSless => .ok (signedLess sizein in1 in2 false)
  | .intSlessequal => .ok (signedLess sizein in1 in2 true)
  | .intLess => .ok (ofBool (in1.ult in2))
  | .intLessequal => .ok (ofBool (in1.ule in2))
  | .intAdd => .ok ((in1 + in2) &&& calcMask sizeout)
  | .intSub => .ok ((in1 - in2) &&& calcMask sizeout)
  | .intCarry => .ok (ofBool (((in1 + in2) &&& calcMask sizein).ult in1))
  | .intScarry =>
      let res := in1 + in2
      let first := signBitOf in1 sizein
      let second := signBitOf in2 sizein
      let result := signBitOf res sizein ^^^ first
      let first := first ^^^ second ^^^ 1
      .ok ((result &&& first).setWidth 64)
  | .intSborrow =>
      let res := in1 - in2
      let second := signBitOf in2 sizein
      let result := signBitOf res sizein
      let first := signBitOf in1 sizein ^^^ result
      let result := result ^^^ second ^^^ 1
      .ok ((first &&& result).setWidth 64)
  | .intXor => .ok (in1 ^^^ in2)
  | .intAnd => .ok (in1 &&& in2)
  | .intOr => .ok (in1 ||| in2)
  | .intLeft =>
      if (cxxInt (sizeout * 8)).ule in2 then .ok 0
      else .ok (wrappingShl in1 in2.toNat &&& calcMask sizeout)
  | .intRight =>
      if (cxxInt (sizeout * 8)).ule in2 then .ok 0
      else .ok (wrappingShr (in1 &&& calcMask sizeout) in2.toNat)
  | .intSright =>
      if (cxxInt (sizeout * 8)).ule in2 then .ok (if signbitNegative in1 sizein then calcMask sizeout else 0)
      else
        let res := wrappingShr in1 in2.toNat
        if signbitNegative in1 sizein then
          .ok (res ||| (wrappingShr (calcMask sizein) in2.toNat ^^^ calcMask sizein))
        else .ok res
  | .intMult => .ok ((in1 * in2) &&& calcMask sizeout)
  | .intDiv => if in2 = 0#64 then .error (.evaluation "Divide by 0") else .ok (in1 / in2)
  | .intSdiv =>
      if in2 = 0#64 then .error (.evaluation "Divide by 0")
      else
        let num := signExtend in1 (sizein * 8 - 1)
        let denom := signExtend in2 (sizein * 8 - 1)
        if denom = 0#64 then .error (.evaluation "Divide by 0")
        else .ok (zeroExtend (num.sdiv denom) (sizeout * 8 - 1))
  | .intRem => if in2 = 0#64 then .error (.evaluation "Remainder by 0") else .ok (in1 % in2)
  | .intSrem =>
      if in2 = 0#64 then .error (.evaluation "Remainder by 0")
      else
        let val := signExtend in1 (sizein * 8 - 1)
        let modulus := signExtend in2 (sizein * 8 - 1)
        if modulus = 0#64 then .error (.evaluation "Remainder by 0")
        else .ok (zeroExtend (val.srem modulus) (sizeout * 8 - 1))
  | .boolXor => .ok (in1 ^^^ in2)
  | .boolAnd => .ok (in1 &&& in2)
  | .boolOr => .ok (in1 ||| in2)
  | .piece => .ok (wrappingShl in1 ((sizeout - sizein) * 8) ||| in2)
  | .subpiece =>
      if (8#64).ule in2 then .ok 0
      else .ok (wrappingShr in1 (in2 * 8).toNat &&& calcMask sizeout)
  | .ptrsub => .ok ((in1 + in2) &&& calcMask sizeout)
  | _ => .error (binaryUnimplemented opc)

def evaluateTernary (opc : OpCode) (sizeout _sizein : Int) (in1 in2 in3 : Word) : Except Error Word :=
  match opc with
  | .ptradd => .ok ((in1 + in2 * in3) &&& calcMask sizeout)
  | _ => .error (ternaryUnimplemented opc)

end GhidraDecompiler.Pcode
