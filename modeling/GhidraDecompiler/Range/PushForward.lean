import GhidraDecompiler.Range.CircleUnion

namespace GhidraDecompiler.Range

open Pcode

def wrappingMul (a b : Nat) : Nat := a * b % 2 ^ 64

def absDiff (a b : Nat) : Nat := if a < b then b - a else a - b

def clz (val : Nat) : Int := countLeadingZeros (BitVec.ofNat 64 val)

namespace CircleRange

def shl (a sa : Nat) : Nat := (a <<< shrAmount sa) % 2 ^ 64

def normalize (r : CircleRange) : CircleRange :=
  if r.left = r.right then
    let left := if r.step ≠ 1 then r.left % r.step else 0
    { r with left := left, right := left }
  else r

def getMin (r : CircleRange) : Nat := r.left

/-- The number of bits of the larger end, where a negative end counts the bits of its
complement. -/
def getMaxInfo (r : CircleRange) : Int :=
  let halfPoint := r.mask ^^^ (r.mask >>> 1)
  if r.contains halfPoint then 64 - clz halfPoint
  else
    let sizeLeft := if halfPoint &&& r.left = 0 then clz r.left else clz (wrappingNot r.left &&& r.mask)
    let sizeRight := if halfPoint &&& r.right = 0 then clz r.right else clz (wrappingNot r.right &&& r.mask)
    64 - if sizeRight < sizeLeft then sizeRight else sizeLeft

def pushForwardZext (self in1 : CircleRange) (outSize : Int) : Bool × CircleRange :=
  let self := { self with isempty := false, step := in1.step, mask := maskOf outSize }
  if in1.left = in1.right then
    let left := in1.left % self.step
    (true, { self with left := left, right := wrappingAdd (wrappingAdd in1.mask 1) left })
  else
    let right := wrappingSub in1.right in1.step &&& in1.mask
    if right < in1.left then (false, { self with left := in1.left, right := right })
    else (true, { self with left := in1.left, right := wrappingAdd right self.step })

def signExtended (val : Nat) (inSize outSize : Int) : Nat := (signExtendSize (BitVec.ofNat 64 val) inSize outSize).toNat

def pushForwardSext (self in1 : CircleRange) (inSize outSize : Int) : Bool × CircleRange :=
  let self := { self with isempty := false, step := in1.step, mask := maskOf outSize }
  if in1.left = in1.right then
    let rem := in1.left % self.step
    let right := maskOf inSize >>> 1
    let left := wrappingAdd (maskOf outSize ^^^ right) rem
    (true, { self with left := left, right := wrappingAdd (wrappingAdd right 1) rem })
  else
    let left := signExtended in1.left inSize outSize
    let right := signExtended (wrappingSub in1.right in1.step &&& in1.mask) inSize outSize
    if (BitVec.ofNat 64 right).toInt < (BitVec.ofNat 64 left).toInt then (false, { self with left := left, right := right })
    else (true, { self with left := left, right := wrappingAdd right self.step &&& self.mask })

def pushForwardUnary (self : CircleRange) (opc : OpCode) (in1 : CircleRange) (inSize outSize : Int) : Bool × CircleRange :=
  if in1.isempty then (true, { self with isempty := true })
  else
    match opc with
    | .cast | .copy => (true, in1)
    | .intZext => self.pushForwardZext in1 outSize
    | .intSext => self.pushForwardSext in1 inSize outSize
    | .int2comp =>
        let right := wrappingAdd (wrappingAdd (wrappingNot in1.left) 1) in1.step &&& in1.mask
        let left := wrappingAdd (wrappingAdd (wrappingNot in1.right) 1) in1.step &&& in1.mask
        (true, normalize { self with isempty := false, step := in1.step, mask := in1.mask, left := left, right := right })
    | .intNegate =>
        let left := wrappingAdd (wrappingNot in1.right) in1.step &&& in1.mask
        let right := wrappingAdd (wrappingNot in1.left) in1.step &&& in1.mask
        (true, normalize { self with isempty := false, step := in1.step, mask := in1.mask, left := left, right := right })
    | .boolNegate | .floatNan => (true, { isempty := false, mask := 0xff, step := 1, left := 0, right := 2 })
    | _ => (false, self)

/-- The distance between the ends, in numbers and not in steps. -/
def pathSize (mask step left right : Nat) : Nat :=
  if left < right then right - left else wrappingAdd (wrappingSub mask (left - right)) step

def pushForwardAdd (self in1 in2 : CircleRange) : CircleRange :=
  let self := { self with isempty := false, mask := in1.mask ||| in2.mask }
  if in1.left = in1.right ∨ in2.left = in2.right then
    let step := if in1.step < in2.step then in1.step else in2.step
    let left := wrappingAdd in1.left in2.left % step
    { self with step := step, left := left, right := left }
  else if in2.isSingle then
    { self with
      step := in1.step, left := wrappingAdd in1.left in2.left &&& self.mask,
      right := wrappingAdd in1.right in2.left &&& self.mask }
  else if in1.isSingle then
    { self with
      step := in2.step, left := wrappingAdd in2.left in1.left &&& self.mask,
      right := wrappingAdd in2.right in1.left &&& self.mask }
  else
    let step := if in1.step < in2.step then in1.step else in2.step
    let size1 := pathSize in1.mask in1.step in1.left in1.right
    let left := wrappingAdd in1.left in2.left &&& self.mask
    let right := wrappingAdd (wrappingSub (wrappingAdd (wrappingSub in1.right in1.step) in2.right) in2.step) step &&& self.mask
    let sizenew := pathSize self.mask step left right
    normalize { self with step := step, left := left, right := if sizenew < size1 then left else right }

/-- The step doubles with each factor of two, up to the limit. -/
def raiseStep (maxStep : Nat) : Nat → Nat → Nat → Nat
  | 0, step, _ => step
  | fuel + 1, step, tmp =>
      if step < maxStep then if tmp &&& 1 ≠ 0 then step else raiseStep maxStep fuel (step <<< 1) (tmp >>> 1) else step

/-- A positive step reaches its limit within the bits of an integer. -/
def stepBits : Nat := 32

def pushForwardMult (self in1 in2 : CircleRange) (maxStep : Nat) : Bool × CircleRange :=
  let self := { self with isempty := false, mask := in1.mask ||| in2.mask }
  let operand : Option (Nat × Nat) :=
    if in1.isSingle then some (in1.getMin, in2.step) else if in2.isSingle then some (in2.getMin, in1.step) else none
  match operand with
  | none => (false, self)
  | some (constVal, step) =>
      let step := raiseStep maxStep stepBits step (constVal % 2 ^ 32)
      let self := { self with step := step }
      let wholeSize := 64 - clz self.mask
      let lowest := wrappingMul in1.left in2.left
      let highest := wrappingMul (wrappingSub in1.right in1.step) (wrappingSub in2.right in2.step)
      if in1.getMaxInfo + in2.getMaxInfo > wholeSize then
        (true, normalize { self with left := lowest % step, right := lowest % step })
      else if constVal &&& (self.mask ^^^ (self.mask >>> 1)) ≠ 0 then
        (true, { self with left := highest &&& self.mask, right := wrappingAdd lowest step &&& self.mask })
      else (true, { self with left := lowest &&& self.mask, right := wrappingAdd highest step &&& self.mask })

def raiseStepBy (maxStep : Nat) : Nat → Nat → Nat
  | 0, step => step
  | tmp + 1, step => if step < maxStep then raiseStepBy maxStep tmp (step <<< 1) else step

def pushForwardLeft (self in1 in2 : CircleRange) (maxStep : Nat) : Bool × CircleRange :=
  if !in2.isSingle then (false, self)
  else
    let sa := in2.getMin % 2 ^ 32
    let self := { self with isempty := false, mask := in1.mask, step := raiseStepBy maxStep sa in1.step }
    let left := shl in1.left sa &&& self.mask
    let right := shl in1.right sa &&& self.mask
    let wholeSize := 64 - clz self.mask
    if (in1.getMaxInfo + sa) % 2 ^ 32 > wholeSize then (true, normalize { self with left := left, right := left })
    else (true, { self with left := left, right := right })

def pushForwardSubpiece (self in1 in2 : CircleRange) (outSize : Int) : Bool × CircleRange :=
  if !in2.isSingle then (false, self)
  else
    let sa := in2.left * 8 % 2 ^ 32
    let self := { self with isempty := false, mask := maskOf outSize, step := if sa = 0 then in1.step else 1 }
    let range := absDiff in1.right in1.left
    if range = 0 ∨ range >>> shrAmount sa > self.mask then (true, { self with left := 0, right := 0 })
    else
      let left := in1.left >>> shrAmount sa
      let right := wrappingAdd (wrappingSub in1.right in1.step >>> shrAmount sa) self.step
      (true, normalize { self with left := left &&& self.mask, right := right &&& self.mask })

/-- A range of one value where the ends would meet. -/
def notFull (r : CircleRange) : CircleRange :=
  if r.left = r.right then { r with right := wrappingAdd r.left 1 &&& r.mask } else r

def pushForwardRight (self in1 in2 : CircleRange) (outSize : Int) : Bool × CircleRange :=
  if !in2.isSingle then (false, self)
  else
    let sa := in2.left
    let self := { self with isempty := false, mask := maskOf outSize, step := 1 }
    if in1.left < in1.right then
      (true, notFull { self with
        left := in1.left >>> shrAmount sa, right := wrappingAdd (wrappingSub in1.right in1.step >>> shrAmount sa) 1 })
    else (true, notFull { self with left := 0, right := in1.mask >>> shrAmount sa })

def pushForwardSright (self in1 in2 : CircleRange) (inSize outSize : Int) : Bool × CircleRange :=
  if !in2.isSingle then (false, self)
  else
    let sa : Int := shrAmount in2.left
    let self := { self with isempty := false, mask := maskOf outSize, step := 1 }
    let bitPos := 8 * inSize - 1
    let valLeft := signExtend (BitVec.ofNat 64 in1.left) bitPos
    let valRight := signExtend (BitVec.ofNat 64 in1.right) bitPos
    let vals :=
      if valRight.toInt ≤ valLeft.toInt then
        (signExtend (BitVec.ofNat 64 (self.mask >>> 1) + 1) bitPos, BitVec.ofNat 64 (self.mask >>> 1))
      else (valLeft, valRight)
    let left := (wrappingSar vals.1 sa).toNat &&& self.mask
    let right := (wrappingSar (vals.2 - BitVec.ofNat 64 in1.step) sa + 1).toNat &&& self.mask
    (true, notFull { self with left := left, right := right })

def pushForwardBinary (self : CircleRange) (opc : OpCode) (in1 in2 : CircleRange) (inSize outSize : Int) (maxStep : Nat) :
    Bool × CircleRange :=
  if in1.isempty || in2.isempty then (true, { self with isempty := true })
  else
    match opc with
    | .ptrsub | .intAdd => (true, self.pushForwardAdd in1 in2)
    | .intMult => self.pushForwardMult in1 in2 maxStep
    | .intLeft => self.pushForwardLeft in1 in2 maxStep
    | .subpiece => self.pushForwardSubpiece in1 in2 outSize
    | .intRight => self.pushForwardRight in1 in2 outSize
    | .intSright => self.pushForwardSright in1 in2 inSize outSize
    | .intEqual | .intNotequal | .intSless | .intSlessequal | .intLess | .intLessequal | .intCarry | .intScarry
    | .intSborrow | .boolXor | .boolAnd | .boolOr | .floatEqual | .floatNotequal | .floatLess | .floatLessequal =>
        (true, { isempty := false, mask := 0xff, step := 1, left := 0, right := 2 })
    | _ => (false, self)

end CircleRange

end GhidraDecompiler.Range
