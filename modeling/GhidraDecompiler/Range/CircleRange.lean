import GhidraDecompiler.Pcode.Comparisons

namespace GhidraDecompiler.Range

open Pcode

/-- Words as numbers: sums and differences wrap. -/
def wrappingAdd (a b : Nat) : Nat := (a + b) % 2 ^ 64

def wrappingSub (a b : Nat) : Nat := (a + (2 ^ 64 - b)) % 2 ^ 64

/-- The values from `left` up to but not including `right`, around the circle of
the mask, in steps. -/
structure CircleRange where
  left : Nat
  right : Nat
  mask : Nat
  isempty : Bool
  step : Nat
  deriving DecidableEq

def maskOf (size : Int) : Nat := (Pcode.calcMask size).toNat

namespace CircleRange

/-- With both ends equal the range is the whole circle. -/
def contains (r : CircleRange) (val : Nat) : Bool :=
  if r.isempty then false
  else if r.step ≠ 1 ∧ r.left % r.step ≠ val % r.step then false
  else if r.left < r.right then
    if val < r.left then false else if r.right ≤ val then false else true
  else if r.right < r.left then
    if val < r.right then true else if r.left ≤ val then true else false
  else true

def complement (r : CircleRange) : CircleRange :=
  if r.isempty then { r with left := 0, right := 0, isempty := false }
  else if r.left = r.right then { r with isempty := true }
  else { r with left := r.right, right := r.left }

def convertToBoolean (r : CircleRange) : Bool × CircleRange :=
  if r.isempty then (false, r)
  else
    let containsZero := r.contains 0
    let containsOne := r.contains 1
    let r := { r with mask := 0xff, step := 1 }
    if containsZero && containsOne then (true, { r with left := 0, right := 2, isempty := false })
    else if containsZero then (false, { r with left := 0, right := 1, isempty := false })
    else if containsOne then (false, { r with left := 1, right := 2, isempty := false })
    else (false, { r with isempty := true })

/-- The inputs of a comparison: the range of its true outputs is complemented when
the output is false. -/
def pullBackComparison (r : CircleRange) (inSize : Int) (solve : CircleRange → CircleRange) : CircleRange :=
  let (bothTrueFalse, r) := r.convertToBoolean
  let r := { r with mask := maskOf inSize }
  if bothTrueFalse then r
  else
    let yescomplement := r.left = 0
    let r := solve r
    if yescomplement then r.complement else r

def solveEqual (val : Nat) (r : CircleRange) : CircleRange :=
  { r with left := val, right := wrappingAdd val 1 &&& r.mask }

def solveNotequal (val : Nat) (r : CircleRange) : CircleRange :=
  { r with left := wrappingAdd val 1 &&& r.mask, right := val }

def solveLess (val : Nat) (slot : Int) (r : CircleRange) : CircleRange :=
  if slot = 0 then
    if val = 0 then { r with isempty := true } else { r with left := 0, right := val }
  else if val = r.mask then { r with isempty := true }
  else { r with left := wrappingAdd val 1 &&& r.mask, right := 0 }

def solveLessequal (val : Nat) (slot : Int) (r : CircleRange) : CircleRange :=
  if slot = 0 then { r with left := 0, right := wrappingAdd val 1 &&& r.mask } else { r with left := val, right := 0 }

def solveSless (val : Nat) (slot : Int) (r : CircleRange) : CircleRange :=
  if slot = 0 then
    if val = wrappingAdd (r.mask >>> 1) 1 then { r with isempty := true }
    else { r with left := wrappingAdd (r.mask >>> 1) 1, right := val }
  else if val = r.mask >>> 1 then { r with isempty := true }
  else { r with left := wrappingAdd val 1 &&& r.mask, right := wrappingAdd (r.mask >>> 1) 1 }

def solveSlessequal (val : Nat) (slot : Int) (r : CircleRange) : CircleRange :=
  if slot = 0 then { r with left := wrappingAdd (r.mask >>> 1) 1, right := wrappingAdd val 1 &&& r.mask }
  else { r with left := val, right := wrappingAdd (r.mask >>> 1) 1 }

def solveCarry (val : Nat) (r : CircleRange) : CircleRange :=
  if val = 0 then { r with isempty := true }
  else { r with left := wrappingAdd (wrappingSub r.mask val) 1 &&& r.mask, right := 0 }

/-- Shifts take the amount modulo the width. -/
def shrAmount (val : Nat) : Nat := val % 2 ^ 32 % 64

def pullBackRight (r : CircleRange) (val : Nat) (inSize : Int) : CircleRange :=
  let rightBound := wrappingAdd (maskOf inSize >>> shrAmount val) 1
  if (rightBound ≤ r.left ∧ rightBound ≤ r.right ∧ r.right ≤ r.left) ∨ (r.left = 0 ∧ rightBound ≤ r.right) ∨
      r.left = r.right then
    { r with left := 0, right := 0 }
  else
    let left := if r.left > rightBound then rightBound else r.left
    let right := if r.right > rightBound then 0 else r.right
    let left := (left <<< shrAmount val) % 2 ^ 64 &&& r.mask
    let right := (right <<< shrAmount val) % 2 ^ 64 &&& r.mask
    { r with left := left, right := right, isempty := if left = right then true else r.isempty }

def pullBackSright (r : CircleRange) (val : Nat) (inSize : Int) : CircleRange :=
  let leftb := maskOf inSize >>> shrAmount (wrappingAdd val 1)
  let rightb := maskOf inSize ^^^ leftb
  let leftb := wrappingAdd leftb 1
  if (leftb ≤ r.left ∧ r.left ≤ rightb ∧ leftb ≤ r.right ∧ r.right ≤ rightb ∧ r.right ≤ r.left) ∨ r.left = r.right then
    { r with left := 0, right := 0 }
  else
    let left := if r.left > leftb ∧ r.left < rightb then leftb else r.left
    let right := if r.right > leftb ∧ r.right < rightb then rightb else r.right
    let left := (left <<< shrAmount val) % 2 ^ 64 &&& r.mask
    let right := (right <<< shrAmount val) % 2 ^ 64 &&& r.mask
    { r with left := left, right := right, isempty := if left = right then true else r.isempty }

def pullBackBinary (r : CircleRange) (opc : OpCode) (val : Nat) (slot inSize _outSize : Int) : Bool × CircleRange :=
  if r.isempty then (true, r)
  else
    match opc with
    | .intEqual => (true, r.pullBackComparison inSize (solveEqual val))
    | .intNotequal => (true, r.pullBackComparison inSize (solveNotequal val))
    | .intLess => (true, r.pullBackComparison inSize (solveLess val slot))
    | .intLessequal => (true, r.pullBackComparison inSize (solveLessequal val slot))
    | .intSless => (true, r.pullBackComparison inSize (solveSless val slot))
    | .intSlessequal => (true, r.pullBackComparison inSize (solveSlessequal val slot))
    | .intCarry => (true, r.pullBackComparison inSize (solveCarry val))
    | .intAdd =>
        (true, { r with left := wrappingSub r.left val &&& r.mask, right := wrappingSub r.right val &&& r.mask })
    | .intSub =>
        if slot = 0 then
          (true, { r with left := wrappingAdd r.left val &&& r.mask, right := wrappingAdd r.right val &&& r.mask })
        else (true, { r with left := wrappingSub val r.left &&& r.mask, right := wrappingSub val r.right &&& r.mask })
    | .intRight => if r.step = 1 then (true, r.pullBackRight val inSize) else (false, r)
    | .intSright => if r.step = 1 then (true, r.pullBackSright val inSize) else (false, r)
    | _ => (false, r)

/-- The ends are within the mask of some number of bytes, and a whole number of
steps, a power of two, apart. -/
structure WellFormed (r : CircleRange) : Prop where
  mask : ∃ size, ByteSize size ∧ r.mask = maskOf size
  step : ∃ k, k < 31 ∧ r.step = 2 ^ k
  left : r.left ≤ r.mask
  right : r.right ≤ r.mask
  congruent : r.left % r.step = r.right % r.step

end CircleRange

end GhidraDecompiler.Range
