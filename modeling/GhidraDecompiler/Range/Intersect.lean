import GhidraDecompiler.Range.PullBack

namespace GhidraDecompiler.Range

open Pcode

def wrappingAdd32 (a b : Nat) : Nat := (a + b) % 2 ^ 32

def wrappingSub32 (a b : Nat) : Nat := (a + (2 ^ 32 - b)) % 2 ^ 32

namespace CircleRange

def arrange : List Char :=
  ['g', 'c', 'g', 'b', 'e', 'g', 'd', 'a', 'g', 'g', 'g', 'g', 'g', 'g', 'g', 'e',
    'g', 'g', 'g', 'g', 'c', 'g', 'b', 'g', 'g', 'g', 'g', 'g', 'g', 'g', 'g', 'c',
    'd', 'f', 'g', 'g', 'g', 'g', 'g', 'g', 'g', 'e', 'g', 'd', 'g', 'g', 'g', 'g',
    'b', 'g', 'g', 'g', 'f', 'g', 'g', 'g', 'g', 'c', 'g', 'b', 'e', 'g', 'd', 'a']

/-- The arrangement of the ends of two ranges around the circle. -/
def encodeRangeOverlaps (op1left op1right op2left op2right : Nat) : Char :=
  let val := if op1left ≤ op1right then 0x20 else 0
  let val := val ||| if op1left ≤ op2left then 0x10 else 0
  let val := val ||| if op1left ≤ op2right then 0x8 else 0
  let val := val ||| if op1right ≤ op2left then 4 else 0
  let val := val ||| if op1right ≤ op2right then 2 else 0
  let val := val ||| if op2left ≤ op2right then 1 else 0
  arrange.getD val 'g'

/-- The next end with the remainder of the new step. -/
def strideEnd (mask step rem val : Nat) : Nat :=
  let valRem := (val % step) % 2 ^ 32
  let val :=
    if valRem > rem then wrappingAdd val (wrappingSub32 (wrappingAdd32 rem step) valRem)
    else wrappingAdd val (wrappingSub32 rem valRem)
  val &&& mask

/-- Whether the range becomes empty, and its ends. -/
def newStride (mask step oldStep rem myleft myright : Nat) : Bool × Nat × Nat :=
  if oldStep ≠ 1 ∧ (myleft % oldStep) % 2 ^ 32 ≠ rem % oldStep then (true, myleft, myright)
  else
    let origOrder := decide (myleft < myright)
    let myleft := strideEnd mask step rem myleft
    let myright := strideEnd mask step rem myright
    let newOrder := decide (myleft < myright)
    if origOrder ≠ newOrder then (true, myleft, myright) else (false, myleft, myright)

def newDomain (newMask newStep myleft myright : Nat) : Bool × Nat × Nat :=
  let rem := if newStep ≠ 1 then myleft % newStep else 0
  if myleft > newMask ∧ myright > newMask then
    if myleft < myright then (true, myleft, myright) else (false, rem, rem)
  else
    let myleft := if myleft > newMask then rem else myleft
    let myright := if myright > newMask then rem else myright
    if myleft = myright then (false, rem, rem) else (false, myleft, myright)

/-- The intersection: nothing, one range, or two pieces. -/
inductive Overlap
  | empty
  | range (left right : Nat) (isempty : Bool)
  | pieces
  deriving DecidableEq

/-- An overlap that ends where it begins has no values. -/
def overlapRange (left right : Nat) : Overlap := .range left right (decide (left = right))

def overlap (myleft myright op2left op2right : Nat) : Overlap :=
  if myleft = myright then .range op2left op2right false
  else if op2left = op2right then .range myleft myright false
  else
    match encodeRangeOverlaps myleft myright op2left op2right with
    | 'a' | 'f' => .empty
    | 'b' => overlapRange op2left myright
    | 'c' => .range op2left op2right false
    | 'd' => .range myleft myright false
    | 'e' => overlapRange myleft op2right
    | 'g' =>
        if myleft = op2right then overlapRange op2left myright
        else if op2left = myright then overlapRange myleft op2right
        else .pieces
    | _ => .pieces

/-- The last stage, on ends with the same step in the same domain. -/
def meet (a : CircleRange) (newStep newMask myleft myright op2left op2right : Nat) : Int × CircleRange :=
  match overlap myleft myright op2left op2right with
  | .empty => (0, { a with isempty := true, mask := newMask, step := newStep })
  | .range left right isempty =>
      (0, { a with left := left, right := right, isempty := isempty, mask := newMask, step := newStep })
  | .pieces => (2, a)

/-- The second stage: the range with the larger mask is cut to the smaller one. -/
def cut (a : CircleRange) (op2mask newStep myleft myright op2left op2right : Nat) : Int × CircleRange :=
  let newMask := a.mask &&& op2mask
  if a.mask ≠ newMask then
    match newDomain newMask newStep myleft myright with
    | (true, _, _) => (0, { a with isempty := true })
    | (false, myleft, myright) => a.meet newStep newMask myleft myright op2left op2right
  else if op2mask ≠ newMask then
    match newDomain newMask newStep op2left op2right with
    | (true, _, _) => (0, { a with isempty := true })
    | (false, op2left, op2right) => a.meet newStep newMask myleft myright op2left op2right
  else a.meet newStep newMask myleft myright op2left op2right

/-- The first stage aligns the range with the smaller step. -/
def intersect (a op2 : CircleRange) : Int × CircleRange :=
  if a.isempty then (0, a)
  else if op2.isempty then (0, { a with isempty := true })
  else if a.step < op2.step then
    match newStride a.mask op2.step a.step (op2.left % op2.step % 2 ^ 32) a.left a.right with
    | (true, _, _) => (0, { a with isempty := true })
    | (false, myleft, myright) => a.cut op2.mask op2.step myleft myright op2.left op2.right
  else if op2.step < a.step then
    match newStride op2.mask a.step op2.step (a.left % a.step % 2 ^ 32) op2.left op2.right with
    | (true, _, _) => (0, { a with isempty := true })
    | (false, op2left, op2right) => a.cut op2.mask a.step a.left a.right op2left op2right
  else a.cut op2.mask a.step a.left a.right op2.left op2.right

end CircleRange

end GhidraDecompiler.Range
