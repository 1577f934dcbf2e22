import Mathlib.Order.Fin.Basic
import Mathlib.Data.Prod.Lex
import Mathlib.Algebra.GroupWithZero.Nat
import GhidraDecompiler.Lib.Arena
import Mathlib.Algebra.Group.Nat.Defs

namespace GhidraDecompiler

open Fallible

/-- The points of a line, with the wrapping step in both directions. -/
class RangeLine (L : Type) where
  plusOne : L → L
  minusOne : L → L

/-- The secondary key of a range, with the two ends of its values. -/
class RangeSubsort (S : Type) where
  fromBool : Bool → S

class RangeRecord (R : Type) (L S Init : outParam Type) where
  newRecord : Init → L → L → R
  getFirst : R → L
  getLast : R → L
  getSubsort : R → S

open RangeLine RangeSubsort RangeRecord

abbrev U64 := Fin (2 ^ 64)

instance instNeZeroU64 : NeZero (2 ^ 64) := ⟨by decide⟩

instance : RangeLine U64 where
  plusOne x := x + 1
  minusOne x := x - 1

/-- A part of a record: the sub-range from `first` to `last` of a record from `a` to `b`. -/
structure AddrRange (L S : Type) where
  first : L
  last : L
  a : L
  b : L
  subsort : S
  value : Nat
  deriving DecidableEq

/-- The parts in the order of their keys, the records, and the list of their
identifiers that is linked through them. -/
structure RangeMap (R L S : Type) where
  tree : List (AddrRange L S)
  records : Arena R
  record : List Nat
  deriving DecidableEq

namespace RangeMap

section Tree

variable {L S : Type} [LinearOrder L] [LinearOrder S]

def compareKey (range : AddrRange L S) (last : L) (subsort : S) : Ordering :=
  (compare range.last last).then (compare range.subsort subsort)

/-- `partition_point` of a vector that is sorted by the key. -/
def lowerBound (tree : List (AddrRange L S)) (last : L) (subsort : S) : Nat :=
  (tree.takeWhile (fun range => compareKey range last subsort = .lt)).length

def upperBound (tree : List (AddrRange L S)) (last : L) (subsort : S) : Nat :=
  (tree.takeWhile (fun range => compareKey range last subsort ≠ .gt)).length

def insertAt (tree : List (AddrRange L S)) (pos : Nat) (range : AddrRange L S) : Outcome (List (AddrRange L S)) :=
  if pos ≤ tree.length then .ok (tree.insertIdx pos range) else .error .panic

def insertPlain (tree : List (AddrRange L S)) (range : AddrRange L S) : Outcome (List (AddrRange L S) × Nat) := do
  let pos := upperBound tree range.last range.subsort
  let tree ← insertAt tree pos range
  pure (tree, pos)

def less (first second : AddrRange L S) : Bool := compareKey first second.last second.subsort = .lt

/-- The place for a range that is expected at the hint. -/
def hintedPos (tree : List (AddrRange L S)) (hint : Nat) (range : AddrRange L S) : Outcome Nat :=
  if hint = tree.length then
    if 0 < tree.length then do
      let previous ← getIdx tree (tree.length - 1)
      if ¬ less range previous then pure tree.length
      else pure (upperBound tree range.last range.subsort)
    else pure (upperBound tree range.last range.subsort)
  else do
    let here ← getIdx tree hint
    if ¬ less here range then
      if hint = 0 then pure 0
      else do
        let previous ← getIdx tree (hint - 1)
        if ¬ less range previous then pure hint
        else pure (upperBound tree range.last range.subsort)
    else if hint = tree.length - 1 then pure tree.length
    else do
      let following ← getIdx tree (hint + 1)
      if ¬ less following range then pure (hint + 1)
      else pure (lowerBound tree range.last range.subsort)

def insertHint (tree : List (AddrRange L S)) (hint : Nat) (range : AddrRange L S) :
    Outcome (List (AddrRange L S) × Nat) := do
  let pos ← hintedPos tree hint range
  let tree ← insertAt tree pos range
  pure (tree, pos)

variable [RangeLine L]

/-- The first loop of `zip` takes away the parts that end at the line. -/
def zipRemove (line : L) (iter : Nat) (tree : List (AddrRange L S)) :
    Outcome (Pass (List (AddrRange L S)) (List (AddrRange L S))) :=
  if iter < tree.length then do
    let range ← getIdx tree iter
    if range.last = line then pure (.again (tree.eraseIdx iter)) else pure (.leave tree)
  else pure (.leave tree)

/-- The second one extends the parts that start behind it. -/
def zipExtend (line firstValue : L) (st : List (AddrRange L S) × Nat) :
    Outcome (Pass (List (AddrRange L S) × Nat) (List (AddrRange L S))) :=
  if st.2 ≠ st.1.length then do
    let range ← getIdx st.1 st.2
    if range.first = line then do
      let tree ← setIdx st.1 st.2 { range with first := firstValue }
      pure (.again (tree, st.2 + 1))
    else pure (.leave st.1)
  else pure (.leave st.1)

def zip (tree : List (AddrRange L S)) (line : L) (iter : Nat) : Outcome (List (AddrRange L S)) := do
  let range ← getIdx tree iter
  let firstValue := range.first
  let tree ← loop (zipRemove line iter) (tree.length + 1) tree
  loop (zipExtend (plusOne line) firstValue) (tree.length + 1) (tree, iter)

structure Unzip (L S : Type) where
  tree : List (AddrRange L S)
  iter : Nat
  hint : Nat
  inserted : Nat

def unzipPart (line : L) (st : Unzip L S) : Outcome (Pass (Unzip L S) (List (AddrRange L S) × Nat)) :=
  if st.iter ≠ st.tree.length then do
    let range ← getIdx st.tree st.iter
    if range.first ≤ line then do
      let current := { range with first := plusOne line }
      let tree ← setIdx st.tree st.iter current
      let newrange := { current with first := range.first, last := line }
      let (tree, pos) ← insertHint tree st.hint newrange
      pure (.again
        { tree := tree
          iter := (if pos ≤ st.iter then st.iter + 1 else st.iter) + 1
          hint := if pos ≤ st.hint then st.hint + 1 else st.hint
          inserted := st.inserted + 1 })
    else pure (.leave (st.tree, st.inserted))
  else pure (.leave (st.tree, st.inserted))

/-- The parts from here on that hold the line are cut behind it. The number of parts
that were inserted is returned. -/
def unzip (tree : List (AddrRange L S)) (line : L) (iter : Nat) : Outcome (List (AddrRange L S) × Nat) := do
  let range ← getIdx tree iter
  if range.last = line then pure (tree, 0)
  else loop (unzipPart line) (tree.length + 1) { tree := tree, iter := iter, hint := iter, inserted := 0 }

structure Inserting (L S : Type) where
  tree : List (AddrRange L S)
  low : Nat
  bound : L

/-- The new range is put at the index, which goes on pointing at the same part. -/
def insertNear (st : Inserting L S) (addrrange : AddrRange L S) : Outcome (Inserting L S) := do
  let (tree, pos) ← insertHint st.tree st.low addrrange
  pure { st with tree := tree, low := if pos ≤ st.low then st.low + 1 else st.low }

/-- The gap before the part at the index. -/
def insertGap (addrrange : AddrRange L S) (st : Inserting L S) : Outcome (Inserting L S) := do
  let range ← getIdx st.tree st.low
  if st.bound < range.first then do
    let st ← insertNear st { addrrange with first := st.bound, last := minusOne range.first }
    let range ← getIdx st.tree st.low
    pure { st with bound := range.first }
  else pure st

/-- The stretch of the part at the index: all of it is covered by the new record, or
the part is cut. -/
def insertShared (addrrange : AddrRange L S) (second : L) (st : Inserting L S) :
    Outcome (Pass (Inserting L S) (Inserting L S)) := do
  let range ← getIdx st.tree st.low
  if range.last ≤ second then do
    let st ← insertNear st { addrrange with first := st.bound, last := range.last }
    let range ← getIdx st.tree st.low
    if range.last = second then pure (.leave st)
    else pure (.again { st with low := st.low + 1, bound := plusOne range.last })
  else if second < range.last then do
    let (tree, _) ← unzip st.tree second st.low
    pure (.leave { st with tree := tree })
  else pure (.again { st with low := st.low + 1 })

def insertPart (addrrange : AddrRange L S) (second : L) (st : Inserting L S) :
    Outcome (Pass (Inserting L S) (Inserting L S)) :=
  if st.low ≠ st.tree.length then do
    let range ← getIdx st.tree st.low
    if range.first ≤ second then
      if st.bound ≤ range.last then do
        let st ← insertGap addrrange st
        insertShared addrrange second st
      else pure (.again { st with low := st.low + 1 })
    else pure (.leave st)
  else pure (.leave st)

end Tree

variable {R L S Init : Type} [LinearOrder L] [LinearOrder S] [RangeLine L] [RangeSubsort S] [RangeRecord R L S Init]

def new : RangeMap R L S := { tree := [], records := ⟨[]⟩, record := [] }

def find (m : RangeMap R L S) (point : L) : Outcome (Nat × Nat) := do
  let iter1 := lowerBound m.tree point (fromBool false)
  if iter1 = m.tree.length then pure (iter1, iter1)
  else do
    let range ← getIdx m.tree iter1
    if point < range.first then pure (iter1, iter1)
    else pure (iter1, upperBound m.tree range.last (fromBool true))

/-- A record in front of another one, or at the end of the list. -/
def insertRecord (record : List Nat) (position : Option Nat) (id : Nat) : List Nat :=
  match position with
  | some position => record.takeWhile (· ≠ position) ++ id :: record.dropWhile (· ≠ position)
  | none => record ++ [id]

/-- Before the loop of `insert` the parts that hold the first point are cut before it. -/
def insertStart (tree : List (AddrRange L S)) (bound : L) : Outcome (List (AddrRange L S) × Nat) := do
  let low := lowerBound tree bound (fromBool false)
  if low ≠ tree.length then do
    let range ← getIdx tree low
    if range.first < bound then do
      let (tree, shift) ← unzip tree (minusOne bound) low
      pure (tree, low + shift)
    else pure (tree, low)
  else pure (tree, low)

def insert (m : RangeMap R L S) (data : Init) (first second : L) : Outcome (RangeMap R L S × Nat) := do
  let (tree, low) ← insertStart m.tree first
  let (records, liter) := m.records.alloc (newRecord data first second)
  let node ← records.get liter
  let addrrange : AddrRange L S :=
    { first := second, last := second, a := first, b := second, subsort := getSubsort node, value := liter }
  let spot := lowerBound tree addrrange.last addrrange.subsort
  let position ← if spot = tree.length then pure none
    else do
      let range ← getIdx tree spot
      pure (some range.value)
  let record := insertRecord m.record position liter
  let st ← loop (insertPart addrrange second) (3 * tree.length + 1) { tree := tree, low := low, bound := first }
  if st.bound ≤ second then do
    let (tree, _) ← insertPlain st.tree { addrrange with first := st.bound, last := second }
    pure ({ tree := tree, records := records, record := record }, liter)
  else pure ({ tree := st.tree, records := records, record := record }, liter)

/-- The parts that end before the record, from the last one back: whether none of them
is the end of its record. -/
def scanLeft (tree : List (AddrRange L S)) (aminus1 : L) : Nat → Outcome Bool
  | 0 => .ok true
  | uplow + 1 => do
      let range ← getIdx tree uplow
      if range.last ≠ aminus1 then pure true
      else if range.b = aminus1 then pure false
      else scanLeft tree aminus1 uplow

structure Erasing (L S : Type) where
  tree : List (AddrRange L S)
  low : Nat
  leftsew : Bool
  rightsew : Bool
  leftoverlap : Bool
  rightoverlap : Bool

/-- What a part of another record says about the two ends of the record. -/
def Erasing.note (st : Erasing L S) (first last : L) (range : AddrRange L S) : Erasing L S :=
  { st with
    leftoverlap := st.leftoverlap || decide (range.a < first)
    leftsew := st.leftsew && !decide (range.a = first)
    rightoverlap := st.rightoverlap || decide (last < range.b)
    rightsew := st.rightsew && !decide (range.b = last) }

def erasePart (id : Nat) (first last : L) (st : Erasing L S) : Outcome (Pass (Erasing L S) (Erasing L S)) := do
  let range ← getIdx st.tree st.low
  let st := if range.value = id then { st with tree := st.tree.eraseIdx st.low }
    else { st.note first last range with low := st.low + 1 }
  if st.low ≠ st.tree.length then do
    let range ← getIdx st.tree st.low
    if range.first ≤ last then pure (.again st) else pure (.leave st)
  else pure (.leave st)

def erase (m : RangeMap R L S) (id : Nat) : Outcome (RangeMap R L S) := do
  let node ← m.records.get id
  let first := getFirst node
  let last := getLast node
  let low := lowerBound m.tree first (fromBool false)
  let aminus1 := minusOne first
  let leftsew ← scanLeft m.tree aminus1 low
  let st ← loop (erasePart id first last) (m.tree.length + 1)
    { tree := m.tree, low := low, leftsew := leftsew, rightsew := true, leftoverlap := false, rightoverlap := false }
  let rightsew ← if st.low ≠ st.tree.length then do
      let range ← getIdx st.tree st.low
      pure (if minusOne range.a = last then false else st.rightsew)
    else pure st.rightsew
  let tree ← if st.leftsew && st.leftoverlap then
      zip st.tree aminus1 (lowerBound st.tree aminus1 (fromBool false))
    else pure st.tree
  let tree ← if rightsew && st.rightoverlap then zip tree last (lowerBound tree last (fromBool false))
    else pure tree
  let records ← m.records.remove id
  pure { tree := tree, records := records, record := m.record.erase id }

end RangeMap

end GhidraDecompiler
