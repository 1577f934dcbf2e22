import GhidraDecompiler.Lib.HighMasks
import GhidraDecompiler.RuleAction.RuleValues

namespace GhidraDecompiler.RuleAction

open Pcode Dataflow HighMasks
open Expression (VarnodeId OpId)
open Editing (Funcdata)
open Editing.Funcdata
open Matching
open RangeMeld.Funcdata (inputVn constantVn writtenVn logicalOp)

namespace RuleHighOrderAnd

def getOpList : List OpCode := [.intAnd]

/-- A sum with a constant, or one within another sum; the constant is cut down. -/
inductive Found
  | plain (size : Nat) (xalign : VarnodeId) (val : Word)
  | nested (size : Nat) (addop : OpId) (zerovn : VarnodeId) (addop2 : OpId) (xalign : VarnodeId) (val : Word)
deriving DecidableEq

section Rule

variable (data : Funcdata) (nz : VarnodeId → Word)

/-- Nothing below the mask may be set. -/
def aligned (vn : VarnodeId) (val : Word) : Bool := nz vn &&& val = nz vn

def findNested (addop : OpId) (size : Nat) (val : Word) (slot : Nat) : Option Found := do
  let zerovn ← getIn data addop slot
  guard (aligned nz zerovn val)
  let nonzerovn ← getIn data addop (1 - slot)
  let addop2 ← definedBy data nonzerovn .intAdd
  guard (data.loneDescend nonzerovn = some addop)
  let cvn2 ← constantIn data addop2 1
  let xalign ← getIn data addop2 0
  guard (aligned nz xalign val)
  return .nested size addop zerovn addop2 xalign (val &&& (data.vn cvn2).offset)

def findSum (op addop : OpId) (size : Nat) (val : Word) (cvn2 : VarnodeId) : Option Found :=
  if (data.vn cvn2).isConstant then do
    let xalign ← getIn data addop 0
    guard !(data.vn xalign).isFree
    guard (aligned nz xalign val)
    return .plain size xalign (val &&& (data.vn cvn2).offset)
  else do
    guard (data.loneDescend (data.op addop).output = some op)
    [0, 1].findSome? (findNested data nz addop size val)

def find (op : OpId) : Option Found := do
  let cvn1 ← constantIn data op 1
  let invn ← getIn data op 0
  let addop ← definedBy data invn .intAdd
  let val := (data.vn cvn1).offset
  let size := (data.vn cvn1).size
  guard (val - 1 ||| val = Pcode.calcMask size)
  let cvn2 ← getIn data addop 1
  findSum data nz op addop size val cvn2

def rewrite (op : OpId) : Found → Funcdata
  | .plain size xalign val =>
      let data := data.opSetOpcode op .intAdd
      let data := data.opSetInput op xalign 0
      let (newconst, data) := data.newConstant size val
      data.opSetInput op newconst 1
  | .nested size _ _ addop2 _ val =>
      let (newconst, data) := data.newConstant size val
      let data := data.opSetInput addop2 newconst 1
      let data := data.opRemoveInput op 1
      data.opSetOpcode op .copy

def applyOp (op : OpId) : Int × Funcdata :=
  match find data nz op with
  | none => (0, data)
  | some found => (1, rewrite data op found)

end Rule

/-- The values of these may be any. -/
def Found.Leaf : Found → Nat → Prop
  | .plain _ xalign _, v => v = xalign
  | .nested _ _ zerovn _ xalign _, v => v = zerovn ∨ v = xalign

/-- The sums that are read by no other op change with the constant. -/
def Found.Hidden (data : Funcdata) : Found → Nat → Prop
  | .plain _ _ _, _ => False
  | .nested _ addop _ addop2 _ _, v => v = (data.op addop).output ∨ v = (data.op addop2).output

/-- The mask of a number of more than eight bytes cuts off the top, too; that changes
nothing only for constants whose sum has no carry. -/
def Found.Exact (data : Funcdata) (n : Nat) : Found → Prop
  | .plain _ _ _ => n ≤ 8
  | .nested _ _ zerovn _ xalign val => n ≤ 8 ∨ ((data.vn zerovn).isConstant = true ∧ (data.vn xalign).isConstant = true ∧
      (data.vn zerovn).offset.toNat + ((data.vn xalign).offset.toNat + val.toNat) < 2 ^ 64)

section Matches

variable {data : Funcdata} {nz : VarnodeId → Word} {op : Nat} {found : Found}

/-- A sum that is masked. -/
structure Masked (data : Funcdata) (op cvn1 invn addop : Nat) : Prop where
  constant : getIn data op 1 = some cvn1 ∧ (data.vn cvn1).isConstant = true
  input : getIn data op 0 = some invn
  addDef : (data.vn invn).getDef = some addop ∧ (data.op addop).code = .intAdd
  high : (data.vn cvn1).offset - 1 ||| (data.vn cvn1).offset = Pcode.calcMask (data.vn cvn1).size

/-- The sum of an aligned number and a constant. -/
structure Plain (data : Funcdata) (nz : VarnodeId → Word) (cvn1 addop cvn2 xalign : Nat) : Prop where
  inputs : getIn data addop 0 = some xalign ∧ getIn data addop 1 = some cvn2
  constant : (data.vn cvn2).isConstant = true
  notFree : (data.vn xalign).isFree = false
  aligned : aligned nz xalign (data.vn cvn1).offset = true

/-- The sum of two aligned numbers and a constant; the sums have one reader each. -/
structure Nested (data : Funcdata) (nz : VarnodeId → Word) (op cvn1 invn addop zerovn nonzerovn addop2 cvn2 xalign : Nat) : Prop where
  lone : data.loneDescend (data.op addop).output = some op
  inputs : getIn data addop 0 = some zerovn ∧ getIn data addop 1 = some nonzerovn ∨
    getIn data addop 0 = some nonzerovn ∧ getIn data addop 1 = some zerovn
  aligned : aligned nz zerovn (data.vn cvn1).offset = true ∧ RuleHighOrderAnd.aligned nz xalign (data.vn cvn1).offset = true
  addDef2 : (data.vn nonzerovn).getDef = some addop2 ∧ (data.op addop2).code = .intAdd
  lone2 : data.loneDescend nonzerovn = some addop
  inputs2 : getIn data addop2 0 = some xalign ∧ getIn data addop2 1 = some cvn2
  constant2 : (data.vn cvn2).isConstant = true

theorem findNested_matches {addop cvn1 size slot : Nat} (hslot : slot = 0 ∨ slot = 1) (hlone : data.loneDescend (data.op addop).output = some op)
    (hfind : findNested data nz addop size (data.vn cvn1).offset slot = some found) : ∃ zerovn nonzerovn addop2 cvn2 xalign : Nat,
      Nested data nz op cvn1 invn addop zerovn nonzerovn addop2 cvn2 xalign ∧
        found = .nested size addop zerovn addop2 xalign ((data.vn cvn1).offset &&& (data.vn cvn2).offset) := by
  simp only [findNested, Option.bind_eq_bind, Option.bind_eq_some_iff, Option.guard_eq_some', exists_and_left, exists_const,
    Option.pure_def, Option.some.injEq] at hfind
  obtain ⟨zerovn, hzerovn, hzero, nonzerovn, hnonzerovn, addop2, haddop2, hlone2, cvn2, hcvn2, xalign, hxalign, hx, rfl⟩ := hfind
  obtain ⟨hin2, hconst2⟩ := constantIn_eq.mp hcvn2
  refine ⟨zerovn, nonzerovn, addop2, cvn2, xalign, ⟨hlone, ?_, ⟨hzero, hx⟩, definedBy_eq.mp haddop2, hlone2, ⟨hxalign, hin2⟩, hconst2⟩, rfl⟩
  rcases hslot with rfl | rfl
  · exact .inl ⟨hzerovn, hnonzerovn⟩
  · exact .inr ⟨hnonzerovn, hzerovn⟩

theorem find_matches (hfind : find data nz op = some found) : ∃ cvn1 invn addop : Nat, Masked data op cvn1 invn addop ∧
    ((∃ cvn2 xalign : Nat, Plain data nz cvn1 addop cvn2 xalign ∧
        found = .plain (data.vn cvn1).size xalign ((data.vn cvn1).offset &&& (data.vn cvn2).offset)) ∨
      ∃ zerovn nonzerovn addop2 cvn2 xalign : Nat, Nested data nz op cvn1 invn addop zerovn nonzerovn addop2 cvn2 xalign ∧
        found = .nested (data.vn cvn1).size addop zerovn addop2 xalign ((data.vn cvn1).offset &&& (data.vn cvn2).offset)) := by
  simp only [find, Option.bind_eq_bind, Option.bind_eq_some_iff, Option.guard_eq_some', exists_and_left, exists_const, Option.pure_def,
    Option.some.injEq] at hfind
  obtain ⟨cvn1, hcvn1, invn, hinvn, addop, haddop, hhigh, cvn2, hcvn2, hsum⟩ := hfind
  refine ⟨cvn1, invn, addop, ⟨constantIn_eq.mp hcvn1, hinvn, definedBy_eq.mp haddop, hhigh⟩, ?_⟩
  rw [findSum] at hsum
  split at hsum
  · next hconst =>
      simp only [Option.bind_eq_bind, Option.bind_eq_some_iff, Option.guard_eq_some', exists_and_left, exists_const,
        Option.pure_def, Option.some.injEq] at hsum
      obtain ⟨xalign, hxalign, hfree, hx, rfl⟩ := hsum
      exact .inl ⟨cvn2, xalign, ⟨⟨hxalign, hcvn2⟩, hconst, Bool.eq_false_of_not_eq_true (by simpa using hfree), hx⟩, rfl⟩
  · simp only [Option.bind_eq_bind, Option.bind_eq_some_iff, Option.guard_eq_some', exists_and_left, exists_const] at hsum
    obtain ⟨hlone, hsome⟩ := hsum
    obtain ⟨slot, hslot, hfound⟩ := List.exists_of_findSome?_eq_some hsome
    refine .inr (findNested_matches ?_ hlone hfound)
    simpa using hslot

end Matches

end RuleHighOrderAnd

end GhidraDecompiler.RuleAction
