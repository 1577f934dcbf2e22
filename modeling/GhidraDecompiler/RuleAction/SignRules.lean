import GhidraDecompiler.RuleAction.Matching

namespace GhidraDecompiler.RuleAction

open Pcode
open Expression (VarnodeId OpId)
open Editing (Funcdata checkedI32)
open Matching

namespace SignRules

section Patterns

variable (data : Funcdata)

/-- The varnode whose sign is in all the bits. -/
def checkSignExtraction (outVn : VarnodeId) : Option VarnodeId := do
  let signOp ← definedBy data outVn .intSright
  let constVn ← constantIn data signOp 1
  let resVn ← getIn data signOp 0
  guard (toI32 (data.vn constVn).offset = (data.vn resVn).size * 8 - 1)
  return resVn

/-- The varnode that is multiplied by minus one. -/
def checkNegation (multout : VarnodeId) : Option VarnodeId := do
  let multop ← definedBy data multout .intMult
  let multconst ← constantIn data multop 1
  guard ((data.vn multconst).offset = Pcode.calcMask (data.vn multconst).size)
  getIn data multop 0

/-- The varnode of which this is a piece, with the offset of the piece. -/
def pieceOf (vn : VarnodeId) : Option (VarnodeId × Word) := do
  let subOp ← definedBy data vn .subpiece
  let amount ← getIn data subOp 1
  let whole ← getIn data subOp 0
  return (whole, (data.vn amount).offset)

end Patterns

end SignRules

open SignRules

namespace RuleSignDiv2

def find (data : Funcdata) (op : OpId) : Option VarnodeId := do
  let constVn ← constantIn data op 1
  guard ((data.vn constVn).offset = 1)
  let addout ← getIn data op 0
  let addop ← definedBy data addout .intAdd
  [0, 1].findSome? fun index => do
    let multout ← getIn data addop index
    let shiftout ← checkNegation data multout
    let avn ← checkSignExtraction data shiftout
    guard (getIn data addop (1 - index) = some avn)
    guard !(data.vn avn).isFree
    return avn

def applyOp (data : Funcdata) (op : OpId) : Int × Funcdata :=
  match find data op with
  | none => (0, data)
  | some avn =>
      let data' := data.opSetInput op avn 0
      let (twovn, data') := data'.newConstant (data.vn avn).size 2
      let data' := data'.opSetInput op twovn 1
      (1, data'.opSetOpcode op .intSdiv)

end RuleSignDiv2

namespace RuleSignNearMult

/-- The number that is rounded, the power of two, and the amount of the shift to the
right. -/
structure Found where
  xvn : VarnodeId
  shift : Int
  amount : VarnodeId

def find (data : Funcdata) (op : OpId) : Option Found := do
  let constVn ← constantIn data op 1
  let addout ← getIn data op 0
  let addop ← definedBy data addout .intAdd
  let (index, shiftvn, unshiftop, amount) ← [0, 1].findSome? fun index => do
    let shiftvn ← getIn data addop index
    let unshiftop ← definedBy data shiftvn .intRight
    let amount ← constantIn data unshiftop 1
    return (index, shiftvn, unshiftop, amount)
  let xvn ← getIn data addop (1 - index)
  guard !(data.vn xvn).isFree
  let shift := toI32 (data.vn amount).offset
  guard (0 < shift)
  let shift := (data.vn shiftvn).size * 8 - shift
  guard (0 < shift)
  let mask := Pcode.calcMask (data.vn shiftvn).size
  guard (wrappingShl mask shift &&& mask = (data.vn constVn).offset)
  let sgnvn ← getIn data unshiftop 0
  guard (checkSignExtraction data sgnvn = some xvn)
  return { xvn := xvn, shift := shift, amount := amount }

def applyOp (data : Funcdata) (op : OpId) : Int × Funcdata :=
  match find data op with
  | none => (0, data)
  | some found =>
      let pow := wrappingShl 1 found.shift
      let xsize := (data.vn found.xvn).size
      let (divvn, data) := data.opWithConstant .intSdiv (data.op op).addr xsize found.xvn xsize pow
      let data := data.opSetOpcode op .intMult
      let data := data.opSetInput op divvn 0
      let (powvn, data) := data.newConstant xsize pow
      (1, data.opSetInput op powvn 1)

end RuleSignNearMult

namespace RuleSignMod2nOpt

/-- The number, the op that becomes the remainder, the mask, the amounts of the outer and
the inner shift to the right, and the size of the piece where there is one. -/
structure Found where
  avn : VarnodeId
  baseOp : OpId
  mask : Word
  outer : VarnodeId
  inner : VarnodeId
  truncSize : Option Nat

/-- The mask op, itself or below an extension. -/
def maskOp (data : Funcdata) (andOut : VarnodeId) : Option (OpId × Option Nat) := do
  let andOp ← (data.vn andOut).getDef
  if (data.op andOp).code = .intZext then
    let andOut ← getIn data andOp 0
    let inner ← definedBy data andOut .intAnd
    return (inner, some (data.vn andOut).size)
  else
    guard ((data.op andOp).code = .intAnd)
    return (andOp, none)

/-- Whether the varnode is the number, or its low piece. -/
def isLowPart (data : Funcdata) (avn : VarnodeId) (truncSize : Option Nat) (vn : VarnodeId) : Bool :=
  match truncSize with
  | none => avn = vn
  | some _ => pieceOf data vn = some (avn, 0)

/-- The sign that is added: that of the number, or of a piece of it. -/
def signPart (data : Funcdata) (truncSize : Option Nat) (extVn : VarnodeId) : Option VarnodeId := do
  let extVn ← checkSignExtraction data extVn
  match truncSize with
  | none => return extVn
  | some size =>
      let (whole, amount) ← pieceOf data extVn
      guard (toI32 amount = size)
      return whole

/-- The correction and its shift, within the sum that is masked. -/
def findInner (data : Funcdata) (avn addOut : VarnodeId) (shiftAmt : Int) (truncSize : Option Nat) : Option VarnodeId := do
  let addOp ← definedBy data addOut .intAdd
  let aSlot ← [0, 1].find? fun slot => (getIn data addOp slot).any (isLowPart data avn truncSize)
  let extVn ← getIn data addOp (1 - aSlot)
  let shiftOp ← definedBy data extVn .intRight
  let constVn ← constantIn data shiftOp 1
  let shiftval ←
    match truncSize with
    | none => some (toI32 (data.vn constVn).offset)
    | some size => checkedI32 (toI32 (data.vn constVn).offset + ((data.vn avn).size - size) * 8)
  guard (shiftval = shiftAmt)
  let extVn ← getIn data shiftOp 0
  guard (signPart data truncSize extVn = some avn)
  return constVn

def findAt (data : Funcdata) (op : OpId) (outer avn : VarnodeId) (shiftAmt : Int) (mask : Word) (multop : OpId) : Option Found := do
  guard ((data.op multop).code = .intMult)
  let negone ← constantIn data multop 1
  guard ((data.vn negone).offset = Pcode.calcMask (data.vn (data.op op).output).size)
  let multout := (data.op multop).output
  let baseOp ← data.loneDescend multout
  guard ((data.op baseOp).code = .intAdd)
  let andOut ← getIn data baseOp (1 - data.getSlot baseOp multout)
  let (andOp, truncSize) ← maskOp data andOut
  let constVn ← constantIn data andOp 1
  guard ((data.vn constVn).offset = mask)
  let addOut ← getIn data andOp 0
  let inner ← findInner data avn addOut shiftAmt truncSize
  return { avn := avn, baseOp := baseOp, mask := mask, outer := outer, inner := inner, truncSize := truncSize }

def find (data : Funcdata) (op : OpId) : Option Found := do
  let constVn ← constantIn data op 1
  let shiftAmt := toI32 (data.vn constVn).offset
  let avn ← (← getIn data op 0) |> checkSignExtraction data
  guard !(data.vn avn).isFree
  let shift := (data.vn avn).size * 8 - shiftAmt
  let mask := wrappingShl 1 shift - 1
  (data.descend (data.op op).output).findSome? (findAt data op constVn avn shiftAmt mask)

def applyOp (data : Funcdata) (op : OpId) : Int × Funcdata :=
  match find data op with
  | none => (0, data)
  | some found =>
      let size := (data.vn found.avn).size
      let data := data.opSetOpcode found.baseOp .intSrem
      let data := data.opSetInput found.baseOp found.avn 0
      let (constvn, data) := data.newConstant size (found.mask + 1)
      (1, data.opSetInput found.baseOp constvn 1)

end RuleSignMod2nOpt

namespace RuleSignMod2Opt

/-- The number of which the first varnode is the top piece and the second one the low
piece. -/
def wholeOf (data : Funcdata) (base otherBase : VarnodeId) : Option VarnodeId := do
  let (whole, truncAmt) ← pieceOf data base
  guard (toI32 truncAmt + (data.vn base).size = (data.vn whole).size)
  guard (pieceOf data otherBase = some (whole, 0))
  return whole

def extensionOf (data : Funcdata) (andOut : VarnodeId) : Option VarnodeId := do
  let extOp ← data.loneDescend andOut
  guard ((data.op extOp).code = .intZext)
  return (data.op extOp).output

/-- The base, and the op that becomes the remainder. -/
def find (data : Funcdata) (op : OpId) : Option (VarnodeId × OpId) := do
  let constVn ← constantIn data op 1
  guard ((data.vn constVn).offset = 1)
  let addOut ← getIn data op 0
  let addOp ← definedBy data addOut .intAdd
  let (multSlot, multIn) ← [0, 1].findSome? fun slot => do
    let vn ← getIn data addOp slot
    let multIn ← checkNegation data vn
    return (slot, multIn)
  let base ← checkSignExtraction data multIn
  let otherBase ← getIn data addOp (1 - multSlot)
  let trunc := base ≠ otherBase
  let base ← if trunc then wholeOf data base otherBase else some base
  guard !(data.vn base).isFree
  let andOut := (data.op op).output
  let andOut ← if trunc then extensionOf data andOut else some andOut
  let rootOp ← (data.descend andOut).find? fun rootOp =>
    (data.op rootOp).code = .intAdd ∧
      (getIn data rootOp (1 - data.getSlot rootOp andOut)).bind (checkSignExtraction data) = some base
  return (base, rootOp)

def applyOp (data : Funcdata) (op : OpId) : Int × Funcdata :=
  match find data op with
  | none => (0, data)
  | some (base, rootOp) =>
      let size := (data.vn base).size
      let data := data.opSetOpcode rootOp .intSrem
      let data := data.opSetInput rootOp base 0
      let (twovn, data) := data.newConstant size 2
      (1, data.opSetInput rootOp twovn 1)

end RuleSignMod2Opt

namespace RuleSignMod2nOpt2

/-- The number to which one is added when it is negative. -/
def checkSignExtForm (data : Funcdata) (op : OpId) : Option VarnodeId :=
  [0, 1].findSome? fun slot => do
    let minusVn ← getIn data op slot
    let signExt ← checkNegation data minusVn
    let base ← getIn data op (1 - slot)
    guard (checkSignExtraction data signExt = some base)
    return base

/-- The op that adjusts the number before it is masked, and the power of two. -/
def findAdjust (data : Funcdata) (op : OpId) : Option (OpId × Word) := do
  let constVn ← constantIn data op 1
  let mask := Pcode.calcMask (data.vn constVn).size
  guard ((data.vn constVn).offset = mask)
  let andOut ← getIn data op 0
  let andOp ← definedBy data andOut .intAnd
  let constVn ← constantIn data andOp 1
  let npow := (~~~(data.vn constVn).offset + 1) &&& mask
  guard (popcount npow = 1)
  guard (npow ≠ 1)
  let adjVn ← getIn data andOp 0
  let adjOp ← (data.vn adjVn).getDef
  return (adjOp, npow)

/-- The base, the op that becomes the remainder, and the power of two. The other form of
the adjustment, by a merge of two branches, is checked elsewhere. -/
def find (checkMultiequalForm : OpId → Word → Option VarnodeId) (data : Funcdata) (op : OpId) : Option (VarnodeId × OpId × Word) := do
  let (adjOp, npow) ← findAdjust data op
  let base ←
    if (data.op adjOp).code = .intAdd then
      if npow = 2 then checkSignExtForm data adjOp else none
    else if (data.op adjOp).code = .multiequal then checkMultiequalForm adjOp npow
    else none
  guard !(data.vn base).isFree
  let multOut := (data.op op).output
  let rootOp ← (data.descend multOut).find? fun rootOp =>
    (data.op rootOp).code = .intAdd ∧ getIn data rootOp (1 - data.getSlot rootOp multOut) = some base
  return (base, rootOp, npow)

def applyOp (checkMultiequalForm : OpId → Word → Option VarnodeId) (data : Funcdata) (op : OpId) : Int × Funcdata :=
  match find checkMultiequalForm data op with
  | none => (0, data)
  | some (base, rootOp, npow) =>
      let size := (data.vn base).size
      let data := if data.getSlot rootOp (data.op op).output = 0 then data.opSetInput rootOp base 0 else data
      let (constvn, data) := data.newConstant size npow
      let data := data.opSetInput rootOp constvn 1
      (1, data.opSetOpcode rootOp .intSrem)

end RuleSignMod2nOpt2

end GhidraDecompiler.RuleAction
