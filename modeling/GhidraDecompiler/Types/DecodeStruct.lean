import Mathlib.Data.List.Basic
import GhidraDecompiler.Lib.Fallible
import Mathlib.Algebra.Group.Nat.Defs
import Mathlib.Algebra.Group.Int.Defs

namespace GhidraDecompiler.Types

open Fallible

inductive TypeMetatype
  | partialUnion | partialStruct | partialEnum | union | struct | enumInt | enumUint | array | ptrRel | ptr
  | float | code | bool | uint | int | unknown | spacebase | void
  deriving DecidableEq

/-- What decoding reads of a data-type. No type that is decoded has a negative size. -/
structure Datatype where
  metatype : TypeMetatype
  size : Int
  alignment : Int
  hasBitfields : Bool
  size_nonneg : 0 ≤ size
  deriving DecidableEq

structure BitRange where
  byteOffset : Int
  byteSize : Int
  leastSigBit : Int
  numBits : Int
  isBigEndian : Bool
  deriving DecidableEq

structure TypeField where
  ident : Int
  offset : Int
  name : String
  tp : Datatype
  deriving DecidableEq

structure TypeBitField where
  name : String
  tp : Datatype
  bits : BitRange
  ident : Int
  deriving DecidableEq

/-- The result of an `i32` operation, which must be in range. -/
def i32 (x : Int) : Outcome Int := if -2 ^ 31 ≤ x ∧ x < 2 ^ 31 then .ok x else .error .panic

namespace BitRange

def translateLsb (a b : BitRange) : Int :=
  if a.isBigEndian then b.leastSigBit + 8 * ((a.byteOffset + a.byteSize) - (b.byteOffset + b.byteSize))
  else b.leastSigBit + 8 * (b.byteOffset - a.byteOffset)

def overlapCode (a b : BitRange) : Int :=
  let bSig := a.translateLsb b
  let aMost := a.leastSigBit + a.numBits
  let bMost := bSig + b.numBits
  if a.isBigEndian ∧ a.leastSigBit ≥ bMost then -1
  else if a.isBigEndian ∧ bSig ≥ aMost then 1
  else if ¬ a.isBigEndian ∧ aMost ≤ bSig then -1
  else if ¬ a.isBigEndian ∧ bMost ≤ a.leastSigBit then 1
  else if a.leastSigBit = bSig ∧ aMost = bMost then 0
  else if bSig ≤ a.leastSigBit ∧ bMost ≥ aMost then 2
  else if a.leastSigBit ≤ bSig ∧ aMost ≥ bMost then 3
  else 4

/-- How far the containers are apart, in bits. -/
def shift (a b : BitRange) : Outcome Int :=
  if a.isBigEndian then do
    let aPos ← i32 (a.byteOffset + a.byteSize)
    let bPos ← i32 (b.byteOffset + b.byteSize)
    i32 (8 * (aPos - bPos))
  else i32 (8 * (b.byteOffset - a.byteOffset))

def overlapTest (a b : BitRange) : Outcome Int := do
  let _ ← a.shift b
  let bSig ← i32 (a.translateLsb b)
  let _ ← i32 (a.leastSigBit + a.numBits)
  let _ ← i32 (bSig + b.numBits)
  pure (a.overlapCode b)

def isByteRange (a : BitRange) : Bool := a.numBits % 8 = 0 ∧ a.leastSigBit % 8 = 0

def minimizeContainer (a : BitRange) : BitRange :=
  let trunc := a.leastSigBit / 8
  let a := if a.isBigEndian then { a with byteSize := a.byteSize - trunc }
    else { a with byteOffset := a.byteOffset + trunc }
  let a := { a with leastSigBit := a.leastSigBit % 8 }
  let num := a.byteSize - (a.leastSigBit + a.numBits + 7) / 8
  if num > 0 then
    { a with
      byteOffset := if a.isBigEndian then a.byteOffset + num else a.byteOffset
      byteSize := a.byteSize - num }
  else a

end BitRange

/-- The attributes of an element, with their defaults, and the type inside of it. An
element that cannot be read fails as a whole. -/
inductive Element
  | field (ident offset : Int) (name : String) (tp : Datatype)
  | bitfield (ident offset size first : Int) (name : String) (tp : Datatype)
  | other
  | malformed (failure : Failure)
  deriving DecidableEq

/-- The parts of the architecture that decoding uses: the order of bytes in the default
data space, and the base types, which have the size that is asked for. -/
structure TypeFactory where
  bigEndian : Bool
  getBase : Int → TypeMetatype → Outcome Datatype
  getBase_size : ∀ size metatype tp, getBase size metatype = .ok tp → tp.size = size

structure FieldAccum where
  lastOff : Int
  calcSize : Int
  calcAlign : Int
  warning : String
  deriving DecidableEq

structure Struct where
  name : String
  size : Int
  alignment : Int
  alignSize : Int
  incomplete : Bool
  hasBitfields : Bool
  needsResolution : Bool
  field : List TypeField
  bitfield : List TypeBitField
  deriving DecidableEq

def TypeField.decode (ident offset : Int) (name : String) (tp : Datatype) : Outcome TypeField :=
  if name = "" then .error (.lowlevel "name attribute must not be empty in <field> tag")
  else if offset < 0 then .error (.lowlevel "offset attribute invalid for <field> tag")
  else .ok ⟨if ident < 0 then offset else ident, offset, name, tp⟩

def TypeBitField.decode (types : TypeFactory) (ident offset size first : Int) (name : String) (tp : Datatype) :
    Outcome TypeBitField :=
  if name = "" then .error (.lowlevel "<bitfield> name attribute must not be empty")
  else if ident < 0 then .error (.lowlevel "<bitfield> id attribute must not be empty")
  else if offset < 0 ∨ first < 0 ∨ size < 0 then
    .error (.lowlevel "<bitfield> missing offset/size/first attributes")
  else do
    let most ← i32 (first + size)
    let bits ← i32 (most + 7)
    pure ⟨name, tp, ⟨offset, bits / 8, first, size, types.bigEndian⟩, ident⟩

namespace Struct

/-- The warning about a member that is left out, or about the second of them. -/
def overlapWarning (s : Struct) (accum : FieldAccum) (kind name : String) : FieldAccum :=
  if accum.warning = "" then
    { accum with warning := "Struct \"" ++ s.name ++ "\": ignoring overlapping " ++ kind ++ " \"" ++ name ++ "\"" }
  else { accum with warning := "Struct \"" ++ s.name ++ "\": ignoring multiple overlapping fields" }

def decodeField (s : Struct) (accum : FieldAccum) (ident offset : Int) (name : String) (tp : Datatype) :
    Outcome (Struct × FieldAccum) := do
  let curField ← TypeField.decode ident offset name tp
  if curField.tp.metatype = .void then .error (.lowlevel ("Bad field data-type for structure: " ++ s.name))
  else if curField.name = "" then .error (.lowlevel ("Bad field name for structure: " ++ s.name))
  else if curField.offset < accum.lastOff then .error (.lowlevel "Fields are out of order")
  else if curField.offset < accum.calcSize then pure (s, s.overlapWarning accum "field" curField.name)
  else do
    let calcSize ← i32 (curField.offset + curField.tp.size)
    if calcSize > s.size then
      .error (.lowlevel ("Field " ++ curField.name ++ " does not fit in structure " ++ s.name))
    else
      pure ({ s with field := s.field ++ [curField], hasBitfields := s.hasBitfields || curField.tp.hasBitfields },
        { accum with
          lastOff := curField.offset
          calcSize := calcSize
          calcAlign := if curField.tp.alignment > accum.calcAlign then curField.tp.alignment else accum.calcAlign })

def bitfieldMetatypes : List TypeMetatype := [.int, .uint, .bool, .enumInt, .enumUint]

/-- Whether a bitfield below the computed end is left out: the last bitfield before it
must be below it. -/
def previousOverlaps (s : Struct) (bits : BitRange) : Outcome Bool :=
  match s.bitfield.getLast? with
  | none => pure true
  | some previous => do
      let code ← previous.bits.overlapTest bits
      pure (code ≠ -1)

def leftOut (s : Struct) (accum : FieldAccum) (bits : BitRange) : Outcome Bool :=
  if bits.byteOffset < accum.calcSize then s.previousOverlaps bits else pure false

def byteType (types : TypeFactory) (tp : Datatype) (byteSize : Int) : Outcome Datatype :=
  if tp.size ≠ byteSize then
    types.getBase byteSize (if tp.metatype ≠ .int ∧ tp.metatype ≠ .uint then .unknown else tp.metatype)
  else pure tp

/-- A bitfield that takes whole bytes becomes an ordinary field. -/
def byteField (types : TypeFactory) (cur : TypeBitField) : Outcome TypeField := do
  let bits := cur.bits.minimizeContainer
  let dt ← byteType types cur.tp bits.byteSize
  pure ⟨bits.byteOffset, bits.byteOffset, cur.name, dt⟩

def decodeBitField (types : TypeFactory) (s : Struct) (accum : FieldAccum) (ident offset size first : Int)
    (name : String) (tp : Datatype) : Outcome (Struct × FieldAccum) := do
  let cur ← TypeBitField.decode types ident offset size first name tp
  if cur.name = "" then .error (.lowlevel ("Bad bitfield name for structure: " ++ s.name))
  else if cur.tp.metatype ∉ bitfieldMetatypes then
    .error (.lowlevel ("Non integer data-type for bitfield \"" ++ cur.name ++ "\" in structure: " ++ s.name))
  else if cur.bits.byteOffset < accum.lastOff then
    .error (.lowlevel ("Bitfields are out of order in structure: " ++ s.name))
  else do
    let left ← s.leftOut accum cur.bits
    if left then pure (s, s.overlapWarning accum "bit field" cur.name)
    else do
      let calcSize ← i32 (cur.bits.byteOffset + cur.bits.byteSize)
      let accum := { accum with lastOff := cur.bits.byteOffset, calcSize := calcSize }
      if calcSize > s.size then
        .error (.lowlevel ("Bitfield " ++ cur.name ++ " does not fit in structure " ++ s.name))
      else if cur.bits.isByteRange then do
        let field ← byteField types cur
        pure ({ s with field := s.field ++ [field] }, accum)
      else pure ({ s with bitfield := s.bitfield ++ [cur] }, accum)

def decodeElement (types : TypeFactory) (st : Struct × FieldAccum) : Element → Outcome (Struct × FieldAccum)
  | .field ident offset name tp => st.1.decodeField st.2 ident offset name tp
  | .bitfield ident offset size first name tp => st.1.decodeBitField types st.2 ident offset size first name tp
  | .other => .error (.lowlevel "Expecting <field> or <bitfield>")
  | .malformed failure => .error failure

def singleFieldFills (s : Struct) : Bool :=
  match s.field with
  | [field] => field.tp.size = s.size
  | _ => false

def calcAlignSize (size align : Int) : Outcome Int :=
  if align = 0 then .error .panic
  else
    let modulus := size.tmod align
    if modulus ≠ 0 then i32 (size + (align - modulus)) else pure size

/-- A structure as `new_struct` and `decode_basic` leave it. -/
def fresh (name : String) (size alignment : Int) : Struct :=
  ⟨name, size, alignment, size, true, false, false, [], []⟩

def decodeFieldsStruct (types : TypeFactory) (s : Struct) (elements : List Element) : Outcome (String × Struct) := do
  let (s, accum) ← elements.foldlM (decodeElement types) (s, ⟨-1, 0, 1, ""⟩)
  let incomplete := if s.size = 0 then true else s.incomplete
  let alignment := if s.alignment < 1 then accum.calcAlign else s.alignment
  let alignSize ← calcAlignSize s.size alignment
  pure (accum.warning,
    { s with
      incomplete := if s.field ≠ [] ∨ s.bitfield ≠ [] then false else incomplete
      hasBitfields := s.hasBitfields || decide (s.bitfield ≠ [])
      needsResolution := s.needsResolution || s.singleFieldFills
      alignment := alignment
      alignSize := alignSize })

end Struct

end GhidraDecompiler.Types
