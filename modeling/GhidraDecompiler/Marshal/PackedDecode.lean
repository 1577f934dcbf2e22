import GhidraDecompiler.Marshal.PackedEncode

namespace GhidraDecompiler.Marshal

open PackedFormat

structure AddrSpaceManager where
  baselist : List (Option AddrSpace)
  joinspace : Option AddrSpace
  stackspace : Option AddrSpace

namespace AddrSpaceManager

def numSpaces (manager : AddrSpaceManager) : Nat := manager.baselist.length

def getSpace (manager : AddrSpaceManager) (index : Nat) : Option AddrSpace := (manager.baselist[index]?).join

end AddrSpaceManager

/-- A failed call leaves no decoder behind. -/
abbrev Result := Except String

def endOfStream : String := "Unexpected end of stream"

structure PackedDecode where
  manager : Option AddrSpaceManager
  buffer : List Byte
  limit : Nat
  startPos : Nat
  curPos : Nat
  endPos : Nat
  attributeRead : Bool

namespace PackedDecode

def bufferSize : Nat := 1024

def new (manager : Option AddrSpaceManager) : PackedDecode := ⟨manager, [], 0, 0, 0, 0, true⟩

def endIngest (d : PackedDecode) (data : Option (List Byte)) : Result PackedDecode :=
  match data with
  | none => .error "Ended ingestion without any input"
  | some bytes =>
      let size := bufferSize
      let dataLength := bytes.length
      let limit := if dataLength % size = 0 then dataLength + 1 else (dataLength + size - 1) / size * size
      .ok { d with buffer := bytes ++ [elementEnd], limit := limit, startPos := 0, curPos := 0, endPos := 0 }

/-- The data ends at the first zero. -/
def ingestStream (d : PackedDecode) (data : List Byte) : Result PackedDecode :=
  let bytes := data.takeWhile (· ≠ 0)
  if bytes.length = 0 then d.endIngest none else d.endIngest (some bytes)

def getByte (d : PackedDecode) (pos : Nat) : Byte := d.buffer.getD pos 0

def getBytePlus1 (d : PackedDecode) (pos : Nat) : Result Byte :=
  if pos + 1 ≥ d.limit then .error endOfStream else .ok (d.getByte (pos + 1))

def getNextByte (d : PackedDecode) (pos : Nat) : Result (Byte × Nat) :=
  if pos + 1 ≥ d.limit then .error endOfStream else .ok (d.getByte pos, pos + 1)

def advancePosition (limit pos skip : Nat) : Result Nat := if limit - pos ≤ skip then .error endOfStream else .ok (pos + skip)

def nextCur (d : PackedDecode) : Result (Byte × PackedDecode) := do
  let (byte, pos) ← d.getNextByte d.curPos
  return (byte, { d with curPos := pos })

def nextEnd (d : PackedDecode) : Result (Byte × PackedDecode) := do
  let (byte, pos) ← d.getNextByte d.endPos
  return (byte, { d with endPos := pos })

def readPieces : Nat → Word → PackedDecode → Result (Word × PackedDecode)
  | 0, res, d => .ok (res, d)
  | remaining + 1, res, d => do
      let (byte, d) ← d.nextCur
      readPieces remaining (res <<< rawdataBitsperbyte ||| (byte &&& rawdataMask).setWidth 64) d

def readInteger (d : PackedDecode) (len : Nat) : Result (Word × PackedDecode) := readPieces len 0 d

def readLengthCode (typeByte : Byte) : Nat := (typeByte &&& lengthcodeMask).toNat

def extendId (header1 extendByte : Byte) : BitVec 32 :=
  (header1 &&& elementidMask).setWidth 32 <<< rawdataBitsperbyte ||| (extendByte &&& rawdataMask).setWidth 32

/-- The id of the header at a position, with its second byte if it is extended. -/
def headerId (d : PackedDecode) (pos : Nat) (header1 : Byte) : Result (BitVec 32) := do
  if header1 &&& headerextendMask ≠ 0 then return extendId header1 (← d.getBytePlus1 pos)
  else return (header1 &&& elementidMask).setWidth 32

def skipAttributeRemaining (d : PackedDecode) (typeByte : Byte) : Result PackedDecode := do
  let attribType := typeByte >>> typecodeShift
  if attribType = typecodeBoolean ∨ attribType = typecodeSpecialspace then return d
  if attribType = typecodeString then
    let (length, d) ← d.readInteger (readLengthCode typeByte)
    return { d with curPos := ← advancePosition d.limit d.curPos (length.setWidth 32).toNat }
  else return { d with curPos := ← advancePosition d.limit d.curPos (readLengthCode typeByte) }

/-- The type byte after the header. -/
def readAttributeHeader (d : PackedDecode) : Result (Byte × PackedDecode) := do
  let (header1, d) ← d.nextCur
  if header1 &&& headerextendMask ≠ 0 then
    let (_, d) ← d.nextCur
    d.nextCur
  else d.nextCur

def skipAttribute (d : PackedDecode) : Result PackedDecode := do
  let (typeByte, d) ← d.readAttributeHeader
  d.skipAttributeRemaining typeByte

/-- Every pass gets closer to the limit, which is the fuel. -/
def findFrom (attribId : AttributeId) : Nat → PackedDecode → Result PackedDecode
  | 0, _ => .error endOfStream
  | fuel + 1, d => do
      let header1 := d.getByte d.curPos
      if header1 &&& headerMask ≠ attributeHeader then
        throw ("Attribute " ++ attribId.name ++ " is not present")
      let id ← d.headerId d.curPos header1
      if attribId.id = id then return d
      findFrom attribId fuel (← d.skipAttribute)

def findMatchingAttribute (d : PackedDecode) (attribId : AttributeId) : Result PackedDecode :=
  findFrom attribId d.limit { d with curPos := d.startPos }

def managerRef (d : PackedDecode) : Result AddrSpaceManager :=
  match d.manager with
  | some manager => .ok manager
  | none => .error "decoder has no address space manager"

def peekElement (d : PackedDecode) : Result (BitVec 32) :=
  let header1 := d.getByte d.endPos
  if header1 &&& headerMask ≠ elementStart then .ok 0 else d.headerId d.endPos header1

def skipAttributes : Nat → PackedDecode → Result PackedDecode
  | 0, _ => .error endOfStream
  | fuel + 1, d => do
      if d.getByte d.curPos &&& headerMask = attributeHeader then skipAttributes fuel (← d.skipAttribute) else return d

/-- The id after a header byte that has been read at the end position. -/
def nextEndId (d : PackedDecode) (header1 : Byte) : Result (BitVec 32 × PackedDecode) := do
  if header1 &&& headerextendMask ≠ 0 then
    let (extendByte, d) ← d.nextEnd
    return (extendId header1 extendByte, d)
  else return ((header1 &&& elementidMask).setWidth 32, d)

/-- Afterwards the end position is behind the attributes, and the current one before
them. -/
def openElement (d : PackedDecode) : Result (BitVec 32 × PackedDecode) := do
  let header1 := d.getByte d.endPos
  if header1 &&& headerMask ≠ elementStart then return (0, d)
  let (_, d) ← d.nextEnd
  let (id, d) ← d.nextEndId header1
  let d ← skipAttributes d.limit { d with startPos := d.endPos, curPos := d.endPos }
  return (id, { d with endPos := d.curPos, curPos := d.startPos, attributeRead := true })

def openElementExpect (d : PackedDecode) (elemId : ElementId) : Result (BitVec 32 × PackedDecode) := do
  let (id, d) ← d.openElement
  if id ≠ elemId.id then
    if id = 0 then throw ("Expecting <" ++ elemId.name ++ "> but did not scan an element")
    throw ("Expecting <" ++ elemId.name ++ "> but id did not match")
  return (id, d)

def closeElement (d : PackedDecode) (id : BitVec 32) : Result PackedDecode := do
  let (header1, d) ← d.nextEnd
  if header1 &&& headerMask ≠ elementEnd then throw "Expecting element close"
  let (closeId, d) ← d.nextEndId header1
  if id ≠ closeId then throw "Did not see expected closing element"
  return d

/-- The stack of open elements, with the innermost first. -/
def closeSkipping : Nat → List (BitVec 32) → PackedDecode → Result PackedDecode
  | 0, _, _ => .error endOfStream
  | _ + 1, [], d => .ok d
  | fuel + 1, top :: idstack, d => do
      let header1 := d.getByte d.endPos &&& headerMask
      if header1 = elementEnd then closeSkipping fuel idstack (← d.closeElement top)
      else if header1 = elementStart then
        let (opened, d) ← d.openElement
        closeSkipping fuel (opened :: top :: idstack) d
      else throw "Corrupt stream"

def closeElementSkipping (d : PackedDecode) (id : BitVec 32) : Result PackedDecode := closeSkipping (d.limit + 1) [id] d

def getNextAttributeId (d : PackedDecode) : Result (BitVec 32 × PackedDecode) := do
  let d ← if !d.attributeRead then d.skipAttribute else pure d
  let header1 := d.getByte d.curPos
  if header1 &&& headerMask ≠ attributeHeader then return (0, d)
  let id ← d.headerId d.curPos header1
  return (id, { d with attributeRead := false })

def rewindAttributes (d : PackedDecode) : PackedDecode := { d with curPos := d.startPos, attributeRead := true }

def readBool (d : PackedDecode) : Result (Bool × PackedDecode) := do
  let (typeByte, d) ← d.readAttributeHeader
  let d := { d with attributeRead := true }
  if typeByte >>> typecodeShift ≠ typecodeBoolean then throw "Expecting boolean attribute"
  return (typeByte &&& lengthcodeMask ≠ 0, d)

def readSignedInteger (d : PackedDecode) : Result (Word × PackedDecode) := do
  let (typeByte, d) ← d.readAttributeHeader
  let typeCode := typeByte >>> typecodeShift
  if typeCode = typecodeSignedintPositive then
    let (res, d) ← d.readInteger (readLengthCode typeByte)
    return (res, { d with attributeRead := true })
  else if typeCode = typecodeSignedintNegative then
    let (res, d) ← d.readInteger (readLengthCode typeByte)
    return (-res, { d with attributeRead := true })
  else
    let _ ← d.skipAttributeRemaining typeByte
    throw "Expecting signed integer attribute"

def readUnsignedInteger (d : PackedDecode) : Result (Word × PackedDecode) := do
  let (typeByte, d) ← d.readAttributeHeader
  if typeByte >>> typecodeShift ≠ typecodeUnsignedint then
    let _ ← d.skipAttributeRemaining typeByte
    throw "Expecting unsigned integer attribute"
  let (res, d) ← d.readInteger (readLengthCode typeByte)
  return (res, { d with attributeRead := true })

def byteArray (bytes : List Byte) : ByteArray := ⟨(bytes.map UInt8.ofBitVec).toArray⟩

/-- Bytes that are no text are replaced. -/
def textOf (fromUtf8Lossy : List Byte → String) (bytes : List Byte) : String :=
  match String.fromUTF8? (byteArray bytes) with
  | some text => text
  | none => fromUtf8Lossy bytes

def readString (fromUtf8Lossy : List Byte → String) (d : PackedDecode) : Result (String × PackedDecode) := do
  let (typeByte, d) ← d.readAttributeHeader
  if typeByte >>> typecodeShift ≠ typecodeString then
    let _ ← d.skipAttributeRemaining typeByte
    throw "Expecting string attribute"
  let (len, d) ← d.readInteger (readLengthCode typeByte)
  let length := len.toNat
  let d := { d with attributeRead := true }
  let start := min d.curPos d.buffer.length
  let take := min length (d.buffer.length - start)
  let bytes := (d.buffer.drop start).take take
  let padding := min length (d.limit - start)
  let bytes := bytes ++ List.replicate (max padding take - take) 0
  let pos ← advancePosition d.limit d.curPos length
  return (textOf fromUtf8Lossy bytes, { d with curPos := pos })

def readSpace (d : PackedDecode) : Result (AddrSpace × PackedDecode) := do
  let (typeByte, d) ← d.readAttributeHeader
  let typeCode := typeByte >>> typecodeShift
  if typeCode = typecodeAddressspace then
    let (res, d) ← d.readInteger (readLengthCode typeByte)
    let manager ← d.managerRef
    if res.toNat ≥ manager.numSpaces then throw "Invalid address space index"
    match manager.getSpace res.toNat with
    | some spc => return (spc, { d with attributeRead := true })
    | none => throw "Unknown address space index"
  else if typeCode = typecodeSpecialspace then
    let specialCode := readLengthCode typeByte
    let manager ← d.managerRef
    let found ←
      if specialCode = specialspaceStack then pure manager.stackspace
      else if specialCode = specialspaceJoin then pure manager.joinspace
      else throw "Cannot marshal special address space"
    match found with
    | some spc => return (spc, { d with attributeRead := true })
    | none => throw "Unknown address space index"
  else
    let _ ← d.skipAttributeRemaining typeByte
    throw "Expecting space attribute"

def opcodeTable : List OpCode :=
  [.blank, .copy, .load, .store, .branch, .cbranch, .branchind, .call, .callind, .callother, .return,
    .intEqual, .intNotequal, .intSless, .intSlessequal, .intLess, .intLessequal, .intZext, .intSext,
    .intAdd, .intSub, .intCarry, .intScarry, .intSborrow, .int2comp, .intNegate, .intXor, .intAnd, .intOr,
    .intLeft, .intRight, .intSright, .intMult, .intDiv, .intSdiv, .intRem, .intSrem,
    .boolNegate, .boolXor, .boolAnd, .boolOr,
    .floatEqual, .floatNotequal, .floatLess, .floatLessequal, .unused1, .floatNan, .floatAdd, .floatDiv,
    .floatMult, .floatSub, .floatNeg, .floatAbs, .floatSqrt, .floatInt2float, .floatFloat2float,
    .floatTrunc, .floatCeil, .floatFloor, .floatRound,
    .multiequal, .indirect, .piece, .subpiece, .cast, .ptradd, .ptrsub, .segmentop, .cpoolref, .new,
    .insert, .zpull, .popcount, .lzcount, .spull, .max]

def readOpcode (d : PackedDecode) : Result (OpCode × PackedDecode) := do
  let (res, d) ← d.readSignedInteger
  let val := (res.setWidth 32).toInt
  if val < 0 ∨ val ≥ OpCode.max.ctorIdx then throw "Bad encoded OpCode"
  match opcodeTable[val.toNat]? with
  | some opc => return (opc, d)
  | none => throw "Bad encoded OpCode"

section ById

variable {α : Type}

/-- The cursor goes back to the first attribute. -/
def readAttr (read : PackedDecode → Result (α × PackedDecode)) (d : PackedDecode) (attribId : AttributeId) :
    Result (α × PackedDecode) := do
  let d ← d.findMatchingAttribute attribId
  let (res, d) ← read d
  return (res, { d with curPos := d.startPos })

def readBoolAttr : PackedDecode → AttributeId → Result (Bool × PackedDecode) := readAttr readBool

def readSignedIntegerAttr : PackedDecode → AttributeId → Result (Word × PackedDecode) := readAttr readSignedInteger

def readUnsignedIntegerAttr : PackedDecode → AttributeId → Result (Word × PackedDecode) := readAttr readUnsignedInteger

def readStringAttr (fromUtf8Lossy : List Byte → String) : PackedDecode → AttributeId → Result (String × PackedDecode) :=
  readAttr (readString fromUtf8Lossy)

def readSpaceAttr : PackedDecode → AttributeId → Result (AddrSpace × PackedDecode) := readAttr readSpace

def readOpcodeAttr : PackedDecode → AttributeId → Result (OpCode × PackedDecode) := readAttr readOpcode

end ById

end PackedDecode

/-- What the calls of the decoder return. -/
inductive Value
  | bool (val : Bool)
  | signedInteger (val : Word)
  | unsignedInteger (val : Word)
  | string (val : String)
  | space (spc : AddrSpace)
  | opcode (opc : OpCode)
  deriving DecidableEq

/-- Which of them is called. -/
inductive Kind
  | bool | signedInteger | unsignedInteger | string | space | opcode
  deriving DecidableEq

namespace PackedDecode

variable (fromUtf8Lossy : List Byte → String)

def read (d : PackedDecode) : Kind → Result (Value × PackedDecode)
  | .bool => return (← d.readBool).map .bool id
  | .signedInteger => return (← d.readSignedInteger).map .signedInteger id
  | .unsignedInteger => return (← d.readUnsignedInteger).map .unsignedInteger id
  | .string => return (← d.readString fromUtf8Lossy).map .string id
  | .space => return (← d.readSpace).map .space id
  | .opcode => return (← d.readOpcode).map .opcode id

def readById (d : PackedDecode) (attribId : AttributeId) : Kind → Result (Value × PackedDecode)
  | .bool => return (← d.readBoolAttr attribId).map .bool id
  | .signedInteger => return (← d.readSignedIntegerAttr attribId).map .signedInteger id
  | .unsignedInteger => return (← d.readUnsignedIntegerAttr attribId).map .unsignedInteger id
  | .string => return (← d.readStringAttr fromUtf8Lossy attribId).map .string id
  | .space => return (← d.readSpaceAttr attribId).map .space id
  | .opcode => return (← d.readOpcodeAttr attribId).map .opcode id

end PackedDecode

end GhidraDecompiler.Marshal
