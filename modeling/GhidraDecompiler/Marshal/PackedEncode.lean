import GhidraDecompiler.Address
import GhidraDecompiler.OpCode
import GhidraDecompiler.Lib.DigitGroups

namespace GhidraDecompiler.Marshal

abbrev Byte := BitVec 8

abbrev Word := BitVec 64

structure AttributeId where
  name : String
  id : BitVec 32
  deriving DecidableEq

structure ElementId where
  name : String
  id : BitVec 32
  deriving DecidableEq

/-- What the codec reads of an address space. -/
structure AddrSpace where
  spaceType : SpaceType
  index : Int
  isFormalStackSpace : Bool
  deriving DecidableEq

namespace PackedFormat

def headerMask : Byte := 0xc0
def elementStart : Byte := 0x40
def elementEnd : Byte := 0x80
def attributeHeader : Byte := 0xc0
def headerextendMask : Byte := 0x20
def elementidMask : Byte := 0x1f
def rawdataMask : Byte := 0x7f
def rawdataBitsperbyte : Nat := 7
def rawdataMarker : Byte := 0x80
def typecodeShift : Nat := 4
def lengthcodeMask : Byte := 0xf
def typecodeBoolean : Byte := 1
def typecodeSignedintPositive : Byte := 2
def typecodeSignedintNegative : Byte := 3
def typecodeUnsignedint : Byte := 4
def typecodeAddressspace : Byte := 5
def typecodeSpecialspace : Byte := 6
def typecodeString : Byte := 7
def specialspaceStack : Nat := 0
def specialspaceJoin : Nat := 1
def specialspaceFspec : Nat := 2
def specialspaceIop : Nat := 3
def specialspaceSpacebase : Nat := 4

end PackedFormat

open PackedFormat

def stringBytes (val : String) : List Byte := val.toByteArray.data.toList.map UInt8.toBitVec

/-! The calls of the encoder, as the bytes they push. -/

namespace PackedEncode

def writeHeader (header : Byte) (id : BitVec 32) : List Byte :=
  if id > 0x1f then
    [header ||| headerextendMask ||| (id >>> rawdataBitsperbyte).setWidth 8, (id.setWidth 8 &&& rawdataMask) ||| rawdataMarker]
  else [header ||| id.setWidth 8]

/-- The number of pieces. -/
def lenCode (val : Word) : Nat :=
  if val = 0 then 0
  else if val < 0x800000000 then
    if val < 0x200000 then if val < 0x80 then 1 else if val < 0x4000 then 2 else 3
    else if val < 0x10000000 then 4 else 5
  else if val < 0x2000000000000 then if val < 0x40000000000 then 6 else 7
  else if val < 0x100000000000000 then 8
  else if val < 0x8000000000000000 then 9
  else 10

/-- The shift starts at the highest piece and goes down to zero. -/
def writePieces (val : Word) : Nat → List Byte
  | 0 => []
  | n + 1 => (((val >>> (rawdataBitsperbyte * n)).setWidth 8 &&& rawdataMask) ||| rawdataMarker) :: writePieces val n

def writeInteger (typeByte : Byte) (val : Word) : List Byte :=
  (typeByte ||| BitVec.ofNat 8 (lenCode val)) :: writePieces val (lenCode val)

def openElement (elemId : ElementId) : List Byte := writeHeader elementStart elemId.id

def closeElement (elemId : ElementId) : List Byte := writeHeader elementEnd elemId.id

def writeBool (attribId : AttributeId) (val : Bool) : List Byte :=
  let typeByte := if val then typecodeBoolean <<< typecodeShift ||| 1 else typecodeBoolean <<< typecodeShift
  writeHeader attributeHeader attribId.id ++ [typeByte]

def writeSignedInteger (attribId : AttributeId) (val : Word) : List Byte :=
  let (typeByte, num) :=
    if val.toInt < 0 then (typecodeSignedintNegative <<< typecodeShift, -val)
    else (typecodeSignedintPositive <<< typecodeShift, val)
  writeHeader attributeHeader attribId.id ++ writeInteger typeByte num

def writeUnsignedInteger (attribId : AttributeId) (val : Word) : List Byte :=
  writeHeader attributeHeader attribId.id ++ writeInteger (typecodeUnsignedint <<< typecodeShift) val

def writeString (attribId : AttributeId) (val : String) : List Byte :=
  writeHeader attributeHeader attribId.id ++
    (writeInteger (typecodeString <<< typecodeShift) (BitVec.ofNat 64 val.utf8ByteSize) ++ stringBytes val)

def writeStringIndexed (attribId : AttributeId) (index : BitVec 32) (val : String) : List Byte :=
  writeHeader attributeHeader (attribId.id + index) ++
    (writeInteger (typecodeString <<< typecodeShift) (BitVec.ofNat 64 val.utf8ByteSize) ++ stringBytes val)

def writeSpace (attribId : AttributeId) (spc : AddrSpace) : List Byte :=
  let special := typecodeSpecialspace <<< typecodeShift
  writeHeader attributeHeader attribId.id ++
    match spc.spaceType with
    | .fspec => [special ||| BitVec.ofNat 8 specialspaceFspec]
    | .iop => [special ||| BitVec.ofNat 8 specialspaceIop]
    | .join => [special ||| BitVec.ofNat 8 specialspaceJoin]
    | .spacebase =>
        if spc.isFormalStackSpace then [special ||| BitVec.ofNat 8 specialspaceStack]
        else [special ||| BitVec.ofNat 8 specialspaceSpacebase]
    | _ => writeInteger (typecodeAddressspace <<< typecodeShift) (BitVec.ofInt 64 spc.index)

def writeOpcode (attribId : AttributeId) (opc : OpCode) : List Byte :=
  writeHeader attributeHeader attribId.id ++
    writeInteger (typecodeSignedintPositive <<< typecodeShift) (BitVec.ofNat 64 opc.ctorIdx)

end PackedEncode

/-- A call that writes an attribute. -/
inductive Attribute
  | bool (attribId : AttributeId) (val : Bool)
  | signedInteger (attribId : AttributeId) (val : Word)
  | unsignedInteger (attribId : AttributeId) (val : Word)
  | string (attribId : AttributeId) (val : String)
  | stringIndexed (attribId : AttributeId) (index : BitVec 32) (val : String)
  | space (attribId : AttributeId) (spc : AddrSpace)
  | opcode (attribId : AttributeId) (opc : OpCode)
  deriving DecidableEq

def Attribute.bytes : Attribute → List Byte
  | .bool attribId val => PackedEncode.writeBool attribId val
  | .signedInteger attribId val => PackedEncode.writeSignedInteger attribId val
  | .unsignedInteger attribId val => PackedEncode.writeUnsignedInteger attribId val
  | .string attribId val => PackedEncode.writeString attribId val
  | .stringIndexed attribId index val => PackedEncode.writeStringIndexed attribId index val
  | .space attribId spc => PackedEncode.writeSpace attribId spc
  | .opcode attribId opc => PackedEncode.writeOpcode attribId opc

inductive Call
  | openElement (elemId : ElementId)
  | writeAttribute (attrib : Attribute)
  | closeElement (elemId : ElementId)

def Call.bytes : Call → List Byte
  | .openElement elemId => PackedEncode.openElement elemId
  | .writeAttribute attrib => attrib.bytes
  | .closeElement elemId => PackedEncode.closeElement elemId

/-- The output of a sequence of calls. -/
def encode (calls : List Call) : List Byte := calls.flatMap Call.bytes

/-- Elements one after the other, each with its attributes and the elements inside. -/
inductive Elements
  | nil
  | element (elemId : ElementId) (attribs : List Attribute) (children next : Elements)

/-- The well nested sequences of calls: every element is opened, given its attributes,
filled and closed. -/
def Elements.calls : Elements → List Call
  | .nil => []
  | .element elemId attribs children next =>
      (.openElement elemId :: attribs.map .writeAttribute) ++ (children.calls ++ (.closeElement elemId :: next.calls))

end GhidraDecompiler.Marshal
