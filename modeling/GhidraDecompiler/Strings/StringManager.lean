import GhidraDecompiler.Address
import GhidraDecompiler.Lib.Fallible
import GhidraDecompiler.Pcode.NzMask

namespace GhidraDecompiler.Strings

open Fallible Pcode

/-- Reads past the end of a buffer give zero. -/
def byteAt (buf : List UInt8) (index : Nat) : Nat := (buf[index]?.getD 0).toNat

def readUtf16 (buf : List UInt8) (bigend : Bool) : Nat :=
  if bigend then byteAt buf 0 <<< 8 + byteAt buf 1 else byteAt buf 1 <<< 8 + byteAt buf 0

/-- The bytes that stand for a code point below 2^21. -/
def utf8Bytes (codepoint : Nat) : List UInt8 :=
  let bits := mostsigbitSet (BitVec.ofNat 64 codepoint) + 1
  if bits < 12 then
    [.ofNat (0xc0 ^^^ (codepoint >>> 6 &&& 0x1f)), .ofNat (0x80 ^^^ (codepoint &&& 0x3f))]
  else if bits < 17 then
    [.ofNat (0xe0 ^^^ (codepoint >>> 12 &&& 0xf)), .ofNat (0x80 ^^^ (codepoint >>> 6 &&& 0x3f)),
      .ofNat (0x80 ^^^ (codepoint &&& 0x3f))]
  else
    [.ofNat (0xf0 ^^^ (codepoint >>> 18 &&& 7)), .ofNat (0x80 ^^^ (codepoint >>> 12 &&& 0x3f)),
      .ofNat (0x80 ^^^ (codepoint >>> 6 &&& 0x3f)), .ofNat (0x80 ^^^ (codepoint &&& 0x3f))]

def writeUtf8 (out : List UInt8) (codepoint : Int) : Outcome (List UInt8) :=
  if codepoint < 0 then .error (.lowlevel "Negative unicode codepoint")
  else if codepoint < 128 then .ok (out ++ [.ofNat codepoint.toNat])
  else if 21 < mostsigbitSet (BitVec.ofNat 64 codepoint.toNat) + 1 then .error (.lowlevel "Bad unicode codepoint")
  else .ok (out ++ utf8Bytes codepoint.toNat)

/-- One or two units of UTF-16, as a code point and the number of bytes. -/
def decodeUtf16 (buf : List UInt8) (bigend : Bool) : Option (Int × Int) :=
  let codepoint := readUtf16 buf bigend
  if 0xD800 ≤ codepoint ∧ codepoint ≤ 0xDBFF then
    let trail := readUtf16 (buf.drop 2) bigend
    if ¬(0xDC00 ≤ trail ∧ trail ≤ 0xDFFF) then none
    else some (((codepoint <<< 10 : Nat) : Int) + trail + (0x10000 - ((0xD800 <<< 10 : Nat) : Int) - 0xDC00), 4)
  else if 0xDC00 ≤ codepoint ∧ codepoint ≤ 0xDFFF then none
  else some (codepoint, 2)

def decodeUtf8 (buf : List UInt8) : Option (Int × Int) :=
  let val := byteAt buf 0
  let val2 := byteAt buf 1
  let val3 := byteAt buf 2
  let val4 := byteAt buf 3
  if val &&& 0x80 = 0 then some (val, 1)
  else if val &&& 0xe0 = 0xc0 then
    if val2 &&& 0xc0 ≠ 0x80 then none
    else some (((val &&& 0x1f) <<< 6 ||| (val2 &&& 0x3f) : Nat), 2)
  else if val &&& 0xf0 = 0xe0 then
    if val2 &&& 0xc0 ≠ 0x80 ∨ val3 &&& 0xc0 ≠ 0x80 then none
    else some (((val &&& 0xf) <<< 12 ||| (val2 &&& 0x3f) <<< 6 ||| (val3 &&& 0x3f) : Nat), 3)
  else if val &&& 0xf8 = 0xf0 then
    if val2 &&& 0xc0 ≠ 0x80 ∨ val3 &&& 0xc0 ≠ 0x80 ∨ val4 &&& 0xc0 ≠ 0x80 then none
    else some (((val &&& 7) <<< 18 ||| (val2 &&& 0x3f) <<< 12 ||| (val3 &&& 0x3f) <<< 6 ||| (val4 &&& 0x3f) : Nat), 4)
  else none

/-- Four bytes, the first of them the highest. -/
def fromBytes (b₀ b₁ b₂ b₃ : Nat) : Int := asI32 (((b₀ * 256 + b₁) * 256 + b₂) * 256 + b₃ : Nat)

def decodeUtf32 (buf : List UInt8) (bigend : Bool) : Option (Int × Int) :=
  let codepoint :=
    if bigend then fromBytes (byteAt buf 0) (byteAt buf 1) (byteAt buf 2) (byteAt buf 3)
    else fromBytes (byteAt buf 3) (byteAt buf 2) (byteAt buf 1) (byteAt buf 0)
  some (codepoint, 4)

def decode (buf : List UInt8) (charsize : Int) (bigend : Bool) : Option (Int × Int) :=
  if charsize = 2 then decodeUtf16 buf bigend
  else if charsize = 1 then decodeUtf8 buf
  else if charsize = 4 then decodeUtf32 buf bigend
  else none

/-- The code point at the start of a buffer and the number of bytes to skip,
which is the old one after a failure. -/
def getCodepoint (buf : List UInt8) (charsize : Int) (bigend : Bool) (skip : Int) : Int × Int :=
  match decode buf charsize bigend with
  | none => (-1, skip)
  | some (codepoint, sk) =>
      if codepoint ≥ 0xd800 then
        if codepoint > 0x10ffff then (-1, skip)
        else if codepoint ≤ 0xdfff then (-1, skip)
        else (codepoint, sk)
      else (codepoint, sk)

def checkCharactersLoop (buf : List UInt8) (size charsize : Int) (bigend : Bool) : Nat → Int → Int → Int → Outcome Int
  | 0, _, _, _ => .error .outOfFuel
  | fuel + 1, index, count, skip =>
      if index < size then
        let (codepoint, skip) := getCodepoint (buf.drop index.toNat) charsize bigend skip
        if codepoint < 0 then .ok (-1)
        else if codepoint = 0 then .ok count
        else checkCharactersLoop buf size charsize bigend fuel (index + skip) (count + 1) skip
      else .ok count

/-- Every character takes a byte, so the size is fuel enough. -/
def checkCharacters (buf : List UInt8) (size charsize : Int) (bigend : Bool) : Outcome Int :=
  checkCharactersLoop buf size charsize bigend (size.toNat + 1) 0 0 charsize

def writeUnicodeLoop (maximumChars : Int) (buffer : List UInt8) (size charsize : Int) (bigend : Bool) :
    Nat → List UInt8 → Int → Int → Int → Outcome (Bool × List UInt8)
  | 0, _, _, _, _ => .error .outOfFuel
  | fuel + 1, out, index, count, skip =>
      if index < size then do
        let (codepoint, skip) := getCodepoint (buffer.drop index.toNat) charsize bigend skip
        if codepoint < 0 then .ok (false, out)
        else if codepoint = 0 then .ok (true, out)
        else
          let out ← writeUtf8 out codepoint
          if count + 1 ≥ maximumChars then .ok (true, out)
          else writeUnicodeLoop maximumChars buffer size charsize bigend fuel out (index + skip) (count + 1) skip
      else .ok (true, out)

def writeUnicodeWith (maximumChars : Int) (out buffer : List UInt8) (size charsize : Int) (bigend : Bool) :
    Outcome (Bool × List UInt8) :=
  writeUnicodeLoop maximumChars buffer size charsize bigend (size.toNat + 1) out 0 0 charsize

/-- The code points that repeated calls of `get_codepoint` give until one fails,
finds a zero or reaches the end of the buffer. -/
def codepoints (charsize : Int) (bigend : Bool) : Nat → List UInt8 → List Int
  | 0, _ => []
  | fuel + 1, buf =>
      if buf = [] then []
      else
        let (codepoint, skip) := getCodepoint buf charsize bigend charsize
        if codepoint ≤ 0 then [] else codepoint :: codepoints charsize bigend fuel (buf.drop skip.toNat)

end GhidraDecompiler.Strings
