import Mathlib.Data.Fin.Basic
import Mathlib.Data.Fintype.Basic
import Mathlib.Logic.Function.Basic
import Mathlib.Tactic

namespace GhidraDecompiler.Xml

inductive ScanMode
  | charData
  | cData
  | attValueSingle
  | attValueDouble
  | comment
  | charRef
  | name
  | sName
  | single
  deriving DecidableEq

def tokenEof : Int := 0
def charDataToken : Int := 258
def cdataToken : Int := 259
def attValueToken : Int := 260
def commentToken : Int := 261
def charRefToken : Int := 262
def nameToken : Int := 263
def snameToken : Int := 264
def elementBraceToken : Int := 265
def commandBraceToken : Int := 266

/-- The token of an ASCII character. -/
def code (c : Char) : Int := c.toNat

/-- A byte as the scanner sees it, with its sign extended. -/
def signed (byte : UInt8) : Int := byte.toInt8.toInt

structure XmlScan where
  input : List UInt8
  index : Nat
  curmode : ScanMode
  lvalue : List UInt8
  lookahead : Fin 4 → Int
  pos : Fin 4
  endofstream : Bool

namespace XmlScan

/-- The character that enters the ring buffer, and the state of the stream after it. -/
def fetch (s : XmlScan) : Int × Nat × Bool :=
  if s.endofstream then (-1, s.index, true)
  else match s.input[s.index]? with
    | none => (code '\n', s.index + 1, true)
    | some byte => if byte = 0 then (code '\n', s.index + 1, true) else (signed byte, s.index + 1, false)

def getxmlchar (s : XmlScan) : Int × XmlScan :=
  let (entering, index, endofstream) := s.fetch
  (s.lookahead s.pos,
    { s with
      index := index
      endofstream := endofstream
      lookahead := Function.update s.lookahead s.pos entering
      pos := s.pos + 1 })

def new (input : List UInt8) : XmlScan :=
  let scan : XmlScan := ⟨input, 0, .single, [], fun _ => 0, 0, false⟩
  scan.getxmlchar.2.getxmlchar.2.getxmlchar.2.getxmlchar.2

def next (s : XmlScan) (offset : Fin 4) : Int := s.lookahead (s.pos + offset)

def pushChar (s : XmlScan) : XmlScan :=
  let (value, s) := s.getxmlchar
  { s with lvalue := s.lvalue ++ [UInt8.ofInt value] }

def clearLvalue (s : XmlScan) : XmlScan := { s with lvalue := [] }

def isLetter (val : Int) : Bool := (0x41 ≤ val && val ≤ 0x5a) || (0x61 ≤ val && val ≤ 0x7a)

def isInitialNameChar (val : Int) : Bool := isLetter val || val = code '_' || val = code ':'

def isNameChar (val : Int) : Bool :=
  isLetter val || (code '0' ≤ val && val ≤ code '9') ||
    (val = code '.' || val = code '-' || val = code '_' || val = code ':')

def isChar (val : Int) : Bool := 0x20 ≤ val || val = 0xd || val = 0xa || val = 0x9

/-- No more characters than this are left before the end of the file. -/
def remaining (s : XmlScan) : Nat := s.input.length - s.index + 5

def pushWhile (p : XmlScan → Bool) : Nat → XmlScan → XmlScan
  | 0, s => s
  | fuel + 1, s => if s.next 0 ≠ -1 && p s then pushWhile p fuel s.pushChar else s

/-- Characters are pushed until the condition fails or the file ends. -/
def pushAll (p : XmlScan → Bool) (s : XmlScan) : XmlScan := pushWhile p s.remaining s

def scanSingle (s : XmlScan) : Int × XmlScan :=
  let (res, s) := s.getxmlchar
  if res = code '<' then (if isInitialNameChar (s.next 0) then elementBraceToken else commandBraceToken, s) else (res, s)

def atCdataEnd (s : XmlScan) : Bool := s.next 0 = code ']' && s.next 1 = code ']' && s.next 2 = code '>'

def scanCharData (s : XmlScan) : Int × XmlScan :=
  let s := s.clearLvalue.pushAll fun s => !(s.next 0 = code '<' || s.next 0 = code '&') && !s.atCdataEnd
  if s.lvalue = [] then s.scanSingle else (charDataToken, s)

def scanCdata (s : XmlScan) : Int × XmlScan :=
  (cdataToken, s.clearLvalue.pushAll fun s => !s.atCdataEnd && isChar (s.next 0))

def isHexDigit (val : Int) : Bool :=
  !(val < code '0') && !(code '9' < val && val < code 'A') && !(code 'F' < val && val < code 'a') && !(code 'f' < val)

def scanCharRef (s : XmlScan) : Int × XmlScan :=
  let s := s.clearLvalue
  if s.next 0 = code 'x' then
    let s := s.pushChar.pushAll fun s => isHexDigit (s.next 0)
    if s.lvalue.length = 1 then (code 'x', s) else (charRefToken, s)
  else
    let s := s.pushAll fun s => !(s.next 0 < code '0' || code '9' < s.next 0)
    if s.lvalue = [] then s.scanSingle else (charRefToken, s)

def scanAttValue (s : XmlScan) (quote : Int) : Int × XmlScan :=
  let s := s.clearLvalue.pushAll fun s => !(s.next 0 = quote || s.next 0 = code '<' || s.next 0 = code '&')
  if s.lvalue = [] then s.scanSingle else (attValueToken, s)

def scanComment (s : XmlScan) : Int × XmlScan :=
  (commentToken, s.clearLvalue.pushAll fun s => !(s.next 0 = code '-' && s.next 1 = code '-') && isChar (s.next 0))

/-- The rest of a name after its first character. -/
def pushName (s : XmlScan) : XmlScan := s.pushChar.pushAll fun s => isNameChar (s.next 0)

def scanName (s : XmlScan) : Int × XmlScan :=
  let s := s.clearLvalue
  if !isInitialNameChar (s.next 0) then s.scanSingle else (nameToken, s.pushName)

def skipWhite : Nat → Nat → XmlScan → Nat × XmlScan
  | 0, whitecount, s => (whitecount, s)
  | fuel + 1, whitecount, s =>
      if s.next 0 = 0x20 || s.next 0 = 0x0a || s.next 0 = 0x0d || s.next 0 = 0x09 then
        skipWhite fuel (whitecount + 1) s.getxmlchar.2
      else (whitecount, s)

def scanSname (s : XmlScan) : Int × XmlScan :=
  let (whitecount, s) := skipWhite s.remaining 0 s
  let s := s.clearLvalue
  if !isInitialNameChar (s.next 0) then
    if whitecount > 0 then (code ' ', s) else s.scanSingle
  else (if whitecount > 0 then snameToken else nameToken, s.pushName)

def nexttoken (s : XmlScan) : Int × XmlScan :=
  let mode := s.curmode
  let s := { s with curmode := .single }
  match mode with
  | .charData => s.scanCharData
  | .cData => s.scanCdata
  | .attValueSingle => s.scanAttValue (code '\'')
  | .attValueDouble => s.scanAttValue (code '"')
  | .comment => s.scanComment
  | .charRef => s.scanCharRef
  | .name => s.scanName
  | .sName => s.scanSname
  | .single => s.scanSingle

end XmlScan

end GhidraDecompiler.Xml
