import GhidraDecompiler.Pcode.NzMaskSound
import GhidraDecompiler.Strings.StringLiteral

namespace GhidraDecompiler.PrintLanguage

open Pcode Strings

def forceHex : Nat := 1
def forceDec : Nat := 2
def forceOct : Nat := 3
def forceBin : Nat := 4
def forceChar : Nat := 5

structure Symbol where
  nameLocked : Bool
  isEquate : Bool
  displayFormat : Nat
  value : Word

/-- What is read of the varnode that holds the constant, with the symbol of its high variable. -/
structure Varnode where
  isAnnotation : Bool
  symbol : Option Symbol
  isUnsignedPrint : Bool
  isLongPrint : Bool

structure PrintC where
  modForceHex : Bool
  modForceDec : Bool
  sizeSuffix : String
  isJava : Bool
  printUnicode : String → Int → String
  sizeSuffix_mem : sizeSuffix ∈ ["", "L", "LL"]

/-- The digits at the end that are the same as the last one, and what is before them. -/
def sameDigits (base : Nat) (hbase : 1 < base) (setdig : Nat) (count tmp : Nat) : Nat × Nat :=
  if _htmp : tmp = 0 then (count, tmp)
  else if tmp % base = setdig then sameDigits base hbase setdig (count + 1) (tmp / base)
  else (count, tmp)
  termination_by tmp
  decreasing_by exact Nat.div_lt_self (Nat.pos_of_ne_zero _htmp) hbase

def mostNaturalBase (val : Nat) : Int :=
  if val = 0 then 10
  else
    let setdig := val % 10
    let (countdec, tmp) := if setdig = 0 ∨ setdig = 9 then sameDigits 10 (by decide) setdig 1 (val / 10) else (0, val)
    let hexadecimal := match countdec with
      | 0 => true
      | 1 => decide (tmp > 1 ∨ setdig = 9)
      | 2 => decide (tmp > 10)
      | 3 | 4 => decide (tmp > 100)
      | _ => decide (tmp > 1000)
    if hexadecimal then 16
    else
      let setdig := val % 16
      let counthex := if setdig = 0 ∨ setdig = 15 then (sameDigits 16 (by decide) setdig 1 (val / 16)).1 else 0
      if countdec > counthex then 10 else 16

/-- The bits of a value from the one that the mask selects. -/
def binaryDigits (val mask : Nat) : List Char :=
  if _hmask : mask = 0 then []
  else (if mask &&& val ≠ 0 then '1' else '0') :: binaryDigits val (mask >>> 1)
  termination_by mask
  decreasing_by
    rw [Nat.shiftRight_one]
    exact Nat.div_lt_self (Nat.pos_of_ne_zero _hmask) (by decide)

def formatBinary (out : String) (val : Word) : String :=
  let pos := mostsigbitSet val
  if pos < 0 then out ++ "0"
  else
    let pos := if pos ≤ 7 then 7 else if pos ≤ 15 then 15 else if pos ≤ 31 then 31 else 63
    out ++ String.ofList (binaryDigits val.toNat (1 <<< pos))

/-- Whether the value, or a value next to it or opposite to it, is printed as a symbol. -/
def pushEquateC (val : Word) (sz : Int) (sym : Symbol) : Bool :=
  let mask := Pcode.calcMask sz
  let baseval := sym.value
  let modval := baseval &&& mask
  if modval ≠ baseval ∧ signExtendSize modval sz 8 ≠ baseval then false
  else modval = val ∨ ~~~baseval &&& mask = val ∨ -baseval &&& mask = val ∨ (baseval + 1) &&& mask = val ∨
    (baseval - 1) &&& mask = val

/-- The symbol that decides how a constant is printed. -/
def symbolOf (vn : Option Varnode) : Option Symbol :=
  match vn with
  | some vn => if vn.isAnnotation then none else vn.symbol
  | none => none

def formatOf (vn : Option Varnode) (displayFormat : Nat) : Nat :=
  match symbolOf vn with
  | some sym => sym.displayFormat
  | none => displayFormat

def pushesEquate (vn : Option Varnode) (val : Word) (sz : Int) : Bool :=
  match symbolOf vn with
  | some sym => sym.nameLocked && sym.isEquate && pushEquateC val sz sym
  | none => false

def forces (flag : Varnode → Bool) (vn : Option Varnode) : Bool :=
  match vn with
  | some vn => !vn.isAnnotation && flag vn
  | none => false

namespace PrintC

variable (print : PrintC)

def defaultFormat (val : Word) : Nat :=
  if print.modForceHex then forceHex
  else if val.toNat ≤ 10 ∨ print.modForceDec then forceDec
  else if mostNaturalBase val.toNat = 16 then forceHex
  else forceDec

def character (text : String) (val : Word) (sz : Int) : String :=
  let text := if !print.isJava ∧ sz > 1 then text ++ "L" else text
  let text := text ++ "'"
  let text :=
    if sz = 1 ∧ val.toNat ≥ 0x80 then printCharHexEscape text (asI32 val.toNat)
    else print.printUnicode text (asI32 val.toNat)
  text ++ "'"

def digits (text : String) (val : Word) (sz : Int) (displayFormat : Nat) : String :=
  if displayFormat = forceHex then text ++ "0x" ++ String.ofList (Nat.toDigits 16 val.toNat)
  else if displayFormat = forceDec then text ++ String.ofList (Nat.toDigits 10 val.toNat)
  else if displayFormat = forceOct then text ++ "0" ++ String.ofList (Nat.toDigits 8 val.toNat)
  else if displayFormat = forceChar then print.character text val sz
  else formatBinary (text ++ "0b") val

/-- The text of a constant, if no symbol is printed for it. -/
def pushInteger (val : Word) (sz : Int) (sign : Bool) (vn : Option Varnode) (displayFormat : Nat) : Option String :=
  if pushesEquate vn val sz then none
  else
    let displayFormat := formatOf vn displayFormat
    let forceUnsignedToken := forces Varnode.isUnsignedPrint vn
    let forceSizedToken := forces Varnode.isLongPrint vn
    let signed := sign && decide (displayFormat ≠ forceChar)
    let flip := val ^^^ Pcode.calcMask sz
    let printNegsign := signed && decide (flip.toNat < val.toNat)
    let val := if printNegsign then flip + 1 else val
    let forceUnsignedToken := if signed then false else forceUnsignedToken
    let displayFormat := if displayFormat ≠ 0 then displayFormat else print.defaultFormat val
    let text := if printNegsign then "-" else ""
    let text := print.digits text val sz displayFormat
    let text := if forceUnsignedToken then text ++ "U" else text
    let text := if forceSizedToken then text ++ print.sizeSuffix else text
    some text

end PrintC

section reading

def isDigit (base : Nat) (c : Char) : Bool := (hexValue c).any fun d => decide (d < base)

def digitsValue (base : Nat) (cs : List Char) : Nat := cs.foldl (fun n c => base * n + (hexValue c).getD 0) 0

def suffixes : List (List Char) :=
  [[], ['L'], ['L', 'L'], ['U'], ['U', 'L'], ['U', 'L', 'L']]

/-- A number is followed by at most a suffix. -/
def readDigits (base : Nat) (cs : List Char) : Option Nat :=
  if cs.dropWhile (isDigit base) ∈ suffixes then some (digitsValue base (cs.takeWhile (isDigit base))) else none

def readMagnitude : List Char → Option Nat
  | '0' :: 'x' :: cs => readDigits 16 cs
  | '0' :: 'b' :: cs => readDigits 2 cs
  | '0' :: cs => readDigits 8 cs
  | cs => readDigits 10 cs

/-- The integer that a literal denotes. -/
def readLiteral : List Char → Option Int
  | '-' :: cs => (readMagnitude cs).map fun n => -(n : Int)
  | cs => (readMagnitude cs).map fun n => (n : Int)

end reading

end GhidraDecompiler.PrintLanguage
