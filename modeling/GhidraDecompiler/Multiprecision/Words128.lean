import GhidraDecompiler.Lib.Fallible
import GhidraDecompiler.Pcode.Words

namespace GhidraDecompiler.Multiprecision

open Fallible
open Pcode (Word)

/-- Half a machine word. -/
abbrev Limb := BitVec 32

section Arithmetic

/-- The words that are not at the low end, from the top down. -/
def shiftedWords (input : List Word) (shift : Nat) : Nat → List Word → Outcome (List Word)
  | 0, output => do
      let low ← getIdx input 0
      return (low <<< shift) :: output
  | index + 1, output => do
      let high ← getIdx input (index + 1)
      let low ← getIdx input index
      shiftedWords input shift index (((high <<< shift) ||| (low >>> (64 - shift))) :: output)

def leftshift (num : Nat) (input : List Word) (shiftAmount : Nat) : Outcome (List Word) := do
  let inIndex : Int := num - 1 - shiftAmount / 64
  let shift := shiftAmount % 64
  let output ← if shift = 0 then pure (input.take (inIndex + 1).toNat) else shiftedWords input shift inIndex.toNat []
  return List.replicate (num - output.length) 0 ++ output

def leftshift128 (input : List Word) (shiftAmount : Nat) : Outcome (List Word) := leftshift 2 input shiftAmount

/-- The words are compared from the top down. -/
def ucompare (first second : List Word) : Nat → Outcome Ordering
  | 0 => .ok .eq
  | slot + 1 => do
      let a ← getIdx first slot
      let b ← getIdx second slot
      if a ≠ b then return if a < b then .lt else .gt
      ucompare first second slot

def uless128 (first second : List Word) : Outcome Bool := do
  return (← ucompare first second 2) == .lt

def ulessequal128 (first second : List Word) : Outcome Bool := do
  return (← ucompare first second 2) != .gt

def add : List Word → List Word → Word → List Word
  | a :: as, b :: bs, carry =>
      let tmp := b + carry
      let tmp2 := a + tmp
      tmp2 :: add as bs (if tmp < b ∨ tmp2 < tmp then 1 else 0)
  | _, _, _ => []

def add128 (first second : List Word) : List Word := add first second 0

def subtract : List Word → List Word → Word → List Word
  | a :: as, b :: bs, borrow =>
      let tmp := b + borrow
      (a - tmp) :: subtract as bs (if tmp < b ∨ a < tmp then 1 else 0)
  | _, _, _ => []

def subtract128 (first second : List Word) : List Word := subtract first second 0

def setU128 (val : Word) : List Word := [val, 0]

end Arithmetic

section Limbs

/-- The limbs of the words from a slot on, and the number of limbs up to the highest
one that is not zero. -/
def split64_32 : List Word → Nat → Nat → List Limb × Nat
  | [], _, count => ([], count)
  | val :: vals, slot, count =>
      let hi : Limb := (val >>> 32).setWidth 32
      let lo : Limb := (val &&& 0xffffffff).setWidth 32
      let count := if hi ≠ 0 then slot * 2 + 2 else if lo ≠ 0 then slot * 2 + 1 else count
      let (res, count) := split64_32 vals (slot + 1) count
      (lo :: hi :: res, count)

/-- Limbs from `max` on count as zero. -/
def limbBelow (max : Nat) (input : List Limb) (pos : Nat) : Outcome Word :=
  if pos < max then (·.setWidth 64) <$> getIdx input pos else .ok 0

/-- The words are written from the top down. -/
def pack32_64 (max : Nat) (input : List Limb) : Nat → List Word → Outcome (List Word)
  | 0, output => .ok output
  | slot + 1, output => do
      let hi ← limbBelow max input (slot * 2 + 1)
      let lo ← limbBelow max input (slot * 2)
      pack32_64 max input slot (((hi <<< 32) ||| lo) :: output)

/-- From the top slot down to slot 1. -/
def shiftLeftSlots (shift : Nat) : Nat → List Limb → Outcome (List Limb)
  | 0, arr => .ok arr
  | slot + 1, arr => do
      let high ← getIdx arr (slot + 1)
      let low ← getIdx arr slot
      let arr ← setIdx arr (slot + 1) ((high <<< shift) ||| (low >>> (32 - shift)))
      shiftLeftSlots shift slot arr

def shiftLeft (arr : List Limb) (size shift : Nat) : Outcome (List Limb) := do
  if shift = 0 then return arr
  let arr ← shiftLeftSlots shift (size - 1) arr
  setIdx arr 0 ((← getIdx arr 0) <<< shift)

/-- From a slot up, for a number of slots. -/
def shiftRightSlots (shift : Nat) : Nat → Nat → List Limb → Outcome (List Limb)
  | 0, _, arr => .ok arr
  | rest + 1, slot, arr => do
      let low ← getIdx arr slot
      let high ← getIdx arr (slot + 1)
      let arr ← setIdx arr slot ((low >>> shift) ||| (high <<< (32 - shift)))
      shiftRightSlots shift rest (slot + 1) arr

def shiftRight (arr : List Limb) (size shift : Nat) : Outcome (List Limb) := do
  if shift = 0 then return arr
  let arr ← shiftRightSlots shift (size - 1) 0 arr
  setIdx arr (size - 1) ((← getIdx arr (size - 1)) >>> shift)

end Limbs

section Division

/-- The estimate of a digit goes down until the second digit of the divisor accepts
it, or the remainder has more than one digit. -/
def adjust (top second next : Word) : Nat → Word → Word → Outcome Word
  | 0, _, _ => .error .outOfFuel
  | fuel + 1, qhat, rhat =>
      if qhat ≤ 0xffffffff ∧ qhat * second ≤ (rhat <<< 32) + next then .ok qhat
      else
        let qhat := qhat - 1
        let rhat := rhat + top
        if rhat > 0xffffffff then .ok qhat else adjust top second next fuel qhat rhat

/-- The digit times the divisor is taken off the number, slot by slot. -/
def multiplySubtract (denom : List Limb) (position : Nat) (qhat : Word) :
    Nat → Nat → List Limb → Word → Outcome (List Limb × Word)
  | 0, _, numer, carry => .ok (numer, carry)
  | rest + 1, slot, numer, carry => do
      let tmp := qhat * (← getIdx denom slot).setWidth 64
      let signedTmp := (← getIdx numer (slot + position)).setWidth 64 - carry - (tmp &&& 0xffffffff)
      let numer ← setIdx numer (slot + position) (signedTmp.setWidth 32)
      multiplySubtract denom position qhat rest (slot + 1) numer ((tmp >>> 32) - signedTmp.sshiftRight 32)

def addBack (denom : List Limb) (position : Nat) : Nat → Nat → List Limb → Word → Outcome (List Limb × Word)
  | 0, _, numer, carry => .ok (numer, carry)
  | rest + 1, slot, numer, carry => do
      let digit : Word := (← getIdx numer (slot + position)).setWidth 64
      let tmp := digit + ((← getIdx denom slot).setWidth 64 + carry)
      let numer ← setIdx numer (slot + position) (tmp.setWidth 32)
      addBack denom position rest (slot + 1) numer (tmp >>> 32)

/-- The estimate from the leading digits. The divisor is normalised, so the remainder
grows by half a limb at least and two turns of the adjustment are enough. -/
def estimateDigit (denomLen : Nat) (denom : List Limb) (position : Nat) (numer : List Limb) : Outcome Word := do
  let top : Word := (← getIdx denom (denomLen - 1)).setWidth 64
  let high : Word := (← getIdx numer (denomLen + position)).setWidth 64
  let low : Word := (← getIdx numer (denomLen - 1 + position)).setWidth 64
  let tmp := (high <<< 32) + low
  let second : Word := (← getIdx denom (denomLen - 2)).setWidth 64
  let next : Word := (← getIdx numer (denomLen - 2 + position)).setWidth 64
  adjust top second next 2 (tmp / top) (tmp % top)

/-- When the difference is negative the digit was one too large. -/
def subtractDigit (denomLen : Nat) (denom : List Limb) (position : Nat) (qhat : Word) (numer quotient : List Limb) :
    Outcome (List Limb × List Limb) := do
  let (numer, carry) ← multiplySubtract denom position qhat denomLen 0 numer 0
  let signedTmp := (← getIdx numer (position + denomLen)).setWidth 64 - carry
  let numer ← setIdx numer (position + denomLen) (signedTmp.setWidth 32)
  let quotient ← setIdx quotient position (qhat.setWidth 32)
  if signedTmp.slt 0 then
    let quotient ← setIdx quotient position ((← getIdx quotient position) - 1)
    let (numer, carry) ← addBack denom position denomLen 0 numer 0
    let numer ← setIdx numer (position + denomLen) ((← getIdx numer (position + denomLen)) + carry.setWidth 32)
    return (numer, quotient)
  return (numer, quotient)

def quotientDigit (denomLen : Nat) (denom : List Limb) (position : Nat) (numer quotient : List Limb) :
    Outcome (List Limb × List Limb) := do
  let qhat ← estimateDigit denomLen denom position numer
  subtractDigit denomLen denom position qhat numer quotient

/-- From the highest position down. -/
def quotientDigits (denomLen : Nat) (denom : List Limb) : Nat → List Limb → List Limb → Outcome (List Limb × List Limb)
  | 0, numer, quotient => .ok (numer, quotient)
  | position + 1, numer, quotient => do
      let (numer, quotient) ← quotientDigit denomLen denom position numer quotient
      quotientDigits denomLen denom position numer quotient

/-- The remainder is left in the number. -/
def knuthAlgorithmD (numerLen denomLen : Nat) (numer denom quotient : List Limb) : Outcome (List Limb × List Limb) := do
  let top : Word := (← getIdx denom (denomLen - 1)).setWidth 64
  let shift := BitWords.leadingZeros top - 32
  let denom ← shiftLeft denom denomLen shift
  let numer ← shiftLeft numer numerLen shift
  let (numer, quotient) ← quotientDigits denomLen denom (numerLen - denomLen) numer quotient
  let numer ← shiftRight numer numerLen shift
  return (numer, quotient)

/-- Division by one limb, from the top slot down. -/
def divideByLimb (divisor : Word) : Nat → List Limb → List Limb → Word → Outcome (List Limb × List Limb × Word)
  | 0, numer, quotient, rem => .ok (numer, quotient, rem)
  | slot + 1, numer, quotient, rem => do
      let tmp := (rem <<< 32) + (← getIdx numer slot).setWidth 64
      let quotient ← setIdx quotient slot ((tmp / divisor).setWidth 32)
      let numer ← setIdx numer slot 0
      divideByLimb divisor slot numer quotient (tmp % divisor)

/-- The remainder and the quotient, for a divisor that is not longer than the
number. -/
def divideLimbs (numerLen denomLen : Nat) (numerWords denomWords : List Limb) : Outcome (List Limb × List Limb) := do
  let quotientWords : List Limb := [0, 0, 0, 0]
  if denomLen = 1 then
    let divisor : Word := (← getIdx denomWords 0).setWidth 64
    let (numerWords, quotientWords, rem) ← divideByLimb divisor numerLen numerWords quotientWords 0
    let numerWords ← setIdx numerWords 0 (rem.setWidth 32)
    return (numerWords, quotientWords)
  else
    let numerWords ← setIdx numerWords numerLen 0
    knuthAlgorithmD (numerLen + 1) denomLen numerWords denomWords quotientWords

def udiv128 (numer denom : List Word) : Outcome (List Word × List Word) := do
  let numer0 ← getIdx numer 0
  let denom0 ← getIdx denom 0
  if (← getIdx numer 1) = 0 ∧ (← getIdx denom 1) = 0 then
    if denom0 = 0 then throw (.lowlevel "divide by 0")
    return ([numer0 / denom0, 0], [numer0 % denom0, 0])
  let (denomWords, denomLen) := split64_32 denom 0 0
  if denomLen = 0 then throw (.lowlevel "divide by 0")
  let (numerWords, numerLen) := split64_32 numer 0 0
  -- the array of the numerator has room for one limb more
  let numerWords := numerWords ++ [0]
  let numerTop ← getIdx numerWords (denomLen - 1)
  let denomTop ← getIdx denomWords (denomLen - 1)
  if numerLen < denomLen ∨ denomLen = numerLen ∧ numerTop < denomTop then return ([0, 0], numer)
  let (numerWords, quotientWords) ← divideLimbs numerLen denomLen numerWords denomWords
  let quotient ← pack32_64 (numerLen - denomLen + 1) quotientWords 2 []
  let remainder ← pack32_64 numerLen numerWords 2 []
  return (quotient, remainder)

end Division

end GhidraDecompiler.Multiprecision
