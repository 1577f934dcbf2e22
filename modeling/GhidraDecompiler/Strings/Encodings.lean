import GhidraDecompiler.Strings.Utf8

namespace GhidraDecompiler.Strings

open Fallible Pcode

inductive Encoding
  | utf8
  | utf16
  | utf32
  deriving DecidableEq

/-- The two bytes of a unit. -/
def unitBytes (bigend : Bool) (u : Nat) : List UInt8 :=
  if bigend then [.ofNat (u / 256), .ofNat (u % 256)] else [.ofNat (u % 256), .ofNat (u / 256)]

/-- The four bytes of a number. -/
def quadBytes (bigend : Bool) (n : Nat) : List UInt8 :=
  if bigend then unitBytes true (n / 65536) ++ unitBytes true (n % 65536)
  else unitBytes false (n % 65536) ++ unitBytes false (n / 65536)

namespace Encoding

def charsize : Encoding → Int
  | utf8 => 1
  | utf16 => 2
  | utf32 => 4

/-- The units of UTF-16: characters from 2^16 on are pairs of surrogates. -/
def units (c : Char) : List Nat :=
  if c.toNat < 0x10000 then [c.toNat]
  else [0xD800 + (c.toNat - 0x10000) / 0x400, 0xDC00 + (c.toNat - 0x10000) % 0x400]

def encode (e : Encoding) (bigend : Bool) (c : Char) : List UInt8 :=
  match e with
  | utf8 => String.utf8EncodeChar c
  | utf16 => (units c).flatMap (unitBytes bigend)
  | utf32 => quadBytes bigend c.toNat

def bytes (e : Encoding) (bigend : Bool) (text : List Char) : List UInt8 := text.flatMap (e.encode bigend)

end Encoding

open Encoding

variable {e : Encoding} {bigend : Bool} {c : Char} {rest : List UInt8} {u n : Nat}

@[simp] theorem length_unitBytes (bigend : Bool) (u : Nat) : (unitBytes bigend u).length = 2 := by
  cases bigend <;> rfl

@[simp] theorem length_quadBytes (bigend : Bool) (n : Nat) : (quadBytes bigend n).length = 4 := by
  cases bigend <;> rfl

theorem readUtf16_unit (bigend : Bool) (rest : List UInt8) (h : u < 65536) :
    readUtf16 (unitBytes bigend u ++ rest) bigend = u := by
  have hhigh : (UInt8.ofNat (u / 256)).toNat = u / 256 := toNat_byte (by omega)
  have hlow : (UInt8.ofNat (u % 256)).toNat = u % 256 := toNat_byte (by omega)
  cases bigend <;> simp only [unitBytes, readUtf16, if_true, if_neg Bool.false_ne_true, List.cons_append, byteAt_zero,
    byteAt_succ, hhigh, hlow, Nat.shiftLeft_eq] <;> omega

theorem drop_unit (bigend : Bool) (u : Nat) (rest : List UInt8) : (unitBytes bigend u ++ rest).drop 2 = rest :=
  List.drop_left' (length_unitBytes bigend u)

theorem decodeUtf16_single (rest : List UInt8) (h : u < 65536) (hs : ¬(0xD800 ≤ u ∧ u ≤ 0xDFFF)) :
    decodeUtf16 (unitBytes bigend u ++ rest) bigend = some ((u : Int), 2) := by
  simp only [decodeUtf16, readUtf16_unit bigend rest h]
  rw [if_neg (by omega), if_neg (by omega)]

theorem decodeUtf16_encode (bigend : Bool) (c : Char) (rest : List UInt8) :
    decodeUtf16 (encode utf16 bigend c ++ rest) bigend = some ((c.toNat : Int), ((encode utf16 bigend c).length : Int)) := by
  have hc := char_lt c
  simp only [encode, units]
  split
  · rename_i hsmall
    rw [List.flatMap_singleton, decodeUtf16_single rest hsmall (by omega), length_unitBytes]
    rfl
  · rename_i hlarge
    simp only [List.flatMap_cons, List.flatMap_nil, List.append_nil, List.append_assoc, decodeUtf16]
    rw [readUtf16_unit bigend _ (by omega), drop_unit, readUtf16_unit bigend _ (by omega), if_pos (by omega), if_neg (by omega)]
    have hpair : (((0xD800 + (c.toNat - 0x10000) / 0x400) <<< 10 : Nat) : Int) + (0xDC00 + (c.toNat - 0x10000) % 0x400 : Nat) +
        (0x10000 - ((0xD800 <<< 10 : Nat) : Int) - 0xDC00) = c.toNat := by
      rw [Nat.shiftLeft_eq, show (0xD800 <<< 10 : Nat) = 56623104 from rfl]
      push_cast
      omega
    rw [hpair, List.length_append, length_unitBytes, length_unitBytes]
    rfl

theorem fromBytes_eq {b₀ b₁ b₂ b₃ : Nat} (h : ((b₀ * 256 + b₁) * 256 + b₂) * 256 + b₃ < 2 ^ 31) :
    fromBytes b₀ b₁ b₂ b₃ = (((b₀ * 256 + b₁) * 256 + b₂) * 256 + b₃ : Nat) := by
  rw [fromBytes, asI32, Int.bmod_def]
  omega

theorem decodeUtf32_quad (bigend : Bool) (rest : List UInt8) (h : n < 2 ^ 31) :
    decodeUtf32 (quadBytes bigend n ++ rest) bigend = some ((n : Int), 4) := by
  have h₃ : (UInt8.ofNat (n / 65536 / 256)).toNat = n / 65536 / 256 := toNat_byte (by omega)
  have h₂ : (UInt8.ofNat (n / 65536 % 256)).toNat = n / 65536 % 256 := toNat_byte (by omega)
  have h₁ : (UInt8.ofNat (n % 65536 / 256)).toNat = n % 65536 / 256 := toNat_byte (by omega)
  have h₀ : (UInt8.ofNat (n % 65536 % 256)).toNat = n % 65536 % 256 := toNat_byte (by omega)
  have hsum : fromBytes (n / 65536 / 256) (n / 65536 % 256) (n % 65536 / 256) (n % 65536 % 256) = n := by
    rw [fromBytes_eq (by omega)]
    omega
  cases bigend <;> simp only [quadBytes, unitBytes, decodeUtf32, if_true, if_neg Bool.false_ne_true, List.cons_append,
    List.nil_append, byteAt_zero, byteAt_succ, h₀, h₁, h₂, h₃, hsum]

theorem decode_encoded (e : Encoding) (bigend : Bool) (c : Char) (rest : List UInt8) :
    decode (e.encode bigend c ++ rest) e.charsize bigend = some ((c.toNat : Int), ((e.encode bigend c).length : Int)) := by
  cases e with
  | utf8 => exact decodeUtf8_encode c rest
  | utf16 => exact decodeUtf16_encode bigend c rest
  | utf32 =>
      have hc := char_lt c
      refine (decodeUtf32_quad bigend rest (by omega)).trans ?_
      rw [show encode utf32 bigend c = quadBytes bigend c.toNat from rfl, length_quadBytes]
      rfl

/-- One character at the start of a buffer is read with its length. -/
theorem getCodepoint_encode (e : Encoding) (bigend : Bool) (c : Char) (rest : List UInt8) (skip : Int) :
    getCodepoint (e.encode bigend c ++ rest) e.charsize bigend skip = ((c.toNat : Int), ((e.encode bigend c).length : Int)) := by
  have hc := char_lt c
  simp only [getCodepoint, decode_encoded]
  split
  · rw [if_neg (by omega), if_neg (by omega)]
  · rfl

theorem encode_ne_nil (e : Encoding) (bigend : Bool) (c : Char) : e.encode bigend c ≠ [] := by
  cases e with
  | utf8 => exact String.utf8EncodeChar_ne_nil
  | utf16 =>
      simp only [encode, units]
      split <;> simp [← List.length_pos_iff]
  | utf32 => simp [encode, ← List.length_pos_iff]

theorem length_encode_pos (e : Encoding) (bigend : Bool) (c : Char) : 0 < (e.encode bigend c).length :=
  List.length_pos_iff.mpr (encode_ne_nil e bigend c)

theorem length_le_bytes (e : Encoding) (bigend : Bool) (text : List Char) : text.length ≤ (e.bytes bigend text).length := by
  induction text with
  | nil => exact Nat.le_refl 0
  | cons c text ih =>
      have := length_encode_pos e bigend c
      simp only [bytes, List.flatMap_cons, List.length_append, List.length_cons] at ih ⊢
      omega

theorem toNat_pos (h : c ≠ '\x00') : 0 < c.toNat := by
  rcases Nat.eq_zero_or_pos c.toNat with hzero | hpos
  · exact absurd (Char.toNat_inj.mp hzero) h
  · exact hpos

end GhidraDecompiler.Strings
