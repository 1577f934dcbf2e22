import Mathlib.Data.Int.DivMod
import Mathlib.Data.Prod.Lex
import Mathlib.Order.Interval.Set.Basic
import Mathlib.Algebra.Group.Nat.Defs
import Mathlib.Algebra.Group.Int.Defs

namespace GhidraDecompiler

inductive SpaceType
  | constant | processor | spacebase | internal | fspec | iop | join
  deriving DecidableEq

/-- The value of a 64 bit word read as a signed number. -/
def asI64 (x : Int) : Int := x.bmod (2 ^ 64)

/-- The value of a 64 bit word read as an unsigned number. -/
def asU64 (x : Int) : Nat := (x % 2 ^ 64).toNat

/-- The value of a 32 bit word read as a signed number. -/
def asI32 (x : Int) : Int := x.bmod (2 ^ 32)

theorem asI32_of_bounds {x : Int} (h₀ : -2 ^ 31 ≤ x) (h : x < 2 ^ 31) : asI32 x = x := by
  simp only [asI32, Int.bmod_def]
  omega

def calcMask (size : Nat) : Nat := if size < 8 then 2 ^ (8 * size) - 1 else 2 ^ 64 - 1

/-- An address space, with word sizes that keep the number of its addresses
within the signed range unless it fills all 64 bits. -/
structure AddrSpace where
  spaceType : SpaceType
  addressSize : Nat
  wordsize : Nat
  index : Int
  wordsize_pos : 0 < wordsize
  wordsize_le : wordsize ≤ 64
  deriving DecidableEq

namespace AddrSpace

theorem one_le_wordsize_limit : 1 ≤ 64 := by decide

/-- The offset that `calc_scale_mask` stores. -/
def highest (spc : AddrSpace) : Nat := (calcMask spc.addressSize * spc.wordsize + (spc.wordsize - 1)) % 2 ^ 64

def wrapOffset (spc : AddrSpace) (off : Nat) : Nat :=
  if off ≤ spc.highest then off else
    let modulus := asI64 (spc.highest + 1)
    if modulus = 0 then off else
      let res := (asI64 off).tmod modulus
      asU64 (if res < 0 then asI64 (res + modulus) else res)

theorem highest_cases (spc : AddrSpace) : spc.highest < 2 ^ 62 ∨ spc.highest = 2 ^ 64 - 1 := by
  obtain ⟨-, size, w, -, hpos, hle⟩ := spc
  simp only [highest, calcMask]
  split
  · left
    have hmask : 2 ^ (8 * size) ≤ 2 ^ 56 := Nat.pow_le_pow_right (by omega) (by omega)
    have hone : 1 ≤ 2 ^ (8 * size) := Nat.one_le_two_pow
    have hmul : 2 ^ (8 * size) * w ≤ 2 ^ 56 * 64 := Nat.mul_le_mul hmask hle
    have hsum : (2 ^ (8 * size) - 1) * w + (w - 1) = 2 ^ (8 * size) * w - 1 := by
      rw [Nat.sub_mul, Nat.one_mul]
      have hw : w ≤ 2 ^ (8 * size) * w := Nat.le_mul_of_pos_left w (by omega)
      omega
    rw [hsum]
    exact Nat.lt_of_le_of_lt (Nat.mod_le _ _) (by omega)
  · right
    omega

/-- Going back from one address of a space to a lower one gives their
distance, and to a higher one the distance around the end of the space. -/
theorem wrapOffset_sub (spc : AddrSpace) {a b : Nat} (ha : a ≤ spc.highest) (hb : b ≤ spc.highest) :
    spc.wrapOffset ((a + 2 ^ 64 - b) % 2 ^ 64) = if b ≤ a then a - b else a + (spc.highest + 1) - b := by
  have hcases := spc.highest_cases
  by_cases hba : b ≤ a
  · rw [if_pos hba, wrapOffset, if_pos (by omega)]
    omega
  · rw [if_neg hba]
    rcases hcases with hlt | heq
    · have hmod : asI64 (spc.highest + 1) = (spc.highest : Int) + 1 := by
        simp only [asI64, Int.bmod_def]
        omega
      have hoff : asI64 ((a + 2 ^ 64 - b) % 2 ^ 64 : Nat) = (a : Int) - b := by
        simp only [asI64, Int.bmod_def]
        omega
      have hres : ((a : Int) - b).tmod ((spc.highest : Int) + 1) = a - b := by
        rw [show (a : Int) - b = -((b - a : Nat) : Int) by omega, Int.neg_tmod, Int.tmod_eq_of_lt (by omega) (by omega)]
      have hsum : asI64 ((a : Int) - b + (spc.highest + 1)) = a - b + (spc.highest + 1) := by
        simp only [asI64, Int.bmod_def]
        omega
      rw [wrapOffset, if_neg (by omega)]
      simp only [hmod, hoff, hres, hsum, if_neg (show ¬ (spc.highest : Int) + 1 = 0 by omega),
        if_pos (show (a : Int) - b < 0 by omega), asU64]
      omega
    · rw [wrapOffset, if_pos (by omega)]
      omega

end AddrSpace

/-- An address of a space. The invalid address, which has no space and on
which `overlap` panics, is left out. -/
structure Address where
  space : AddrSpace
  offset : Nat
  deriving DecidableEq

namespace Address

abbrev Key := Int ×ₗ Nat

def orderingKey (a : Address) : Key := toLex (a.space.index, a.offset)

def sameBase (a op : Address) : Bool := a.space.index = op.space.index

/-- The position of `a + skip` in the range of `size` bytes at `op`, or -1
when it lies outside. -/
def overlap (a : Address) (skip : Int) (op : Address) (size : Int) : Int :=
  if ¬ a.sameBase op then -1
  else if a.space.spaceType = .constant then -1
  else
    let dist := a.space.wrapOffset ((a.offset + asU64 skip + 2 ^ 64 - op.offset) % 2 ^ 64)
    if asU64 size ≤ dist then -1 else asI32 dist

variable {a b : Address}

theorem key_lt (h : a.space = b.space) : a.orderingKey < b.orderingKey ↔ a.offset < b.offset := by
  simp [orderingKey, Prod.Lex.toLex_lt_toLex, h]

theorem key_le (h : a.space = b.space) : a.orderingKey ≤ b.orderingKey ↔ a.offset ≤ b.offset := by
  simp [orderingKey, Prod.Lex.toLex_le_toLex, h]

/-- Within a space, and with a range that does not run past its end, the
position is the plain distance. -/
theorem overlap_eq {spc : AddrSpace} (hspc : spc.spaceType ≠ .constant) {a b : Nat} {size : Int}
    (ha : a ≤ spc.highest) (hpos : 1 ≤ size) (hsize : size < 2 ^ 31) (hb : b + size ≤ spc.highest + 1) :
    (Address.mk spc a).overlap 0 (Address.mk spc b) size =
      if b ≤ a ∧ (a : Int) < b + size then (a : Int) - b else -1 := by
  have hu : asU64 size = size.toNat := by simp only [asU64]; omega
  have hz : asU64 0 = 0 := rfl
  have hi32 {n : Nat} (hn : (n : Int) < 2 ^ 31) : asI32 n = n := by
    simp only [asI32, Int.bmod_def]
    omega
  rw [overlap, if_neg (by simp [sameBase]), if_neg hspc]
  simp only [hu, hz, Nat.add_zero, spc.wrapOffset_sub ha (show b ≤ spc.highest by omega)]
  by_cases hin : b ≤ a ∧ (a : Int) < b + size
  · rw [if_pos hin.1, if_pos hin, if_neg (by omega), hi32 (by omega)]
    omega
  · rw [if_neg hin, if_pos (by split_ifs <;> omega)]

end Address

end GhidraDecompiler
