import Mathlib.Data.BitVec

namespace BitWindows

variable {w n : Nat}

/-- A number in more or fewer bits: beyond the top the sign bit is repeated, or there are
zeros. -/
def fillTo (signed : Bool) (x : BitVec w) (m : Nat) : BitVec m := if signed then x.signExtend m else x.setWidth m

def shiftRight (signed : Bool) (x : BitVec w) (s : Nat) : BitVec w := if signed then x.sshiftRight s else x >>> s

/-- The bits from `start` on of a number that goes on beyond its top. -/
def window (signed : Bool) (x : BitVec w) (start n : Nat) : BitVec n := (fillTo signed x (start + n)).extractLsb' start n

section Bits

variable {signed : Bool} {x : BitVec w} {start i s a m : Nat}

theorem getLsbD_fillTo (hi : i < m) : (fillTo signed x m).getLsbD i = if i < w then x.getLsbD i else signed && x.msb := by
  rw [fillTo]
  cases signed with
  | false =>
      rw [if_neg (by decide), BitVec.getLsbD_setWidth, decide_eq_true hi, Bool.true_and, Bool.false_and]
      split
      · rfl
      · exact BitVec.getLsbD_of_ge _ _ (by omega)
  | true => rw [if_pos rfl, BitVec.getLsbD_signExtend, decide_eq_true hi, Bool.true_and, Bool.true_and]

theorem getLsbD_shiftRight (hi : i < w) :
    (shiftRight signed x s).getLsbD i = if s + i < w then x.getLsbD (s + i) else signed && x.msb := by
  rw [shiftRight]
  cases signed with
  | false =>
      rw [if_neg (by decide), BitVec.getLsbD_ushiftRight, Bool.false_and]
      split
      · rfl
      · exact BitVec.getLsbD_of_ge _ _ (by omega)
  | true =>
      rw [if_pos rfl, BitVec.getLsbD_sshiftRight, decide_eq_false (by omega), Bool.not_false, Bool.true_and, Bool.true_and]

theorem getLsbD_window (hi : i < n) : (window signed x start n).getLsbD i =
    if start + i < w then x.getLsbD (start + i) else signed && x.msb := by
  rw [window, BitVec.getLsbD_extractLsb', decide_eq_true hi, Bool.true_and, getLsbD_fillTo (by omega)]

/-- From the sign bit on all bits are the fill. -/
theorem bit_of_le (ha : w ≤ a + if signed then 1 else 0) :
    (if a + i < w then x.getLsbD (a + i) else signed && x.msb) = (signed && x.msb) := by
  split
  · next hlt =>
      cases signed with
      | false =>
          simp only [Bool.false_eq_true, if_false] at ha
          omega
      | true =>
          simp only [if_true] at ha
          rw [Bool.true_and, BitVec.msb_eq_getLsbD_last]
          congr 1
          omega
  · rfl

theorem msb_extract (h : a + n = w) (hn : 0 < n) : (x.extractLsb' a n).msb = x.msb := by
  rw [BitVec.msb_eq_getLsbD_last, BitVec.msb_eq_getLsbD_last, BitVec.getLsbD_extractLsb', decide_eq_true (by omega), Bool.true_and]
  congr 1
  omega

end Bits

section Windows

variable {signed : Bool} {x : BitVec w} {a s m : Nat}

/-- A piece of a shifted number. -/
theorem extract_shiftRight (h : a + n ≤ w) : (shiftRight signed x s).extractLsb' a n = window signed x (s + a) n := by
  apply BitVec.eq_of_getLsbD_eq
  intro i hi
  rw [getLsbD_window hi, BitVec.getLsbD_extractLsb', decide_eq_true hi, Bool.true_and, getLsbD_shiftRight (by omega),
    Nat.add_assoc]

/-- A piece within the number. -/
theorem extract_eq_window (signed : Bool) (h : a + n ≤ w) : x.extractLsb' a n = window signed x a n := by
  apply BitVec.eq_of_getLsbD_eq
  intro i hi
  rw [getLsbD_window hi, BitVec.getLsbD_extractLsb', decide_eq_true hi, Bool.true_and, if_pos (by omega)]

/-- The top piece, filled up. -/
theorem fillTo_extract (h : a + m = w) (hm : 0 < m) : fillTo signed (x.extractLsb' a m) n = window signed x a n := by
  apply BitVec.eq_of_getLsbD_eq
  intro i hi
  rw [getLsbD_window hi, getLsbD_fillTo hi, msb_extract h hm]
  by_cases him : i < m
  · rw [if_pos him, if_pos (by omega), BitVec.getLsbD_extractLsb', decide_eq_true him, Bool.true_and]
  · rw [if_neg him, if_neg (by omega)]

/-- The top piece, shifted. -/
theorem shiftRight_extract (h : a + n = w) (hn : 0 < n) :
    shiftRight signed (x.extractLsb' a n) s = window signed x (a + s) n := by
  apply BitVec.eq_of_getLsbD_eq
  intro i hi
  rw [getLsbD_window hi, getLsbD_shiftRight hi, msb_extract h hn]
  by_cases his : s + i < n
  · rw [if_pos his, if_pos (by omega), BitVec.getLsbD_extractLsb', decide_eq_true his, Bool.true_and, Nat.add_assoc]
  · rw [if_neg his, if_neg (by omega)]

/-- Beyond the last bit all shifts give the same. -/
theorem shiftRight_clamp (hs : w ≤ s) (ha : w ≤ a + if signed then 1 else 0) : shiftRight signed x s = shiftRight signed x a := by
  apply BitVec.eq_of_getLsbD_eq
  intro i hi
  rw [getLsbD_shiftRight hi, getLsbD_shiftRight hi, if_neg (by omega), bit_of_le ha]

/-- A window beyond the top is the fill; another one is too when it starts there, or at
the sign bit. -/
theorem window_eq_iff (signed : Bool) (hs : w ≤ s) (hn : 0 < n) :
    (∀ x : BitVec w, window signed x s n = window signed x a n) ↔ w ≤ a + if signed then 1 else 0 := by
  constructor
  · intro hall
    by_contra hlt
    -- the first bit of the window is a bit of the number, and no sign bit
    have hbit : ∀ x : BitVec w, (signed && x.msb) = x.getLsbD a := by
      intro x
      have heq := congrArg (fun v => v.getLsbD 0) (hall x)
      rw [getLsbD_window hn, getLsbD_window hn, if_neg (by omega), if_pos (by omega)] at heq
      exact heq
    cases signed with
    | false =>
        have hone := hbit (BitVec.allOnes w)
        rw [BitVec.getLsbD_allOnes, decide_eq_true (by omega)] at hone
        cases hone
    | true =>
        have hmin := hbit (BitVec.intMin w)
        simp only [if_true] at hlt
        rw [BitVec.msb_intMin, BitVec.getLsbD_intMin, decide_eq_true (by omega), decide_eq_false (by omega)] at hmin
        cases hmin
  · intro ha x
    apply BitVec.eq_of_getLsbD_eq
    intro i hi
    rw [getLsbD_window hi, getLsbD_window hi, if_neg (by omega), bit_of_le ha]

end Windows

end BitWindows
