import GhidraDecompiler.Lib.BitWindows
import GhidraDecompiler.Lib.SignedPowers

/-! Numbers that are put together from a high and a low piece. -/

namespace BitPieces

open BitWindows SignedDivision

variable {h l w : Nat} {x : BitVec h} {y : BitVec l} {i : Nat}

/-- Two pieces in a word that has room for them. -/
def piece (w : Nat) (x : BitVec h) (y : BitVec l) : BitVec w := (x ++ y).setWidth w

theorem getLsbD_piece (hw : h + l ≤ w) : (piece w x y).getLsbD i = if i < l then y.getLsbD i else x.getLsbD (i - l) := by
  rw [piece, BitVec.getLsbD_setWidth, BitVec.getLsbD_append]
  by_cases hi : i < w
  · rw [decide_eq_true hi, Bool.true_and]
  · rw [decide_eq_false hi, Bool.false_and, if_neg (by omega), BitVec.getLsbD_of_ge _ _ (by omega)]

/-- The high piece may be dropped where no bit of it is asked for. -/
theorem piece_and_eq_low (hw : h + l = w) (z : BitVec w) :
    piece w x y &&& z = y.setWidth w &&& z ↔ ∀ i < h, x.getLsbD i = true → z.getLsbD (l + i) = false := by
  constructor
  · intro heq i hi hx
    have hbit := congrArg (fun v => v.getLsbD (l + i)) heq
    simp only [BitVec.getLsbD_and, getLsbD_piece hw.le, BitVec.getLsbD_setWidth, BitVec.getLsbD_of_ge y (l + i) (by omega),
      Nat.add_sub_cancel_left, if_neg (show ¬ l + i < l by omega), hx, Bool.true_and, Bool.and_false, Bool.false_and] at hbit
    exact hbit
  · intro hall
    apply BitVec.eq_of_getLsbD_eq
    intro i hi
    rw [BitVec.getLsbD_and, BitVec.getLsbD_and, getLsbD_piece hw.le, BitVec.getLsbD_setWidth, decide_eq_true hi, Bool.true_and]
    split
    · rfl
    · next hge =>
        rw [BitVec.getLsbD_of_ge y i (by omega), Bool.false_and]
        cases hx : x.getLsbD (i - l) with
        | false => exact Bool.false_and _
        | true =>
            have hz := hall (i - l) (by omega) hx
            rw [show l + (i - l) = i by omega] at hz
            rw [hz, Bool.and_false]

/-- The low piece may be zero where no bit of it is asked for. -/
theorem piece_and_eq_high (hw : h + l = w) (z : BitVec w) :
    piece w x y &&& z = piece w x 0#l &&& z ↔ ∀ i < l, y.getLsbD i = true → z.getLsbD i = false := by
  constructor
  · intro heq i hi hy
    have hbit := congrArg (fun v => v.getLsbD i) heq
    simp only [BitVec.getLsbD_and, getLsbD_piece hw.le, if_pos hi, hy, Bool.true_and, BitVec.getLsbD_zero, Bool.false_and] at hbit
    exact hbit
  · intro hall
    apply BitVec.eq_of_getLsbD_eq
    intro i hi
    rw [BitVec.getLsbD_and, BitVec.getLsbD_and, getLsbD_piece hw.le, getLsbD_piece hw.le]
    split
    · next hlt =>
        rw [BitVec.getLsbD_zero, Bool.false_and]
        cases hy : y.getLsbD i with
        | false => exact Bool.false_and _
        | true => rw [hall i hlt hy, Bool.and_false]
    · rfl

theorem msb_piece (hh : 0 < h) : (piece (h + l) x y).msb = x.msb := by
  rw [BitVec.msb_eq_getLsbD_last, BitVec.msb_eq_getLsbD_last, getLsbD_piece le_rfl, if_neg (by omega)]
  congr 1
  omega

section Disjoint

variable {a b : BitVec w}

theorem shiftLeft_and_low (a : BitVec w) (y : BitVec l) : a <<< l &&& y.setWidth w = 0#w := by
  apply BitVec.eq_of_getLsbD_eq
  intro i hi
  rw [BitVec.getLsbD_and, BitVec.getLsbD_shiftLeft, BitVec.getLsbD_setWidth, BitVec.getLsbD_zero]
  by_cases hlt : i < l
  · rw [decide_eq_true hlt, Bool.not_true, Bool.and_false, Bool.false_and, Bool.false_and]
  · rw [BitVec.getLsbD_of_ge y i (by omega), Bool.and_false, Bool.and_false]

theorem xor_eq_or_of_and_eq_zero (h : a &&& b = 0#w) : a ^^^ b = a ||| b := by
  apply BitVec.eq_of_getLsbD_eq
  intro i hi
  have hbit := congrArg (fun v => v.getLsbD i) h
  simp only [BitVec.getLsbD_and, BitVec.getLsbD_zero] at hbit
  rw [BitVec.getLsbD_xor, BitVec.getLsbD_or]
  cases ha : a.getLsbD i with
  | false => rw [Bool.false_xor, Bool.false_or]
  | true =>
      rw [ha, Bool.true_and] at hbit
      rw [hbit]
      rfl

end Disjoint

section Shifted

/-- A number that is shifted beyond another one, with the fill of the high part. -/
theorem shiftLeft_or_piece (signed : Bool) (x : BitVec h) (y : BitVec l) (hh : 0 < h) (hw : h + l ≤ w) :
    fillTo signed x w <<< l ||| y.setWidth w = fillTo signed (piece (h + l) x y) w := by
  apply BitVec.eq_of_getLsbD_eq
  intro i hi
  rw [BitVec.getLsbD_or, BitVec.getLsbD_shiftLeft, BitVec.getLsbD_setWidth, getLsbD_fillTo hi, decide_eq_true hi, Bool.true_and,
    Bool.true_and, getLsbD_piece le_rfl, msb_piece hh]
  by_cases hlt : i < l
  · rw [decide_eq_true hlt, Bool.not_true, Bool.false_and, Bool.false_or, if_pos (by omega), if_pos hlt]
  · rw [decide_eq_false hlt, Bool.not_false, Bool.true_and, getLsbD_fillTo (by omega), BitVec.getLsbD_of_ge y i (by omega), Bool.or_false]
    by_cases htop : i < h + l
    · rw [if_pos htop, if_neg hlt, if_pos (by omega)]
    · rw [if_neg htop, if_neg (by omega)]

theorem fillTo_zero (signed : Bool) : fillTo signed (0#h) w = 0#w := by
  cases signed with
  | false => exact BitVec.setWidth_zero w h
  | true =>
      show (0#h).signExtend w = 0#w
      rw [BitVec.signExtend_eq_setWidth_of_msb_false BitVec.msb_zero, BitVec.setWidth_zero]

/-- The high part is missed unless it is zero. -/
theorem low_eq_fillTo_piece_iff (signed : Bool) (x : BitVec h) (y : BitVec l) (hh : 0 < h) (hw : h + l ≤ w) :
    y.setWidth w = fillTo signed (piece (h + l) x y) w ↔ x = 0#h := by
  rw [← shiftLeft_or_piece signed x y hh hw]
  constructor
  · intro heq
    apply BitVec.eq_of_getLsbD_eq
    intro i hi
    have hbit := congrArg (fun v => v.getLsbD (l + i)) heq
    simp only [BitVec.getLsbD_setWidth, BitVec.getLsbD_of_ge y (l + i) (by omega), BitVec.getLsbD_or, BitVec.getLsbD_shiftLeft,
      decide_eq_true (show l + i < w by omega), decide_eq_false (show ¬ l + i < l by omega), Nat.add_sub_cancel_left,
      getLsbD_fillTo (show i < w by omega), if_pos hi, Bool.not_false, Bool.true_and, Bool.or_false, Bool.and_false] at hbit
    rw [← hbit, BitVec.getLsbD_zero]
  · rintro rfl
    rw [fillTo_zero, BitVec.zero_shiftLeft, BitVec.zero_or]

theorem fillTo_self (signed : Bool) (x : BitVec w) : fillTo signed x w = x := by
  apply BitVec.eq_of_getLsbD_eq
  intro i hi
  rw [getLsbD_fillTo hi, if_pos hi]

theorem fillTo_piece_eq (signed : Bool) (x : BitVec h) (y : BitVec l) {u : Nat} (hu : h + l = u) :
    fillTo signed (piece u x y) w = fillTo signed (piece (h + l) x y) w := by
  subst hu
  rfl

/-- The sign of a number on top of it. -/
theorem piece_signFill (z : BitVec l) (hl : 0 < l) : piece (l + l) (signFill z) z = z.signExtend (l + l) := by
  apply BitVec.eq_of_getLsbD_eq
  intro i hi
  rw [getLsbD_piece le_rfl, BitVec.getLsbD_signExtend, decide_eq_true hi, Bool.true_and]
  split
  · rfl
  · rw [signFill]
    cases z.msb with
    | false => rw [if_neg (by decide), BitVec.getLsbD_zero]
    | true => rw [if_pos rfl, BitVec.getLsbD_allOnes, decide_eq_true (by omega)]

/-- Two extensions of a number to twice its bits and further agree where there is nothing
above, or the second one is signed, or the number is not negative. -/
theorem fillTo_signExtend_iff (signed : Bool) (z : BitVec l) (hl : 0 < l) (hw : l + l ≤ w) :
    fillTo signed (z.signExtend (l + l)) w = z.signExtend w ↔ z.msb = false ∨ signed = true ∨ l + l = w := by
  have hmsb : (z.signExtend (l + l)).msb = z.msb := by
    rw [← piece_signFill z hl, msb_piece hl, signFill]
    cases z.msb with
    | false => exact BitVec.msb_zero
    | true => rw [if_pos rfl, BitVec.msb_allOnes hl]
  constructor
  · intro heq
    by_contra hnot
    rw [not_or, not_or, Bool.not_eq_false, Bool.not_eq_true] at hnot
    obtain ⟨hneg, hsigned, hne⟩ := hnot
    have hbit := congrArg (fun v => v.getLsbD (l + l)) heq
    simp only [getLsbD_fillTo (show l + l < w by omega), lt_irrefl, if_false, hsigned, Bool.false_and, BitVec.getLsbD_signExtend,
      decide_eq_true (show l + l < w by omega), Bool.true_and, if_neg (show ¬ l + l < l by omega), hneg] at hbit
    cases hbit
  · intro hcases
    apply BitVec.eq_of_getLsbD_eq
    intro i hi
    rw [getLsbD_fillTo hi, hmsb, BitVec.getLsbD_signExtend, BitVec.getLsbD_signExtend, decide_eq_true hi, Bool.true_and]
    by_cases htop : i < l + l
    · rw [if_pos htop, decide_eq_true htop, Bool.true_and]
    · rw [if_neg htop, if_neg (by omega)]
      rcases hcases with hpos | hsigned | heq
      · rw [hpos, Bool.and_false]
      · rw [hsigned, Bool.true_and]
      · omega

/-- The zero extension is the signed one where the number is not negative. -/
theorem setWidth_eq_signExtend_iff (z : BitVec l) (hw : l < w) : z.setWidth w = z.signExtend w ↔ z.msb = false := by
  constructor
  · intro heq
    have hbit := congrArg (fun v => v.getLsbD l) heq
    simp only [BitVec.getLsbD_setWidth, BitVec.getLsbD_of_ge z l le_rfl, Bool.and_false, BitVec.getLsbD_signExtend, decide_eq_true hw,
      Bool.true_and, lt_irrefl, if_false] at hbit
    exact hbit.symm
  · intro hpos
    rw [BitVec.signExtend_eq_setWidth_of_msb_false hpos]

end Shifted

end BitPieces
