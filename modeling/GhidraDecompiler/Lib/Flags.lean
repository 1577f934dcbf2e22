import Mathlib.Init

/-! Flag words: testing, setting and clearing groups of bits. -/

namespace GhidraDecompiler.Flags

variable {w : Nat} {x m f : BitVec w}

theorem and_not_of_and_eq_zero (h : x &&& m = 0#w) : x &&& ~~~m = x := by
  ext i hi
  have hb := congrArg (fun z => z.getLsbD i) h
  simp only [BitVec.getLsbD_and, BitVec.getLsbD_zero] at hb
  rw [BitVec.getLsbD_eq_getElem hi, BitVec.getLsbD_eq_getElem hi] at hb
  cases hx : x[i] <;> simp_all

/-- Clearing other bits does not change a test. -/
theorem clear_and_of_disjoint (h : f &&& m = 0#w) : (x &&& ~~~m) &&& f = x &&& f := by
  rw [BitVec.and_assoc, BitVec.and_comm (~~~m), and_not_of_and_eq_zero h]

/-- A test for bits that have just been cleared fails. -/
theorem clear_and_of_subset (h : f &&& ~~~m = 0#w) : (x &&& ~~~m) &&& f = 0#w := by
  rw [BitVec.and_assoc, BitVec.and_comm (~~~m), h, BitVec.and_zero]

/-- Setting other bits does not change a test. -/
theorem set_and_of_disjoint (h : m &&& f = 0#w) : (x ||| m) &&& f = x &&& f := by
  rw [BitVec.and_or_distrib_right, h, BitVec.or_zero]

/-- Toggling other bits does not change a test. -/
theorem xor_and_of_disjoint (h : m &&& f = 0#w) : (x ^^^ m) &&& f = x &&& f := by
  ext i hi
  have hb := congrArg (fun z => z.getLsbD i) h
  simp only [BitVec.getLsbD_and, BitVec.getLsbD_zero] at hb
  rw [BitVec.getLsbD_eq_getElem hi, BitVec.getLsbD_eq_getElem hi] at hb
  cases hm : m[i] <;> simp_all

theorem set_and_ne_zero (h : m &&& f ≠ 0#w) : (x ||| m) &&& f ≠ 0#w := by
  rw [BitVec.and_or_distrib_right, ne_eq, BitVec.or_eq_zero_iff]
  exact fun hz => h hz.2

end GhidraDecompiler.Flags
