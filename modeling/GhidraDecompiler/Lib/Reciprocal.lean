import Mathlib.Algebra.Order.Ring.Int
import Mathlib.Tactic.Linarith
import Mathlib.Tactic.Ring

namespace GhidraDecompiler.Reciprocal

variable {p d y e x : Nat}

/-- The multiplier `y` stands for the reciprocal of `d`: it is `p / d`, rounded up, with the
error `e`. -/
structure Approximates (p d y e : Nat) : Prop where
  pos : 0 < p
  divisor : 0 < d
  product : d * y = p + e
  excess : 0 < e

theorem Approximates.scaled (h : Approximates p d y e) (x : Nat) : d * (x * y) = x * p + x * e := by
  calc d * (x * y) = x * (d * y) := by ring
    _ = x * p + x * e := by rw [h.product, Nat.mul_add]

/-- The product lies above the multiple of the quotient, and above it strictly unless `x` is
zero. -/
theorem Approximates.lower (h : Approximates p d y e) (hx : 0 < x) : x / d * p < x * y := by
  apply Nat.lt_of_mul_lt_mul_left (a := d)
  calc d * (x / d * p) = d * (x / d) * p := (Nat.mul_assoc _ _ _).symm
    _ ≤ x * p := Nat.mul_le_mul_right p (Nat.mul_div_le x d)
    _ < x * p + x * e := Nat.lt_add_of_pos_right (Nat.mul_pos hx h.excess)
    _ = d * (x * y) := (h.scaled x).symm

theorem Approximates.upper (h : Approximates p d y e) (hx : x * e ≤ p) : x * y ≤ (x / d + 1) * p := by
  refine Nat.le_of_mul_le_mul_left (c := d) ?_ h.divisor
  calc d * (x * y) = x * p + x * e := h.scaled x
    _ ≤ (x + 1) * p := by rw [Nat.add_mul, Nat.one_mul]; omega
    _ ≤ d * (x / d + 1) * p := Nat.mul_le_mul_right p (Nat.lt_mul_div_succ x h.divisor)
    _ = d * ((x / d + 1) * p) := Nat.mul_assoc _ _ _

theorem Approximates.upper_lt (h : Approximates p d y e) (hx : x * e < p) : x * y < (x / d + 1) * p := by
  apply Nat.lt_of_mul_lt_mul_left (a := d)
  calc d * (x * y) = x * p + x * e := h.scaled x
    _ < (x + 1) * p := by rw [Nat.add_mul, Nat.one_mul]; omega
    _ ≤ d * (x / d + 1) * p := Nat.mul_le_mul_right p (Nat.lt_mul_div_succ x h.divisor)
    _ = d * ((x / d + 1) * p) := Nat.mul_assoc _ _ _

theorem Approximates.mul_div (h : Approximates p d y e) (hx : x * e < p) : x * y / p = x / d := by
  rcases Nat.eq_zero_or_pos x with rfl | hpos
  · simp
  · rw [Nat.div_eq_iff h.pos]
    have hlower := h.lower hpos
    have hupper := h.upper_lt hx
    rw [Nat.add_mul, Nat.one_mul] at hupper
    omega

/-- On the negative side the floor is one below. -/
theorem Approximates.neg_mul_div (h : Approximates p d y e) (hpos : 0 < x) (hx : x * e ≤ p) :
    (-(x : Int) * y) / (p : Int) = -(x / d : Nat) - 1 := by
  have hlower : ((x / d : Nat) : Int) * p < x * y := by exact_mod_cast h.lower hpos
  have hupper : (x : Int) * y ≤ ((x / d : Nat) + 1) * p := by exact_mod_cast h.upper hx
  have hp : (0 : Int) < p := by exact_mod_cast h.pos
  generalize ((x / d : Nat) : Int) = k at hlower hupper ⊢
  apply le_antisymm
  · rw [Int.le_iff_lt_add_one, Int.ediv_lt_iff_lt_mul hp]
    linarith
  · rw [Int.le_ediv_iff_mul_le hp]
    linarith

end GhidraDecompiler.Reciprocal
