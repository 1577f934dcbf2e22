import Mathlib.Data.Nat.Basic
import Mathlib.Tactic.Linarith
import Mathlib.Tactic.Ring

namespace GhidraDecompiler.LongDivision

section Value

variable {w : Nat}

/-- The number with these digits, the lowest digit first. -/
def value : List (BitVec w) → Nat
  | [] => 0
  | x :: xs => x.toNat + 2 ^ w * value xs

@[simp] theorem value_nil : value ([] : List (BitVec w)) = 0 := rfl

@[simp] theorem value_cons (x : BitVec w) (xs : List (BitVec w)) : value (x :: xs) = x.toNat + 2 ^ w * value xs := rfl

@[simp] theorem value_singleton (x : BitVec w) : value [x] = x.toNat := rfl

theorem value_append (l l' : List (BitVec w)) : value (l ++ l') = value l + 2 ^ (w * l.length) * value l' := by
  induction l with
  | nil => simp
  | cons x xs ih =>
      simp only [List.cons_append, value_cons, ih, List.length_cons, Nat.mul_succ, Nat.pow_add]
      ring

theorem value_take_drop {l : List (BitVec w)} {k : Nat} (h : k ≤ l.length) :
    value l = value (l.take k) + 2 ^ (w * k) * value (l.drop k) := by
  have happend := value_append (l.take k) (l.drop k)
  rwa [List.take_append_drop, List.length_take, Nat.min_eq_left h] at happend

theorem value_lt (l : List (BitVec w)) : value l < 2 ^ (w * l.length) := by
  induction l with
  | nil => simp
  | cons x xs ih =>
      have hx := x.isLt
      have hle : 2 ^ w * (value xs + 1) ≤ 2 ^ w * 2 ^ (w * xs.length) := Nat.mul_le_mul_left _ ih
      simp only [value_cons, List.length_cons, Nat.mul_succ, Nat.pow_add]
      rw [Nat.mul_comm (2 ^ (w * xs.length))]
      linarith

theorem value_zeros {l : List (BitVec w)} (h : ∀ x ∈ l, x = 0#w) : value l = 0 := by
  induction l with
  | nil => rfl
  | cons x xs ih =>
      rw [value_cons, ih (fun y hy => h y (List.mem_cons_of_mem _ hy)), h x List.mem_cons_self]
      simp

theorem zeros_of_value {l : List (BitVec w)} (h : value l = 0) : ∀ x ∈ l, x = 0#w := by
  induction l with
  | nil => simp
  | cons x xs ih =>
      rw [value_cons, Nat.add_eq_zero_iff, Nat.mul_eq_zero] at h
      have htail := h.2.resolve_left (Nat.two_pow_pos w).ne'
      intro y hy
      rcases List.mem_cons.mp hy with rfl | hy
      · exact BitVec.eq_of_toNat_eq h.1
      · exact ih htail y hy

end Value

section Estimate

/-- The divisor `v` has the leading digits `v₁`, `v₂`, and the number `u` starts
with `top`, `u₂`; `p` is the weight of the digits `v₂` and `u₂`. -/
structure Leading (b p v v₁ v₂ u top u₂ : Nat) : Prop where
  weight : 0 < p
  divisor_le : (v₁ * b + v₂) * p ≤ v
  lt_divisor : v < (v₁ * b + v₂ + 1) * p
  number_le : (top * b + u₂) * p ≤ u
  lt_number : u < (top * b + u₂ + 1) * p

variable {b p v v₁ v₂ u top u₂ q r : Nat}

/-- A quotient of one digit bounds the leading digits. -/
theorem Leading.top_lt (h : Leading b p v v₁ v₂ u top u₂) (hv₂ : v₂ < b) (hu : u < b * v) : top < (v₁ + 1) * b := by
  have hb : 0 < b := Nat.zero_lt_of_lt hv₂
  have hlead : (top * b + u₂) * p < b * (v₁ * b + v₂ + 1) * p := by
    calc (top * b + u₂) * p ≤ u := h.number_le
      _ < b * v := hu
      _ ≤ b * ((v₁ * b + v₂ + 1) * p) := Nat.mul_le_mul_left b h.lt_divisor.le
      _ = b * (v₁ * b + v₂ + 1) * p := (Nat.mul_assoc _ _ _).symm
  have hlt : b * top < b * (v₁ * b + v₂ + 1) := by
    calc b * top ≤ top * b + u₂ := by rw [Nat.mul_comm]; exact Nat.le_add_right _ _
      _ < b * (v₁ * b + v₂ + 1) := Nat.lt_of_mul_lt_mul_right hlead
  calc top < v₁ * b + v₂ + 1 := Nat.lt_of_mul_lt_mul_left hlt
    _ ≤ v₁ * b + b := by omega
    _ = (v₁ + 1) * b := by ring

/-- The quotient of the leading digits is not too small. -/
theorem Leading.lt_of_div (h : Leading b p v v₁ v₂ u top u₂) (hv₁ : 0 < v₁) (hu₂ : u₂ < b) : u < (top / v₁ + 1) * v := by
  have htop : top + 1 ≤ (top / v₁ + 1) * v₁ := by
    rw [Nat.mul_comm]
    exact Nat.lt_mul_div_succ top hv₁
  calc u < (top * b + u₂ + 1) * p := h.lt_number
    _ ≤ (top + 1) * b * p := Nat.mul_le_mul_right p (by rw [Nat.add_mul]; omega)
    _ ≤ (top / v₁ + 1) * v₁ * b * p := Nat.mul_le_mul_right p (Nat.mul_le_mul_right b htop)
    _ ≤ (top / v₁ + 1) * ((v₁ * b + v₂) * p) := by
        rw [Nat.mul_assoc, Nat.mul_assoc, ← Nat.mul_assoc v₁]
        exact Nat.mul_le_mul_left _ (Nat.mul_le_mul_right p (Nat.le_add_right _ _))
    _ ≤ (top / v₁ + 1) * v := Nat.mul_le_mul_left _ h.divisor_le

/-- The second digit shows that the estimate is too large. -/
theorem Leading.lt_of_test (h : Leading b p v v₁ v₂ u top u₂) (hq : q * v₁ + r = top) (htest : r * b + u₂ < q * v₂) :
    u < q * v := by
  have hlead : top * b + u₂ + 1 ≤ q * (v₁ * b + v₂) := by
    rw [← hq]
    calc (q * v₁ + r) * b + u₂ + 1 = q * v₁ * b + (r * b + u₂ + 1) := by ring
      _ ≤ q * v₁ * b + q * v₂ := Nat.add_le_add_left htest _
      _ = q * (v₁ * b + v₂) := by ring
  calc u < (top * b + u₂ + 1) * p := h.lt_number
    _ ≤ q * (v₁ * b + v₂) * p := Nat.mul_le_mul_right p hlead
    _ = q * ((v₁ * b + v₂) * p) := Nat.mul_assoc _ _ _
    _ ≤ q * v := Nat.mul_le_mul_left q h.divisor_le

/-- An estimate that passes the test is at most one too large. -/
theorem Leading.le_of_test (h : Leading b p v v₁ v₂ u top u₂) (hq : q * v₁ + r = top) (hv₁ : 0 < v₁) (hlt : q < b)
    (htest : q * v₂ ≤ r * b + u₂) : q * v ≤ u + v := by
  have hlead : q * (v₁ * b + v₂) ≤ top * b + u₂ := by
    rw [← hq]
    calc q * (v₁ * b + v₂) = q * v₁ * b + q * v₂ := by ring
      _ ≤ q * v₁ * b + (r * b + u₂) := Nat.add_le_add_left htest _
      _ = (q * v₁ + r) * b + u₂ := by ring
  have hv : q * p ≤ v := by
    calc q * p ≤ (v₁ * b + v₂) * p := Nat.mul_le_mul_right p (by nlinarith)
      _ ≤ v := h.divisor_le
  calc q * v ≤ q * ((v₁ * b + v₂ + 1) * p) := Nat.mul_le_mul_left q h.lt_divisor.le
    _ = q * (v₁ * b + v₂) * p + q * p := by ring
    _ ≤ (top * b + u₂) * p + q * p := Nat.add_le_add_right (Nat.mul_le_mul_right p hlead) _
    _ ≤ u + v := Nat.add_le_add h.number_le hv

/-- Once the remainder of the estimate has more than one digit, the estimate is not
too large. -/
theorem Leading.le_of_remainder (h : Leading b p v v₁ v₂ u top u₂) (hq : q * v₁ + r = top) (hlt : q < b) (hv₂ : v₂ < b)
    (hr : b ≤ r) : q * v ≤ u := by
  have hlead : q * (v₁ * b + v₂ + 1) ≤ top * b + u₂ := by
    rw [← hq]
    have hv₂ : q * (v₂ + 1) ≤ b * b := Nat.mul_le_mul hlt.le hv₂
    have hr : b * b ≤ r * b := Nat.mul_le_mul_right b hr
    calc q * (v₁ * b + v₂ + 1) = q * v₁ * b + q * (v₂ + 1) := by ring
      _ ≤ q * v₁ * b + r * b := Nat.add_le_add_left (hv₂.trans hr) _
      _ = (q * v₁ + r) * b := by ring
      _ ≤ (q * v₁ + r) * b + u₂ := Nat.le_add_right _ _
  calc q * v ≤ q * ((v₁ * b + v₂ + 1) * p) := Nat.mul_le_mul_left q h.lt_divisor.le
    _ = q * (v₁ * b + v₂ + 1) * p := (Nat.mul_assoc _ _ _).symm
    _ ≤ (top * b + u₂) * p := Nat.mul_le_mul_right p hlead
    _ ≤ u := h.number_le

end Estimate

end GhidraDecompiler.LongDivision
