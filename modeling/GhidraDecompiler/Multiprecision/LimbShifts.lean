import GhidraDecompiler.Multiprecision.Words128
import GhidraDecompiler.Lib.LongDivision

namespace GhidraDecompiler.Multiprecision

open Fallible LongDivision
open Pcode (Word)

variable {shift : Nat}

section Left

theorem toNat_shiftLeft_limb (x : Limb) (hlt : shift < 32) :
    (x <<< shift).toNat = x.toNat % 2 ^ (32 - shift) * 2 ^ shift := by
  have hpow : (2 : Nat) ^ 32 = 2 ^ (32 - shift) * 2 ^ shift := by
    rw [← Nat.pow_add, Nat.sub_add_cancel hlt.le]
  rw [BitVec.toNat_shiftLeft, Nat.shiftLeft_eq, hpow, Nat.mul_mod_mul_right]

/-- The lower part of one limb, joined with the upper part of its neighbour. -/
theorem toNat_joinLeft (x y : Limb) (hlt : shift < 32) :
    ((x <<< shift) ||| (y >>> (32 - shift))).toNat = x.toNat % 2 ^ (32 - shift) * 2 ^ shift + y.toNat / 2 ^ (32 - shift) := by
  have hy : y.toNat / 2 ^ (32 - shift) < 2 ^ shift := by
    rw [Nat.div_lt_iff_lt_mul (Nat.two_pow_pos _), ← Nat.pow_add, Nat.add_sub_cancel' hlt.le]
    exact y.isLt
  rw [BitVec.toNat_or, BitVec.toNat_ushiftRight, Nat.shiftRight_eq_div_pow, toNat_shiftLeft_limb x hlt,
    Nat.mul_comm _ (2 ^ shift), ← Nat.two_pow_add_eq_or_of_lt hy]

theorem split_shifted (x : Nat) (hlt : shift < 32) :
    x % 2 ^ (32 - shift) * 2 ^ shift + 2 ^ 32 * (x / 2 ^ (32 - shift)) = x * 2 ^ shift := by
  have hpow : (2 : Nat) ^ 32 = 2 ^ (32 - shift) * 2 ^ shift := by
    rw [← Nat.pow_add, Nat.sub_add_cancel hlt.le]
  have hsplit := Nat.mod_add_div x (2 ^ (32 - shift))
  generalize x % 2 ^ (32 - shift) = r at hsplit ⊢
  generalize x / 2 ^ (32 - shift) = d at hsplit ⊢
  rw [← hsplit, hpow]
  ring

theorem shiftLeftSlots_spec (hlt : shift < 32) {n : Nat} {x : Limb} {t done : List Limb} (ht : t.length = n) :
    ∃ t', shiftLeftSlots shift n (x :: t ++ done) = .ok (x :: t' ++ done) ∧ t'.length = n ∧
      value ((x <<< shift) :: t') + 2 ^ (32 * (n + 1)) * (((x :: t).getLast (by simp)).toNat / 2 ^ (32 - shift)) =
        value (x :: t) * 2 ^ shift := by
  induction n generalizing t done with
  | zero =>
      rw [List.length_eq_zero_iff] at ht
      subst ht
      have hsplit := split_shifted x.toNat hlt
      refine ⟨[], rfl, rfl, ?_⟩
      rw [value_singleton, value_singleton, toNat_shiftLeft_limb x hlt]
      exact hsplit
  | succ n ih =>
      rcases List.eq_nil_or_concat' t with rfl | ⟨t, y, rfl⟩
      · cases ht
      rw [List.length_append, List.length_singleton, Nat.add_right_cancel_iff] at ht
      have hlast := List.dropLast_append_getLast (l := x :: t) (by simp)
      generalize hprev : (x :: t).getLast (by simp) = prev at hlast
      have hhigh : getIdx (x :: (t ++ [y]) ++ done) (n + 1) = .ok y :=
        getIdx_at (p := x :: t) (r := done) (by simp) (by simp [ht])
      have hlow : getIdx (x :: (t ++ [y]) ++ done) n = .ok prev := by
        apply getIdx_at (p := (x :: t).dropLast) (r := y :: done)
        · rw [← List.singleton_append (l := y :: done), ← List.append_assoc, hlast]
          simp
        · simp [ht]
      have hset : ∀ z, setIdx (x :: (t ++ [y]) ++ done) (n + 1) z = .ok (x :: t ++ z :: done) := fun z =>
        setIdx_at (a := y) z (by simp) (by simp [ht])
      obtain ⟨t', hrun, hlen, hval⟩ := @ih t (((y <<< shift) ||| (prev >>> (32 - shift))) :: done) ht
      rw [hprev] at hval
      refine ⟨t' ++ [(y <<< shift) ||| (prev >>> (32 - shift))], ?_, by simp [hlen], ?_⟩
      · rw [shiftLeftSlots, hhigh, ok_bind, hlow, ok_bind, hset, ok_bind, hrun]
        simp
      · have hsplit := split_shifted y.toNat hlt
        have hy : (x :: (t ++ [y])).getLast (by simp) = y := by
          simp
        rw [hy, ← List.cons_append, ← List.cons_append, value_append, value_append, value_singleton, value_singleton,
          toNat_joinLeft y prev hlt, List.length_cons, List.length_cons, hlen, ht, Nat.mul_succ 32 (n + 1), Nat.pow_add, Nat.add_mul, ← hval, Nat.mul_assoc _ y.toNat, ← hsplit]
        ring

theorem shiftLeft_spec (hlt : shift < 32) {l rest : List Limb} (hl : l ≠ [])
    (htop : (l.getLast hl).toNat / 2 ^ (32 - shift) = 0) :
    ∃ l', shiftLeft (l ++ rest) l.length shift = .ok (l' ++ rest) ∧ l'.length = l.length ∧ value l' = value l * 2 ^ shift := by
  rw [shiftLeft]
  by_cases hzero : shift = 0
  · subst hzero
    exact ⟨l, rfl, rfl, by simp⟩
  · obtain ⟨x, t, rfl⟩ := List.exists_cons_of_ne_nil hl
    obtain ⟨t', hrun, hlen, hval⟩ := @shiftLeftSlots_spec shift hlt t.length x t rest rfl
    rw [htop, Nat.mul_zero, Nat.add_zero] at hval
    refine ⟨(x <<< shift) :: t', ?_, by simp [hlen], hval⟩
    rw [if_neg hzero, List.length_cons, Nat.add_sub_cancel, hrun, ok_bind]
    rfl

end Left

section Right

/-- The upper part of one limb, joined with the lower part of its neighbour. -/
theorem toNat_joinRight (x y : Limb) (hlt : shift < 32) (hpos : 0 < shift) :
    ((x >>> shift) ||| (y <<< (32 - shift))).toNat = x.toNat / 2 ^ shift + y.toNat % 2 ^ shift * 2 ^ (32 - shift) := by
  have h := @toNat_joinLeft (32 - shift) y x (by omega)
  rw [BitVec.or_comm, Nat.sub_sub_self hlt.le] at h
  rw [h, Nat.add_comm]

theorem shiftRightSlots_spec (hlt : shift < 32) (hpos : 0 < shift) {n slot : Nat} {pre post t : List Limb} {x : Limb}
    (hpre : pre.length = slot) (ht : t.length = n) :
    ∃ init last, shiftRightSlots shift n slot (pre ++ (x :: t ++ post)) = .ok (pre ++ (init ++ last :: post)) ∧
      init.length = n ∧ value (init ++ [last >>> shift]) * 2 ^ shift + x.toNat % 2 ^ shift = value (x :: t) := by
  induction n generalizing slot pre x t with
  | zero =>
      rw [List.length_eq_zero_iff] at ht
      subst ht
      refine ⟨[], x, by simp [shiftRightSlots], rfl, ?_⟩
      rw [List.nil_append, value_singleton, value_singleton, BitVec.toNat_ushiftRight, Nat.shiftRight_eq_div_pow]
      exact Nat.div_add_mod' _ _
  | succ n ih =>
      obtain ⟨y, t, rfl⟩ := List.exists_cons_of_length_eq_add_one ht
      rw [List.length_cons, Nat.add_right_cancel_iff] at ht
      have hlow : getIdx (pre ++ (x :: y :: t ++ post)) slot = .ok x := getIdx_at rfl hpre
      have hhigh : getIdx (pre ++ (x :: y :: t ++ post)) (slot + 1) = .ok y :=
        getIdx_at (p := pre ++ [x]) (r := t ++ post) (by simp) (by simp [hpre])
      have hset : ∀ z, setIdx (pre ++ (x :: y :: t ++ post)) slot z = .ok (pre ++ [z] ++ (y :: t ++ post)) := by
        intro z
        rw [setIdx_at (a := x) (r := y :: t ++ post) z (by simp) hpre]
        simp
      obtain ⟨init, last, hrun, hlen, hval⟩ := @ih (slot + 1)
        (pre ++ [(x >>> shift) ||| (y <<< (32 - shift))]) t y (by simp [hpre]) ht
      refine ⟨((x >>> shift) ||| (y <<< (32 - shift))) :: init, last, ?_, by simp [hlen], ?_⟩
      · rw [shiftRightSlots, hlow, ok_bind, hhigh, ok_bind, hset, ok_bind, hrun]
        simp
      · have hpow : (2 : Nat) ^ 32 = 2 ^ (32 - shift) * 2 ^ shift := by
          rw [← Nat.pow_add, Nat.sub_add_cancel hlt.le]
        have hsplit := Nat.div_add_mod' x.toNat (2 ^ shift)
        rw [List.cons_append, value_cons, toNat_joinRight x y hlt hpos, value_cons x, ← hval]
        generalize x.toNat / 2 ^ shift = d at hsplit ⊢
        generalize x.toNat % 2 ^ shift = r at hsplit ⊢
        rw [← hsplit, hpow]
        ring

theorem shiftRight_spec (hlt : shift < 32) {l rest : List Limb} {v : Nat} (hl : l ≠ []) (hv : value l = v * 2 ^ shift) :
    ∃ l', shiftRight (l ++ rest) l.length shift = .ok (l' ++ rest) ∧ l'.length = l.length ∧ value l' = v := by
  rw [shiftRight]
  by_cases hzero : shift = 0
  · subst hzero
    exact ⟨l, rfl, rfl, by simpa using hv⟩
  · obtain ⟨x, t, rfl⟩ := List.exists_cons_of_ne_nil hl
    obtain ⟨init, last, hrun, hlen, hval⟩ := @shiftRightSlots_spec shift hlt (Nat.pos_of_ne_zero hzero) t.length 0 [] rest t x
      rfl rfl
    rw [List.nil_append, List.nil_append] at hrun
    refine ⟨init ++ [last >>> shift], ?_, by simp [hlen], ?_⟩
    · have hget : getIdx (init ++ last :: rest) t.length = .ok last := getIdx_at rfl hlen
      have hset : setIdx (init ++ last :: rest) t.length (last >>> shift) = .ok (init ++ (last >>> shift) :: rest) :=
        setIdx_at _ rfl hlen
      rw [if_neg hzero, List.length_cons, Nat.add_sub_cancel, hrun, ok_bind, hget, ok_bind, hset]
      simp
    · -- nothing is shifted out
      rw [hv] at hval
      have hmod := congrArg (· % 2 ^ shift) hval
      simp only [Nat.mul_add_mod_self_right, Nat.mod_mod, Nat.mul_mod_left] at hmod
      rw [hmod, Nat.add_zero] at hval
      exact Nat.eq_of_mul_eq_mul_right (Nat.two_pow_pos shift) hval

end Right

end GhidraDecompiler.Multiprecision
