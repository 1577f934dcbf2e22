import GhidraDecompiler.Range.CircleUnion

namespace GhidraDecompiler.Range.CircleRange

open Pcode

variable {r : CircleRange} {n : Nat}

/-- The comparison, with the constant in its slot and the value in the other, evaluates
to one just on the values of the range, and the inputs for which it is true are a range
with these values. -/
def Translation (r : CircleRange) (opc : OpCode) (cval cslot n : Nat) : Prop :=
  (∀ x < 2 ^ (8 * n), ∃ out, evaluateBinary opc 1 n (BitVec.ofNat 64 (operands (1 - cslot) x cval).1)
      (BitVec.ofNat 64 (operands (1 - cslot) x cval).2) = .ok out ∧ (r.contains x = true ↔ out = 1)) ∧
    ∃ r', (newBool true).pullBackBinary opc cval (1 - cslot) n 1 = (true, r') ∧ ∀ x < 2 ^ (8 * n), r'.contains x = r.contains x

theorem WellFormed.within (hr : r.WellFormed) (h : ByteSize n) (hstep : r.step = 1) (hmask : r.mask = maskOf n) : Within n r := by
  have hmax := maskOf_eq h
  have hpos : 0 < 2 ^ (8 * n) := Nat.two_pow_pos _
  have hl := hr.left
  have hright := hr.right
  exact ⟨hstep, hmask, by omega, by omega⟩

theorem ofBool_eq_one_iff (b : Bool) : ofBool b = 1 ↔ b = true := by cases b <;> decide

theorem translate2Op_exact (r : CircleRange) (n : Nat) (h : ByteSize n) (hr : r.WellFormed) (hstep : r.step = 1)
    (hmask : r.mask = maskOf n) :
    (∀ opc cval cslot, r.translate2Op = (0, opc, cval, cslot) → Translation r opc cval cslot n) ∧
      (r.translate2Op.1 = 1 → ∀ x < 2 ^ (8 * n), r.contains x = true) ∧
      (r.translate2Op.1 = 3 → ∀ x < 2 ^ (8 * n), r.contains x = false) := by
  have hw := hr.within h hstep hmask
  refine ⟨fun opc cval cslot ht => ?_, fun ht x _ => translate2Op_full hw ht, fun ht x _ => translate2Op_empty ht⟩
  obtain ⟨-, hopc, hval, hholds⟩ := translate2Op_comparison h hw ht
  constructor
  · intro x hx
    obtain ⟨hl, hr'⟩ := operands_lt hx hval (1 - cslot)
    refine ⟨_, evaluate_comparison hopc h hl hr', ?_⟩
    rw [ofBool_eq_one_iff, hholds x hx]
  · obtain ⟨r', hpull, -, hmem⟩ := pullBackBinary_newBool hopc h hval (1 - cslot) 1 true
    refine ⟨r', hpull, fun x hx => ?_⟩
    rw [hmem x hx, hholds x hx, beq_true]

theorem translate2Op_exact_negative : Translation ⟨0x80, 0xfe, 0xff, false, 1⟩ .intSless 0xfe 1 1 :=
  (translate2Op_exact ⟨0x80, 0xfe, 0xff, false, 1⟩ 1 (by decide)
    ⟨⟨1, by decide, rfl⟩, ⟨0, by decide, rfl⟩, by decide, by decide, rfl⟩ rfl rfl).1 _ _ _ (by decide)

end GhidraDecompiler.Range.CircleRange
