import GhidraDecompiler.Lib.BitWords

/-! Masks of the bits that a word may have set. -/

namespace GhidraDecompiler.BitWords

variable {w : Nat}

/-- The word has no bit outside of the mask. -/
def Within (v m : BitVec w) : Prop := v &&& ~~~m = 0#w

instance (v m : BitVec w) : Decidable (Within v m) := inferInstanceAs (Decidable (_ = _))

variable {v v' m m' : BitVec w}

theorem within_iff : Within v m ↔ ∀ i, v.getLsbD i = true → m.getLsbD i = true := by
  constructor
  · intro h i hi
    have hlt := BitVec.lt_of_getLsbD hi
    have hbit := congrArg (fun z => z.getLsbD i) h
    simpa [hi, hlt] using hbit
  · intro h
    refine BitVec.eq_of_getLsbD_eq fun i hlt => ?_
    have := h i
    cases hi : v.getLsbD i with
    | false => simp [hi]
    | true => simp [this hi]

theorem Within.or_left (h : Within v m) : Within v (m ||| m') := by
  rw [within_iff] at h ⊢
  intro i hi
  rw [BitVec.getLsbD_or, h i hi, Bool.true_or]

theorem Within.or_right (h : Within v m) : Within v (m' ||| m) := by
  rw [BitVec.or_comm]
  exact h.or_left

theorem Within.or (h : Within v m) (h' : Within v' m') : Within (v ||| v') (m ||| m') := by
  rw [within_iff] at h h' ⊢
  intro i hi
  rw [BitVec.getLsbD_or, Bool.or_eq_true] at hi ⊢
  exact hi.imp (h i) (h' i)

theorem Within.and (h : Within v m) (h' : Within v' m') : Within (v &&& v') (m &&& m') := by
  rw [within_iff] at h h' ⊢
  intro i hi
  rw [BitVec.getLsbD_and, Bool.and_eq_true] at hi ⊢
  exact ⟨h i hi.1, h' i hi.2⟩

theorem Within.xor (h : Within v m) (h' : Within v' m') : Within (v ^^^ v') (m ||| m') := by
  rw [within_iff] at h h' ⊢
  intro i hi
  rw [BitVec.getLsbD_or, Bool.or_eq_true]
  cases hv : v.getLsbD i with
  | true => exact .inl (h i hv)
  | false => exact .inr (h' i (by simpa [hv] using hi))

theorem Within.shiftLeft (h : Within v m) (s : Nat) : Within (v <<< s) (m <<< s) := by
  rw [within_iff] at h ⊢
  intro i hi
  rw [BitVec.getLsbD_shiftLeft, Bool.and_eq_true, Bool.and_eq_true] at hi ⊢
  exact ⟨hi.1, h _ hi.2⟩

theorem Within.ushiftRight (h : Within v m) (s : Nat) : Within (v >>> s) (m >>> s) := by
  rw [within_iff] at h ⊢
  intro i hi
  rw [BitVec.getLsbD_ushiftRight] at hi ⊢
  exact h _ hi

theorem Within.msb (h : Within v m) (hv : v.msb = true) : m.msb = true := by
  rw [BitVec.msb_eq_getLsbD_last] at hv ⊢
  exact within_iff.1 h _ hv

theorem Within.sshiftRight (h : Within v m) (s : Nat) : Within (v.sshiftRight s) (m.sshiftRight s) := by
  rw [within_iff]
  intro i hi
  rw [BitVec.getLsbD_sshiftRight, Bool.and_eq_true] at hi ⊢
  refine ⟨hi.1, ?_⟩
  have hbit := hi.2
  by_cases hlt : s + i < w
  · rw [if_pos hlt] at hbit ⊢
    exact within_iff.1 h _ hbit
  · rw [if_neg hlt] at hbit ⊢
    exact h.msb hbit

theorem Within.toNat_le (h : Within v m) : v.toNat ≤ m.toNat := by
  apply Nat.le_of_testBit
  intro i hi
  exact within_iff.1 h i hi

/-- No carry leaves a position where neither summand may have a bit. -/
theorem Within.add (h : Within v m) (h' : Within v' m') : Within (v + v') (m ||| m' ||| (m ||| m') <<< 1) := by
  rw [within_iff] at h h' ⊢
  intro i hi
  have hlt := BitVec.lt_of_getLsbD hi
  have hsum : ∀ j, v.getLsbD j = true ∨ v'.getLsbD j = true → (m ||| m').getLsbD j = true := by
    intro j hj
    rw [BitVec.getLsbD_or, Bool.or_eq_true]
    exact hj.imp (h j) (h' j)
  rw [BitVec.getLsbD_or, Bool.or_eq_true, BitVec.getLsbD_shiftLeft]
  rw [BitVec.getLsbD_add hlt] at hi
  by_cases hbit : v.getLsbD i = true ∨ v'.getLsbD i = true
  · exact .inl (hsum i hbit)
  · rw [not_or, Bool.not_eq_true, Bool.not_eq_true] at hbit
    rw [hbit.1, hbit.2, Bool.false_xor, Bool.false_xor] at hi
    right
    cases i with
    | zero => simp at hi
    | succ j =>
        rw [BitVec.carry_succ] at hi
        have hcarry : v.getLsbD j = true ∨ v'.getLsbD j = true := by
          cases hv : v.getLsbD j <;> cases hv' : v'.getLsbD j <;> simp [hv, hv'] at hi ⊢
        simpa [hlt] using hsum j hcarry

theorem Within.add_disjoint (h : Within v m) (h' : Within v' m') (hand : m' &&& m = 0#w) :
    Within (v + v') (m ||| m') := by
  have hzero : v &&& v' = 0#w := by
    refine BitVec.eq_of_getLsbD_eq fun i _ => ?_
    have hbit := congrArg (fun z => z.getLsbD i) hand
    rw [BitVec.getLsbD_and, BitVec.getLsbD_zero, Bool.and_eq_false_iff]
    simp only [BitVec.getLsbD_and, BitVec.getLsbD_zero, Bool.and_eq_false_iff] at hbit
    rcases hbit with hbit | hbit
    · right
      exact Bool.eq_false_iff.mpr fun hv => absurd (within_iff.1 h' i hv) (by simp [hbit])
    · left
      exact Bool.eq_false_iff.mpr fun hv => absurd (within_iff.1 h i hv) (by simp [hbit])
  rw [BitVec.add_eq_or_of_and_eq_zero _ _ hzero]
  exact h.or h'

theorem Within.countOnes_le (h : Within v m) : countOnes v ≤ countOnes m :=
  List.countP_mono_left fun i _ hi => within_iff.1 h i hi

/-! The mask from the highest bit down. -/

/-- A word is covered once there is some bit above each of its own. -/
def Covers (c m : BitVec w) : Prop := ∀ i j, i ≤ j → m.getLsbD j = true → c.getLsbD i = true

theorem getLsbD_of_pow_le {i : Nat} (h : 2 ^ i ≤ m.toNat) : ∃ j, i ≤ j ∧ m.getLsbD j = true := by
  obtain ⟨j, hj, hbit⟩ := Nat.exists_ge_and_testBit_of_ge_two_pow h
  exact ⟨j, hj, hbit⟩

theorem pow_le_of_getLsbD {i : Nat} (h : v.getLsbD i = true) : 2 ^ i ≤ v.toNat := Nat.ge_two_pow_of_testBit h

theorem Covers.getLsbD {c : BitVec w} (h : Covers c m) {i : Nat} (hi : 2 ^ i ≤ m.toNat) : c.getLsbD i = true := by
  obtain ⟨j, hj, hbit⟩ := getLsbD_of_pow_le hi
  exact h i j hj hbit

theorem Covers.within {c : BitVec w} (h : Covers c m) (hle : v.toNat ≤ m.toNat) : Within v c := by
  rw [within_iff]
  intro i hi
  exact h.getLsbD ((pow_le_of_getLsbD hi).trans hle)

/-- The bits within some distance above. -/
def Reach (k : Nat) (c m : BitVec w) : Prop := ∀ i, c.getLsbD i = true ↔ ∃ j, i ≤ j ∧ j < i + k ∧ m.getLsbD j = true

theorem reach_one (m : BitVec w) : Reach 1 m m := by
  intro i
  constructor
  · intro hi
    exact ⟨i, le_rfl, Nat.lt_succ_self i, hi⟩
  · rintro ⟨j, hij, hlt, hj⟩
    rwa [show i = j by omega]

theorem Reach.double {k : Nat} {c : BitVec w} (h : Reach k c m) : Reach (k + k) (c ||| c >>> k) m := by
  intro i
  rw [BitVec.getLsbD_or, Bool.or_eq_true, BitVec.getLsbD_ushiftRight, h i, h (k + i)]
  constructor
  · rintro (⟨j, hij, hlt, hj⟩ | ⟨j, hij, hlt, hj⟩)
    · exact ⟨j, hij, by omega, hj⟩
    · exact ⟨j, by omega, by omega, hj⟩
  · rintro ⟨j, hij, hlt, hj⟩
    by_cases hnear : j < i + k
    · exact .inl ⟨j, hij, hnear, hj⟩
    · exact .inr ⟨j, by omega, by omega, hj⟩

theorem Reach.covers {k : Nat} {c : BitVec w} (h : Reach k c m) (hk : w ≤ k) : Covers c m := by
  intro i j hij hj
  have := BitVec.lt_of_getLsbD hj
  exact (h i).mpr ⟨j, hij, by omega, hj⟩

/-! Products. -/

/-- The number of zeros below the lowest bit that is set. -/
def trailingZeros (v : BitVec w) : Nat := (List.range w).findIdx v.getLsbD

theorem getLsbD_of_lt_trailingZeros {i : Nat} (h : i < trailingZeros m) : m.getLsbD i = false := by
  have hlt : i < w := by
    have : (List.range w).findIdx m.getLsbD ≤ (List.range w).length := List.findIdx_le_length
    rw [List.length_range] at this
    exact lt_of_lt_of_le h this
  have hnot := List.not_of_lt_findIdx h
  simpa using hnot

theorem Within.dvd (h : Within v m) : 2 ^ trailingZeros m ∣ v.toNat := by
  apply Nat.dvd_of_mod_eq_zero
  apply Nat.eq_of_testBit_eq
  intro i
  rw [Nat.testBit_mod_two_pow, Nat.zero_testBit]
  by_cases hi : i < trailingZeros m
  · have hv : v.toNat.testBit i = false :=
      Bool.eq_false_iff.mpr fun hbit => by simpa [getLsbD_of_lt_trailingZeros hi] using within_iff.1 h i hbit
    rw [hv, Bool.and_false]
  · rw [decide_eq_false hi, Bool.false_and]

theorem trailingZeros_le_log2 (hm : m ≠ 0#w) : trailingZeros m ≤ m.toNat.log2 := by
  have hne : m.toNat ≠ 0 := fun h => hm (BitVec.eq_of_toNat_eq h)
  by_contra hlt
  have hbit := getLsbD_of_lt_trailingZeros (Nat.lt_of_not_le hlt)
  have htest : m.toNat.testBit m.toNat.log2 = true := Nat.testBit_log2 hne
  rw [BitVec.getLsbD, htest] at hbit
  exact absurd hbit (by decide)

theorem getLsbD_trailingZeros (hm : m ≠ 0#w) : m.getLsbD (trailingZeros m) = true := by
  have hne : m.toNat ≠ 0 := fun h => hm (BitVec.eq_of_toNat_eq h)
  have hlt : trailingZeros m < w := by
    have hlog : 2 ^ m.toNat.log2 < 2 ^ w := (Nat.log2_self_le hne).trans_lt m.isLt
    exact (trailingZeros_le_log2 hm).trans_lt ((Nat.pow_lt_pow_iff_right (by decide)).mp hlog)
  have hlen : (List.range w).findIdx m.getLsbD < (List.range w).length := by rwa [List.length_range]
  have hbit := List.findIdx_getElem (w := hlen)
  rwa [List.getElem_range] at hbit

/-- A word within a mask is a multiple of the lowest bit of the mask. -/
theorem Within.eq_mul (h : Within v m) (hm : m ≠ 0#w) :
    ∃ a, a < 2 ^ (m.toNat.log2 + 1 - trailingZeros m) ∧ v.toNat = 2 ^ trailingZeros m * a := by
  obtain ⟨a, ha⟩ := h.dvd
  refine ⟨a, ?_, ha⟩
  have hle := trailingZeros_le_log2 hm
  have hlt : 2 ^ trailingZeros m * a < 2 ^ trailingZeros m * 2 ^ (m.toNat.log2 + 1 - trailingZeros m) := by
    rw [← ha, ← Nat.pow_add, Nat.add_sub_cancel' (by omega)]
    exact h.toNat_le.trans_lt Nat.lt_log2_self
  exact Nat.lt_of_mul_lt_mul_left hlt

/-- The bits that a product needs; a factor of one bit is zero or one. -/
def productBits (j k : Nat) : Nat := if j = 1 ∨ k = 1 then j + k - 1 else j + k

theorem mul_lt_productBits {a b j k : Nat} (ha : a < 2 ^ j) (hb : b < 2 ^ k) : a * b < 2 ^ productBits j k := by
  by_cases hj : j = 1
  · subst hj
    have : a ≤ 1 := by omega
    rw [productBits, if_pos (.inl rfl), Nat.add_sub_cancel_left]
    calc a * b ≤ 1 * b := Nat.mul_le_mul_right b this
      _ = b := Nat.one_mul b
      _ < 2 ^ k := hb
  · by_cases hk : k = 1
    · subst hk
      have : b ≤ 1 := by omega
      rw [productBits, if_pos (.inr rfl), Nat.add_sub_cancel]
      calc a * b ≤ a * 1 := Nat.mul_le_mul_left a this
        _ = a := Nat.mul_one a
        _ < 2 ^ j := ha
    · rw [productBits, if_neg (by omega), Nat.pow_add]
      exact Nat.mul_lt_mul'' ha hb

end GhidraDecompiler.BitWords
