import GhidraDecompiler.Range.UnionExact

namespace GhidraDecompiler.Range.CircleRange

open Pcode Arcs

def containsRange (self op2 : CircleRange) : Bool :=
  if self.isempty then op2.isempty
  else if op2.isempty then true
  else if op2.step < self.step && !op2.isSingle then false
  else if self.left = self.right then true
  else if op2.left = op2.right then false
  else if self.left % self.step ≠ op2.left % self.step then false
  else if self.left = op2.left ∧ self.right = op2.right then true
  else
    let overlapCode := encodeRangeOverlaps self.left self.right op2.left op2.right
    if overlapCode = 'c' then true
    else if overlapCode = 'b' ∧ self.right = op2.right then true
    else false

/-- The whole circle is taken to contain the other range, whose values have another
remainder. -/
def MissesRemainder (a b : CircleRange) : Prop :=
  a.isempty = false ∧ b.isempty = false ∧ a.left = a.right ∧ (a.step ≤ b.step ∨ b.isSingle = true) ∧
    a.left % a.step ≠ b.left % a.step

variable {a b : CircleRange} {x : Nat}

/-- The values of a range that gets past the test of the steps share one remainder. -/
theorem contains_mod_eq (ha : a.WellFormed) (hb : b.WellFormed) (hstep : a.step ≤ b.step ∨ b.isSingle = true)
    (hx : x ≤ b.mask) (hc : b.contains x = true) : x % a.step = b.left % a.step := by
  obtain ⟨i, -, hi⟩ := ha.step
  obtain ⟨j, -, hj⟩ := hb.step
  rcases hstep with hle | hsingle
  · have hdvd : a.step ∣ b.step := by
      rw [hi, hj] at hle ⊢
      exact Nat.pow_dvd_pow 2 ((Nat.pow_le_pow_iff_right (by decide)).mp hle)
    have hmod := ((contains_iff_arc _ _).mp hc).2.1
    rw [← Nat.mod_mod_of_dvd x hdvd, hmod, Nat.mod_mod_of_dvd _ hdvd]
  · rw [(contains_of_isSingle hb hsingle hx).mp hc]

theorem contains_left (hne : b.isempty = false) : b.contains b.left = true := by
  rw [contains_iff_arc]
  refine ⟨hne, rfl, ?_⟩
  rw [Arc]
  omega

/-- Of two proper ranges the arrangement of the ends decides. -/
theorem containsRange_arc (hproper : a.left ≠ a.right) (hproper' : b.left ≠ b.right)
    (hcode : (a.left = b.left ∧ a.right = b.right) ∨ encodeRangeOverlaps a.left a.right b.left b.right = 'c' ∨
      (encodeRangeOverlaps a.left a.right b.left b.right = 'b' ∧ a.right = b.right)) (hx : Arc b.left b.right x) :
    Arc a.left a.right x := by
  rcases hcode with ⟨hl, hr⟩ | hcode | ⟨hcode, hr⟩
  · rw [hl, hr]
    exact hx
  · rw [encode_iff (by decide)] at hcode
    simp [codeTable] at hcode
    simp only [Arc] at hx ⊢
    omega
  · rw [encode_iff (by decide)] at hcode
    simp [codeTable] at hcode
    simp only [Arc] at hx ⊢
    omega

theorem containsRange_sound_iff (a b : CircleRange) (ha : a.WellFormed) (hb : b.WellFormed) (hmask : a.mask = b.mask) :
    (a.containsRange b = true → ∀ x ≤ a.mask, b.contains x = true → a.contains x = true) ↔ ¬ MissesRemainder a b := by
  constructor
  · rintro hsound ⟨hne, hne', hfull, hstep, hmod⟩
    have htest : ¬ (decide (b.step < a.step) && !b.isSingle) = true := by
      rcases hstep with hle | hsingle
      · simp [hle]
      · simp [hsingle]
    have hyes : a.containsRange b = true := by
      rw [containsRange, if_neg (by simp [hne]), if_neg (by simp [hne']), if_neg htest, if_pos hfull]
    have hleft := hsound hyes b.left (hmask ▸ hb.left) (contains_left hne')
    exact hmod (((contains_iff_arc _ _).mp hleft).2.1).symm
  · intro hkeep hyes x hx hc
    have hne' : b.isempty = false := ((contains_iff_arc _ _).mp hc).1
    rw [containsRange] at hyes
    cases hne : a.isempty with
    | true =>
        rw [if_pos hne] at hyes
        rw [hne'] at hyes
        cases hyes
    | false =>
        rw [if_neg (by simp [hne]), if_neg (by simp [hne'])] at hyes
        split at hyes
        · cases hyes
        next htest =>
        have hstep : a.step ≤ b.step ∨ b.isSingle = true := by
          simp only [Bool.and_eq_true, decide_eq_true_eq, Bool.not_eq_true', not_and, Bool.not_eq_false] at htest
          by_cases hlt : b.step < a.step
          · exact .inr (htest hlt)
          · exact .inl (not_lt.mp hlt)
        have hmod := contains_mod_eq ha hb hstep (hmask ▸ hx) hc
        have harc := ((contains_iff_arc _ _).mp hc).2.2
        by_cases hfull : a.left = a.right
        · rw [contains_iff_arc]
          refine ⟨hne, ?_, hfull ▸ arc_self _ _⟩
          by_contra hother
          exact hkeep ⟨hne, hne', hfull, hstep, fun heq => hother (hmod.trans heq.symm)⟩
        · rw [if_neg hfull] at hyes
          split at hyes
          · cases hyes
          next hproper =>
          split at hyes
          · cases hyes
          next hsame =>
          rw [contains_iff_arc]
          refine ⟨hne, hmod.trans (not_not.mp hsame).symm, containsRange_arc hfull hproper ?_ harc⟩
          split at hyes
          · exact .inl ‹_›
          dsimp only at hyes
          split at hyes
          · exact .inr (.inl ‹_›)
          split at hyes
          · exact .inr (.inr ‹_›)
          · cases hyes

theorem containsRange_sound_iff_wrapping :
    containsRange ⟨0xf0, 0x10, 0xff, false, 4⟩ ⟨0xfc, 0x04, 0xff, false, 4⟩ = true ∧
      ∀ x ≤ 0xff, contains ⟨0xfc, 0x04, 0xff, false, 4⟩ x = true → contains ⟨0xf0, 0x10, 0xff, false, 4⟩ x = true := by
  have hyes : containsRange ⟨0xf0, 0x10, 0xff, false, 4⟩ ⟨0xfc, 0x04, 0xff, false, 4⟩ = true := by decide
  have hsound := (containsRange_sound_iff ⟨0xf0, 0x10, 0xff, false, 4⟩ ⟨0xfc, 0x04, 0xff, false, 4⟩
    ⟨⟨1, by decide, rfl⟩, ⟨2, by decide, rfl⟩, by decide, by decide, rfl⟩
    ⟨⟨1, by decide, rfl⟩, ⟨2, by decide, rfl⟩, by decide, by decide, rfl⟩ rfl).mpr fun hmiss => absurd hmiss.2.2.1 (by decide)
  exact ⟨hyes, hsound hyes⟩

/-- The multiples of four are taken to contain the number one. -/
theorem containsRange_not_sound :
    WellFormed ⟨0, 0, 0xff, false, 4⟩ ∧ WellFormed ⟨1, 2, 0xff, false, 1⟩ ∧
      ¬ (containsRange ⟨0, 0, 0xff, false, 4⟩ ⟨1, 2, 0xff, false, 1⟩ = true →
        ∀ x ≤ 0xff, contains ⟨1, 2, 0xff, false, 1⟩ x = true → contains ⟨0, 0, 0xff, false, 4⟩ x = true) := by
  refine ⟨?_, ?_, fun hsound => absurd (hsound (by decide) 1 (by decide) (by decide)) (by decide)⟩
  · exact ⟨⟨1, by decide, rfl⟩, ⟨2, by decide, rfl⟩, by decide, by decide, rfl⟩
  · exact ⟨⟨1, by decide, rfl⟩, ⟨0, by decide, rfl⟩, by decide, by decide, rfl⟩

end GhidraDecompiler.Range.CircleRange
