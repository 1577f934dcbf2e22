import GhidraDecompiler.Memory.MemoryBank

namespace GhidraDecompiler.Memory

open Pcode ByteLanes BitWords

variable {ws : Nat}

section Alignment

theorem WordSize.byteSize (h : WordSize ws) : ByteSize ws := by
  obtain rfl | rfl | rfl | rfl := h <;> decide

theorem and_alignmask (h : WordSize ws) (a : Word) : a &&& (cxxInt ws - 1) = BitVec.ofNat 64 (a.toNat % ws) := by
  have hmask : ∃ e, ws = 2 ^ e ∧ cxxInt ws - 1 = BitVec.ofNat 64 (2 ^ e - 1) := by
    obtain rfl | rfl | rfl | rfl := h
    · exact ⟨0, rfl, rfl⟩
    · exact ⟨1, rfl, rfl⟩
    · exact ⟨2, rfl, rfl⟩
    · exact ⟨3, rfl, rfl⟩
  obtain ⟨e, rfl, heq⟩ := hmask
  have hsmall : 2 ^ e ≤ 8 := by
    obtain he | he | he | he := h <;> omega
  apply BitVec.eq_of_toNat_eq
  rw [heq, BitVec.toNat_and, BitVec.toNat_ofNat, BitVec.toNat_ofNat, Nat.mod_eq_of_lt (by omega),
    Nat.and_two_pow_sub_one_eq_mod]
  have := Nat.mod_lt a.toNat (Nat.two_pow_pos e)
  exact (Nat.mod_eq_of_lt (by omega)).symm

theorem and_not_alignmask (h : WordSize ws) (a : Word) : a &&& ~~~(cxxInt ws - 1) = align ws a := by
  have hdisjoint : (a &&& ~~~(cxxInt ws - 1)) &&& (a &&& (cxxInt ws - 1)) = 0#64 := by
    refine BitVec.eq_of_getLsbD_eq fun i hi => ?_
    simp only [BitVec.getLsbD_and, BitVec.getLsbD_not, BitVec.getLsbD_zero, hi, decide_true, Bool.true_and]
    cases (cxxInt (ws : Int) - 1).getLsbD i <;> simp
  have hsplit : (a &&& ~~~(cxxInt ws - 1)) + (a &&& (cxxInt ws - 1)) = a := by
    rw [BitVec.add_eq_or_of_and_eq_zero _ _ hdisjoint]
    refine BitVec.eq_of_getLsbD_eq fun i hi => ?_
    simp only [BitVec.getLsbD_or, BitVec.getLsbD_and, BitVec.getLsbD_not, hi, decide_true, Bool.true_and]
    cases (cxxInt (ws : Int) - 1).getLsbD i <;> simp
  rw [align, ← and_alignmask h a, BitVec.eq_sub_iff_add_eq]
  exact hsplit

theorem skip_eq (h : WordSize ws) (a : Word) : ((a &&& (cxxInt ws - 1)).setWidth 32).toInt = (a.toNat % ws : Nat) := by
  have hlt : a.toNat % ws < 8 := by
    obtain rfl | rfl | rfl | rfl := h <;> omega
  have hnat : ((BitVec.ofNat 64 (a.toNat % ws)).setWidth 32).toNat = a.toNat % ws := by
    rw [BitVec.toNat_setWidth, BitVec.toNat_ofNat]
    omega
  rw [and_alignmask h, BitVec.toInt_eq_toNat_of_lt (by omega), hnat]

theorem cxxInt_natCast (n : Nat) : cxxInt n = BitVec.ofNat 64 n := by rw [cxxInt, BitVec.ofInt_natCast]

theorem toNat_align (h : WordSize ws) (a : Word) : (align ws a).toNat = a.toNat - a.toNat % ws := by
  have := a.isLt
  rw [align, BitVec.toNat_sub, BitVec.toNat_ofNat]
  obtain rfl | rfl | rfl | rfl := h <;> omega

theorem align_mod (h : WordSize ws) (a : Word) : (align ws a).toNat % ws = 0 := by
  rw [toNat_align h]
  obtain rfl | rfl | rfl | rfl := h <;> omega

theorem add_mod_word (h : WordSize ws) {a : Word} (ha : a.toNat % ws = 0) : (a + BitVec.ofNat 64 ws).toNat % ws = 0 := by
  rw [BitVec.toNat_add, BitVec.toNat_ofNat]
  obtain rfl | rfl | rfl | rfl := h <;> omega

variable {be : Bool} {m : Word → Word} {o : Word} {k : Nat}

/-- The bytes at and after an address are in its word, or in the next one. -/
theorem byteAt_add_low (h : WordSize ws) (hk : o.toNat % ws + k < ws) :
    byteAt be ws m (o + BitVec.ofNat 64 k) = byteOf be ws (m (align ws o)) (o.toNat % ws + k) := by
  have := o.isLt
  have hnat : (o + BitVec.ofNat 64 k).toNat = o.toNat + k := by
    rw [BitVec.toNat_add, BitVec.toNat_ofNat]
    obtain rfl | rfl | rfl | rfl := h <;> omega
  have hmod : (o + BitVec.ofNat 64 k).toNat % ws = o.toNat % ws + k := by
    rw [hnat]
    obtain rfl | rfl | rfl | rfl := h <;> omega
  have hword : align ws (o + BitVec.ofNat 64 k) = align ws o := by
    apply BitVec.eq_of_toNat_eq
    rw [toNat_align h, toNat_align h, hmod, hnat]
    omega
  rw [byteAt, hmod, hword]

theorem byteAt_add_high (h : WordSize ws) (hlo : ws ≤ o.toNat % ws + k) (hk : o.toNat % ws + k < 2 * ws) :
    byteAt be ws m (o + BitVec.ofNat 64 k) =
      byteOf be ws (m (align ws o + BitVec.ofNat 64 ws)) (o.toNat % ws + k - ws) := by
  have := o.isLt
  have hnat : (o + BitVec.ofNat 64 k).toNat = (o.toNat + k) % 2 ^ 64 := by
    rw [BitVec.toNat_add, BitVec.toNat_ofNat]
    obtain rfl | rfl | rfl | rfl := h <;> omega
  have hmod : (o + BitVec.ofNat 64 k).toNat % ws = o.toNat % ws + k - ws := by
    rw [hnat]
    obtain rfl | rfl | rfl | rfl := h <;> omega
  have hword : align ws (o + BitVec.ofNat 64 k) = align ws o + BitVec.ofNat 64 ws := by
    apply BitVec.eq_of_toNat_eq
    rw [toNat_align h, hmod, hnat, BitVec.toNat_add, toNat_align h, BitVec.toNat_ofNat]
    obtain rfl | rfl | rfl | rfl := h <;> omega
  rw [byteAt, hmod, hword]

end Alignment

section Lanes

variable {n k : Nat} {x v : Word}

theorem wrappingShl_bytes {sa : Int} {j : Nat} (h : sa = 8 * j) (hj : j < 8) : wrappingShl x sa = x <<< (8 * j) := by
  rw [wrappingShl, amount_eq (k := 8 * j) (by omega) (by omega)]

theorem wrappingShr_bytes {sa : Int} {j : Nat} (h : sa = 8 * j) (hj : j < 8) : wrappingShr x sa = x >>> (8 * j) := by
  rw [wrappingShr, amount_eq (k := 8 * j) (by omega) (by omega)]

theorem lane_calcMask (h : ByteSize n) : lane (Pcode.calcMask n) k = if k < n then BitVec.allOnes 8 else 0#8 := by
  have := h.width_le
  refine BitVec.eq_of_getLsbD_eq fun i hi => ?_
  rw [getLsbD_lane _ hi, calcMask_eq h, BitVec.getLsbD_setWidth, BitVec.getLsbD_allOnes]
  split
  · next hk =>
      rw [decide_eq_true (show 8 * k + i < 64 by omega), decide_eq_true (show 8 * k + i < 8 * n by omega),
        BitVec.getLsbD_allOnes, decide_eq_true hi]
      rfl
  · next hk => rw [decide_eq_false (show ¬ 8 * k + i < 8 * n by omega), Bool.and_false, BitVec.getLsbD_zero]

theorem lane_and_calcMask (h : ByteSize n) : lane (x &&& Pcode.calcMask n) k = if k < n then lane x k else 0#8 := by
  rw [lane_and, lane_calcMask h]
  split
  · rw [BitVec.and_allOnes]
  · rw [BitVec.and_zero]

theorem and_calcMask_lt (h : ByteSize n) : (x &&& Pcode.calcMask n).toNat < 2 ^ (8 * n) := by
  rw [and_calcMask h, toNat_widen _ h.width_le]
  exact BitVec.isLt _

theorem lane_eq_zero_of_lt (hx : x.toNat < 2 ^ (8 * n)) (hk : n ≤ k) : lane x k = 0#8 := lt_iff_lanes.mp hx k hk

end Lanes

section Reading

variable {σ ε : Type} {bank : MemoryBank σ ε} {raw : Bool} {words : σ → Word → Word} {s : σ}

/-- A read inside of one word, and one that straddles two. -/
theorem getValue_within (h : IsMap bank ws raw words) (hws : WordSize ws) (o : Word) {n : Nat} (hn : 1 ≤ n)
    (hin : o.toNat % ws + n ≤ ws) (hlt : n ≠ ws) :
    ∃ s', bank.getValue s o n = .ok
      (words s (align ws o) >>>
        (8 * if bank.isBigEndian then ws - o.toNat % ws - n else o.toNat % ws) &&& Pcode.calcMask n, s') := by
  have hle := hws.byteSize.2
  obtain ⟨s₁, hf₁, -⟩ := h.find s _ (align_mod hws o)
  refine ⟨s₁, ?_⟩
  have hguard : ¬ (n : Int) > (ws : Int) - (o.toNat % ws : Nat) := by omega
  have hne : ¬ (n : Int) = ws := by omega
  simp only [MemoryBank.getValue, h.wordsize, skip_eq hws, and_not_alignmask hws, if_neg hguard, if_neg hne, hf₁]
  simp only [Bind.bind, Except.bind]
  split
  · rw [wrappingShr_bytes (j := ws - o.toNat % ws - n) (by omega) (by omega)]
  · rw [wrappingShr_bytes (j := o.toNat % ws) (by omega) (by omega)]

theorem getValue_word (h : IsMap bank ws raw words) (hws : WordSize ws) (o : Word) (hin : o.toNat % ws = 0) :
    ∃ s', bank.getValue s o ws = .ok (words s o, s') := by
  have halign : align ws o = o := by
    rw [align, hin]
    exact BitVec.sub_zero o
  obtain ⟨s₁, hf₁, -⟩ := h.find s _ (align_mod hws o)
  rw [halign] at hf₁
  refine ⟨s₁, ?_⟩
  have hguard : ¬ (ws : Int) > (ws : Int) - (o.toNat % ws : Nat) := by omega
  simp only [MemoryBank.getValue, h.wordsize, skip_eq hws, and_not_alignmask hws, halign, if_neg hguard, if_true, hf₁]
  rfl

theorem getValue_straddle (h : IsMap bank ws raw words) (hws : WordSize ws) (o : Word) {n : Nat} (hn : n ≤ ws)
    (hout : ws < o.toNat % ws + n) :
    ∃ s', bank.getValue s o n = .ok
      ((if bank.isBigEndian then
          words s (align ws o) <<< (8 * (o.toNat % ws + n - ws)) |||
            words s (align ws o + BitVec.ofNat 64 ws) >>> (8 * (2 * ws - o.toNat % ws - n))
        else
          words s (align ws o) >>> (8 * (o.toNat % ws)) |||
            words s (align ws o + BitVec.ofNat 64 ws) <<< (8 * (ws - o.toNat % ws))) &&& Pcode.calcMask n, s') := by
  have hle := hws.byteSize.2
  have hmod : o.toNat % ws < ws := Nat.mod_lt _ hws.byteSize.1
  obtain ⟨s₁, hf₁, hw₁⟩ := h.find s _ (align_mod hws o)
  obtain ⟨s₂, hf₂, -⟩ := h.find s₁ _ (add_mod_word hws (align_mod hws o))
  rw [hw₁] at hf₂
  refine ⟨s₂, ?_⟩
  have hguard : (n : Int) > (ws : Int) - (o.toNat % ws : Nat) := by omega
  simp only [MemoryBank.getValue, h.wordsize, skip_eq hws, and_not_alignmask hws, if_pos hguard]
  simp only [cxxInt_natCast, hf₁, Bind.bind, Except.bind, hf₂]
  split
  · rw [wrappingShl_bytes (j := o.toNat % ws + n - ws) (by omega) (by omega),
      wrappingShr_bytes (j := 2 * ws - o.toNat % ws - n) (by omega) (by omega)]
  · rw [wrappingShr_bytes (j := o.toNat % ws) (by omega) (by omega),
      wrappingShl_bytes (j := ws - o.toNat % ws) (by omega) (by omega)]

/-- The words of a memory: none is too large, and their bytes are those of the memory. -/
def Holds (isBigEndian : Bool) (ws : Nat) (m : Word → Word) (bytes : Word → BitVec 8) : Prop :=
  ∀ a, a.toNat % ws = 0 → (m a).toNat < 2 ^ (8 * ws) ∧
    ∀ j < ws, byteOf isBigEndian ws (m a) j = bytes (a + BitVec.ofNat 64 j)

theorem Holds.byteAt_eq {be : Bool} {m : Word → Word} {bytes : Word → BitVec 8} (hws : WordSize ws)
    (h : Holds be ws m bytes) (a : Word) : byteAt be ws m a = bytes a := by
  have hmod : a.toNat % ws < ws := Nat.mod_lt _ hws.byteSize.1
  rw [byteAt, (h _ (align_mod hws a)).2 _ hmod, align, BitVec.sub_add_cancel]

theorem reads_of_holds (h : IsMap bank ws raw words) (hws : WordSize ws) {bytes : Word → BitVec 8}
    (hold : Holds bank.isBigEndian ws (words s) bytes) : Reads bank ws s bytes := by
  intro o n hn hle
  have h8 := hws.byteSize.2
  have hmod : o.toNat % ws < ws := Nat.mod_lt _ hws.byteSize.1
  have hsize : ByteSize n := ⟨hn, by omega⟩
  have hword := hold _ (align_mod hws o)
  have hnext := hold _ (add_mod_word hws (align_mod hws o))
  by_cases hin : o.toNat % ws + n ≤ ws
  · by_cases hfull : n = ws
    · subst hfull
      have hzero : o.toNat % n = 0 := by omega
      obtain ⟨s', hs'⟩ := getValue_word (s := s) h hws o hzero
      exact ⟨_, s', hs', hold o hzero⟩
    · obtain ⟨s', hs'⟩ := getValue_within (s := s) h hws o hn hin hfull
      refine ⟨_, s', hs', and_calcMask_lt hsize, fun k hk => ?_⟩
      rw [← hold.byteAt_eq hws, byteAt_add_low hws (by omega), byteOf, byteOf, lane_and_calcMask hsize]
      cases hbe : bank.isBigEndian with
      | false =>
          simp only [laneIndex, Bool.false_eq_true, if_false, if_pos hk, lane_ushiftRight]
          rw [Nat.add_comm]
      | true =>
          simp only [laneIndex, if_true, if_pos (show n - 1 - k < n by omega), lane_ushiftRight]
          rw [show n - 1 - k + (ws - o.toNat % ws - n) = ws - 1 - (o.toNat % ws + k) by omega]
  · obtain ⟨s', hs'⟩ := getValue_straddle (s := s) h hws o hle (by omega)
    refine ⟨_, s', hs', and_calcMask_lt hsize, fun k hk => ?_⟩
    rw [← hold.byteAt_eq hws, byteOf, lane_and_calcMask hsize]
    have hzero₁ : ∀ i, ws ≤ i → lane (words s (align ws o)) i = 0#8 := fun i hi => lane_eq_zero_of_lt hword.1 hi
    have hzero₂ : ∀ i, ws ≤ i → lane (words s (align ws o + BitVec.ofNat 64 ws)) i = 0#8 :=
      fun i hi => lane_eq_zero_of_lt hnext.1 hi
    cases hbe : bank.isBigEndian with
    | false =>
        simp only [laneIndex, Bool.false_eq_true, if_false, if_pos hk, lane_or, lane_ushiftRight,
          lane_shiftLeft (show 8 * (k + 1) ≤ 64 by omega)]
        by_cases hk₁ : o.toNat % ws + k < ws
        · rw [byteAt_add_low hws hk₁, if_pos (by omega), BitVec.or_zero, byteOf, laneIndex, if_neg Bool.false_ne_true,
            Nat.add_comm]
        · rw [byteAt_add_high hws (by omega) (by omega), if_neg (by omega), hzero₁ _ (by omega), BitVec.zero_or, byteOf,
            laneIndex, if_neg Bool.false_ne_true, show k - (ws - o.toNat % ws) = o.toNat % ws + k - ws by omega]
    | true =>
        simp only [laneIndex, if_true, if_pos (show n - 1 - k < n by omega), lane_or, lane_ushiftRight,
          lane_shiftLeft (show 8 * (n - 1 - k + 1) ≤ 64 by omega)]
        by_cases hk₁ : o.toNat % ws + k < ws
        · rw [byteAt_add_low hws hk₁, if_neg (by omega), hzero₂ _ (by omega), BitVec.or_zero, byteOf, laneIndex, if_pos rfl,
            show n - 1 - k - (o.toNat % ws + n - ws) = ws - 1 - (o.toNat % ws + k) by omega]
        · rw [byteAt_add_high hws (by omega) (by omega), if_pos (by omega), BitVec.zero_or, byteOf, laneIndex, if_pos rfl,
            show n - 1 - k + (2 * ws - o.toNat % ws - n) = ws - 1 - (o.toNat % ws + k - ws) by omega]

/-- The reads give a memory exactly when the words hold it. -/
theorem reads_iff_holds (h : IsMap bank ws raw words) (hws : WordSize ws) {bytes : Word → BitVec 8} :
    Reads bank ws s bytes ↔ Holds bank.isBigEndian ws (words s) bytes := by
  refine ⟨fun hreads a ha => ?_, reads_of_holds h hws⟩
  obtain ⟨v, s', hv, hlt, hbytes⟩ := hreads a ws hws.byteSize.1 le_rfl
  obtain ⟨s'', hword⟩ := getValue_word (s := s) h hws a ha
  obtain rfl : v = words s a := congrArg Prod.fst (Except.ok.inj (hv.symm.trans hword))
  exact ⟨hlt, hbytes⟩

theorem holds_byteAt (be : Bool) (hws : WordSize ws) {m : Word → Word}
    (hfit : ∀ a, a.toNat % ws = 0 → (m a).toNat < 2 ^ (8 * ws)) : Holds be ws m (byteAt be ws m) := by
  intro a ha
  refine ⟨hfit a ha, fun j hj => ?_⟩
  have halign : align ws a = a := by
    rw [align, ha]
    exact BitVec.sub_zero a
  rw [byteAt_add_low hws (by omega), halign, ha, Nat.zero_add]

end Reading

end GhidraDecompiler.Memory
