import GhidraDecompiler.Range.ForwardUnary

namespace GhidraDecompiler.Range.CircleRange

open Pcode Arcs

/-- A pull-back that succeeds gives exactly the inputs whose output the range contains. -/
def UnaryInputsExact (r : CircleRange) (opc : OpCode) (n m : Nat) : Prop :=
  ∀ r', r.pullBackUnary opc n m = (true, r') → ∀ x < 2 ^ (8 * n), (opc = .boolNegate → x < 2) →
    ∃ out, evaluateUnary opc m n (BitVec.ofNat 64 x) = .ok out ∧ r'.contains x = r.contains out.toNat

/-- The step is larger than the inputs, and the least output of the range is no input. -/
def PastInputs (r : CircleRange) (n : Nat) : Prop := maskOf n < r.left % r.step ∧ r.contains (r.left % r.step) = true

/-- The range ends one step past the nonnegative inputs. -/
def EndsPastHalf (r : CircleRange) (n m : Nat) : Prop :=
  r.isempty = false ∧ r.left &&& r.step ≠ 0 ∧ r.step ≤ minSigned n ∧ r.right = minSigned n + r.step ∧
    (r.left ≤ minSigned n ∨ 2 ^ (8 * m) - minSigned n + r.step ≤ r.left)

section Overlap

variable {l r lo hi left right x : Nat}

theorem arc_left (left right : Nat) : Arc left right left := by
  rw [Arc]
  omega

/-- What a range has in common with numbers that do not wrap does not wrap. -/
theorem overlap_within (h : overlap l r lo hi = .range left right false) (hlo : lo < hi) :
    lo ≤ left ∧ left < right ∧ right ≤ hi := by
  have hmem : ∀ x, Arc left right x → Arc lo hi x := by
    intro x hx
    have := overlap_mem (x := x) (show overlap l r lo hi ≠ .pieces by rw [h]; simp)
    rw [h] at this
    exact (this.mp ⟨rfl, hx⟩).2
  have h1 := hmem left
  have h2 := hmem (right - 1)
  have h3 := hmem (left + hi)
  simp only [Arc] at h1 h2 h3
  omega

/-- Each of the two ranges begins and ends in the other one. -/
theorem overlap_pieces (h : overlap l r lo hi = .pieces) :
    (lo < r ∧ l < hi ∧ (r < l ∨ hi < lo)) ∨ (r < l ∧ hi < lo ∧ (lo < r ∨ l < hi)) := by
  have hmem := encode_mem l r lo hi
  simp only [List.mem_cons, List.not_mem_nil, or_false] at hmem
  rw [overlap] at h
  split at h
  · cases h
  split at h
  · cases h
  rcases hmem with hcode | hcode | hcode | hcode | hcode | hcode | hcode
  case inr.inr.inr.inr.inr.inr =>
      rw [hcode] at h
      have hgap := hcode
      rw [encodeRangeOverlaps_eq] at hgap
      have hends := codeOf_gap _ _ _ _ _ _ hgap
      simp only [Bool.or_eq_true, Bool.and_eq_true, Bool.not_eq_true', decide_eq_true_eq, decide_eq_false_iff_not,
        bne_iff_ne, ne_eq, decide_eq_decide] at hends
      replace h : (if l = hi then overlapRange lo r else if lo = r then overlapRange l hi else .pieces) = .pieces := h
      split at h
      · cases h
      split at h
      · cases h
      · omega
  all_goals
    rw [hcode] at h
    cases h

theorem overlap_ne_pieces (h : ∀ x, ¬ (Arc l r x ∧ Arc lo hi x)) : overlap l r lo hi ≠ .pieces := by
  intro hp
  have hends := overlap_pieces hp
  have hl := h l
  have hlo := h lo
  simp only [Arc] at hl hlo
  omega

end Overlap

section Zext

variable {r : CircleRange} {n m x l e s M rem left right : Nat} {isempty : Bool}

theorem intersect_meet {a b : CircleRange} (ha : a.isempty = false) (hb : b.isempty = false) (hmask : b.mask = a.mask)
    (hstep : b.step = a.step) : a.intersect b = a.meet a.step a.mask a.left a.right b.left b.right := by
  rw [intersect, if_neg (by simp [ha]), if_neg (by simp [hb]), hstep, if_neg (lt_irrefl _), if_neg (lt_irrefl _), cut, hmask]
  simp only [Nat.and_self, ne_eq, not_true_eq_false, if_false]

/-- The part of a range that zero extension reaches, with the ends cut to the inputs. -/
theorem zext_arc_iff (hM : 0 < M) (hs : 0 < s) (hdvd : s ∣ M ∨ M ∣ s) (hrem : l % s = rem)
    (hkeep : M ≤ rem → ¬ Arc l e rem) (hov : overlap l e rem (M + rem) = .range left right isempty) (hx : x < M) :
    (isempty = false ∧ x % s = left % M % s ∧ Arc (left % M) (right % M) x) ↔ x % s = rem ∧ Arc l e x := by
  have hremlt : rem < s := hrem ▸ Nat.mod_lt l hs
  have hmem : ∀ y, (isempty = false ∧ Arc left right y) ↔ Arc l e y ∧ Arc rem (M + rem) y := by
    intro y
    have := overlap_mem (x := y) (show overlap l e rem (M + rem) ≠ .pieces by rw [hov]; simp)
    rwa [hov] at this
  have hin : ∀ y, rem ≤ y → y < M + rem → Arc rem (M + rem) y := by
    intro y h1 h2
    rw [Arc]
    omega
  have hlow : x % s = rem → rem ≤ x := fun h => h ▸ Nat.mod_le x s
  cases isempty with
  | true =>
      simp only [Bool.true_eq_false, false_and, false_iff, not_and]
      intro hxs harc
      exact absurd ((hmem x).mpr ⟨harc, hin x (hlow hxs) (by omega)⟩).1 (by decide)
  | false =>
      simp only [true_and] at hmem ⊢
      obtain ⟨hleft, hlr, hright⟩ := overlap_within hov (by omega)
      have hleftmod : left % s = rem := by
        rcases overlap_left hov with rfl | rfl
        · exact hrem
        · exact Nat.mod_eq_of_lt hremlt
      rcases hdvd with hdvd | hdvd
      · -- the left end is one of the inputs
        have hsM := Nat.le_of_dvd hM hdvd
        have hleftlt : left < M := by
          by_contra hge
          have hmod : (left - M) % s = rem := by
            rw [← hleftmod]
            conv_rhs => rw [← Nat.sub_add_cancel (not_lt.mp hge)]
            rw [Nat.add_mod, Nat.mod_eq_zero_of_dvd hdvd, Nat.add_zero, Nat.mod_mod]
          have := Nat.mod_le (left - M) s
          omega
        rw [Nat.mod_eq_of_lt hleftlt, hleftmod]
        refine and_congr_right fun hxs => ?_
        have hxlow := hlow hxs
        have harc : Arc l e x ↔ Arc left right x := by
          rw [hmem x]
          exact (and_iff_left (hin x hxlow (by omega))).symm
        rw [harc]
        have hmodR : right % M = if right < M then right else right - M := by
          split
          · exact Nat.mod_eq_of_lt ‹_›
          · rw [Nat.mod_eq_sub_mod (by omega), Nat.mod_eq_of_lt (by omega)]
        rw [hmodR]
        simp only [Arc]
        split_ifs <;> omega
      · -- the step goes past the inputs, and only the remainder can be one
        have hMs := Nat.le_of_dvd hs hdvd
        have hlefteq : left = rem := eq_of_mod_eq hleft (by omega) (show left % s = rem % s by rw [hleftmod, Nat.mod_eq_of_lt hremlt])
        subst hlefteq
        rw [Nat.mod_eq_of_lt (hx.trans_le hMs), Nat.mod_eq_of_lt ((Nat.mod_lt left hM).trans_le hMs)]
        have hmemleft : Arc l e left := ((hmem left).mp (arc_left _ _)).1
        have hfits : left < M := by
          by_contra hge
          exact hkeep (not_lt.mp hge) hmemleft
        rw [Nat.mod_eq_of_lt hfits]
        constructor
        · rintro ⟨rfl, -⟩
          exact ⟨rfl, hmemleft⟩
        · rintro ⟨rfl, -⟩
          exact ⟨rfl, arc_left _ _⟩

/-- The result for ends within the outputs. -/
def zextCut (r : CircleRange) (n : Nat) : Overlap → Bool × CircleRange
  | .empty => (true, { r with left := r.left &&& maskOf n, right := r.right &&& maskOf n, mask := r.mask &&& maskOf n, isempty := true })
  | .range left right isempty =>
      (true, { r with left := left &&& maskOf n, right := right &&& maskOf n, mask := r.mask &&& maskOf n, isempty := isempty })
  | .pieces => (false, r)

theorem pullBackUnary_intZext (hne : r.isempty = false) :
    r.pullBackUnary .intZext n m = r.zextCut n
      (overlap r.left r.right (r.left % r.step) (wrappingAdd (wrappingAdd (maskOf n) 1) (r.left % r.step))) := by
  rw [pullBackUnary, if_neg (by simp [hne])]
  simp only
  rw [intersect_meet (b := r.zextRange n) hne rfl rfl rfl, meet, zextRange]
  cases overlap r.left r.right (r.left % r.step) (wrappingAdd (wrappingAdd (maskOf n) 1) (r.left % r.step)) <;> rfl

theorem zextRange_right (h : ByteSize n) (hlt : n < 8) (hr : r.WellFormed) :
    wrappingAdd (wrappingAdd (maskOf n) 1) (r.left % r.step) = 2 ^ (8 * n) + r.left % r.step := by
  have hM : maskOf n + 1 = 2 ^ (8 * n) := by rw [maskOf_eq h, Nat.sub_add_cancel Nat.one_le_two_pow]
  have hpow : 2 ^ (8 * n) ≤ 2 ^ 56 := Nat.pow_le_pow_right (by decide) (by omega)
  have hrem := Nat.mod_lt r.left hr.step_pos
  have hstep := hr.step_lt
  rw [wrappingAdd_of_lt (show maskOf n + 1 < 2 ^ 64 by omega), hM, wrappingAdd_of_lt (by omega)]

/-- Nothing is cut at the size of a word. -/
theorem zextCut_word (hr : r.WellFormed) (hne : r.isempty = false) (hmask : r.mask = maskOf 8) :
    ∃ r', r.pullBackUnary .intZext 8 8 = (true, r') ∧ r'.contains x = r.contains x := by
  have hM : r.mask + 1 = 2 ^ 64 := pow_eq_of_mask (n := 8) (by decide) hmask
  have hlt := hM ▸ hr.lt
  have hrem := Nat.mod_lt r.left hr.step_pos
  have hstep := hr.step_lt
  have hand : ∀ v < 2 ^ 64, v &&& maskOf 8 = v := fun v hv =>
    (and_maskOf (n := 8) (by decide) v).trans (Nat.mod_eq_of_lt hv)
  have hright : wrappingAdd (wrappingAdd (maskOf 8) 1) (r.left % r.step) = r.left % r.step := by
    rw [show wrappingAdd (maskOf 8) 1 = 0 by decide, wrappingAdd_of_lt (by omega), Nat.zero_add]
  have hpull := pullBackUnary_intZext (n := 8) (m := 8) hne
  rw [show ((8 : Nat) : Int) = 8 from rfl, hright, overlap] at hpull
  by_cases hfull : r.left = r.right
  · rw [if_pos hfull, zextCut] at hpull
    refine ⟨_, hpull, ?_⟩
    rw [Bool.eq_iff_iff, contains_iff_arc, contains_iff_arc, hfull]
    simp only [hne, arc_self, and_true, true_and]
    rw [← hfull]
    exact Iff.of_eq (by rw [show (r.left % r.step &&& maskOf ((8 : Nat) : Int)) = r.left % r.step from hand _ (by omega), Nat.mod_mod])
  · rw [if_neg hfull, if_pos rfl, zextCut] at hpull
    refine ⟨_, hpull, ?_⟩
    rw [Bool.eq_iff_iff, contains_iff_arc, contains_iff_arc]
    simp only [hne, true_and]
    rw [show (r.left &&& maskOf ((8 : Nat) : Int)) = r.left from hand _ hlt.1,
      show (r.right &&& maskOf ((8 : Nat) : Int)) = r.right from hand _ hlt.2]

theorem pullBackZext_exact_iff (h : ByteSize n) (hm : ByteSize m) (hle : n ≤ m) (hr : r.WellFormed) (hne : r.isempty = false)
    (hmask : r.mask = maskOf m) :
    (∀ r', r.pullBackUnary .intZext n m = (true, r') → ∀ x < 2 ^ (8 * n), r'.contains x = r.contains x) ↔
      ¬ r.PastInputs n := by
  have hM : maskOf n + 1 = 2 ^ (8 * n) := by rw [maskOf_eq h, Nat.sub_add_cancel Nat.one_le_two_pow]
  have hpos := Nat.two_pow_pos (8 * n)
  have hstep := hr.step_pos
  have hremlt := Nat.mod_lt r.left hstep
  rcases Nat.lt_or_ge n 8 with hlt | hge
  · obtain ⟨k, -, hk⟩ := hr.step
    have hdvd : r.step ∣ 2 ^ (8 * n) ∨ 2 ^ (8 * n) ∣ r.step := by
      rw [hk]
      exact pow_dvd_or _ _
    have hpull := pullBackUnary_intZext (n := n) (m := m) hne
    rw [zextRange_right h hlt hr] at hpull
    have hmem : ∀ y, overlap r.left r.right (r.left % r.step) (2 ^ (8 * n) + r.left % r.step) ≠ .pieces →
        _ := fun y => overlap_mem (x := y)
    have hkeep : ¬ r.PastInputs n → 2 ^ (8 * n) ≤ r.left % r.step → ¬ Arc r.left r.right (r.left % r.step) := by
      intro hpast hge harc
      exact hpast ⟨by omega, (contains_iff_arc _ _).mpr ⟨hne, Nat.mod_mod _ _, harc⟩⟩
    constructor
    · rintro hexact ⟨hpast, hc⟩
      have harc := ((contains_iff_arc _ _).mp hc).2.2
      have hin : Arc (r.left % r.step) (2 ^ (8 * n) + r.left % r.step) (r.left % r.step) := arc_left _ _
      -- with so large a step there is no value between the ends
      have hpieces : overlap r.left r.right (r.left % r.step) (2 ^ (8 * n) + r.left % r.step) ≠ .pieces := by
        intro hp
        have hends := overlap_pieces hp
        have hmod : r.right % r.step = r.left % r.step % r.step := by rw [Nat.mod_mod, hr.congruent]
        have heq := eq_of_mod_eq (by omega) (by omega) hmod
        omega
      have hboth := (hmem (r.left % r.step) hpieces).mpr ⟨harc, hin⟩
      cases hov : overlap r.left r.right (r.left % r.step) (2 ^ (8 * n) + r.left % r.step) with
      | empty =>
          rw [hov] at hboth
          exact hboth
      | range left right isempty =>
          rw [hov] at hboth
          have hleft := Nat.mod_lt left hpos
          rw [hov, zextCut] at hpull
          have hnew := hexact _ hpull (left % 2 ^ (8 * n)) hleft
          rw [Bool.eq_iff_iff, contains_iff_arc, contains_iff_arc] at hnew
          simp only [and_maskOf h] at hnew
          have hmod := (hnew.mp ⟨hboth.1, trivial, arc_left _ _⟩).2.1
          rw [Nat.mod_eq_of_lt (by omega)] at hmod
          omega
      | pieces => exact hpieces hov
    · intro hpast r' hpull' x hx
      rw [hpull] at hpull'
      cases hov : overlap r.left r.right (r.left % r.step) (2 ^ (8 * n) + r.left % r.step) with
      | empty =>
          rw [hov] at hpull'
          cases hpull'
          have hnone := (hmem x (by rw [hov]; simp)).not.mp (by rw [hov]; simp [Overlap.Mem])
          rw [Bool.eq_iff_iff, contains_iff_arc, contains_iff_arc]
          simp only [Bool.true_eq_false, false_and, false_iff, not_and]
          intro _ hmod harc
          have hlow := Nat.mod_le x r.step
          refine hnone ⟨harc, ?_⟩
          rw [Arc]
          omega
      | range left right isempty =>
          rw [hov] at hpull'
          cases hpull'
          rw [Bool.eq_iff_iff, contains_iff_arc, contains_iff_arc]
          simp only [hne, true_and, and_maskOf h]
          exact zext_arc_iff hpos hstep hdvd rfl (hkeep hpast) hov hx
      | pieces =>
          rw [hov] at hpull'
          cases hpull'
  · obtain rfl : n = 8 := by
      have := h.width_le
      omega
    obtain rfl : m = 8 := by
      have := hm.width_le
      omega
    refine iff_of_true ?_ ?_
    · intro r' hpull x hx
      obtain ⟨r'', hpull', hc⟩ := zextCut_word (x := x) hr hne hmask
      rw [show r.pullBackUnary .intZext (8 : Nat) (8 : Nat) = r.pullBackUnary .intZext 8 8 from rfl, hpull'] at hpull
      cases hpull
      exact hc
    · rintro ⟨hpast, -⟩
      have := hr.step_lt
      omega

end Zext

section Sext

variable {r r' : CircleRange} {n m x v k : Nat}

/-- Only the low bytes are extended. -/
theorem signExtended_low (h : ByteSize n) (v m : Nat) : signExtended v n m = signExtended (v % 2 ^ (8 * n)) n m := by
  have hw := h.width_le
  have hpos := h.width_pos
  have hshl : ((8 - (n : Int)) * 8 % 64).toNat = 64 - 8 * n := amount_eq (by omega) (by omega)
  have hsplit : 2 ^ 64 = 2 ^ (8 * n) * 2 ^ (64 - 8 * n) := by
    rw [← pow_add]
    congr 1
    omega
  have hshift : BitVec.ofNat 64 v <<< (64 - 8 * n) = BitVec.ofNat 64 (v % 2 ^ (8 * n)) <<< (64 - 8 * n) := by
    apply BitVec.eq_of_toNat_eq
    rw [BitVec.toNat_shiftLeft, BitVec.toNat_shiftLeft, BitVec.toNat_ofNat, BitVec.toNat_ofNat, Nat.shiftLeft_eq, Nat.shiftLeft_eq,
      Nat.mod_mul_mod, Nat.mod_mul_mod, hsplit, Nat.mul_mod_mul_right, Nat.mul_mod_mul_right, Nat.mod_mod]
  simp only [signExtended, signExtendSize, cap_eq h, wrappingShl, hshl, hshift]

/-- Where the numbers that are no sign extension begin and end. -/
theorem sextRange_ends (h : ByteSize n) (hm : ByteSize m) (hle : n ≤ m) (hbit : r.left &&& r.step ≤ 2 ^ 31) :
    (r.sextRange n m).left = minSigned n + (r.left &&& r.step) ∧
      (r.sextRange n m).right = sextOf n m ((minSigned n + (r.left &&& r.step)) % 2 ^ (8 * n)) := by
  have hlow : (minSigned n + (r.left &&& r.step)) % 2 ^ (8 * n) < 2 ^ (8 * n) := Nat.mod_lt _ (Nat.two_pow_pos _)
  have htwo := two_minSigned h
  have hword := pow_le_word h
  have hhalf : maskOf n ^^^ (maskOf n >>> 1) = minSigned n := by
    rw [maskOf_shiftRight h, minSigned, maskOf_xor h (by omega)]
    have : 2 ^ (8 * n) = 2 ^ (8 * n - 1) + 2 ^ (8 * n - 1) := htwo
    omega
  have hleft : wrappingAdd (maskOf n ^^^ (maskOf n >>> 1)) (r.left &&& r.step) = minSigned n + (r.left &&& r.step) := by
    rw [hhalf, wrappingAdd_of_lt (by omega)]
  refine ⟨hleft, ?_⟩
  show signExtended (wrappingAdd (maskOf n ^^^ (maskOf n >>> 1)) (r.left &&& r.step)) n m = _
  rw [hleft, signExtended_low h, signExtended_eq h hm hle hlow]

/-- The call succeeds when no number of the range is without a sign extension. -/
theorem pullBackUnary_intSext (hne : r.isempty = false) :
    r.pullBackUnary .intSext n m = (true, r') ↔
      (∀ y, ¬ (Arc (r.sextRange n m).left (r.sextRange n m).right y ∧ Arc r.left r.right y)) ∧
        r' = { r with left := r.left &&& maskOf n, right := r.right &&& maskOf n, mask := r.mask &&& maskOf n } := by
  rw [pullBackUnary, if_neg (by simp [hne])]
  simp only
  rw [intersect_meet (a := r.sextRange n m) (b := r) rfl hne rfl rfl, meet]
  have hmem : ∀ y, overlap (r.sextRange n m).left (r.sextRange n m).right r.left r.right ≠ .pieces → _ :=
    fun y => overlap_mem (x := y)
  cases hov : overlap (r.sextRange n m).left (r.sextRange n m).right r.left r.right with
  | empty =>
      rw [hov] at hmem
      simp only [if_true, Prod.mk.injEq, true_and]
      constructor
      · rintro rfl
        exact ⟨fun y => (hmem y (by simp)).not.mp (by simp [Overlap.Mem]), rfl⟩
      · exact fun hr' => hr'.2.symm
  | range left right isempty =>
      rw [hov] at hmem
      cases isempty with
      | true =>
          simp only [if_true, Prod.mk.injEq, true_and]
          constructor
          · rintro rfl
            exact ⟨fun y => (hmem y (by simp)).not.mp (by simp [Overlap.Mem]), rfl⟩
          · exact fun hr' => hr'.2.symm
      | false =>
          refine iff_of_false (by simp) fun hr' => ?_
          exact hr'.1 left ((hmem left (by simp)).mp ⟨rfl, arc_left _ _⟩)
  | pieces => exact iff_of_false (by simp) fun hr' => overlap_ne_pieces hr'.1 hov

theorem and_pow_cases (v k : Nat) :
    (v &&& 2 ^ k = 0) ∨ (v &&& 2 ^ k = 2 ^ k ∧ 2 ^ k ≤ v % (2 * 2 ^ k)) := by
  rw [Nat.and_two_pow, Nat.testBit_eq_decide_div_mod_eq]
  have hdiv : v % (2 * 2 ^ k) / 2 ^ k = v / 2 ^ k % 2 := by
    rw [Nat.mul_comm, Nat.mod_mul_right_div_self]
  by_cases hbit : v / 2 ^ k % 2 = 1
  · right
    refine ⟨by simp [hbit], ?_⟩
    rw [hbit] at hdiv
    have := (Nat.le_div_iff_mul_le (Nat.two_pow_pos k)).mp hdiv.ge
    omega
  · left
    simp [hbit]

/-- The numbers of the last turn of the circle. -/
theorem mod_of_last_turn {M N v : Nat} (hdvd : M ∣ N) (hle : N - M ≤ v) (hlt : v < N) : v % M = v - (N - M) := by
  have hsplit : v = v - (N - M) + (N - M) := (Nat.sub_add_cancel hle).symm
  conv_lhs => rw [hsplit]
  have hMN := Nat.le_of_dvd (by omega) hdvd
  rw [Nat.add_mod, Nat.mod_eq_zero_of_dvd (Nat.dvd_sub hdvd dvd_rfl), Nat.add_zero, Nat.mod_mod, Nat.mod_eq_of_lt (by omega)]

/-- A range without numbers between the ends lies below them, above them, or around
the circle. -/
theorem disjoint_cases {sl sr l e : Nat} (hs : sl < sr) (hdis : ∀ y, ¬ (Arc sl sr y ∧ Arc l e y)) :
    (l < sl ∧ l < e ∧ e ≤ sl) ∨ (sr ≤ l ∧ (l < e ∨ e < l ∧ e ≤ sl)) := by
  have hl := hdis l
  have hsl := hdis sl
  simp only [Arc] at hl hsl
  omega

/-- With a step that is no longer than the nonnegative inputs all inputs keep their place. -/
theorem sext_arc_iff {M N H D b s l e x y : Nat} (hM : M = H + H) (hN : 4 * M ≤ N) (hD : D = N - M) (hdvd : M ∣ N)
    (hbH : b < H) (hb : b = 0 ∨ b = s) (hl : l < N) (he : e < N) (hs : 0 < s) (hx : x < M) (hxe : x % s = e % s)
    (hy : x < H ∧ y = x ∨ H ≤ x ∧ y = x + D) (hend : e ≠ H + s)
    (hdis : (l < H + b ∧ l < e ∧ e ≤ H + b) ∨ (N - H + b ≤ l ∧ (l < e ∨ e < l ∧ e ≤ H + b))) :
    Arc (l % M) (e % M) x ↔ Arc l e y := by
  -- no number from the half point on is before an end that is less than a step past it
  have hgap : e ≤ H + b → ¬ (H ≤ x ∧ x < e) := by
    rintro hle ⟨hxH, hxlt⟩
    have hdvds : s ∣ e - x := (Nat.modEq_iff_dvd' hxlt.le).mp hxe
    have := Nat.le_of_dvd (by omega) hdvds
    omega
  have hlow : ∀ v, v < M → v % M = v := fun v hv => Nat.mod_eq_of_lt hv
  have hhigh : ∀ v, N - M ≤ v → v < N → v % M = v - (N - M) := fun v hv hlt => mod_of_last_turn hdvd hv hlt
  rcases hdis with ⟨h1, h2, h3⟩ | ⟨h1, h2 | ⟨h2, h3⟩⟩
  · rw [hlow l (by omega), hlow e (by omega)]
    simp only [Arc]
    rcases hy with ⟨hxH, rfl⟩ | ⟨hxH, rfl⟩
    · rfl
    · have hnot : ¬ x < e := fun hxe => hgap h3 ⟨hxH, hxe⟩
      omega
  · rw [hhigh l (by omega) hl, hhigh e (by omega) he]
    simp only [Arc]
    clear hgap hend hb
    omega
  · rw [hhigh l (by omega) hl, hlow e (by omega)]
    simp only [Arc]
    rcases hy with ⟨hxH, rfl⟩ | ⟨hxH, rfl⟩
    · clear hgap
      omega
    · have hnot : ¬ x < e := fun hxe => hgap h3 ⟨hxH, hxe⟩
      clear hgap
      omega

/-- With a longer step the left end alone is a value. -/
theorem sext_single_iff {M N H D b s l e x y : Nat} (hM : M = H + H) (hH : 0 < H) (hN : 4 * M ≤ N) (hD : D = N - M)
    (hdvd : M ∣ N) (hMs : M ∣ s) (hsN : s ∣ N ∨ N ∣ s) (hs : 0 < s) (hb : b = 0 ∨ b = s ∧ s ≤ l) (hl : l < N) (hx : x < M)
    (hle : l % s = e % s) (hy : x < H ∧ y = x ∨ H ≤ x ∧ y = x + D)
    (hdis : (l < H + b ∧ l < e ∧ e ≤ H + b) ∨ (N - H ≤ l ∧ (l < e ∨ e < l ∧ e ≤ H + b))) :
    (x % s = l % M % s ∧ Arc (l % M) (e % M) x) ↔ (y % s = l % s ∧ Arc l e y) := by
  have hMles := Nat.le_of_dvd hs hMs
  have hhigh : N - H ≤ l := by
    rcases hdis with ⟨h1, h2, h3⟩ | ⟨h1, -⟩
    · have hdvds : s ∣ e - l := (Nat.modEq_iff_dvd' h2.le).mp hle
      have := Nat.le_of_dvd (by omega) hdvds
      omega
    · exact h1
  have hlM : l % M = l - D := by
    rw [hD]
    exact mod_of_last_turn hdvd (by omega) hl
  rw [Nat.mod_eq_of_lt (show l % M < s by omega), Nat.mod_eq_of_lt (show x < s by omega), hlM]
  constructor
  · rintro ⟨rfl, -⟩
    obtain rfl : y = l := by omega
    exact ⟨rfl, arc_left _ _⟩
  · rintro ⟨hmod, -⟩
    have hxl : x = l - D := by
      rcases hy with ⟨hxH, rfl⟩ | ⟨hxH, rfl⟩
      · exfalso
        rcases hsN with hsN | hsN
        · -- the value would be a step from the top
          have hdvds : s ∣ y + (N - l) := by
            have hsum : y + (N - l) ≡ l + (N - l) [MOD s] := Nat.ModEq.add_right _ hmod
            rw [Nat.add_sub_cancel' hl.le] at hsum
            exact (Nat.modEq_zero_iff_dvd.mp (hsum.trans (Nat.modEq_zero_iff_dvd.mpr hsN)))
          have := Nat.le_of_dvd (by omega) hdvds
          omega
        · have := Nat.le_of_dvd hs hsN
          rw [Nat.mod_eq_of_lt (by omega), Nat.mod_eq_of_lt (by omega)] at hmod
          omega
      · rcases Nat.le_total (x + D) l with hle' | hle'
        · have := eq_of_mod_eq hle' (by omega) hmod.symm
          omega
        · have := eq_of_mod_eq hle' (by omega) hmod
          omega
    subst hxl
    exact ⟨rfl, arc_left _ _⟩

theorem pow_succ_le_of_lt (hnm : n < m) : 4 * 2 ^ (8 * n) ≤ 2 ^ (8 * m) := by
  calc 4 * 2 ^ (8 * n) = 2 ^ (2 + 8 * n) := by ring
    _ ≤ 2 ^ (8 * m) := Nat.pow_le_pow_right (by decide) (by omega)

/-- At equal sizes all numbers are extensions, and none is without one. -/
theorem sextRange_meets (h : ByteSize n) (hr : r.WellFormed) (hmask : r.mask = maskOf n) :
    ∃ y, Arc (r.sextRange n n).left (r.sextRange n n).right y ∧ Arc r.left r.right y := by
  obtain ⟨k, hk, hstep⟩ := hr.step
  have hM := pow_eq_of_mask h hmask
  have hlt := hM ▸ hr.lt
  have htwo := two_minSigned h
  have hH := minSigned_pos n
  have hsame : ∀ v, sextOf n n v = v := by
    intro v
    rw [sextOf, Nat.sub_self, Nat.add_zero, ite_self]
  have hk31 : (2 : Nat) ^ k ≤ 2 ^ 31 := Nat.pow_le_pow_right (by decide) (by omega)
  have hbits := and_pow_cases r.left k
  obtain ⟨hleft, hright⟩ := sextRange_ends (r := r) h h le_rfl (by rw [hstep]; omega)
  rw [hsame] at hright
  rw [hleft, hright, hstep]
  by_cases hsmall : minSigned n + (r.left &&& 2 ^ k) < 2 ^ (8 * n)
  · refine ⟨r.left, ?_, arc_left _ _⟩
    rw [Nat.mod_eq_of_lt hsmall]
    exact arc_self _ _
  · -- the step is half of the circle, and so is the left end
    obtain ⟨hbit, hge⟩ := hbits.resolve_left (by omega)
    have hle := Nat.mod_le r.left (2 * 2 ^ k)
    have hkn : k = 8 * n - 1 := by
      have h1 : 2 ^ (8 * n - 1) ≤ 2 ^ k := by
        rw [minSigned] at *
        omega
      have h2 : 2 ^ k < 2 ^ (8 * n) := by omega
      have h1 := (Nat.pow_le_pow_iff_right (show 1 < 2 by decide)).mp h1
      have h2 := (Nat.pow_lt_pow_iff_right (show 1 < 2 by decide)).mp h2
      omega
    have hstepH : r.step = minSigned n := by rw [hstep, hkn, minSigned]
    have hcong := hr.congruent
    rw [hbit, ← hstep, hstepH, ← htwo, Nat.mod_self]
    rw [hstepH] at hcong
    refine ⟨2 ^ (8 * n), ?_, ?_⟩
    · rw [Arc]
      omega
    · rw [Arc]
      by_contra hnot
      have heq := eq_of_mod_eq (by omega) (by rw [← hstep] at *; omega) hcong.symm
      omega

/-- Where the range ends and begins when no number of it is without a sign extension. -/
theorem sextRange_disjoint_cases (h : ByteSize n) (hm : ByteSize m) (hnm : n < m) (hr : r.WellFormed) (hmask : r.mask = maskOf m)
    (hdis : ∀ y, ¬ (Arc (r.sextRange n m).left (r.sextRange n m).right y ∧ Arc r.left r.right y)) :
    ∃ b, (b = 0 ∨ b = r.step ∧ r.step ≤ r.left) ∧ b = r.left &&& r.step ∧
      ((b < minSigned n ∧ ((r.left < minSigned n + b ∧ r.left < r.right ∧ r.right ≤ minSigned n + b) ∨
          (2 ^ (8 * m) - minSigned n + b ≤ r.left ∧ (r.left < r.right ∨ r.right < r.left ∧ r.right ≤ minSigned n + b)))) ∨
        (b = minSigned n ∧ r.left = minSigned n ∧ r.right = minSigned n + r.step) ∨
        (minSigned n < b ∧ 2 ^ (8 * n) ∣ b ∧ ((r.left < minSigned n + b ∧ r.left < r.right ∧ r.right ≤ minSigned n + b) ∨
          (2 ^ (8 * m) - minSigned n ≤ r.left ∧ (r.left < r.right ∨ r.right < r.left ∧ r.right ≤ minSigned n + b))))) := by
  obtain ⟨k, hk, hstep⟩ := hr.step
  have hM := pow_eq_of_mask hm hmask
  have hlt := hM ▸ hr.lt
  have htwo := two_minSigned h
  have hH := minSigned_pos n
  have hquarter := pow_succ_le_of_lt hnm
  have hk31 : (2 : Nat) ^ k ≤ 2 ^ 31 := Nat.pow_le_pow_right (by decide) (by omega)
  have hbits := and_pow_cases r.left k
  have hmodle := Nat.mod_le r.left (2 * 2 ^ k)
  obtain ⟨hleft, hright⟩ := sextRange_ends (r := r) h hm hnm.le (by rw [hstep]; omega)
  rw [hleft, hright] at hdis
  rw [hstep] at hdis ⊢
  refine ⟨r.left &&& 2 ^ k, by omega, rfl, ?_⟩
  have hsextlow : ∀ v, minSigned n ≤ v → v < 2 ^ (8 * n) → sextOf n m v = v + (2 ^ (8 * m) - 2 ^ (8 * n)) := by
    intro v h1 h2
    rw [sextOf, if_neg (by omega)]
  rcases Nat.lt_trichotomy (r.left &&& 2 ^ k) (minSigned n) with hb | hb | hb
  · left
    refine ⟨hb, ?_⟩
    rw [Nat.mod_eq_of_lt (by omega), hsextlow _ (by omega) (by omega)] at hdis
    refine (disjoint_cases (by omega) hdis).imp_right (And.imp_left fun hle => ?_)
    omega
  · right
    left
    refine ⟨hb, ?_⟩
    rw [hb, ← htwo, Nat.mod_self, sextOf, if_pos hH] at hdis
    obtain ⟨hbit, hge⟩ := hbits.resolve_left (by omega)
    have hl := hdis r.left
    have hpred := hdis (r.right - 1)
    have htop := hdis (r.left + 2 ^ (8 * n))
    simp only [Arc] at hl hpred htop
    have hcong := hr.congruent
    rw [hstep, ← hbit, hb] at hcong
    have hdvds : minSigned n ∣ r.right - r.left := (Nat.modEq_iff_dvd' (by omega)).mp hcong
    have := Nat.le_of_dvd (by omega) hdvds
    clear hbits hdis
    omega
  · right
    right
    obtain ⟨hbit, hge⟩ := hbits.resolve_left (by omega)
    have hdvdM : 2 ^ (8 * n) ∣ 2 ^ k := by
      refine Nat.pow_dvd_pow 2 ?_
      rw [hbit, minSigned] at hb
      have := (Nat.pow_lt_pow_iff_right (show 1 < 2 by decide)).mp hb
      omega
    rw [hbit] at hdis ⊢
    refine ⟨hbit ▸ hb, hdvdM, ?_⟩
    obtain ⟨c, hc⟩ := hdvdM
    have hkm : 2 * 2 ^ k ≤ 2 ^ (8 * m) := by
      have : 2 ^ k < 2 ^ (8 * m) := by omega
      have := (Nat.pow_lt_pow_iff_right (show 1 < 2 by decide)).mp this
      rw [Nat.mul_comm, ← Nat.pow_succ]
      exact Nat.pow_le_pow_right (by decide) this
    rw [hc, Nat.add_mul_mod_self_left, Nat.mod_eq_of_lt (by omega), hsextlow _ le_rfl (by omega), ← hc] at hdis
    refine (disjoint_cases (by omega) hdis).imp_right (And.imp_left fun hle => ?_)
    omega

/-- A range that ends one step past the nonnegative inputs gets the most negative one as
well. -/
theorem pullBackSext_inexact (h : ByteSize n) (hm : ByteSize m) (hnm : n < m) (hr : r.WellFormed) (hmask : r.mask = maskOf m)
    (hpast : r.EndsPastHalf n m) :
    ∃ r', r.pullBackUnary .intSext n m = (true, r') ∧ r'.contains (minSigned n) = true ∧
      r.contains (sextOf n m (minSigned n)) = false := by
  obtain ⟨hne, hbitne, hsH, hright, hends⟩ := hpast
  obtain ⟨k, hk, hstep⟩ := hr.step
  have hM := pow_eq_of_mask hm hmask
  have hlt := hM ▸ hr.lt
  have htwo := two_minSigned h
  have hH := minSigned_pos n
  have hquarter := pow_succ_le_of_lt hnm
  have hdvdN : 2 ^ (8 * n) ∣ 2 ^ (8 * m) := Nat.pow_dvd_pow 2 (by omega)
  obtain ⟨hbit, hge⟩ := (and_pow_cases r.left k).resolve_left (hstep ▸ hbitne)
  rw [← hstep] at hbit hge
  have hmodle := Nat.mod_le r.left (2 * r.step)
  have hsdvd : r.step ∣ minSigned n := by
    rw [hstep, minSigned] at hsH ⊢
    exact Nat.pow_dvd_pow 2 ((Nat.pow_le_pow_iff_right (show 1 < 2 by decide)).mp hsH)
  have hs31 := hr.step_lt
  obtain ⟨hsl, hsr⟩ := sextRange_ends (r := r) h hm hnm.le (by omega)
  have hsext : sextOf n m (minSigned n) = minSigned n + (2 ^ (8 * m) - 2 ^ (8 * n)) := by rw [sextOf, if_neg (lt_irrefl _)]
  -- the left end is below the half point, or is half of the circle
  have hleftH : r.left < minSigned n ∨ r.step = minSigned n ∧ r.left = minSigned n ∨
      2 ^ (8 * m) - minSigned n + r.step ≤ r.left ∧ r.step < minSigned n := by
    rcases Nat.eq_or_lt_of_le hsH with heq | hless
    · omega
    · rcases hends with hle | hge'
      · left
        refine Nat.lt_of_le_of_ne hle ?_
        rintro heq
        have hdvd2 : 2 * r.step ∣ minSigned n := by
          rw [hstep, minSigned] at hless
          rw [hstep, minSigned, Nat.mul_comm, ← Nat.pow_succ]
          exact Nat.pow_dvd_pow 2 ((Nat.pow_lt_pow_iff_right (show 1 < 2 by decide)).mp hless)
        rw [heq, Nat.mod_eq_zero_of_dvd hdvd2] at hge
        have := hr.step_pos
        omega
      · omega
  have hdis : ∀ y, ¬ (Arc (r.sextRange n m).left (r.sextRange n m).right y ∧ Arc r.left r.right y) := by
    intro y
    rw [hsl, hsr, hbit, hright]
    rcases Nat.eq_or_lt_of_le hsH with heq | hless
    · rw [heq, ← htwo, Nat.mod_self, sextOf, if_pos hH]
      simp only [Arc]
      omega
    · rw [Nat.mod_eq_of_lt (by omega), sextOf, if_neg (by omega)]
      simp only [Arc]
      omega
  refine ⟨_, (pullBackUnary_intSext hne).mpr ⟨hdis, rfl⟩, ?_, ?_⟩
  · rw [contains_iff_arc]
    simp only [hne, and_maskOf h, true_and]
    have hcong := hr.congruent
    rw [hright, Nat.add_mod_right, Nat.mod_eq_zero_of_dvd hsdvd] at hcong
    refine ⟨?_, ?_⟩
    · rw [Nat.mod_eq_zero_of_dvd hsdvd, Nat.mod_mod_of_dvd _ (hsdvd.trans (by rw [htwo]; exact ⟨2, by omega⟩)), hcong]
    · rw [hright]
      rcases hleftH with hl | ⟨heq, hl⟩ | ⟨hl, hless⟩
      · rcases Nat.eq_or_lt_of_le hsH with heq | hless
        · omega
        · rw [Nat.mod_eq_of_lt (show r.left < 2 ^ (8 * n) by omega), Nat.mod_eq_of_lt (by omega), Arc]
          have := hr.step_pos
          omega
      · rw [hl, Nat.mod_eq_of_lt (by omega)]
        exact arc_left _ _
      · rw [mod_of_last_turn hdvdN (by omega) hlt.1, Nat.mod_eq_of_lt (by omega), Arc]
        have := hr.step_pos
        omega
  · rw [Bool.eq_false_iff]
    intro hc
    have harc := ((contains_iff_arc _ _).mp hc).2.2
    rw [hsext, hright] at harc
    simp only [Arc] at harc
    clear hends hdis
    omega

theorem pullBackSext_exact_iff (h : ByteSize n) (hm : ByteSize m) (hle : n ≤ m) (hr : r.WellFormed) (hne : r.isempty = false)
    (hmask : r.mask = maskOf m) :
    (∀ r', r.pullBackUnary .intSext n m = (true, r') → ∀ x < 2 ^ (8 * n), r'.contains x = r.contains (sextOf n m x)) ↔
      ¬ (n < m ∧ r.EndsPastHalf n m) := by
  have hH := minSigned_pos n
  constructor
  · rintro hexact ⟨hnm, hpast⟩
    obtain ⟨r', hpull, hnew, hold⟩ := pullBackSext_inexact h hm hnm hr hmask hpast
    rw [hexact r' hpull _ (minSigned_lt h), hold] at hnew
    exact absurd hnew (by decide)
  · intro hcond r' hpull x hx
    obtain ⟨hdis, rfl⟩ := (pullBackUnary_intSext hne).mp hpull
    rcases Nat.lt_or_eq_of_le hle with hnm | rfl
    · obtain ⟨b, hb, hbit, hcases⟩ := sextRange_disjoint_cases h hm hnm hr hmask hdis
      have hM := pow_eq_of_mask hm hmask
      have hlt := hM ▸ hr.lt
      have htwo := two_minSigned h
      have hquarter := pow_succ_le_of_lt hnm
      have hdvdN : 2 ^ (8 * n) ∣ 2 ^ (8 * m) := Nat.pow_dvd_pow 2 (by omega)
      have hpos := hr.step_pos
      obtain ⟨k, -, hk⟩ := hr.step
      have hy : x < minSigned n ∧ sextOf n m x = x ∨
          minSigned n ≤ x ∧ sextOf n m x = x + (2 ^ (8 * m) - 2 ^ (8 * n)) := by
        rcases sextOf_cases h hle hx with ⟨h1, h2⟩ | ⟨h1, h2, -⟩
        · exact .inl ⟨h1, h2⟩
        · exact .inr ⟨h1, h2⟩
      rw [Bool.eq_iff_iff, contains_iff_arc, contains_iff_arc]
      simp only [hne, true_and, and_maskOf h]
      have hlarge : 2 ^ (8 * n) ∣ r.step → (b = 0 ∨ b = r.step ∧ r.step ≤ r.left) → _ → _ := fun hMs hb hdis =>
        sext_single_iff htwo hH hquarter rfl hdvdN hMs (hk ▸ pow_dvd_or _ _) hpos hb hlt.1 hx hr.congruent hy hdis
      rcases hcases with ⟨hbH, hcases⟩ | ⟨hbH, hl, he⟩ | ⟨hbH, hMb, hcases⟩
      · rcases Nat.lt_or_ge (minSigned n) r.step with hlong | hshort
        · have hMs : 2 ^ (8 * n) ∣ r.step := by
            rw [hk, minSigned] at hlong
            rw [hk]
            have := (Nat.pow_lt_pow_iff_right (show 1 < 2 by decide)).mp hlong
            exact Nat.pow_dvd_pow 2 (by omega)
          have hb0 : b = 0 := hb.resolve_right fun hbs => absurd hbH (Nat.not_lt.mpr (hbs.1 ▸ hlong.le))
          exact hlarge hMs (.inl hb0) (hcases.imp_right (And.imp_left (Nat.le_trans (Nat.le_add_right _ _))))
        · have hsdvd : r.step ∣ minSigned n := by
            rw [hk, minSigned] at hshort ⊢
            exact Nat.pow_dvd_pow 2 ((Nat.pow_le_pow_iff_right (show 1 < 2 by decide)).mp hshort)
          have hsM : r.step ∣ 2 ^ (8 * n) := htwo ▸ Nat.dvd_add hsdvd hsdvd
          have hend : r.right ≠ minSigned n + r.step := by
            intro he
            have hbs : b = r.step := by
              refine (hb.resolve_left fun hb0 => ?_).1
              rw [hb0, he] at hcases
              clear hy hb
              omega
            refine hcond ⟨hnm, hne, by rw [← hbit, hbs]; exact hpos.ne', hshort, he, ?_⟩
            have hcong := hr.congruent
            rw [he, Nat.add_mod_right, Nat.mod_eq_zero_of_dvd hsdvd] at hcong
            rcases hcases with ⟨h1, -⟩ | ⟨h1, -⟩
            · left
              by_contra hgt
              have := Nat.le_of_dvd (by omega) (Nat.dvd_sub (Nat.dvd_of_mod_eq_zero hcong) hsdvd)
              omega
            · right
              omega
          rw [Nat.mod_mod_of_dvd _ hsM, show sextOf n m x % r.step = x % r.step from sextOf_mod hle hsM]
          refine and_congr_right fun hxs => ?_
          exact sext_arc_iff htwo hquarter rfl hdvdN hbH (hb.imp_right And.left) hlt.1 hlt.2 hpos hx (hxs.trans hr.congruent) hy hend hcases
      · have hbs : b = r.step := (hb.resolve_left (hbH ▸ hH.ne')).1
        exact absurd ⟨hnm, hne, by rw [← hbit, hbs]; exact hpos.ne', (hbs.symm.trans hbH).le, he, .inl hl.le⟩ hcond
      · have hbs : b = r.step ∧ r.step ≤ r.left := hb.resolve_left fun hb0 => Nat.not_lt_zero _ (hb0 ▸ hbH)
        exact hlarge (hbs.1 ▸ hMb) (.inr hbs) hcases
    · obtain ⟨y, hy⟩ := sextRange_meets h hr hmask
      exact absurd hy (hdis y)

end Sext

section Exact

variable {r : CircleRange} {opc : OpCode} {n m x : Nat}

theorem unaryInputsExact_iff (f : Nat → Nat)
    (hf : ∀ x < 2 ^ (8 * n), (opc = .boolNegate → x < 2) → Gives (evaluateUnary opc m n (BitVec.ofNat 64 x)) (f x)) :
    UnaryInputsExact r opc n m ↔ ∀ r', r.pullBackUnary opc n m = (true, r') → ∀ x < 2 ^ (8 * n),
      (opc = .boolNegate → x < 2) → r'.contains x = r.contains (f x) := by
  refine forall_congr' fun r' => forall_congr' fun _ => forall_congr' fun x => forall_congr' fun hx => forall_congr' fun hbool => ?_
  obtain ⟨out, hout, hval⟩ := hf x hx hbool
  constructor
  · rintro ⟨out', hout', hc⟩
    rw [hout] at hout'
    cases hout'
    rw [hc, hval]
  · intro hc
    exact ⟨out, hout, by rw [hc, hval]⟩

theorem pullBackUnary_empty {inSize outSize : Int} (hempty : r.isempty = true) :
    r.pullBackUnary opc inSize outSize = (true, r) := by
  unfold pullBackUnary
  rw [if_pos hempty]

/-- A negation is its own inverse on the numbers of its size. -/
theorem pullBackUnary_negation {l e t : Nat} (h : ByteSize n) (hr : r.WellFormed) (hne : r.isempty = false)
    (hmask : r.mask = maskOf n) (hl : l + r.right ≡ t + r.step [MOD 2 ^ (8 * n)])
    (he : e + r.left ≡ t + r.step [MOD 2 ^ (8 * n)]) (hx : x < 2 ^ (8 * n)) :
    ({ r with left := l &&& r.mask, right := e &&& r.mask } : CircleRange).contains x =
      r.contains ((t + (2 ^ (8 * n) - x)) % 2 ^ (8 * n)) := by
  have hlt : (t + (2 ^ (8 * n) - x)) % 2 ^ (8 * n) < 2 ^ (8 * n) := Nat.mod_lt _ (Nat.two_pow_pos _)
  have hback : (t + (2 ^ (8 * n) - (t + (2 ^ (8 * n) - x)) % 2 ^ (8 * n))) % 2 ^ (8 * n) = x := by
    rw [← Nat.mod_eq_of_lt hx]
    refine Nat.ModEq.add_right_cancel' (t + (2 ^ (8 * n) - x)) ?_
    rw [Nat.mod_eq_of_lt hx, show x + (t + (2 ^ (8 * n) - x)) = t + 2 ^ (8 * n) by omega]
    refine ((Nat.mod_modEq (t + (2 ^ (8 * n) - x)) _).symm.add_left _).trans ?_
    rw [show t + (2 ^ (8 * n) - (t + (2 ^ (8 * n) - x)) % 2 ^ (8 * n)) + (t + (2 ^ (8 * n) - x)) % 2 ^ (8 * n) =
      t + 2 ^ (8 * n) by omega]
  conv_lhs => rw [← hback]
  exact contains_negated h hr hne hmask hl he hlt

theorem contains_convertToBoolean (hne : r.isempty = false) (hx : x < 2) :
    ∀ r', r.pullBackUnary .boolNegate n m = (true, r') → r'.contains x = r.contains (1 - x) := by
  intro r' hpull
  rw [pullBackUnary, if_neg (by simp [hne])] at hpull
  simp only [convertToBoolean, hne, Bool.false_eq_true, if_false] at hpull
  cases h0 : r.contains 0 with
  | true =>
      cases h1 : r.contains 1 with
      | true =>
          simp only [h0, h1, Bool.and_self, if_true] at hpull
          cases hpull
          interval_cases x
          · exact h1.symm
          · exact h0.symm
      | false =>
          simp only [h0, h1, Bool.and_false, Bool.false_eq_true, if_false, if_true] at hpull
          cases hpull
          interval_cases x
          · exact h1.symm
          · exact h0.symm
  | false =>
      cases h1 : r.contains 1 with
      | true =>
          simp only [h0, h1, Bool.and_true, Bool.false_eq_true, if_false, if_true] at hpull
          cases hpull
          interval_cases x
          · exact h1.symm
          · exact h0.symm
      | false =>
          simp only [h0, h1, Bool.and_self, Bool.false_eq_true, if_false] at hpull
          cases hpull
          interval_cases x
          · exact h1.symm
          · exact h0.symm

theorem pullBackUnary_exact_iff (r : CircleRange) (opc : OpCode) (n m : Nat) (h : ByteSize n) (hm : ByteSize m) (hle : n ≤ m)
    (hopc : opc = .copy ∨ opc = .int2comp ∨ opc = .intNegate ∨ opc = .intZext ∨ opc = .intSext ∨ opc = .boolNegate)
    (hsize : opc ≠ .intZext → opc ≠ .intSext → n = m) (hr : r.WellFormed) (hmask : r.mask = maskOf m) :
    UnaryInputsExact r opc n m ↔
      (opc = .intZext → ¬ r.PastInputs n) ∧ (opc = .intSext → n < m → ¬ r.EndsPastHalf n m) := by
  cases hne : r.isempty with
  | true =>
      have hnone : ∀ v, r.contains v = false := fun v => contains_of_isempty hne
      have hgives : ∀ x < 2 ^ (8 * n), (opc = .boolNegate → x < 2) →
          ∃ v, Gives (evaluateUnary opc m n (BitVec.ofNat 64 x)) v := by
        intro x hx hbool
        rcases hopc with rfl | rfl | rfl | rfl | rfl | rfl
        · exact ⟨_, gives_copy h hx m⟩
        · exact ⟨_, gives_int2comp h hx m⟩
        · exact ⟨_, gives_intNegate h hx m⟩
        · exact ⟨_, gives_intZext h hx m⟩
        · exact ⟨_, gives_intSext h hm hle hx⟩
        · exact ⟨_, gives_boolNegate (hbool rfl) m n⟩
      refine iff_of_true ?_ ⟨fun _ hpast => ?_, fun _ _ hpast => ?_⟩
      · intro r' hpull x hx hbool
        rw [pullBackUnary_empty hne] at hpull
        cases hpull
        obtain ⟨v, out, hout, hval⟩ := hgives x hx hbool
        exact ⟨out, hout, by rw [hnone, hnone]⟩
      · rw [PastInputs, hnone] at hpast
        exact absurd hpast.2 (by decide)
      · rw [EndsPastHalf, hne] at hpast
        exact absurd hpast.1 (by decide)
  | false =>
      rcases hopc with rfl | rfl | rfl | rfl | rfl | rfl
      · rw [unaryInputsExact_iff (fun x => x) fun x hx _ => gives_copy h hx m]
        refine iff_of_true (fun r' hpull x _ _ => ?_) ⟨fun heq => absurd heq (by decide), fun heq => absurd heq (by decide)⟩
        rw [pullBackUnary, if_neg (by simp [hne])] at hpull
        cases hpull
        rfl
      · obtain rfl := hsize (by decide) (by decide)
        rw [unaryInputsExact_iff _ fun x hx _ => gives_int2comp h hx n]
        refine iff_of_true (fun r' hpull x hx _ => ?_) ⟨fun heq => absurd heq (by decide), fun heq => absurd heq (by decide)⟩
        rw [pullBackUnary, if_neg (by simp [hne])] at hpull
        cases hpull
        have hlt := pow_eq_of_mask h hmask ▸ hr.lt
        have hmirror := pullBackUnary_negation (t := 0) h hr hne hmask (wrappingNeg_add_step h _ hlt.2) (wrappingNeg_add_step h _ hlt.1) hx
        rw [Nat.zero_add] at hmirror
        exact hmirror
      · obtain rfl := hsize (by decide) (by decide)
        rw [unaryInputsExact_iff _ fun x hx _ => gives_intNegate h hx n]
        refine iff_of_true (fun r' hpull x hx _ => ?_) ⟨fun heq => absurd heq (by decide), fun heq => absurd heq (by decide)⟩
        rw [pullBackUnary, if_neg (by simp [hne])] at hpull
        cases hpull
        have hlt := pow_eq_of_mask h hmask ▸ hr.lt
        have hmirror := pullBackUnary_negation (t := 2 ^ (8 * n) - 1) h hr hne hmask (wrappingNot_add_step h _ hlt.2)
          (wrappingNot_add_step h _ hlt.1) hx
        rw [show 2 ^ (8 * n) - 1 + (2 ^ (8 * n) - x) = 2 ^ (8 * n) - 1 - x + 2 ^ (8 * n) by omega, Nat.add_mod_right,
          Nat.mod_eq_of_lt (by omega)] at hmirror
        exact hmirror
      · rw [unaryInputsExact_iff (fun x => x) fun x hx _ => gives_intZext h hx m]
        have hiff := pullBackZext_exact_iff h hm hle hr hne hmask
        constructor
        · intro hexact
          exact ⟨fun _ => hiff.mp fun r' hpull x hx => hexact r' hpull x hx (fun heq => absurd heq (by decide)),
            fun heq => absurd heq (by decide)⟩
        · intro hcond r' hpull x hx _
          exact hiff.mpr (hcond.1 rfl) r' hpull x hx
      · rw [unaryInputsExact_iff _ fun x hx _ => gives_intSext h hm hle hx]
        have hiff := pullBackSext_exact_iff h hm hle hr hne hmask
        constructor
        · intro hexact
          refine ⟨fun heq => absurd heq (by decide), fun _ hnm hpast => ?_⟩
          exact hiff.mp (fun r' hpull x hx => hexact r' hpull x hx (fun heq => absurd heq (by decide))) ⟨hnm, hpast⟩
        · intro hcond r' hpull x hx _
          exact hiff.mpr (fun hpast => hcond.2 rfl hpast.1 hpast.2) r' hpull x hx
      · rw [unaryInputsExact_iff (fun x => 1 - x) fun x _ hbool => gives_boolNegate (hbool rfl) m n]
        refine iff_of_true (fun r' hpull x _ hbool => ?_) ⟨fun heq => absurd heq (by decide), fun heq => absurd heq (by decide)⟩
        exact contains_convertToBoolean hne (hbool rfl) r' hpull

theorem pullBackUnary_exact_iff_wrapping : UnaryInputsExact ⟨0xfff0, 0x0010, 0xffff, false, 1⟩ .intSext 1 2 :=
  (pullBackUnary_exact_iff ⟨0xfff0, 0x0010, 0xffff, false, 1⟩ .intSext 1 2 (by decide) (by decide) (by decide)
    (.inr (.inr (.inr (.inr (.inl rfl))))) (fun _ hne => absurd rfl hne)
    ⟨⟨2, by decide, rfl⟩, ⟨0, by decide, rfl⟩, by decide, by decide, rfl⟩ rfl).mpr
    ⟨fun heq => absurd heq (by decide), fun _ _ hpast => absurd hpast.2.1 (by decide)⟩

/-- The range 1 to 0x80 has a number that is no sign extension of a byte, which is not
noticed. -/
theorem pullBackUnary_not_exact : WellFormed ⟨1, 0x81, 0xffff, false, 1⟩ ∧
    ¬ UnaryInputsExact ⟨1, 0x81, 0xffff, false, 1⟩ .intSext 1 2 := by
  constructor
  · exact ⟨⟨2, by decide, rfl⟩, ⟨0, by decide, rfl⟩, by decide, by decide, rfl⟩
  · intro hexact
    obtain ⟨out, hout, hmem⟩ := hexact ⟨1, 0x81, 0xff, false, 1⟩ (by decide) 0x80 (by decide) (fun heq => absurd heq (by decide))
    cases hout
    revert hmem
    decide

end Exact

end GhidraDecompiler.Range.CircleRange
