import GhidraDecompiler.Range.PullBackAdditive

namespace GhidraDecompiler.Range.CircleRange

open Pcode Arcs

section Right

variable {r : CircleRange} {n val x : Nat}

/-- Scaling keeps the order, so an arc of quotients is an arc of numbers. The quotients
stay below `B`. -/
theorem arc_scale {V B l r x : Nat} (hV : 0 < V) (hx : x < B * V) (hl : l ≤ B) (hr : r ≤ B) (hne : l ≠ r)
    (hends : ¬ (l = 0 ∧ r = B)) (hends' : ¬ (l = B ∧ r = 0)) :
    Arc l r (x / V) ↔ Arc (if l = B then 0 else l * V) (if r = B then 0 else r * V) x := by
  have hq : ∀ e, x / V < e ↔ x < e * V := fun e => Nat.div_lt_iff_lt_mul hV
  have hmono : ∀ {a b}, a < b → a * V < b * V := fun hab => (Nat.mul_lt_mul_right hV).mpr hab
  have hlr := hq l
  have hrr := hq r
  have hB := hq B
  have h1 : l < r → l * V < r * V := hmono
  have h2 : r < l → r * V < l * V := hmono
  have h3 : 0 < l → 0 < l * V := fun hpos => Nat.mul_pos hpos hV
  have h4 : 0 < r → 0 < r * V := fun hpos => Nat.mul_pos hpos hV
  have h5 : l < B → l * V < B * V := hmono
  have h6 : r < B → r * V < B * V := hmono
  have h7 : l = 0 → l * V = 0 := fun h0 => by rw [h0, Nat.zero_mul]
  have h8 : r = 0 → r * V = 0 := fun h0 => by rw [h0, Nat.zero_mul]
  simp only [Arc]
  generalize l * V = lV at *
  generalize r * V = rV at *
  generalize B * V = M at *
  generalize x / V = q at *
  split_ifs with hlB hrB hrB
  · omega
  · subst hlB
    omega
  · subst hrB
    omega
  · omega

theorem mul_mod_of_le {V B e : Nat} (hV : 0 < V) (he : e ≤ B) : e * V % (B * V) = if e = B then 0 else e * V := by
  split
  · next heq => rw [heq, Nat.mod_self]
  · exact Nat.mod_eq_of_lt ((Nat.mul_lt_mul_right hV).mpr (by omega))

/-- Quotients are below `B`, and ends above it are moved to it. -/
theorem arc_clamp {B l r q : Nat} (hq : q < B) (hfull : ¬ ((B ≤ l ∧ B ≤ r ∧ r ≤ l) ∨ (l = 0 ∧ B ≤ r) ∨ l = r)) :
    (Arc l r q ↔ Arc (if l > B then B else l) (if r > B then 0 else r) q) ∧
      ((if l > B then B else l) = B ∧ (if r > B then 0 else r) = 0 → ¬ Arc l r q) ∧
      (if l > B then B else l) ≠ (if r > B then 0 else r) ∧
      ¬ ((if l > B then B else l) = 0 ∧ (if r > B then 0 else r) = B) := by
  simp only [Arc]
  split_ifs <;> omega

theorem rightBound_eq (h : ByteSize n) (hpos : 0 < val) (hval : val < 8 * n) :
    wrappingAdd (maskOf n >>> shrAmount val) 1 = 2 ^ (8 * n - val) := by
  have hw := h.width_le
  have hlt : 2 ^ (8 * n - val) < 2 ^ 64 := Nat.pow_lt_pow_right (by decide) (by omega)
  rw [shrAmount_eq (by omega), maskOf_shiftRight_eq h hval.le, wrappingAdd, Nat.sub_add_cancel (Nat.two_pow_pos _),
    Nat.mod_eq_of_lt hlt]

theorem contains_iff_arc_of_step (hstep : r.step = 1) : r.contains x = true ↔ r.isempty = false ∧ Arc r.left r.right x := by
  rw [contains_iff_arc, hstep, Nat.mod_one, Nat.mod_one]
  simp only [true_and]

theorem pullBackRight_contains (h : ByteSize n) (hstep : r.step = 1) (hne : r.isempty = false)
    (hmask : r.mask = maskOf n) (hpos : 0 < val) (hval : val < 8 * n) (hx : x < 2 ^ (8 * n)) :
    (r.pullBackRight val n).contains x = r.contains (x / 2 ^ val) := by
  have hV : 0 < 2 ^ val := Nat.two_pow_pos val
  have hM : 2 ^ (8 * n) = 2 ^ (8 * n - val) * 2 ^ val := by rw [← pow_add, Nat.sub_add_cancel hval.le]
  have hq : x / 2 ^ val < 2 ^ (8 * n - val) := (Nat.div_lt_iff_lt_mul hV).mpr (hM ▸ hx)
  have hold : r.contains (x / 2 ^ val) = true ↔ Arc r.left r.right (x / 2 ^ val) := by
    rw [contains_iff_arc_of_step hstep]
    simp only [hne, true_and]
  have hamount : shrAmount val = val := shrAmount_eq (by have := h.width_le; omega)
  have hscale : ∀ e, e ≤ 2 ^ (8 * n - val) →
      (e <<< val) % 2 ^ 64 &&& r.mask = if e = 2 ^ (8 * n - val) then 0 else e * 2 ^ val := by
    intro e he
    rw [hmask, shiftLeft_and h, hM, mul_mod_of_le hV he]
  rw [Bool.eq_iff_iff, hold, pullBackRight, rightBound_eq h hpos hval, hamount]
  rw [hM] at hx
  generalize 2 ^ (8 * n - val) = B at hq hscale hx ⊢
  by_cases hfull : (B ≤ r.left ∧ B ≤ r.right ∧ r.right ≤ r.left) ∨ (r.left = 0 ∧ B ≤ r.right) ∨ r.left = r.right
  · rw [if_pos hfull]
    refine (contains_iff_arc_of_step (by exact hstep)).trans ?_
    refine iff_of_true ⟨hne, arc_self _ _⟩ ?_
    generalize x / 2 ^ val = q at hq
    simp only [Arc]
    omega
  · obtain ⟨harc, hnone, hends, hends'⟩ := arc_clamp hq hfull
    rw [if_neg hfull, harc]
    refine (contains_iff_arc_of_step (by exact hstep)).trans ?_
    simp only
    have hl : (if r.left > B then B else r.left) ≤ B := by split <;> omega
    have hr : (if r.right > B then 0 else r.right) ≤ B := by split <;> omega
    rw [hscale _ hl, hscale _ hr]
    generalize (if r.left > B then B else r.left) = l at *
    generalize (if r.right > B then 0 else r.right) = e at *
    have hmul : ∀ {v}, v ≠ 0 → v * 2 ^ val ≠ 0 := fun hv => Nat.mul_ne_zero hv hV.ne'
    by_cases hgone : l = B ∧ e = 0
    · -- the range misses all quotients, and the ends meet at zero
      obtain ⟨rfl, rfl⟩ := hgone
      rw [harc] at hnone
      have hl0 : l ≠ 0 := by omega
      simp [hnone, Ne.symm hl0]
    · have hdiff : (if l = B then 0 else l * 2 ^ val) ≠ if e = B then 0 else e * 2 ^ val := by
        split_ifs with h1 h2 h2
        · omega
        · exact (hmul (by omega)).symm
        · exact hmul (by omega)
        · exact fun heq => hends (Nat.eq_of_mul_eq_mul_right hV heq)
      rw [if_neg hdiff, arc_scale hV hx hl hr hends hends' hgone]
      simp only [hne, true_and]

theorem pullBackRight_exact (r : CircleRange) (val n : Nat) (h : ByteSize n) (hstep : r.step = 1)
    (hmask : r.mask = maskOf n) (hpos : 1 ≤ val) (hval : val < 8 * n) : InputsExact r .intRight val 0 n := by
  have hword : val < 2 ^ 64 := by
    have := h.width_le
    omega
  have hgives : ∀ x < 2 ^ (8 * n), Gives (evaluateBinary .intRight n n (BitVec.ofNat 64 (operands 0 x val).1)
      (BitVec.ofNat 64 (operands 0 x val).2)) (x / 2 ^ val) := fun x hx => gives_intRight h hx hword
  cases hne : r.isempty with
  | true =>
      have hpull : r.pullBackBinary .intRight val 0 n n = (true, r) := by rw [pullBackBinary, if_pos hne]
      refine (inputsExact_iff _ hpull hgives).mpr fun x hx => ?_
      rw [contains_of_isempty hne, contains_of_isempty hne]
  | false =>
      have hpull : r.pullBackBinary .intRight val 0 n n = (true, r.pullBackRight val n) := by
        rw [pullBackBinary, if_neg (by simp [hne])]
        exact if_pos hstep
      exact (inputsExact_iff _ hpull hgives).mpr fun x hx => pullBackRight_contains h hstep hne hmask hpos hval hx

theorem pullBackRight_exact_quarter : InputsExact ⟨3, 10, 0xff, false, 1⟩ .intRight 2 0 1 :=
  pullBackRight_exact ⟨3, 10, 0xff, false, 1⟩ 2 1 (by decide) rfl rfl (by decide) (by decide)

end Right

section SignedRight

variable {r : CircleRange} {n val x e K V : Nat}

/-- Only the places of the point relative to the ends and of the ends matter. -/
theorem arc_congr {l r q L R x : Nat} (hl : q < l ↔ x < L) (hr : q < r ↔ x < R) (hlt : l < r ↔ L < R) (hgt : r < l ↔ R < L) :
    Arc l r q ↔ Arc L R x := by
  simp only [Arc]
  omega

/-- Where the ends of a range of signed quotients are scaled to. -/
def scaledEnd (M K V e : Nat) : Nat := if e ≤ K then e * V else M - (M - e) * V

theorem mul_mod_eq_scaledEnd {M : Nat} (hV : 0 < V) (hM : M = 2 * (K * V)) (hK : 0 < K) (he : e < M) (hend : e ≤ K ∨ M - K ≤ e) :
    e * V % M = scaledEnd M K V e := by
  have hH : 0 < K * V := Nat.mul_pos hK hV
  rw [scaledEnd]
  split
  · next hle =>
      have := Nat.mul_le_mul_right V hle
      rw [Nat.mod_eq_of_lt (by omega)]
  · next hgt =>
      obtain ⟨j, hj⟩ : ∃ j, M = e + j := ⟨M - e, by omega⟩
      have hjpos : 0 < j := by omega
      have hjV : 0 < j * V := Nat.mul_pos hjpos hV
      have hjK : j * V ≤ K * V := Nat.mul_le_mul_right V (by omega)
      have hje : M - e = j := by omega
      rw [hje]
      have hsum : e * V + j * V = M * V := by rw [← Nat.add_mul, ← hj]
      have heq : e * V + M = M - j * V + M * V := by omega
      rw [← Nat.add_mod_right, heq, Nat.add_mul_mod_self_left, Nat.mod_eq_of_lt (by omega)]

theorem sarOf_lt_iff (hV : V = 2 ^ val) (hH : minSigned n = K * V) (h : ByteSize n) (hK : 0 < K) (hx : x < 2 ^ (8 * n))
    (he : e < 2 ^ (8 * n)) (hend : e ≤ K ∨ 2 ^ (8 * n) - K ≤ e) :
    sarOf n x val < e ↔ x < scaledEnd (2 ^ (8 * n)) K V e := by
  have htwo := two_minSigned h
  have hVpos : 0 < V := hV ▸ Nat.two_pow_pos val
  have hKle : K ≤ K * V := Nat.le_mul_of_pos_right K hVpos
  rw [sarOf, ← hV, scaledEnd]
  rw [hH] at htwo ⊢
  generalize 2 ^ (8 * n) = M at *
  by_cases hneg : x < K * V
  · rw [if_pos hneg]
    have hq : x / V < K := (Nat.div_lt_iff_lt_mul hVpos).mpr hneg
    split
    · exact Nat.div_lt_iff_lt_mul hVpos
    · have := Nat.mul_le_mul_right V (show M - e ≤ K by omega)
      omega
  · rw [if_neg hneg]
    have hback : (M - 1 - x) / V < K := (Nat.div_lt_iff_lt_mul hVpos).mpr (by omega)
    split
    · next hle =>
        have := Nat.mul_le_mul_right V hle
        omega
    · next hgt =>
        have hj : ∀ j, (M - 1 - x) / V < j ↔ M - 1 - x < j * V := fun j => Nat.div_lt_iff_lt_mul hVpos
        have := hj (M - e)
        have := Nat.mul_le_mul_right V (show M - e ≤ K by omega)
        omega

theorem scaledEnd_lt {M a b : Nat} (hV : 0 < V) (hK : 0 < K) (hM : M = 2 * (K * V)) (ha : a ≤ K ∨ M - K ≤ a)
    (hb : b ≤ K ∨ M - K ≤ b) (hlt : a < b) (hbM : b < M) (hgap : ¬ (a = K ∧ b = M - K)) :
    scaledEnd M K V a < scaledEnd M K V b := by
  have hKV : K ≤ K * V := Nat.le_mul_of_pos_right K hV
  have hmul : ∀ {u v}, u < v → u * V < v * V := fun huv => (Nat.mul_lt_mul_right hV).mpr huv
  have hle : ∀ {u v}, u ≤ v → u * V ≤ v * V := fun huv => Nat.mul_le_mul_right V huv
  simp only [scaledEnd]
  split_ifs with h1 h2
  · exact hmul hlt
  · have := hle h1
    have := hle (show M - b ≤ K by omega)
    rcases Nat.eq_or_lt_of_le h1 with heq | hlt'
    · have := hmul (show M - b < K by omega)
      omega
    · have := hmul hlt'
      omega
  · omega
  · have := hmul (show M - b < M - a by omega)
    have := hle (show M - a ≤ K by omega)
    omega

/-- Quotients miss the gap from `K` to `M - K`, and ends in it are moved to its ends. -/
theorem arc_clamp_gap {M K l r q : Nat} (hq : q < K ∨ M - K ≤ q) (hKM : K < M - K)
    (hfull : ¬ ((K ≤ l ∧ l ≤ M - K ∧ K ≤ r ∧ r ≤ M - K ∧ r ≤ l) ∨ l = r)) :
    (Arc l r q ↔ Arc (if l > K ∧ l < M - K then K else l) (if r > K ∧ r < M - K then M - K else r) q) ∧
      ((if l > K ∧ l < M - K then K else l) = K ∧ (if r > K ∧ r < M - K then M - K else r) = M - K → ¬ Arc l r q) ∧
      (if l > K ∧ l < M - K then K else l) ≠ (if r > K ∧ r < M - K then M - K else r) ∧
      ¬ ((if l > K ∧ l < M - K then K else l) = M - K ∧ (if r > K ∧ r < M - K then M - K else r) = K) := by
  simp only [Arc]
  split_ifs <;> omega

theorem pullBackSright_contains (h : ByteSize n) (hr : r.WellFormed) (hstep : r.step = 1) (hne : r.isempty = false)
    (hmask : r.mask = maskOf n) (hpos : 0 < val) (hval : val < 8 * n) (hword : val + 1 < 64) (hx : x < 2 ^ (8 * n)) :
    (r.pullBackSright val n).contains x = r.contains (sarOf n x val) := by
  have hV : 0 < 2 ^ val := Nat.two_pow_pos val
  have hw := h.width_le
  have hK : 0 < 2 ^ (8 * n - (val + 1)) := Nat.two_pow_pos _
  have hH : minSigned n = 2 ^ (8 * n - (val + 1)) * 2 ^ val := by
    rw [minSigned, ← pow_add]
    congr 1
    omega
  have hM : 2 ^ (8 * n) = 2 * (2 ^ (8 * n - (val + 1)) * 2 ^ val) := by
    rw [← hH, Nat.two_mul]
    exact two_minSigned h
  have hgap : 2 ^ (8 * n - (val + 1)) < 2 ^ (8 * n) - 2 ^ (8 * n - (val + 1)) := by
    have htwo : 2 ≤ 2 ^ val := by
      have := Nat.pow_le_pow_right (show 0 < 2 by decide) hpos
      omega
    have := Nat.mul_le_mul_left (2 ^ (8 * n - (val + 1))) htwo
    omega
  have hKlt : 2 ^ (8 * n - (val + 1)) < 2 ^ 64 := Nat.pow_lt_pow_right (by decide) (by omega)
  have hleftb : maskOf n >>> shrAmount (wrappingAdd val 1) = 2 ^ (8 * n - (val + 1)) - 1 := by
    rw [show wrappingAdd val 1 = val + 1 by rw [wrappingAdd]; omega, shrAmount_eq hword,
      maskOf_shiftRight_eq h (by omega)]
  have hrightb : maskOf n ^^^ (2 ^ (8 * n - (val + 1)) - 1) = 2 ^ (8 * n) - 2 ^ (8 * n - (val + 1)) :=
    maskOf_xor h (Nat.sub_le _ _)
  have hleftb' : wrappingAdd (2 ^ (8 * n - (val + 1)) - 1) 1 = 2 ^ (8 * n - (val + 1)) := by
    rw [wrappingAdd, Nat.sub_add_cancel hK, Nat.mod_eq_of_lt hKlt]
  have hlt := hr.lt
  rw [pow_eq_of_mask h hmask] at hlt
  have hlow : sarOf n x val < 2 ^ (8 * n - (val + 1)) ∨ 2 ^ (8 * n) - 2 ^ (8 * n - (val + 1)) ≤ sarOf n x val := by
    have h1 := sarOf_lt_iff rfl hH h hK hx (e := 2 ^ (8 * n - (val + 1))) (by omega) (.inl le_rfl)
    have h2 := sarOf_lt_iff rfl hH h hK hx (e := 2 ^ (8 * n) - 2 ^ (8 * n - (val + 1))) (by omega) (.inr le_rfl)
    rw [scaledEnd, if_pos le_rfl] at h1
    rw [scaledEnd, if_neg (by omega), show 2 ^ (8 * n) - (2 ^ (8 * n) - 2 ^ (8 * n - (val + 1))) =
      2 ^ (8 * n - (val + 1)) by omega] at h2
    omega
  have hscale : ∀ e, e < 2 ^ (8 * n) → (e ≤ 2 ^ (8 * n - (val + 1)) ∨ 2 ^ (8 * n) - 2 ^ (8 * n - (val + 1)) ≤ e) →
      (e <<< val) % 2 ^ 64 &&& r.mask = scaledEnd (2 ^ (8 * n)) (2 ^ (8 * n - (val + 1))) (2 ^ val) e := by
    intro e he hend
    rw [hmask, shiftLeft_and h, mul_mod_eq_scaledEnd hV hM hK he hend]
  have hq := fun e he hend => sarOf_lt_iff (e := e) rfl hH h hK hx he hend
  have hmono := fun a b ha hb => scaledEnd_lt (a := a) (b := b) hV hK hM ha hb
  have hold : r.contains (sarOf n x val) = true ↔ Arc r.left r.right (sarOf n x val) := by
    rw [contains_iff_arc_of_step hstep]
    simp only [hne, true_and]
  rw [Bool.eq_iff_iff, hold, pullBackSright]
  simp only [hleftb, hrightb, hleftb', shrAmount_eq (show val < 64 by omega)]
  generalize 2 ^ (8 * n - (val + 1)) = K at *
  generalize 2 ^ (8 * n) = M at *
  generalize sarOf n x val = q at *
  by_cases hfull : (K ≤ r.left ∧ r.left ≤ M - K ∧ K ≤ r.right ∧ r.right ≤ M - K ∧ r.right ≤ r.left) ∨ r.left = r.right
  · rw [if_pos hfull]
    refine (contains_iff_arc_of_step (by exact hstep)).trans (iff_of_true ⟨hne, arc_self _ _⟩ ?_)
    simp only [Arc]
    omega
  · obtain ⟨harc, hnone, hends, hends'⟩ := arc_clamp_gap hlow hgap hfull
    rw [if_neg hfull, harc]
    refine (contains_iff_arc_of_step (by exact hstep)).trans ?_
    simp only
    have hl : (if r.left > K ∧ r.left < M - K then K else r.left) ≤ K ∨
        M - K ≤ if r.left > K ∧ r.left < M - K then K else r.left := by split <;> omega
    have hr' : (if r.right > K ∧ r.right < M - K then M - K else r.right) ≤ K ∨
        M - K ≤ if r.right > K ∧ r.right < M - K then M - K else r.right := by split <;> omega
    have hlM : (if r.left > K ∧ r.left < M - K then K else r.left) < M := by split <;> omega
    have hrM : (if r.right > K ∧ r.right < M - K then M - K else r.right) < M := by split <;> omega
    rw [hscale _ hlM hl, hscale _ hrM hr']
    generalize (if r.left > K ∧ r.left < M - K then K else r.left) = l at *
    generalize (if r.right > K ∧ r.right < M - K then M - K else r.right) = e at *
    by_cases hgone : l = K ∧ e = M - K
    · -- the range lies in the gap, and both ends become the most negative value
      rw [harc] at hnone
      have heq : scaledEnd M K (2 ^ val) l = scaledEnd M K (2 ^ val) e := by
        rw [scaledEnd, scaledEnd, if_pos (by omega), if_neg (by omega), hgone.1, hgone.2, show M - (M - K) = K by omega]
        omega
      simp [heq, hnone hgone]
    · have h1 : l < e → scaledEnd M K (2 ^ val) l < scaledEnd M K (2 ^ val) e := fun hle =>
        hmono l e hl hr' hle hrM hgone
      have h2 : e < l → scaledEnd M K (2 ^ val) e < scaledEnd M K (2 ^ val) l := fun hle =>
        hmono e l hr' hl hle hlM fun hgone' => hends' ⟨hgone'.2, hgone'.1⟩
      rw [if_neg (by omega), arc_congr (hq l hlM hl) (hq e hrM hr') (by omega) (by omega)]
      simp only [hne, true_and]

/-- For the sign of a whole word the shift of the bounds wraps: no end is moved, and only
the lowest bits of the ends are left. -/
theorem pullBackSright_sign (hmask : r.mask = maskOf 8) :
    r.pullBackSright 63 8 =
      if r.left = r.right then { r with left := 0, right := 0 }
      else { r with
        left := r.left % 2 * 2 ^ 63, right := r.right % 2 * 2 ^ 63,
        isempty := if r.left % 2 * 2 ^ 63 = r.right % 2 * 2 ^ 63 then true else r.isempty } := by
  have hleftb : maskOf 8 >>> shrAmount (wrappingAdd 63 1) = maskOf 8 := by decide
  have hrightb : maskOf 8 ^^^ maskOf 8 = 0 := by decide
  have hleftb' : wrappingAdd (maskOf 8) 1 = 0 := by decide
  have hscale : ∀ e, (e <<< shrAmount 63) % 2 ^ 64 &&& r.mask = e % 2 * 2 ^ 63 := by
    intro e
    rw [hmask, shrAmount_eq (by decide)]
    refine (shiftLeft_and (n := 8) (by decide) e 63).trans ?_
    omega
  rw [pullBackSright]
  simp only [hleftb, hrightb, hleftb', hscale]
  by_cases hfull : r.left = r.right
  · rw [if_pos (.inr hfull), if_pos hfull]
  · rw [if_neg (by omega), if_neg hfull]
    simp only [Nat.not_lt_zero, and_false, if_false]

theorem sarOf_sign (hx : x < 2 ^ 64) : sarOf 8 x 63 = if x < 2 ^ 63 then 0 else 2 ^ 64 - 1 := by
  rw [sarOf, minSigned]
  simp only [Nat.reduceMul, Nat.add_one_sub_one]
  split
  · exact Nat.div_eq_of_lt ‹_›
  · rw [Nat.div_eq_of_lt (by omega), Nat.sub_zero]

theorem pullBackSright_sign_iff (hr : r.WellFormed) (hstep : r.step = 1) (hne : r.isempty = false)
    (hmask : r.mask = maskOf 8) :
    (∀ x < 2 ^ 64, (r.pullBackSright 63 8).contains x = r.contains (sarOf 8 x 63)) ↔
      r.left = r.right ∨ (r.left < r.right ∧ r.left ≠ 0 ∧ r.left % 2 = r.right % 2) ∨ (r.left = 0 ∧ r.right % 2 = 1) ∨
        (r.right = 0 ∧ r.left % 2 = 1) := by
  have hlt := hr.lt
  have hM : r.mask + 1 = 2 ^ 64 := pow_eq_of_mask (n := 8) (by decide) hmask
  rw [hM] at hlt
  have hold : ∀ y, r.contains y = true ↔ Arc r.left r.right y := by
    intro y
    rw [contains_iff_arc_of_step hstep]
    simp only [hne, true_and]
  rw [pullBackSright_sign hmask]
  by_cases hfull : r.left = r.right
  · rw [if_pos hfull]
    refine iff_of_true (fun x _ => ?_) (.inl hfull)
    rw [Bool.eq_iff_iff, hold]
    refine iff_of_true ((contains_iff_arc_of_step (by exact hstep)).mpr ⟨hne, arc_self _ _⟩) ?_
    rw [hfull]
    exact arc_self _ _
  rw [if_neg hfull]
  have hnew : ∀ y, ({ r with
      left := r.left % 2 * 2 ^ 63, right := r.right % 2 * 2 ^ 63,
      isempty := if r.left % 2 * 2 ^ 63 = r.right % 2 * 2 ^ 63 then true else r.isempty } : CircleRange).contains y = true ↔
        r.left % 2 ≠ r.right % 2 ∧ (r.left % 2 = 0 ↔ y < 2 ^ 63) := by
    intro y
    refine (contains_iff_arc_of_step (by exact hstep)).trans ?_
    rcases Nat.mod_two_eq_zero_or_one r.left with hl | hl <;> rcases Nat.mod_two_eq_zero_or_one r.right with hr | hr
    all_goals
      simp [hne, Arc, hl, hr]
  constructor
  · -- zero and minus one stand for all results
    intro hall
    have hzero := hall 0 (by decide)
    have htop := hall (2 ^ 64 - 1) (by decide)
    rw [Bool.eq_iff_iff, hnew, hold, sarOf_sign (by decide)] at hzero htop
    rw [if_pos (by decide)] at hzero
    rw [if_neg (by decide)] at htop
    simp only [Arc] at hzero htop
    omega
  · intro hcond x hx
    rw [Bool.eq_iff_iff, hnew, hold, sarOf_sign hx, Arc]
    split_ifs <;> omega

theorem pullBackSright_exact_iff (r : CircleRange) (val n : Nat) (h : ByteSize n) (hr : r.WellFormed) (hstep : r.step = 1)
    (hmask : r.mask = maskOf n) (hpos : 1 ≤ val) (hval : val ≤ 8 * n - 1) :
    InputsExact r .intSright val 0 n ↔
      val < 63 ∨ r.isempty = true ∨ r.left = r.right ∨ (r.left < r.right ∧ r.left ≠ 0 ∧ r.left % 2 = r.right % 2) ∨
        (r.left = 0 ∧ r.right % 2 = 1) ∨ (r.right = 0 ∧ r.left % 2 = 1) := by
  have hw := h.width_le
  have hwpos := h.width_pos
  have hvalword : val < 2 ^ 64 := by omega
  have hgives : ∀ x < 2 ^ (8 * n), Gives (evaluateBinary .intSright n n (BitVec.ofNat 64 (operands 0 x val).1)
      (BitVec.ofNat 64 (operands 0 x val).2)) (sarOf n x val) := fun x hx => gives_intSright h hx hvalword
  cases hne : r.isempty with
  | true =>
      have hpull : r.pullBackBinary .intSright val 0 n n = (true, r) := by rw [pullBackBinary, if_pos hne]
      simp only [true_or, or_true, iff_true]
      refine (inputsExact_iff _ hpull hgives).mpr fun x hx => ?_
      rw [contains_of_isempty hne, contains_of_isempty hne]
  | false =>
      have hpull : r.pullBackBinary .intSright val 0 n n = (true, r.pullBackSright val n) := by
        rw [pullBackBinary, if_neg (by simp [hne])]
        exact if_pos hstep
      rw [inputsExact_iff _ hpull hgives]
      by_cases hword : val < 63
      · simp only [hword, true_or, iff_true]
        exact fun x hx => pullBackSright_contains h hr hstep hne hmask hpos (by omega) (by omega) hx
      · obtain rfl : n = 8 := by omega
        obtain rfl : val = 63 := by omega
        simp only [lt_irrefl, Bool.false_eq_true, false_or]
        exact pullBackSright_sign_iff hr hstep hne hmask

theorem pullBackSright_exact_iff_signOfByte : InputsExact ⟨0, 3, 0xff, false, 1⟩ .intSright 7 0 1 :=
  (pullBackSright_exact_iff ⟨0, 3, 0xff, false, 1⟩ 7 1 (by decide)
    ⟨⟨1, by decide, rfl⟩, ⟨0, by decide, rfl⟩, by decide, by decide, rfl⟩ rfl rfl (by decide) (by decide)).mpr
      (.inl (by decide))

/-- The sign of zero is zero, which is in the range, but nothing is left of it. -/
theorem pullBackSright_not_exact : WellFormed ⟨0, 2, 0xffffffffffffffff, false, 1⟩ ∧
    ¬ InputsExact ⟨0, 2, 0xffffffffffffffff, false, 1⟩ .intSright 63 0 8 := by
  constructor
  · exact ⟨⟨8, by decide, rfl⟩, ⟨0, by decide, rfl⟩, by decide, by decide, rfl⟩
  · rintro ⟨r', hpull, hexact⟩
    obtain ⟨out, hout, hmem⟩ := hexact 0 (by decide)
    cases hpull
    cases hout
    revert hmem
    decide

end SignedRight

end GhidraDecompiler.Range.CircleRange
