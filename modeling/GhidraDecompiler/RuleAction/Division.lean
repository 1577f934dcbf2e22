import GhidraDecompiler.Lib.Reciprocal
import GhidraDecompiler.Multiprecision.Arith128
import GhidraDecompiler.Multiprecision.Udiv128

namespace GhidraDecompiler.RuleAction

open Fallible LongDivision Multiprecision Reciprocal
open Pcode (Word)

namespace RuleDivOpt

/-- The last test, with the power of two, the quotient and the remainder of the
division by the multiplier. -/
def acceptDivisor (power quotient remainder : List Word) (diff : Word) (xsize : Nat) : Outcome Word := do
  let maxx := (if xsize = 64 then (0 : Word) else (1 : Word) <<< xsize) - 1
  let quotient0 ← getIdx quotient 0
  let diff := diff + (quotient0 - (← getIdx remainder 0))
  let denom := setU128 diff
  let (tmp, _) ← udiv128 power denom
  if (← getIdx tmp 1) ≠ 0 then return quotient0
  if (← getIdx tmp 0) ≤ maxx then return 0
  return quotient0

/-- The divisor, and the multiplier that is changed in place. -/
def calcDivisor (shiftAmount : Nat) (multiplier : List Word) (xsize : Nat) : Outcome (Word × List Word) := do
  if shiftAmount > 127 ∨ xsize > 64 then return (0, multiplier)
  let power := setU128 1
  if ← ulessequal128 multiplier power then return (0, multiplier)
  let multiplier := subtract128 multiplier power
  let power ← leftshift128 power shiftAmount
  let (quotient, remainder) ← udiv128 power multiplier
  if (← getIdx quotient 1) ≠ 0 then return (0, multiplier)
  if ← uless128 multiplier quotient then return (0, multiplier)
  if ← uless128 remainder quotient then return (← acceptDivisor power quotient remainder 0 xsize, multiplier)
  let quotient0 ← getIdx quotient 0
  let quotient ← setIdx quotient 0 (quotient0 + 1)
  let remainder := subtract128 remainder multiplier
  let remainder := add128 remainder quotient
  if !(← uless128 remainder quotient) then return (0, multiplier)
  return (← acceptDivisor power quotient remainder (← getIdx quotient 0) xsize, multiplier)

section Accept

variable {n xsize : Nat} {p₀ p₁ q₀ q₁ r₀ r₁ diff d : Word}

theorem toNat_maxx (h : xsize ≤ 64) : ((if xsize = 64 then (0 : Word) else (1 : Word) <<< xsize) - 1).toNat = 2 ^ xsize - 1 := by
  by_cases hfull : xsize = 64
  · subst hfull
    rfl
  · have hpow : 2 ^ xsize < 2 ^ 64 := Nat.pow_lt_pow_right (by decide) (by omega)
    have hpos := Nat.two_pow_pos xsize
    have hone : (1 : Word).toNat = 1 := rfl
    have hshift : ((1 : Word) <<< xsize).toNat = 2 ^ xsize := by
      rw [BitVec.toNat_shiftLeft, Nat.shiftLeft_eq, hone, Nat.one_mul, Nat.mod_eq_of_lt hpow]
    rw [if_neg hfull, BitVec.toNat_sub_of_le (by rw [BitVec.le_def, hshift, hone]; omega), hshift, hone]

/-- The divisor is accepted when the error, times the largest number plus one, does not
exceed the power of two. -/
theorem acceptDivisor_spec (hx : xsize ≤ 64) (hp : value [p₀, p₁] = 2 ^ n)
    (h : acceptDivisor [p₀, p₁] [q₀, q₁] [r₀, r₁] diff xsize = .ok d) (hd : d ≠ 0) :
    d = q₀ ∧ 0 < (diff + (q₀ - r₀)).toNat ∧ (diff + (q₀ - r₀)).toNat * 2 ^ xsize ≤ 2 ^ n := by
  have hget₀ : ∀ x y : Word, getIdx [x, y] 0 = .ok x := fun _ _ => rfl
  have hget₁ : ∀ x y : Word, getIdx [x, y] 1 = .ok y := fun _ _ => rfl
  simp only [acceptDivisor, hget₀, ok_bind] at h
  generalize diff + (q₀ - r₀) = e at h ⊢
  have hval : value [e, 0] = e.toNat := by simp
  by_cases hzero : e = 0
  · subst hzero
    rw [setU128, udiv128_zero] at h
    cases h
  have hpos : 0 < e.toNat := Nat.pos_of_ne_zero fun h0 => hzero (BitVec.eq_of_toNat_eq h0)
  obtain ⟨t₀, t₁, s₀, s₁, hdiv, hq, -⟩ := udiv128_spec p₀ p₁ e 0 (by rw [hval]; omega)
  rw [hval, hp] at hq
  rw [setU128, hdiv, ok_bind] at h
  simp only [hget₀, hget₁, ok_bind, pure_eq_ok] at h
  -- the quotient by the error exceeds the largest number
  have henough : 2 ^ xsize ≤ value [t₀, t₁] → e.toNat * 2 ^ xsize ≤ 2 ^ n := by
    intro hle
    rw [hq, Nat.le_div_iff_mul_le hpos] at hle
    rw [Nat.mul_comm]
    exact hle
  have hpow : 2 ^ xsize ≤ 2 ^ 64 := Nat.pow_le_pow_right (by decide) hx
  by_cases ht₁ : t₁ = 0
  · rw [if_neg (not_not_intro ht₁)] at h
    generalize hmaxx : (if xsize = 64 then (0 : Word) else (1 : Word) <<< xsize) - 1 = maxx at h
    split at h
    · cases h
      exact absurd rfl hd
    · next hgt =>
        cases h
        refine ⟨rfl, hpos, henough ?_⟩
        rw [BitVec.le_def, ← hmaxx, toNat_maxx hx] at hgt
        rw [ht₁]
        simp only [value_cons, value_nil]
        omega
  · rw [if_pos ht₁] at h
    cases h
    exact ⟨rfl, hpos, henough (hpow.trans (Nat.le_of_not_lt (mt value_low.mpr ht₁)))⟩

theorem acceptDivisor_ok_iff :
    (∃ d, acceptDivisor [p₀, p₁] [q₀, q₁] [r₀, r₁] diff xsize = .ok d) ↔ diff + (q₀ - r₀) ≠ 0 := by
  have hget₀ : ∀ x y : Word, getIdx [x, y] 0 = .ok x := fun _ _ => rfl
  have hget₁ : ∀ x y : Word, getIdx [x, y] 1 = .ok y := fun _ _ => rfl
  simp only [acceptDivisor, hget₀, ok_bind, setU128]
  generalize diff + (q₀ - r₀) = e
  by_cases hzero : e = 0
  · subst hzero
    rw [udiv128_zero]
    refine iff_of_false ?_ (fun h => h rfl)
    rintro ⟨d, hd⟩
    cases hd
  · have hval : value [e, 0] = e.toNat := by simp
    have hpos : e.toNat ≠ 0 := fun h0 => hzero (BitVec.eq_of_toNat_eq h0)
    obtain ⟨t₀, t₁, s₀, s₁, hdiv, -, -⟩ := udiv128_spec p₀ p₁ e 0 (by rw [hval]; exact hpos)
    refine iff_of_true ?_ hzero
    simp only [hdiv, ok_bind, hget₀, hget₁, pure_eq_ok]
    generalize (if xsize = 64 then (0 : Word) else (1 : Word) <<< xsize) - 1 = maxx
    split
    · exact ⟨_, rfl⟩
    · split
      · exact ⟨_, rfl⟩
      · exact ⟨_, rfl⟩

end Accept

section Divisor

variable {n xsize : Nat} {lo hi d : Word} {multiplier' : List Word}

/-- The multiplier is one more than `m`, the power of two is `q * m + r`. When the remainder
is smaller than the quotient, the quotient is the divisor. -/
theorem approximates_quotient {q m r : Nat} (hdiv : q * m + r = 2 ^ n) (hr : r < q) :
    Approximates (2 ^ n) q (m + 1) (q - r) :=
  ⟨Nat.two_pow_pos n, Nat.zero_lt_of_lt hr, by rw [← hdiv, Nat.mul_add]; omega, by omega⟩

/-- Otherwise the divisor is one more than the quotient. -/
theorem approximates_successor {q m r : Nat} (hdiv : q * m + r = 2 ^ n) (hr : r < m) :
    Approximates (2 ^ n) (q + 1) (m + 1) (q + 1 + (m - r)) := by
  refine ⟨Nat.two_pow_pos n, Nat.succ_pos q, ?_, by omega⟩
  calc (q + 1) * (m + 1) = q * m + (q + m + 1) := by ring
    _ = 2 ^ n + (q + 1 + (m - r)) := by omega

/-- The error has more than 64 bits in one case only, when it is `2 ^ 64` itself. -/
theorem excess_le {q m r : Nat} (hn : n ≤ 127) (hdiv : q * m + r = 2 ^ n) (hle : q ≤ r) (hlt : r < m)
    (hr : m ≤ r + (q + 1)) : q + 1 + (m - r) ≤ 2 ^ 64 := by
  by_contra hgt
  have hpow : 2 ^ n ≤ 2 ^ 127 := Nat.pow_le_pow_right (by decide) hn
  have hq : 2 ^ 63 ≤ q := by omega
  have hm : 2 ^ 64 ≤ m := by omega
  have hmul : 2 ^ 63 * 2 ^ 64 ≤ q * m := Nat.mul_le_mul hq hm
  omega

/-- How a call ends that passes the guards: with no divisor, or at the last test
with the quotient or with the quotient plus one. -/
theorem calcDivisor_cases (hn : n ≤ 127) (hx : xsize ≤ 64) (hm : 1 < value [lo, hi]) :
    ∃ (p₀ p₁ m₀ m₁ : Word) (q r : Nat), value [p₀, p₁] = 2 ^ n ∧ value [lo, hi] = value [m₀, m₁] + 1 ∧
      q * value [m₀, m₁] + r = 2 ^ n ∧ r < value [m₀, m₁] ∧
      (calcDivisor n [lo, hi] xsize = .ok (0, [m₀, m₁]) ∧
          (q ≤ value [m₀, m₁] → q ≤ r → value [m₀, m₁] ≤ r + (q + 1) → 2 ^ 64 ≤ q + 1) ∨
        (∃ q₀ r₀ : Word, q = q₀.toNat ∧ r = r₀.toNat ∧ r < q ∧ calcDivisor n [lo, hi] xsize =
          (acceptDivisor [p₀, p₁] [q₀, 0] [r₀, 0] 0 xsize >>= fun d => .ok (d, [m₀, m₁]))) ∨
        (∃ q₀ t₀ : Word, q + 1 = q₀.toNat ∧ t₀.toNat + value [m₀, m₁] = r + (q + 1) ∧ q ≤ value [m₀, m₁] ∧ q ≤ r ∧
          calcDivisor n [lo, hi] xsize =
            (acceptDivisor [p₀, p₁] [q₀, 0] [t₀, 0] q₀ xsize >>= fun d => .ok (d, [m₀, m₁])))) := by
  have hget₀ : ∀ x y : Word, getIdx [x, y] 0 = .ok x := fun _ _ => rfl
  have hget₁ : ∀ x y : Word, getIdx [x, y] 1 = .ok y := fun _ _ => rfl
  have hset₀ : ∀ x y z : Word, setIdx [x, y] 0 z = .ok [z, y] := fun _ _ _ => rfl
  have hone : value ([1, 0] : List Word) = 1 := rfl
  obtain ⟨m₀, m₁, hsub, hmval⟩ := subtract128_spec lo hi 1 0
  obtain ⟨p₀, p₁, hshift, hp⟩ := leftshift128_one hn
  rw [hone] at hmval
  have hlt := value_pair_lt lo hi
  have hmnat : value [lo, hi] = value [m₀, m₁] + 1 := by omega
  obtain ⟨q₀, q₁, r₀, r₁, hudiv, hq, hr⟩ := udiv128_spec p₀ p₁ m₀ m₁ (by omega)
  have hmul : value [q₀, q₁] * value [m₀, m₁] + value [r₀, r₁] = 2 ^ n := by
    rw [hq, hr, ← hp, Nat.mul_comm]
    exact Nat.div_add_mod _ _
  have hrm : value [r₀, r₁] < value [m₀, m₁] := by
    rw [hr]
    exact Nat.mod_lt _ (by omega)
  refine ⟨p₀, p₁, m₀, m₁, value [q₀, q₁], value [r₀, r₁], hp, hmnat, hmul, hrm, ?_⟩
  have hless := ulessequal128_spec lo hi 1 0
  rw [hone, decide_eq_false (show ¬ value [lo, hi] ≤ 1 by omega)] at hless
  rw [calcDivisor, if_neg (by omega)]
  rw [show setU128 1 = [1, 0] from rfl] at hshift ⊢
  simp only [hless, hsub, hshift, hudiv, hget₁, hget₀, ok_bind, uless128_spec, decide_eq_true_eq, Bool.false_eq_true,
    if_false]
  by_cases hq₁ : q₁ = 0
  swap
  · rw [if_pos hq₁]
    have hbig := Nat.le_of_not_lt (mt (@value_low q₀ q₁).mpr hq₁)
    exact .inl ⟨rfl, fun _ _ _ => by omega⟩
  subst hq₁
  rw [if_neg (not_not_intro rfl)]
  have hqval : value [q₀, 0] = q₀.toNat := by simp
  have hq₀ := q₀.isLt
  by_cases horder : value [m₀, m₁] < value [q₀, 0]
  · rw [if_pos horder]
    exact .inl ⟨rfl, fun hle => absurd hle (by omega)⟩
  rw [if_neg horder, hqval]
  rw [hqval] at horder
  by_cases hfits : value [r₀, r₁] < q₀.toNat
  · rw [if_pos hfits]
    have hr₁ : r₁ = 0 := value_low.mpr (hfits.trans hq₀)
    subst hr₁
    exact .inr (.inl ⟨q₀, r₀, rfl, by simp, hfits, rfl⟩)
  · rw [if_neg hfits, hset₀, ok_bind]
    obtain ⟨s₀, s₁, hsub', hs⟩ := subtract128_spec r₀ r₁ m₀ m₁
    obtain ⟨t₀, t₁, hadd, ht⟩ := add128_spec s₀ s₁ (q₀ + 1) 0
    have hsucc : value [q₀ + 1, 0] = (q₀ + 1).toNat := by simp
    have hone' : (1 : Word).toNat = 1 := rfl
    have hmlt := value_pair_lt m₀ m₁
    rw [hsub', hadd, uless128_spec, ok_bind]
    rw [hsucc] at ht ⊢
    by_cases hless' : value [t₀, t₁] < (q₀ + 1).toNat
    · simp only [hless', decide_true, Bool.not_true, Bool.false_eq_true, if_false, hget₀, ok_bind]
      have hq' : (q₀ + 1).toNat = q₀.toNat + 1 := by
        rw [BitVec.toNat_add, hone'] at hless' ⊢
        omega
      rw [hq'] at hless' ht
      have ht₁ : t₁ = 0 := (@value_low t₀ t₁).mpr (by omega)
      subst ht₁
      have htval : value [t₀, 0] = t₀.toNat := by simp
      exact .inr (.inr ⟨q₀ + 1, t₀, hq'.symm, by omega, by omega, by omega, rfl⟩)
    · simp only [hless', decide_false, Bool.not_false, if_true]
      refine .inl ⟨rfl, fun _ _ hle => ?_⟩
      rw [BitVec.toNat_add, hone'] at hless' ht
      omega

theorem toNat_sub_words {x y : Word} (h : y.toNat ≤ x.toNat) : (x - y).toNat = x.toNat - y.toNat :=
  BitVec.toNat_sub_of_le (by rw [BitVec.le_def]; exact h)

theorem calcDivisor_approximates (h : calcDivisor n [lo, hi] xsize = .ok (d, multiplier')) (hd : d ≠ 0) :
    ∃ e, Approximates (2 ^ n) d.toNat (value [lo, hi]) e ∧ e * 2 ^ xsize ≤ 2 ^ n := by
  have hfail : ∀ l : List Word, (.ok (0, l) : Outcome (Word × List Word)) = .ok (d, multiplier') → False := by
    intro l hl
    exact hd (Prod.mk.inj (Except.ok.inj hl)).1.symm
  by_cases hguard : n > 127 ∨ xsize > 64
  · rw [calcDivisor, if_pos hguard] at h
    exact (hfail _ h).elim
  by_cases hsmall : value [lo, hi] ≤ 1
  · have hless := ulessequal128_spec lo hi 1 0
    rw [show value ([1, 0] : List Word) = 1 from rfl, decide_eq_true hsmall] at hless
    rw [calcDivisor, if_neg hguard] at h
    simp only [show setU128 1 = [1, 0] from rfl, hless, ok_bind, if_true] at h
    exact (hfail _ h).elim
  obtain ⟨p₀, p₁, m₀, m₁, q, r, hp, hm, hmul, hrm, hcases⟩ :=
    @calcDivisor_cases n xsize lo hi (by omega) (by omega) (by omega)
  rw [hm]
  rcases hcases with ⟨hrun, _⟩ | ⟨q₀, r₀, rfl, rfl, hlt, hrun⟩ | ⟨q₀, t₀, hq, ht, hqm, hqr, hrun⟩
  · exact (hfail _ (hrun ▸ h)).elim
  · rw [hrun] at h
    obtain ⟨d', haccept, hd'⟩ := bind_eq_ok.mp h
    cases hd'
    obtain ⟨rfl, hpos, hbound⟩ := acceptDivisor_spec (by omega) hp haccept hd
    have hexcess : (0 + (d - r₀)).toNat = d.toNat - r₀.toNat := by
      rw [show (0 : Word) + (d - r₀) = d - r₀ from BitVec.zero_add _, toNat_sub_words hlt.le]
    rw [hexcess] at hbound
    exact ⟨_, approximates_quotient hmul hlt, hbound⟩
  · rw [hrun] at h
    obtain ⟨d', haccept, hd'⟩ := bind_eq_ok.mp h
    cases hd'
    obtain ⟨rfl, hpos, hbound⟩ := acceptDivisor_spec (by omega) hp haccept hd
    have hd₀ := d.isLt
    have hle := excess_le (by omega) hmul hqr hrm (by omega)
    -- the difference is taken modulo the word size, and a difference of zero is no divisor
    have hexcess : (d + (d - t₀)).toNat = q + 1 + (value [m₀, m₁] - r) := by
      rw [BitVec.toNat_add, toNat_sub_words (x := d) (by omega), ← hq] at hpos ⊢
      omega
    rw [hexcess] at hbound
    rw [← hq]
    exact ⟨_, approximates_successor hmul hrm, hbound⟩

/-- The two multipliers whose error is `2 ^ 64`. -/
theorem full_excess {q m r : Nat} (hn : n ≤ 127) (hdiv : q * m + r = 2 ^ n) (hr : r < m) (hle : m ≤ r + (q + 1))
    (hqr : q ≤ r) (hfull : q + 1 + (m - r) = 2 ^ 64) : n = 127 ∧ (m + 1 = 2 ^ 64 ∨ m + 1 = 2 ^ 64 + 2) := by
  have hproduct := (approximates_successor hdiv hr).product
  rw [hfull] at hproduct
  obtain ⟨j, hj⟩ := Nat.exists_eq_add_of_le (show 2 ^ 63 ≤ q + 1 by omega)
  obtain ⟨k, hk⟩ := Nat.exists_eq_add_of_le (show 2 ^ 64 ≤ m + 1 by omega)
  have hsum : (2 ^ 63 + j) * (2 ^ 64 + k) = 2 ^ 127 + (2 ^ 63 * k + 2 ^ 64 * j + j * k) := by ring
  rw [hj, hk, hsum] at hproduct
  have hn' : n = 127 := by
    by_contra hne
    have : 2 ^ n ≤ 2 ^ 126 := Nat.pow_le_pow_right (by decide) (by omega)
    omega
  subst hn'
  have hrest : 2 ^ 63 * k + 2 ^ 64 * j + j * k = 2 ^ 64 := by omega
  refine ⟨rfl, ?_⟩
  obtain rfl | rfl : j = 0 ∨ j = 1 := by omega
  · rw [Nat.zero_mul] at hrest
    omega
  · rw [Nat.one_mul] at hrest
    omega

/-- The call succeeds unless the amount is 127 and the multiplier is one of two. -/
theorem calcDivisor_ok_iff : (∃ res, calcDivisor n [lo, hi] xsize = .ok res) ↔
    ¬ (n = 127 ∧ xsize ≤ 64 ∧ (value [lo, hi] = 2 ^ 64 ∨ value [lo, hi] = 2 ^ 64 + 2)) := by
  by_cases hguard : n > 127 ∨ xsize > 64
  · rw [calcDivisor, if_pos hguard]
    exact iff_of_true ⟨_, rfl⟩ (by omega)
  by_cases hsmall : value [lo, hi] ≤ 1
  · have hless := ulessequal128_spec lo hi 1 0
    rw [show value ([1, 0] : List Word) = 1 from rfl, decide_eq_true hsmall] at hless
    rw [calcDivisor, if_neg hguard]
    simp only [show setU128 1 = [1, 0] from rfl, hless, ok_bind, if_true]
    exact iff_of_true ⟨_, rfl⟩ (by omega)
  obtain ⟨p₀, p₁, m₀, m₁, q, r, -, hm, hmul, hrm, hcases⟩ :=
    @calcDivisor_cases n xsize lo hi (by omega) (by omega) (by omega)
  rw [hm]
  generalize value [m₀, m₁] = m at hmul hrm hcases ⊢
  have hbind : ∀ x : Outcome Word, (∃ res, (x >>= fun d => .ok (d, [m₀, m₁])) = .ok res) ↔ ∃ d, x = .ok d := by
    intro x
    cases x with
    | error e => simp
    | ok d => simp
  -- the quotient and the rest at the two multipliers
  have hfail : n = 127 ∧ xsize ≤ 64 ∧ (m + 1 = 2 ^ 64 ∨ m + 1 = 2 ^ 64 + 2) →
      q ≤ m ∧ q ≤ r ∧ m ≤ r + (q + 1) ∧ q + 1 + (m - r) = 2 ^ 64 ∧ q + 1 < 2 ^ 64 := by
    rintro ⟨rfl, -, hm' | hm'⟩
    · obtain rfl : m = 2 ^ 64 - 1 := by omega
      omega
    · obtain rfl : m = 2 ^ 64 + 1 := by omega
      omega
  rcases hcases with ⟨hrun, hout⟩ | ⟨q₀, r₀, rfl, rfl, hlt, hrun⟩ | ⟨q₀, t₀, hq, ht, hqm, hqr, hrun⟩
  · rw [hrun]
    refine iff_of_true ⟨_, rfl⟩ fun h => ?_
    obtain ⟨h₁, h₂, h₃, -, h₅⟩ := hfail h
    have := hout h₁ h₂ h₃
    omega
  · rw [hrun, hbind, acceptDivisor_ok_iff]
    refine iff_of_true (fun h0 => ?_) fun h => ?_
    · have hexcess : (0 + (q₀ - r₀)).toNat = q₀.toNat - r₀.toNat := by
        rw [show (0 : Word) + (q₀ - r₀) = q₀ - r₀ from BitVec.zero_add _, toNat_sub_words hlt.le]
      rw [h0, show (0 : Word).toNat = 0 from rfl] at hexcess
      omega
    · obtain ⟨-, h₂, -⟩ := hfail h
      omega
  · rw [hrun, hbind, acceptDivisor_ok_iff]
    have hq₀ := q₀.isLt
    have hle := excess_le (by omega) hmul hqr hrm (by omega)
    have hexcess : (q₀ + (q₀ - t₀)).toNat = (q + 1 + (m - r)) % 2 ^ 64 := by
      rw [BitVec.toNat_add, toNat_sub_words (x := q₀) (by omega), ← hq]
      congr 1
      omega
    have hzero : q₀ + (q₀ - t₀) = 0 ↔ q + 1 + (m - r) = 2 ^ 64 := by
      rw [← BitVec.toNat_inj, hexcess, show (0 : Word).toNat = 0 from rfl]
      omega
    rw [ne_eq, hzero]
    refine not_congr ⟨fun h => ?_, fun h => (hfail h).2.2.2.1⟩
    obtain ⟨hn, hm'⟩ := full_excess (by omega) hmul hrm (by omega) hqr h
    exact ⟨hn, by omega, hm'⟩

/-- The difference wraps around to zero. -/
theorem calcDivisor_fails : calcDivisor 127 [2, 1] 64 = .error (.lowlevel "divide by 0") := by decide +kernel

/-- A signed division rounds towards zero; the sign bit of the number, spread over the
word, makes up for the difference. -/
theorem tdiv_add_sign {x q : Int} {k : Nat} (hpos : 0 ≤ x → q = (x.toNat / k : Nat))
    (hneg : x < 0 → q = -((-x).toNat / k : Nat) - 1) : q = x.tdiv k + if x < 0 then -1 else 0 := by
  by_cases h : x < 0
  · obtain ⟨m, hm⟩ := Int.eq_ofNat_of_zero_le (by omega : 0 ≤ -x)
    have hx : x = -(m : Int) := by omega
    rw [hneg h, if_pos h, hx, Int.neg_neg, Int.toNat_natCast, Int.neg_tdiv, Int.ofNat_tdiv]
    rfl
  · obtain ⟨m, hm⟩ := Int.eq_ofNat_of_zero_le (by omega : 0 ≤ x)
    subst hm
    rw [hpos (by omega), if_neg h, Int.toNat_natCast, Int.ofNat_tdiv, Int.add_zero]

theorem sdiv_add_sshiftRight {w k : Nat} (x : BitVec w) (hk : k < 2 ^ (w - 1)) :
    x.sdiv (BitVec.ofNat w k) + x.sshiftRight (w - 1) =
      BitVec.ofInt w (x.toInt.tdiv k + if x.toInt < 0 then -1 else 0) := by
  cases w with
  | zero => exact Subsingleton.elim _ _
  | succ w =>
      rw [Nat.add_sub_cancel] at hk ⊢
      have hle := x.le_toInt
      have hlt := x.toInt_lt
      rw [Nat.add_sub_cancel] at hle hlt
      have hdivisor : (BitVec.ofNat (w + 1) k).toInt = k := by
        have hpow : 2 ^ (w + 1) = 2 * 2 ^ w := Nat.pow_succ'
        rw [BitVec.toInt_eq_toNat_of_lt, BitVec.toNat_ofNat, Nat.mod_eq_of_lt (by omega)]
        rw [BitVec.toNat_ofNat, Nat.mod_eq_of_lt (by omega)]
        omega
      have hdiv : x.sdiv (BitVec.ofNat (w + 1) k) = BitVec.ofInt (w + 1) (x.toInt.tdiv k) := by
        apply BitVec.eq_of_toInt_eq
        rw [BitVec.toInt_sdiv, BitVec.toInt_ofInt, hdivisor]
      have hsign : x.sshiftRight w = BitVec.ofInt (w + 1) (if x.toInt < 0 then -1 else 0) := by
        apply BitVec.eq_of_toInt_eq
        have hshift : x.toInt >>> w = if x.toInt < 0 then -1 else 0 := by
          rw [Int.shiftRight_eq_div_pow]
          push_cast
          have hp : (0 : Int) < 2 ^ w := by positivity
          split
          · apply le_antisymm
            · rw [Int.le_iff_lt_add_one, Int.ediv_lt_iff_lt_mul hp]
              omega
            · rw [Int.le_ediv_iff_mul_le hp]
              omega
          · apply Int.ediv_eq_zero_of_lt (by omega) hlt
        rw [BitVec.toInt_sshiftRight, BitVec.toInt_ofInt, ← hshift, ← BitVec.toInt_sshiftRight, BitVec.toInt_bmod_cancel]
      rw [BitVec.ofInt_add, hdiv, hsign]

end Divisor

end RuleDivOpt

end GhidraDecompiler.RuleAction
