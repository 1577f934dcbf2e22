import GhidraDecompiler.Multiprecision.Words128
import GhidraDecompiler.Lib.LongDivision

namespace GhidraDecompiler.Multiprecision

open Fallible LongDivision
open Pcode (Word)

theorem toNat_ofInt_eq {x : Word} {a : Int} (h : x.toInt = a) : (x.toNat : Int) = a % 2 ^ 64 := by
  have hx := x.isLt
  rw [← h, BitVec.toInt_eq_toNat_cond]
  split <;> omega

theorem toInt_limb (x : Limb) : (x.setWidth 64).toInt = x.toNat := by
  have hx := x.isLt
  have h : (x.setWidth 64).toNat = x.toNat := BitVec.toNat_setWidth_of_le (by decide)
  rw [BitVec.toInt_eq_toNat_of_lt (by omega), h]

theorem toInt_sub_small {x y : Word} (h : -2 ^ 63 ≤ x.toInt - y.toInt) (h' : x.toInt - y.toInt < 2 ^ 63) :
    (x - y).toInt = x.toInt - y.toInt := by
  rw [BitVec.toInt_sub, Int.bmod_eq_of_le (by omega) (by omega)]

theorem multiplySubtract_step (u d : Limb) {qhat carry : Word} (hq : qhat.toNat < 2 ^ 32) (hc : carry.toNat ≤ 2 ^ 32) :
    let tmp := qhat * d.setWidth 64
    let signedTmp := u.setWidth 64 - carry - (tmp &&& 0xffffffff)
    let carry' := (tmp >>> 32) - signedTmp.sshiftRight 32
    carry'.toNat ≤ 2 ^ 32 ∧
      (signedTmp.setWidth 32).toNat + qhat.toNat * d.toNat + carry.toNat = u.toNat + 2 ^ 32 * carry'.toNat := by
  intro tmp signedTmp carry'
  have hu := u.isLt
  have hd := d.isLt
  have hprod : qhat.toNat * d.toNat ≤ (2 ^ 32 - 1) * (2 ^ 32 - 1) := Nat.mul_le_mul (by omega) (by omega)
  have htmp : tmp.toNat = qhat.toNat * d.toNat := by
    rw [BitVec.toNat_mul, BitVec.toNat_setWidth_of_le (by decide), Nat.mod_eq_of_lt (by omega)]
  have hlo : (tmp &&& 0xffffffff).toNat = tmp.toNat % 2 ^ 32 := by
    rw [BitVec.toNat_and]
    exact Nat.and_two_pow_sub_one_eq_mod _ 32
  have hhi : (tmp >>> 32).toNat = tmp.toNat / 2 ^ 32 := by
    rw [BitVec.toNat_ushiftRight, Nat.shiftRight_eq_div_pow]
  have hloInt : (tmp &&& 0xffffffff).toInt = (tmp.toNat % 2 ^ 32 : Nat) := by
    rw [BitVec.toInt_eq_toNat_of_lt (by omega), hlo]
  have hhiInt : (tmp >>> 32).toInt = (tmp.toNat / 2 ^ 32 : Nat) := by
    rw [BitVec.toInt_eq_toNat_of_lt (by omega), hhi]
  have hcInt : carry.toInt = carry.toNat := BitVec.toInt_eq_toNat_of_lt (by omega)
  have hsub : (u.setWidth 64 - carry).toInt = u.toNat - carry.toNat := by
    rw [toInt_sub_small (by rw [toInt_limb, hcInt]; omega) (by rw [toInt_limb, hcInt]; omega), toInt_limb, hcInt]
  have hs : signedTmp.toInt = u.toNat - carry.toNat - (tmp.toNat % 2 ^ 32 : Nat) := by
    rw [toInt_sub_small (by rw [hsub, hloInt]; omega) (by rw [hsub, hloInt]; omega), hsub, hloInt]
  have hshift : (signedTmp.sshiftRight 32).toInt = signedTmp.toInt / 2 ^ 32 := by
    rw [BitVec.toInt_sshiftRight, Int.shiftRight_eq_div_pow]
    rfl
  have hcarry : carry'.toInt = (tmp.toNat / 2 ^ 32 : Nat) - signedTmp.toInt / 2 ^ 32 := by
    rw [toInt_sub_small (by rw [hhiInt, hshift, hs]; omega) (by rw [hhiInt, hshift, hs]; omega), hhiInt, hshift]
  have hcarryNat := toNat_ofInt_eq hcarry
  have hlow : ((signedTmp.setWidth 32).toNat : Int) = signedTmp.toInt % 2 ^ 32 := by
    have := toNat_ofInt_eq (x := signedTmp) rfl
    rw [BitVec.toNat_setWidth]
    omega
  omega


/-- The adjusted estimate is right or one too large. -/
theorem adjust_spec {top second next : Word} {p v u lead : Nat}
    (h : Leading (2 ^ 32) p v top.toNat second.toNat u lead next.toNat) (htop : 2 ^ 31 ≤ top.toNat)
    (htop' : top.toNat < 2 ^ 32) (hsecond : second.toNat < 2 ^ 32) (hnext : next.toNat < 2 ^ 32) (hu : u < 2 ^ 32 * v)
    {fuel : Nat} {qhat rhat : Word} (hq : qhat.toNat * top.toNat + rhat.toNat = lead) (hrhat : rhat.toNat < 2 ^ 32)
    (hover : u < (qhat.toNat + 1) * v) (hfuel : 2 ^ 32 ≤ rhat.toNat + fuel * 2 ^ 31) :
    ∃ q, adjust top second next fuel qhat rhat = .ok q ∧ q.toNat < 2 ^ 32 ∧ u < (q.toNat + 1) * v ∧ q.toNat * v ≤ u + v := by
  induction fuel generalizing qhat rhat with
  | zero => omega
  | succ fuel ih =>
      have hshift : ((rhat <<< 32) + next).toNat = rhat.toNat * 2 ^ 32 + next.toNat := by
        rw [BitVec.toNat_add, BitVec.toNat_shiftLeft, Nat.shiftLeft_eq, Nat.mod_eq_of_lt (a := rhat.toNat * 2 ^ 32) (by omega),
          Nat.mod_eq_of_lt (by omega)]
      have hmul : qhat.toNat < 2 ^ 32 → (qhat * second).toNat = qhat.toNat * second.toNat := by
        intro hlt
        have hle : qhat.toNat * second.toNat ≤ (2 ^ 32 - 1) * (2 ^ 32 - 1) := Nat.mul_le_mul (by omega) (by omega)
        rw [BitVec.toNat_mul, Nat.mod_eq_of_lt (by omega)]
      have hle : qhat ≤ 0xffffffff ↔ qhat.toNat < 2 ^ 32 := by
        rw [BitVec.le_def]
        exact Nat.lt_succ_iff.symm
      rw [adjust]
      by_cases htest : qhat ≤ 0xffffffff ∧ qhat * second ≤ (rhat <<< 32) + next
      · rw [if_pos htest]
        have hlt := hle.mp htest.1
        have htest := htest.2
        rw [BitVec.le_def, hmul hlt, hshift] at htest
        exact ⟨qhat, rfl, hlt, hover, h.le_of_test hq (by omega) hlt htest⟩
      · rw [if_neg htest]
        have hlarge : u < qhat.toNat * v := by
          by_cases hlt : qhat.toNat < 2 ^ 32
          · have htest : ¬ qhat * second ≤ (rhat <<< 32) + next := fun ht => htest ⟨hle.mpr hlt, ht⟩
            rw [BitVec.le_def, hmul hlt, hshift, Nat.not_le] at htest
            exact h.lt_of_test hq htest
          · exact hu.trans_le (Nat.mul_le_mul_right v (Nat.le_of_not_lt hlt))
        have hpos : 0 < qhat.toNat := Nat.pos_of_mul_pos_right (Nat.zero_lt_of_lt hlarge)
        have hpred : (qhat - 1).toNat = qhat.toNat - 1 := by
          rw [BitVec.toNat_sub_of_le (by rw [BitVec.le_def]; exact hpos)]
          rfl
        have hsucc : (qhat - 1).toNat + 1 = qhat.toNat := by omega
        have hsum : (rhat + top).toNat = rhat.toNat + top.toNat := by
          rw [BitVec.toNat_add, Nat.mod_eq_of_lt (by omega)]
        have hq' : (qhat - 1).toNat * top.toNat + (rhat + top).toNat = lead := by
          rw [hsum, ← hq, ← hsucc]
          ring
        have hover' : u < ((qhat - 1).toNat + 1) * v := by
          rw [hsucc]
          exact hlarge
        by_cases hrest : rhat + top > 0xffffffff
        · have hrest' : 2 ^ 32 ≤ (rhat + top).toNat := Nat.succ_le_of_lt hrest
          have hlt : (qhat - 1).toNat < 2 ^ 32 := by
            have hlead := h.top_lt hsecond hu
            rw [← hq', Nat.add_mul, Nat.one_mul, Nat.mul_comm top.toNat] at hlead
            exact Nat.lt_of_mul_lt_mul_right (a := top.toNat) (by omega)
          rw [if_pos hrest]
          exact ⟨_, rfl, hlt, hover', (h.le_of_remainder hq' hlt hsecond hrest').trans (Nat.le_add_right _ _)⟩
        · rw [if_neg hrest]
          have hrest' : (rhat + top).toNat < 2 ^ 32 := Nat.lt_succ_of_le (Nat.le_of_not_lt hrest)
          exact ih hq' hrest' hover' (by omega)

variable {position slot : Nat} {pre post dpre dpost us ds : List Limb}

theorem multiplySubtract_spec {qhat : Word} (hq : qhat.toNat < 2 ^ 32) (hlen : us.length = ds.length)
    (hpre : pre.length = slot + position) (hdpre : dpre.length = slot) {carry : Word} (hc : carry.toNat ≤ 2 ^ 32) :
    ∃ us' carry', multiplySubtract (dpre ++ (ds ++ dpost)) position qhat ds.length slot (pre ++ (us ++ post)) carry =
        .ok (pre ++ (us' ++ post), carry') ∧ us'.length = us.length ∧ carry'.toNat ≤ 2 ^ 32 ∧
      value us' + qhat.toNat * value ds + carry.toNat = value us + 2 ^ (32 * us.length) * carry'.toNat := by
  induction ds generalizing us pre dpre slot carry with
  | nil =>
      rw [List.length_nil, List.length_eq_zero_iff] at hlen
      subst hlen
      exact ⟨[], carry, rfl, rfl, hc, by simp⟩
  | cons d ds ih =>
      obtain ⟨u, us, rfl⟩ := List.exists_cons_of_length_eq_add_one hlen
      rw [List.length_cons, List.length_cons, Nat.add_right_cancel_iff] at hlen
      obtain ⟨hc', hstep⟩ := multiplySubtract_step u d hq hc
      simp only [List.cons_append, List.length_cons, multiplySubtract, getIdx_at rfl hpre, getIdx_at rfl hdpre,
        setIdx_at _ rfl hpre, ok_bind]
      generalize (qhat * d.setWidth 64) = tmp at hc' hstep ⊢
      generalize (u.setWidth 64 - carry - (tmp &&& 0xffffffff)) = signedTmp at hc' hstep ⊢
      generalize (tmp >>> 32) - signedTmp.sshiftRight 32 = next at hc' hstep ⊢
      obtain ⟨us', carry', hrun, hlen', hle, hval⟩ := @ih (slot + 1) (pre ++ [signedTmp.setWidth 32])
        (dpre ++ [d]) us hlen (by simp [hpre]; omega) (by simp [hdpre]) next hc'
      refine ⟨signedTmp.setWidth 32 :: us', carry', ?_, by simp [hlen'], hle, ?_⟩
      · simpa using hrun
      · rw [value_cons, value_cons, value_cons, Nat.mul_succ, Nat.pow_add]
        have : 2 ^ 32 * (value us' + qhat.toNat * value ds + next.toNat) =
            2 ^ 32 * (value us + 2 ^ (32 * us.length) * carry'.toNat) := by rw [hval]
        linarith

theorem addBack_spec (hlen : us.length = ds.length) (hpre : pre.length = slot + position) (hdpre : dpre.length = slot)
    {carry : Word} (hc : carry.toNat ≤ 1) :
    ∃ us' carry', addBack (dpre ++ (ds ++ dpost)) position ds.length slot (pre ++ (us ++ post)) carry =
        .ok (pre ++ (us' ++ post), carry') ∧ us'.length = us.length ∧ carry'.toNat ≤ 1 ∧
      value us' + 2 ^ (32 * us.length) * carry'.toNat = value us + value ds + carry.toNat := by
  induction ds generalizing us pre dpre slot carry with
  | nil =>
      rw [List.length_nil, List.length_eq_zero_iff] at hlen
      subst hlen
      exact ⟨[], carry, rfl, rfl, hc, by simp⟩
  | cons d ds ih =>
      obtain ⟨u, us, rfl⟩ := List.exists_cons_of_length_eq_add_one hlen
      rw [List.length_cons, List.length_cons, Nat.add_right_cancel_iff] at hlen
      have hu := u.isLt
      have hd := d.isLt
      have htmp : (u.setWidth 64 + (d.setWidth 64 + carry)).toNat = u.toNat + d.toNat + carry.toNat := by
        rw [BitVec.toNat_add, BitVec.toNat_add, BitVec.toNat_setWidth_of_le (by decide),
          BitVec.toNat_setWidth_of_le (by decide), Nat.mod_eq_of_lt (by omega), Nat.mod_eq_of_lt (by omega)]
        omega
      simp only [List.cons_append, List.length_cons, addBack, getIdx_at rfl hpre, getIdx_at rfl hdpre,
        setIdx_at _ rfl hpre, ok_bind]
      generalize u.setWidth 64 + (d.setWidth 64 + carry) = tmp at htmp ⊢
      have hnext : (tmp >>> 32).toNat = tmp.toNat / 2 ^ 32 := by
        rw [BitVec.toNat_ushiftRight, Nat.shiftRight_eq_div_pow]
      obtain ⟨us', carry', hrun, hlen', hle, hval⟩ := @ih (slot + 1) (pre ++ [tmp.setWidth 32])
        (dpre ++ [d]) us hlen (by simp [hpre]; omega) (by simp [hdpre]) (tmp >>> 32) (by omega)
      refine ⟨tmp.setWidth 32 :: us', carry', ?_, by simp [hlen'], hle, ?_⟩
      · simpa using hrun
      · rw [value_cons, value_cons, value_cons, Nat.mul_succ, Nat.pow_add, BitVec.toNat_setWidth]
        have : 2 ^ 32 * (value us' + 2 ^ (32 * us.length) * carry'.toNat) =
            2 ^ 32 * (value us + value ds + (tmp >>> 32).toNat) := by rw [hval]
        have := Nat.mod_add_div tmp.toNat (2 ^ 32)
        rw [hnext] at *
        linarith

section Digit

variable {low ul dl : List Limb} {u₂ u₁ top v₂ v₁ : Limb}

/-- The leading digits of the divisor and of the part of the number it is taken
from. -/
theorem leading_digits (hlen : ul.length = dl.length) :
    Leading (2 ^ 32) (2 ^ (32 * dl.length)) (value (dl ++ [v₂, v₁])) v₁.toNat v₂.toNat (value (ul ++ [u₂, u₁, top]))
      (top.toNat * 2 ^ 32 + u₁.toNat) u₂.toNat := by
  have hd := value_lt dl
  have hu := value_lt ul
  rw [hlen] at hu
  rw [value_append, value_append, hlen]
  simp only [value_cons, value_nil, Nat.mul_zero, Nat.add_zero]
  generalize 2 ^ (32 * dl.length) = p at hd hu ⊢
  constructor
  · omega
  all_goals nlinarith

/-- A number that is a multiple of the divisor and a rest. -/
theorem div_mod_of_eq {u v q r : Nat} (h : u = q * v + r) (hr : r < v) : q = u / v ∧ r = u % v := by
  subst h
  have hv : 0 < v := Nat.zero_lt_of_lt hr
  rw [Nat.mul_comm q v, Nat.mul_add_div hv, Nat.mul_add_mod, Nat.div_eq_of_lt hr, Nat.mod_eq_of_lt hr]
  exact ⟨rfl, rfl⟩

section Outcomes

variable {p u u' v q top c : Nat}

/-- The product is not larger than the number. -/
theorem digit_fits (hsub : u' + q * v = u + p * c) (hle : c ≤ top) (hover : u + p * top < (q + 1) * v) :
    q = (u + p * top) / v ∧ u' + p * (top - c) = (u + p * top) % v := by
  obtain ⟨d, rfl⟩ := Nat.exists_eq_add_of_le hle
  rw [Nat.add_sub_cancel_left]
  rw [Nat.add_mul, Nat.one_mul] at hover
  apply div_mod_of_eq
  · linarith
  · linarith

/-- The product is larger than the number, by less than the divisor, which is added
back. -/
theorem digit_exceeds {u'' d : Nat} (hsub : u' + q * v = u + p * c) (hlt : top < c) (hu : u' < p) (hu'' : u'' < p)
    (hv : v < p) (hone : q * v ≤ u + p * top + v) (hadd : u'' + p * d = u' + v) :
    0 < q ∧ q - 1 = (u + p * top) / v ∧ u'' = (u + p * top) % v ∧ top + d = c := by
  obtain ⟨k, rfl⟩ := Nat.exists_eq_add_of_lt hlt
  have hexceeds : u + p * top < q * v := by
    nlinarith
  have hpos : 0 < q := Nat.pos_of_mul_pos_right (Nat.zero_lt_of_lt hexceeds)
  obtain ⟨q, rfl⟩ := Nat.exists_eq_add_of_lt hpos
  have hrest : u + p * top + p * (k + 1) = q * v + u'' + p * d := by
    linarith
  have hd : d = k + 1 := by
    have h₁ : p * (k + 1) < p * (d + 1) := by
      nlinarith
    have h₂ : p * d < p * (k + 1 + 1) := by
      nlinarith
    have h₁ := Nat.lt_of_mul_lt_mul_left h₁
    have h₂ := Nat.lt_of_mul_lt_mul_left h₂
    omega
  subst hd
  obtain ⟨hq, hr⟩ := div_mod_of_eq (u := u + p * top) (v := v) (q := q) (r := u'') (by linarith) (by nlinarith)
  refine ⟨by omega, by omega, hr, by omega⟩

end Outcomes

theorem toInt_sub_carry {top : Limb} {carry : Word} (hc : carry.toNat ≤ 2 ^ 32) :
    (top.setWidth 64 - carry).toInt = top.toNat - carry.toNat := by
  have htop := top.isLt
  have hcInt : carry.toInt = carry.toNat := BitVec.toInt_eq_toNat_of_lt (by omega)
  rw [toInt_sub_small (by rw [toInt_limb, hcInt]; omega) (by rw [toInt_limb, hcInt]; omega), toInt_limb, hcInt]

theorem toNat_setWidth_of_toInt {x : Word} {a : Int} (h : x.toInt = a) : ((x.setWidth 32).toNat : Int) = a % 2 ^ 32 := by
  have := toNat_ofInt_eq h
  rw [BitVec.toNat_setWidth]
  omega

theorem estimateDigit_spec (high dpost : List Limb) {position : Nat} (hlow : low.length = position)
    (hlen : ul.length = dl.length) (hv₁ : 2 ^ 31 ≤ v₁.toNat)
    (hu : value (ul ++ [u₂, u₁, top]) < 2 ^ 32 * value (dl ++ [v₂, v₁])) :
    ∃ q, estimateDigit (dl.length + 2) (dl ++ [v₂, v₁] ++ dpost) position (low ++ (ul ++ [u₂, u₁, top] ++ high)) = .ok q ∧
      q.toNat < 2 ^ 32 ∧ value (ul ++ [u₂, u₁, top]) < (q.toNat + 1) * value (dl ++ [v₂, v₁]) ∧
      q.toNat * value (dl ++ [v₂, v₁]) ≤ value (ul ++ [u₂, u₁, top]) + value (dl ++ [v₂, v₁]) := by
  have hd₁ : getIdx (dl ++ [v₂, v₁] ++ dpost) (dl.length + 1) = .ok v₁ :=
    getIdx_at (p := dl ++ [v₂]) (r := dpost) (by simp) (by simp)
  have hd₂ : getIdx (dl ++ [v₂, v₁] ++ dpost) dl.length = .ok v₂ := getIdx_at (r := v₁ :: dpost) (by simp) rfl
  have hn₀ : getIdx (low ++ (ul ++ [u₂, u₁, top] ++ high)) (dl.length + 2 + position) = .ok top :=
    getIdx_at (p := low ++ ul ++ [u₂, u₁]) (r := high) (by simp) (by simp [hlen, hlow]; omega)
  have hn₁ : getIdx (low ++ (ul ++ [u₂, u₁, top] ++ high)) (dl.length + 1 + position) = .ok u₁ :=
    getIdx_at (p := low ++ ul ++ [u₂]) (r := top :: high) (by simp) (by simp [hlen, hlow]; omega)
  have hn₂ : getIdx (low ++ (ul ++ [u₂, u₁, top] ++ high)) (dl.length + position) = .ok u₂ :=
    getIdx_at (p := low ++ ul) (r := u₁ :: top :: high) (by simp) (by simp [hlen, hlow]; omega)
  simp only [estimateDigit, Nat.add_sub_cancel, show dl.length + 2 - 1 = dl.length + 1 from rfl, hd₁, hd₂, hn₀, hn₁, hn₂,
    ok_bind]
  have hwiden : ∀ x : Limb, (x.setWidth 64).toNat = x.toNat := fun x => BitVec.toNat_setWidth_of_le (by decide)
  have hlt : ∀ x : Limb, (x.setWidth 64).toNat < 2 ^ 32 := fun x => by
    rw [hwiden]
    exact x.isLt
  have htmp : (top.setWidth 64 <<< 32 + u₁.setWidth 64).toNat = top.toNat * 2 ^ 32 + u₁.toNat := by
    have htop := top.isLt
    have hu₁ := u₁.isLt
    rw [BitVec.toNat_add, BitVec.toNat_shiftLeft, Nat.shiftLeft_eq, hwiden, hwiden,
      Nat.mod_eq_of_lt (a := top.toNat * 2 ^ 32) (by omega), Nat.mod_eq_of_lt (by omega)]
  have hlead : Leading _ _ (value (dl ++ [v₂, v₁])) v₁.toNat v₂.toNat (value (ul ++ [u₂, u₁, top])) _ u₂.toNat :=
    leading_digits hlen
  have hpos : 0 < v₁.toNat := by omega
  rw [← hwiden v₁, ← hwiden v₂, ← hwiden u₂, ← htmp] at hlead
  apply adjust_spec hlead (by rw [hwiden]; exact hv₁) (hlt v₁) (hlt v₂) (hlt u₂) hu
  · rw [BitVec.toNat_udiv, BitVec.toNat_umod, Nat.mul_comm]
    exact Nat.div_add_mod _ _
  · rw [BitVec.toNat_umod, hwiden]
    exact (Nat.mod_lt _ hpos).trans v₁.isLt
  · rw [BitVec.toNat_udiv]
    exact hlead.lt_of_div (by rw [hwiden]; exact hpos) (hlt u₂)
  · omega

theorem subtractDigit_spec (high dpost : List Limb) {position : Nat} {us ds quotient : List Limb} {qhat : Word} (hlow : low.length = position)
    (hlen : us.length = ds.length) (hposition : position < quotient.length) (hqhat : qhat.toNat < 2 ^ 32)
    (hover : value (us ++ [top]) < (qhat.toNat + 1) * value ds) (hone : qhat.toNat * value ds ≤ value (us ++ [top]) + value ds) :
    ∃ us' q, subtractDigit ds.length (ds ++ dpost) position qhat (low ++ (us ++ top :: high)) quotient =
        .ok (low ++ (us' ++ high), quotient.set position q) ∧ us'.length = ds.length + 1 ∧
      q.toNat = value (us ++ [top]) / value ds ∧ value us' = value (us ++ [top]) % value ds := by
  have htop := top.isLt
  obtain ⟨us', carry, hsub, hlen', hcarry, hval⟩ := @multiplySubtract_spec position 0 low (top :: high) [] dpost us ds
    qhat hqhat hlen (by simp [hlow]) rfl 0 (by decide)
  have hzero : (0 : Word).toNat = 0 := rfl
  rw [List.nil_append] at hsub
  rw [hzero, Nat.add_zero] at hval
  have hvalue : value (us ++ [top]) = value us + 2 ^ (32 * us.length) * top.toNat := by
    rw [value_append]
    simp
  rw [hvalue] at hover hone ⊢
  have hint : (top.setWidth 64 - carry).toInt = top.toNat - carry.toNat := toInt_sub_carry hcarry
  have hplace : low.length + us'.length = position + ds.length := by omega
  have hget : ∀ (l : List Limb) (x : Limb), l.length = ds.length →
      getIdx (low ++ (l ++ x :: high)) (position + ds.length) = .ok x := fun l x hl =>
    getIdx_at (List.append_assoc _ _ _).symm (by simp [hl, hlow])
  have hset : ∀ (l : List Limb) (x y : Limb), l.length = ds.length →
      setIdx (low ++ (l ++ x :: high)) (position + ds.length) y = .ok (low ++ (l ++ y :: high)) := fun l x y hl => by
    rw [setIdx_at y (List.append_assoc _ _ _).symm (by simp [hl, hlow]), List.append_assoc]
  rw [hlen] at hlen'
  simp only [subtractDigit, hsub, ok_bind, hget us' _ hlen', hset us' _ _ hlen', setIdx_eq _ hposition, BitVec.slt, hint]
  have hus' := value_lt us'
  rw [hlen', ← hlen] at hus'
  by_cases hneg : (top.toNat : Int) - carry.toNat < 0
  · obtain ⟨us'', back, hadd, hlen'', hback, hval'⟩ := @addBack_spec position 0 low
      ((top.setWidth 64 - carry).setWidth 32 :: high) [] dpost us' ds hlen' (by simp [hlow]) rfl 0 (by decide)
    rw [List.nil_append] at hadd
    rw [hzero, Nat.add_zero, hlen', ← hlen] at hval'
    rw [hlen'] at hlen''
    have hus'' := value_lt us''
    have hds := value_lt ds
    rw [hlen'', ← hlen] at hus''
    rw [← hlen] at hds
    obtain ⟨hpos, hq, hr, hcarries⟩ := digit_exceeds hval (by omega) hus' hus'' hds hone hval'
    have hzeroInt : (0 : Word).toInt = 0 := rfl
    have hgetq : getIdx (quotient.set position (qhat.setWidth 32)) position = .ok (qhat.setWidth 32) :=
      getIdx_eq (List.getElem?_set_self hposition)
    have hsetq : setIdx (quotient.set position (qhat.setWidth 32)) position (qhat.setWidth 32 - 1) =
        .ok (quotient.set position (qhat.setWidth 32 - 1)) := by
      rw [setIdx_eq _ (by simpa using hposition), List.set_set]
    simp only [hzeroInt, hneg, decide_true, if_true, hgetq, hsetq, hadd, ok_bind, hget us'' _ hlen'', hset us'' _ _ hlen'']
    refine ⟨us'' ++ [(top.setWidth 64 - carry).setWidth 32 + back.setWidth 32], qhat.setWidth 32 - 1, by simp,
      by simp [hlen''], ?_, ?_⟩
    · have hone' : (1 : Limb).toNat = 1 := rfl
      have hqwidth : (qhat.setWidth 32).toNat = qhat.toNat := by
        rw [BitVec.toNat_setWidth, Nat.mod_eq_of_lt hqhat]
      rw [BitVec.toNat_sub_of_le (by rw [BitVec.le_def, hqwidth]; exact hpos), hqwidth, hone', hq]
    · -- the carries cancel in the top limb
      have hlow32 := toNat_setWidth_of_toInt hint
      have htop0 : ((top.setWidth 64 - carry).setWidth 32 + back.setWidth 32).toNat = 0 := by
        rw [BitVec.toNat_add, BitVec.toNat_setWidth (x := back)]
        omega
      rw [value_append, ← hr]
      simp [htop0]
  · have hle : carry.toNat ≤ top.toNat := by omega
    obtain ⟨hq, hr⟩ := digit_fits hval hle hover
    have hzeroInt : (0 : Word).toInt = 0 := rfl
    simp only [hzeroInt, hneg, decide_false, Bool.false_eq_true, if_false, pure_eq_ok]
    refine ⟨us' ++ [(top.setWidth 64 - carry).setWidth 32], qhat.setWidth 32, by simp, by simp [hlen'], ?_, ?_⟩
    · rw [BitVec.toNat_setWidth, Nat.mod_eq_of_lt hqhat, hq]
    · have hlow32 := toNat_setWidth_of_toInt hint
      have htop' : ((top.setWidth 64 - carry).setWidth 32).toNat = top.toNat - carry.toNat := by omega
      rw [value_append, ← hr, hlen', ← hlen]
      simp [htop']

/-- The part of the number that the divisor is taken from is divided by it. -/
theorem quotientDigit_spec (high dpost : List Limb) {position : Nat} {quotient : List Limb} (hlow : low.length = position)
    (hlen : ul.length = dl.length) (hv₁ : 2 ^ 31 ≤ v₁.toNat) (hposition : position < quotient.length)
    (hu : value (ul ++ [u₂, u₁, top]) < 2 ^ 32 * value (dl ++ [v₂, v₁])) :
    ∃ us' q, quotientDigit (dl.length + 2) (dl ++ [v₂, v₁] ++ dpost) position (low ++ (ul ++ [u₂, u₁, top] ++ high)) quotient =
        .ok (low ++ (us' ++ high), quotient.set position q) ∧ us'.length = dl.length + 3 ∧
      q.toNat = value (ul ++ [u₂, u₁, top]) / value (dl ++ [v₂, v₁]) ∧
      value us' = value (ul ++ [u₂, u₁, top]) % value (dl ++ [v₂, v₁]) := by
  obtain ⟨qhat, hestimate, hqhat, hover, hone⟩ := estimateDigit_spec high dpost hlow hlen hv₁ hu
  have hassoc : ul ++ [u₂, u₁, top] = (ul ++ [u₂, u₁]) ++ [top] := by simp
  rw [hassoc] at hover hone
  obtain ⟨us', q, hrun, hlen', hq, hr⟩ := subtractDigit_spec high dpost hlow (by simp [hlen]) hposition
    hqhat hover hone
  refine ⟨us', q, ?_, by simpa using hlen', by rw [hassoc]; exact hq, by rw [hassoc]; exact hr⟩
  rw [quotientDigit, hestimate, ok_bind]
  simpa using hrun

end Digit

section Digits

variable {dl dpost : List Limb} {v₂ v₁ : Limb}

theorem exists_window {n : Nat} {l : List Limb} (h : n + 3 ≤ l.length) :
    ∃ ul u₂ u₁ top high, l = ul ++ [u₂, u₁, top] ++ high ∧ ul.length = n := by
  have hdrop : 3 ≤ (l.drop n).length := by
    rw [List.length_drop]
    omega
  have hsplit := List.take_append_drop n l
  match hl : l.drop n with
  | a :: b :: c :: high =>
      refine ⟨l.take n, a, b, c, high, ?_, by rw [List.length_take]; omega⟩
      rw [hl] at hsplit
      simpa using hsplit.symm
  | [] | [_] | [_, _] => simp [hl] at hdrop

/-- Each round leaves the rest of the division by the divisor in the upper part of the
number. -/
theorem quotientDigits_spec (hv₁ : 2 ^ 31 ≤ v₁.toNat) {k : Nat} {low mid quotient : List Limb} (hlow : low.length = k)
    (hmid : dl.length + 2 ≤ mid.length) (hlt : value mid < value (dl ++ [v₂, v₁])) (hk : k ≤ quotient.length) :
    ∃ numer' quotient', quotientDigits (dl.length + 2) (dl ++ [v₂, v₁] ++ dpost) k (low ++ mid) quotient =
        .ok (numer', quotient') ∧ numer'.length = k + mid.length ∧ quotient'.length = quotient.length ∧
      value numer' < value (dl ++ [v₂, v₁]) ∧
      value numer' + value (dl ++ [v₂, v₁]) * value quotient' =
        value (low ++ mid) + value (dl ++ [v₂, v₁]) * (2 ^ (32 * k) * value (quotient.drop k)) := by
  induction k generalizing low mid quotient with
  | zero =>
      rw [List.length_eq_zero_iff] at hlow
      subst hlow
      exact ⟨mid, quotient, rfl, by simp, rfl, hlt, by simp⟩
  | succ k ih =>
      rcases List.eq_nil_or_concat' low with rfl | ⟨low, x, rfl⟩
      · cases hlow
      rw [List.length_append, List.length_singleton, Nat.add_right_cancel_iff] at hlow
      have hvpow : value (dl ++ [v₂, v₁]) < 2 ^ (32 * (dl.length + 2)) := by
        have := value_lt (dl ++ [v₂, v₁])
        simpa using this
      have hx := x.isLt
      obtain ⟨ul, u₂, u₁, top, high, hwindow, hul⟩ := exists_window (n := dl.length) (l := x :: mid) (by simp; omega)
      have hvalue : value (x :: mid) < 2 ^ 32 * value (dl ++ [v₂, v₁]) := by
        rw [value_cons]
        omega
      -- the limbs above the window are zero
      have hhigh : value high = 0 := by
        have hsum : value (x :: mid) = value (ul ++ [u₂, u₁, top]) + 2 ^ (32 * (dl.length + 3)) * value high := by
          rw [hwindow, value_append]
          simp [hul]
        by_contra hne
        have hle : 2 ^ (32 * (dl.length + 3)) ≤ 2 ^ (32 * (dl.length + 3)) * value high :=
          Nat.le_mul_of_pos_right _ (Nat.pos_of_ne_zero hne)
        have hpow : 2 ^ (32 * (dl.length + 3)) = 2 ^ 32 * 2 ^ (32 * (dl.length + 2)) := by
          rw [← Nat.pow_add]
          congr 1
          omega
        omega
      have hu : value (ul ++ [u₂, u₁, top]) = value (x :: mid) := by
        rw [hwindow, value_append _ high, hhigh, Nat.mul_zero, Nat.add_zero]
      obtain ⟨us', q, hrun, hlen', hq, hr⟩ := quotientDigit_spec high dpost hlow hul hv₁
        (by omega : k < quotient.length) (hu ▸ hvalue)
      have hpos : 0 < value (dl ++ [v₂, v₁]) := Nat.zero_lt_of_lt hlt
      have hmid' : value (us' ++ high) = value (x :: mid) % value (dl ++ [v₂, v₁]) := by
        rw [value_append, hhigh, Nat.mul_zero, Nat.add_zero, hr, hu]
      obtain ⟨numer', quotient', hrun', hlen, hqlen, hlt', heq⟩ := @ih low (us' ++ high) (quotient.set k q)
        hlow (by rw [List.length_append]; omega) (by rw [hmid']; exact Nat.mod_lt _ hpos)
        (by rw [List.length_set]; omega)
      refine ⟨numer', quotient', ?_, ?_, by rw [hqlen, List.length_set], hlt', ?_⟩
      · rw [quotientDigits]
        have happend : low ++ [x] ++ mid = low ++ (ul ++ [u₂, u₁, top] ++ high) := by
          rw [← hwindow]
          simp
        rw [happend, hrun, ok_bind]
        exact hrun'
      · have hlength := congrArg List.length hwindow
        simp only [List.length_cons, List.length_append, List.length_nil] at hlength hlen
        omega
      · have hdrop : (quotient.set k q).drop k = q :: quotient.drop (k + 1) := by
          rw [List.drop_set, if_neg (by omega), Nat.sub_self, List.drop_eq_getElem_cons (by omega), List.set_cons_zero]
        have hdiv := Nat.div_add_mod (value (x :: mid)) (value (dl ++ [v₂, v₁]))
        rw [heq, hdrop, value_append low, hmid', hlow, value_cons q, hq, hu, List.append_assoc, List.singleton_append,
          value_append low, hlow, Nat.mul_succ, Nat.pow_add]
        generalize value (x :: mid) / value (dl ++ [v₂, v₁]) = d at hdiv ⊢
        generalize value (x :: mid) % value (dl ++ [v₂, v₁]) = r at hdiv ⊢
        rw [← hdiv]
        ring

end Digits

end GhidraDecompiler.Multiprecision
