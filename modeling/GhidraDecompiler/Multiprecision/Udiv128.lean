import GhidraDecompiler.Multiprecision.Arith128
import GhidraDecompiler.Multiprecision.LimbShifts
import GhidraDecompiler.Multiprecision.QuotientDigits

namespace GhidraDecompiler.Multiprecision

open Fallible LongDivision BitWords
open Pcode (Word)

section Knuth

/-- The shift that brings the leading bit of a limb to the top. -/
theorem normalise {v : Limb} (hv : v ≠ 0#32) :
    leadingZeros (v.setWidth 64) - 32 < 32 ∧ 2 ^ 31 ≤ v.toNat * 2 ^ (leadingZeros (v.setWidth 64) - 32) ∧
      v.toNat / 2 ^ (32 - (leadingZeros (v.setWidth 64) - 32)) = 0 := by
  have hne : v.toNat ≠ 0 := fun h => hv (BitVec.eq_of_toNat_eq h)
  have hlog : v.toNat.log2 < 32 := (Nat.log2_lt hne).mpr v.isLt
  have hshift : leadingZeros (v.setWidth 64) - 32 = 31 - v.toNat.log2 := by
    rw [leadingZeros_widen v (by decide), leadingZeros, if_neg hv]
    omega
  rw [hshift]
  refine ⟨by omega, ?_, ?_⟩
  · calc 2 ^ 31 = 2 ^ v.toNat.log2 * 2 ^ (31 - v.toNat.log2) := by
          rw [← Nat.pow_add]
          congr 1
          omega
      _ ≤ v.toNat * 2 ^ (31 - v.toNat.log2) := Nat.mul_le_mul_right _ (Nat.log2_self_le hne)
  · apply Nat.div_eq_of_lt
    rw [show 32 - (31 - v.toNat.log2) = v.toNat.log2 + 1 by omega]
    exact Nat.lt_log2_self

variable {dl drest ms rest quotient : List Limb} {v₂ v₁ : Limb}

/-- The top limb of a number with many leading bits. -/
theorem exists_top {n : Nat} {l : List Limb} (hlen : l.length = n + 2) (hv : 2 ^ 31 * 2 ^ (32 * (n + 1)) ≤ value l) :
    ∃ (dl : List Limb) (v₂ v₁ : Limb), l = dl ++ [v₂, v₁] ∧ dl.length = n ∧ 2 ^ 31 ≤ v₁.toNat := by
  rcases List.eq_nil_or_concat' l with rfl | ⟨l, v₁, rfl⟩
  · cases hlen
  rcases List.eq_nil_or_concat' l with rfl | ⟨l, v₂, rfl⟩
  · simp at hlen
  refine ⟨l, v₂, v₁, by simp, by simpa using hlen, ?_⟩
  have hlt := value_lt (l ++ [v₂])
  rw [value_append (l ++ [v₂]), value_singleton] at hv
  have hlen' : (l ++ [v₂]).length = n + 1 := by
    simpa using hlen
  rw [hlen'] at hlt hv
  have hmul : 2 ^ (32 * (n + 1)) * 2 ^ 31 < 2 ^ (32 * (n + 1)) * (v₁.toNat + 1) := by
    rw [Nat.mul_comm _ (2 ^ 31), Nat.mul_add (2 ^ (32 * (n + 1)))]
    omega
  exact Nat.le_of_lt_succ (Nat.lt_of_mul_lt_mul_left hmul)

theorem quotientDigits_division (drest : List Limb) (hv₁ : 2 ^ 31 ≤ v₁.toNat) {k : Nat} {numer quotient : List Limb}
    (hbound : value numer < 2 ^ (32 * k) * value (dl ++ [v₂, v₁])) (hlen : dl.length + 2 + k ≤ numer.length)
    (hk : k ≤ quotient.length) (hquotient : ∀ x ∈ quotient, x = 0#32) :
    ∃ numer' quotient', quotientDigits (dl.length + 2) (dl ++ [v₂, v₁] ++ drest) k numer quotient = .ok (numer', quotient') ∧
      numer'.length = numer.length ∧ quotient'.length = quotient.length ∧
      value numer' = value numer % value (dl ++ [v₂, v₁]) ∧ value quotient' = value numer / value (dl ++ [v₂, v₁]) := by
  have hparts := value_take_drop (l := numer) (k := k) (by omega)
  have hupper : value (numer.drop k) < value (dl ++ [v₂, v₁]) := by
    apply Nat.lt_of_mul_lt_mul_left (a := 2 ^ (32 * k))
    omega
  have hlow : (numer.take k).length = k := by
    rw [List.length_take]
    omega
  have hmid : dl.length + 2 ≤ (numer.drop k).length := by
    rw [List.length_drop]
    omega
  obtain ⟨numer', quotient', hrun, hnlen, hqlen, hlt, heq⟩ := @quotientDigits_spec dl drest v₂ v₁ hv₁ k (numer.take k)
    (numer.drop k) quotient hlow hmid hupper hk
  have hzero : value (quotient.drop k) = 0 := value_zeros fun x hx => hquotient x (List.mem_of_mem_drop hx)
  rw [List.take_append_drop] at hrun heq
  rw [hzero, Nat.mul_zero, Nat.mul_zero, Nat.add_zero] at heq
  obtain ⟨hq, hr⟩ := div_mod_of_eq (u := value numer) (q := value quotient') (by rw [← heq]; ring) hlt
  exact ⟨numer', quotient', hrun, by rw [hnlen, List.length_drop]; omega, hqlen, hr, hq⟩

/-- The number has its limbs in `ms`; a limb of zero follows them, and the array may be
longer. -/
theorem knuthAlgorithmD_spec (drest : List Limb) {n : Nat} {init ms rest quotient : List Limb} {v : Limb}
    (hinit : init.length = n + 1) (hv : v ≠ 0#32) (hms : n + 2 ≤ ms.length) (hrest : ∀ x ∈ rest, x = 0#32)
    (hquotient : ∀ x ∈ quotient, x = 0#32) (hlen : ms.length ≤ quotient.length + (n + 1)) :
    ∃ numer' quotient', knuthAlgorithmD (ms.length + 1) (n + 2) (ms ++ 0 :: rest) (init ++ [v] ++ drest) quotient =
        .ok (numer', quotient') ∧ numer'.length = ms.length + 1 + rest.length ∧ quotient'.length = quotient.length ∧
      value numer' = value ms % value (init ++ [v]) ∧ value quotient' = value ms / value (init ++ [v]) := by
  have hgetv : getIdx (init ++ [v] ++ drest) (n + 1) = .ok v := getIdx_at (p := init) (r := drest) (by simp) hinit
  obtain ⟨hshift, hnorm, hfits⟩ := normalise hv
  simp only [knuthAlgorithmD, show n + 2 - 1 = n + 1 from rfl, hgetv, ok_bind]
  generalize leadingZeros (v.setWidth 64) - 32 = s at hshift hnorm hfits ⊢
  have hlenDenom : (init ++ [v]).length = n + 2 := by
    simp [hinit]
  have hlenNumer : (ms ++ [0]).length = ms.length + 1 := by
    simp
  obtain ⟨ds', hrunDenom, hds', hvalDenom⟩ := @shiftLeft_spec s hshift (init ++ [v]) drest (by simp) (by simpa using hfits)
  obtain ⟨ns', hrunNumer, hns', hvalNumer⟩ := @shiftLeft_spec s hshift (ms ++ [0]) rest (by simp) (by simp)
  have hzero : value (ms ++ [0]) = value ms := by
    rw [value_append]
    simp
  rw [hlenDenom] at hrunDenom hds'
  rw [hlenNumer] at hrunNumer hns'
  rw [hzero] at hvalNumer
  rw [List.append_assoc, List.singleton_append] at hrunNumer
  rw [hrunDenom, ok_bind, hrunNumer, ok_bind]
  -- the normalised divisor
  have hlarge : 2 ^ 31 * 2 ^ (32 * (n + 1)) ≤ value ds' := by
    rw [hvalDenom, value_append, value_singleton, hinit, Nat.add_mul]
    calc 2 ^ 31 * 2 ^ (32 * (n + 1)) ≤ v.toNat * 2 ^ s * 2 ^ (32 * (n + 1)) := Nat.mul_le_mul_right _ hnorm
      _ = 2 ^ (32 * (n + 1)) * v.toNat * 2 ^ s := by ring
      _ ≤ _ := Nat.le_add_left _ _
  obtain ⟨dl, v₂, v₁, rfl, hdl, hv₁⟩ := exists_top hds' hlarge
  have hnumer : value (ns' ++ rest) = value ms * 2 ^ s := by
    rw [value_append, value_zeros hrest, Nat.mul_zero, Nat.add_zero, hvalNumer]
  have hbound : value (ns' ++ rest) < 2 ^ (32 * (ms.length + 1 - (n + 2))) * value (dl ++ [v₂, v₁]) := by
    rw [hnumer]
    calc value ms * 2 ^ s < 2 ^ (32 * ms.length) * 2 ^ s :=
          Nat.mul_lt_mul_of_pos_right (value_lt ms) (Nat.two_pow_pos s)
      _ ≤ 2 ^ (32 * ms.length) * 2 ^ 31 := Nat.mul_le_mul_left _ (Nat.pow_le_pow_right (by decide) (by omega))
      _ = 2 ^ (32 * (ms.length + 1 - (n + 2))) * (2 ^ 31 * 2 ^ (32 * (n + 1))) := by
          rw [← Nat.pow_add, ← Nat.pow_add, ← Nat.pow_add]
          congr 1
          omega
      _ ≤ _ := Nat.mul_le_mul_left _ hlarge
  obtain ⟨numer', quotient', hrun, hnlen, hqlen, hr, hq⟩ := quotientDigits_division drest hv₁ hbound
    (by rw [List.length_append]; omega) (by omega) hquotient
  rw [hdl] at hrun
  rw [hrun, ok_bind]
  have hsmall : value numer' < 2 ^ (32 * (ms.length + 1)) := by
    have hdivisor := value_lt (dl ++ [v₂, v₁])
    rw [hds'] at hdivisor
    calc value numer' < value (dl ++ [v₂, v₁]) := by
          rw [hr]
          exact Nat.mod_lt _ ((Nat.mul_pos (by decide) (Nat.two_pow_pos _)).trans_le hlarge)
      _ ≤ 2 ^ (32 * (n + 2)) := hdivisor.le
      _ ≤ 2 ^ (32 * (ms.length + 1)) := Nat.pow_le_pow_right (by decide) (by omega)
  rw [hnumer, hvalDenom] at hr hq
  rw [Nat.mul_mod_mul_right] at hr
  rw [Nat.mul_div_mul_right _ _ (Nat.two_pow_pos s)] at hq
  -- the rest of the division fits in the limbs that are shifted back
  have hnlen' : numer'.length = ms.length + 1 + rest.length := by
    rw [hnlen, List.length_append, hns']
  have hparts := value_take_drop (l := numer') (k := ms.length + 1) (by omega)
  have hhigh : value (numer'.drop (ms.length + 1)) = 0 := by
    by_contra hne
    have := Nat.le_mul_of_pos_right (2 ^ (32 * (ms.length + 1))) (Nat.pos_of_ne_zero hne)
    omega
  rw [hhigh, Nat.mul_zero, Nat.add_zero, hr] at hparts
  have htake : (numer'.take (ms.length + 1)).length = ms.length + 1 := by
    rw [List.length_take]
    omega
  obtain ⟨l', hback, hl', hval'⟩ := @shiftRight_spec s hshift (numer'.take (ms.length + 1)) (numer'.drop (ms.length + 1)) _
    (by intro h; rw [h] at htake; cases htake) hparts.symm
  rw [List.take_append_drop, htake] at hback
  refine ⟨l' ++ numer'.drop (ms.length + 1), quotient', ?_, ?_, hqlen, ?_, hq⟩
  · rw [hback]
    rfl
  · rw [List.length_append, hl', htake, List.length_drop]
    omega
  · rw [value_append, hhigh, Nat.mul_zero, Nat.add_zero, hval']

end Knuth

section OneLimb

/-- Each slot takes the rest of the slots above it. -/
theorem divideByLimb_spec {divisor : Word} (hpos : 0 < divisor.toNat) (hlt : divisor.toNat < 2 ^ 32) {n : Nat}
    {ms rest quotient : List Limb} {rem : Word} (hms : ms.length = n) (hlen : n ≤ quotient.length)
    (hrem : rem.toNat < divisor.toNat) :
    ∃ (qs : List Limb) (rem' : Word), divideByLimb divisor n (ms ++ rest) quotient rem =
        .ok (List.replicate n 0 ++ rest, qs ++ quotient.drop n, rem') ∧ qs.length = n ∧ rem'.toNat < divisor.toNat ∧
      value qs * divisor.toNat + rem'.toNat = value ms + 2 ^ (32 * n) * rem.toNat := by
  induction n generalizing ms rest quotient rem with
  | zero =>
      rw [List.length_eq_zero_iff] at hms
      subst hms
      exact ⟨[], rem, rfl, rfl, hrem, by simp⟩
  | succ n ih =>
      rcases List.eq_nil_or_concat' ms with rfl | ⟨ms, x, rfl⟩
      · cases hms
      have hms : ms.length = n := by
        simpa using hms
      have hx := x.isLt
      have htmp : ((rem <<< 32) + x.setWidth 64).toNat = rem.toNat * 2 ^ 32 + x.toNat := by
        rw [BitVec.toNat_add, BitVec.toNat_shiftLeft, Nat.shiftLeft_eq, BitVec.toNat_setWidth_of_le (by decide),
          Nat.mod_eq_of_lt (a := rem.toNat * 2 ^ 32) (by omega), Nat.mod_eq_of_lt (by omega)]
      have hget : getIdx (ms ++ [x] ++ rest) n = .ok x := getIdx_at (p := ms) (r := rest) (by simp) hms
      have hset : setIdx (ms ++ [x] ++ rest) n 0 = .ok (ms ++ 0 :: rest) :=
        setIdx_at (a := x) (r := rest) 0 (by simp) hms
      have hsetq : ∀ z, setIdx quotient n z = .ok (quotient.set n z) := fun z => setIdx_eq z (by omega)
      simp only [divideByLimb, hget, ok_bind, hsetq, hset]
      generalize (rem <<< 32) + x.setWidth 64 = tmp at htmp ⊢
      have hrem' : (tmp % divisor).toNat < divisor.toNat := by
        rw [BitVec.toNat_umod]
        exact Nat.mod_lt _ hpos
      obtain ⟨qs, rem', hrun, hqs, hrem'', hval⟩ := @ih ms (0 :: rest) (quotient.set n ((tmp / divisor).setWidth 32))
        (tmp % divisor) hms (by rw [List.length_set]; omega) hrem'
      refine ⟨qs ++ [(tmp / divisor).setWidth 32], rem', ?_, by simp [hqs], hrem'', ?_⟩
      · have hdrop : (quotient.set n ((tmp / divisor).setWidth 32)).drop n =
            (tmp / divisor).setWidth 32 :: quotient.drop (n + 1) := by
          rw [List.drop_set, if_neg (by omega), Nat.sub_self, List.drop_eq_getElem_cons (by omega), List.set_cons_zero]
        rw [hrun, hdrop, List.replicate_succ']
        simp
      · have hdigit : ((tmp / divisor).setWidth 32).toNat = tmp.toNat / divisor.toNat := by
          rw [BitVec.toNat_setWidth, BitVec.toNat_udiv, Nat.mod_eq_of_lt]
          rw [Nat.div_lt_iff_lt_mul hpos]
          nlinarith
        have hsplit := Nat.div_add_mod tmp.toNat divisor.toNat
        rw [BitVec.toNat_umod] at hval
        rw [value_append, value_append, value_singleton, value_singleton, hdigit, hqs, hms, Nat.mul_succ, Nat.pow_add]
        generalize tmp.toNat / divisor.toNat = q at hsplit ⊢
        generalize tmp.toNat % divisor.toNat = r at hsplit hval
        rw [htmp] at hsplit
        have hscaled : 2 ^ (32 * n) * (divisor.toNat * q + r) = 2 ^ (32 * n) * (rem.toNat * 2 ^ 32 + x.toNat) := by
          rw [hsplit]
        linarith

end OneLimb

section Packing

theorem toNat_pair (hi lo : Limb) : (((hi.setWidth 64 : Word) <<< 32) ||| lo.setWidth 64).toNat = lo.toNat + 2 ^ 32 * hi.toNat := by
  have hhi := hi.isLt
  have hlo : (lo.setWidth 64 : Word).toNat < 2 ^ 32 := by
    rw [BitVec.toNat_setWidth_of_le (by decide)]
    exact lo.isLt
  rw [BitVec.toNat_or, BitVec.toNat_shiftLeft, Nat.shiftLeft_eq, Nat.mod_eq_of_lt, Nat.mul_comm,
    ← Nat.two_pow_add_eq_or_of_lt hlo, BitVec.toNat_setWidth_of_le (by decide), BitVec.toNat_setWidth_of_le (by decide),
    Nat.add_comm]
  rw [BitVec.toNat_setWidth_of_le (by decide)]
  omega

theorem limb_zero {l : List Limb} {max i : Nat} {x : Limb} (hv : value l < 2 ^ (32 * max)) (hi : max ≤ i)
    (hx : l[i]? = some x) : x = 0#32 := by
  by_cases hlen : max ≤ l.length
  · have hparts := value_take_drop hlen
    have hzero : value (l.drop max) = 0 := by
      by_contra hne
      have := Nat.le_mul_of_pos_right (2 ^ (32 * max)) (Nat.pos_of_ne_zero hne)
      omega
    apply zeros_of_value hzero
    rw [List.mem_iff_getElem?]
    refine ⟨i - max, ?_⟩
    rw [List.getElem?_drop, Nat.add_sub_cancel' hi, hx]
  · rw [List.getElem?_eq_none (by omega)] at hx
    cases hx

/-- The limbs from `max` on are zero, so that leaving them out changes nothing. -/
theorem pack32_64_spec {l : List Limb} {max : Nat} (hlen : 4 ≤ l.length) (hmax : max ≤ 4) (hv : value l < 2 ^ (32 * max)) :
    ∃ w₀ w₁, pack32_64 max l 2 [] = .ok [w₀, w₁] ∧ value [w₀, w₁] = value l := by
  obtain ⟨a, l, rfl⟩ := List.exists_cons_of_length_pos (by omega : 0 < l.length)
  obtain ⟨b, l, rfl⟩ := List.exists_cons_of_length_pos (by simp at hlen; omega : 0 < l.length)
  obtain ⟨c, l, rfl⟩ := List.exists_cons_of_length_pos (by simp at hlen; omega : 0 < l.length)
  obtain ⟨d, l, rfl⟩ := List.exists_cons_of_length_pos (by simp at hlen; omega : 0 < l.length)
  have hread : ∀ i x, (a :: b :: c :: d :: l)[i]? = some x →
      limbBelow max (a :: b :: c :: d :: l) i = .ok (x.setWidth 64) := by
    intro i x hx
    rw [limbBelow]
    by_cases hi : i < max
    · rw [if_pos hi, getIdx_eq hx]
      rfl
    · rw [if_neg hi, limb_zero hv (Nat.le_of_not_lt hi) hx]
      rfl
  have hrest : value l = 0 := by
    apply value_zeros
    intro x hx
    obtain ⟨i, hi⟩ := List.mem_iff_getElem?.mp hx
    exact limb_zero (i := i + 4) hv (by omega) (by simpa using hi)
  refine ⟨((b.setWidth 64 : Word) <<< 32) ||| a.setWidth 64, ((d.setWidth 64 : Word) <<< 32) ||| c.setWidth 64, ?_, ?_⟩
  · rw [pack32_64, hread 3 d rfl, ok_bind, hread 2 c rfl, ok_bind, pack32_64, hread 1 b rfl, ok_bind, hread 0 a rfl, ok_bind,
      pack32_64]
  · simp only [value_cons, value_nil, toNat_pair, hrest]
    ring

theorem toNat_highLimb (x : Word) : ((x >>> 32).setWidth 32 : Limb).toNat = x.toNat / 2 ^ 32 := by
  have hx := x.isLt
  rw [BitVec.toNat_setWidth, BitVec.toNat_ushiftRight, Nat.shiftRight_eq_div_pow, Nat.mod_eq_of_lt]
  omega

theorem toNat_lowLimb (x : Word) : ((x &&& 0xffffffff).setWidth 32 : Limb).toNat = x.toNat % 2 ^ 32 := by
  have hlo : (x &&& 0xffffffff).toNat = x.toNat % 2 ^ 32 := by
    rw [BitVec.toNat_and]
    exact Nat.and_two_pow_sub_one_eq_mod _ 32
  rw [BitVec.toNat_setWidth, hlo, Nat.mod_mod]

/-- The limbs of two words, cut after the highest one that is not zero. -/
theorem split64_32_spec (a b : Word) :
    ∃ ms rest, split64_32 [a, b] 0 0 = (ms ++ rest, ms.length) ∧ (∀ x ∈ rest, x = 0#32) ∧ (ms ++ rest).length = 4 ∧
      value ms = value [a, b] ∧ (ms = [] ∨ ∃ (init : List Limb) (v : Limb), ms = init ++ [v] ∧ v ≠ 0#32) := by
  have ha := toNat_highLimb a
  have ha' := toNat_lowLimb a
  have hb := toNat_highLimb b
  have hb' := toNat_lowLimb b
  have hmod := Nat.mod_add_div a.toNat (2 ^ 32)
  have hmod' := Nat.mod_add_div b.toNat (2 ^ 32)
  simp only [split64_32, Nat.zero_mul, Nat.zero_add]
  generalize (a >>> 32).setWidth 32 = ahi at ha ⊢
  generalize (a &&& 0xffffffff).setWidth 32 = alo at ha' ⊢
  generalize (b >>> 32).setWidth 32 = bhi at hb ⊢
  generalize (b &&& 0xffffffff).setWidth 32 = blo at hb' ⊢
  have hval : value [alo, ahi, blo, bhi] = value [a, b] := by
    simp only [value_cons, value_nil, ha, ha', hb, hb']
    linarith
  by_cases h₃ : bhi = 0#32
  · subst h₃
    by_cases h₂ : blo = 0#32
    · subst h₂
      by_cases h₁ : ahi = 0#32
      · subst h₁
        by_cases h₀ : alo = 0#32
        · subst h₀
          refine ⟨[], [0, 0, 0, 0], by simp, by simp, rfl, by rw [← hval]; simp, .inl rfl⟩
        · refine ⟨[alo], [0, 0, 0], by simp [h₀], by simp, rfl, by rw [← hval]; simp, .inr ⟨[], alo, rfl, h₀⟩⟩
      · refine ⟨[alo, ahi], [0, 0], by simp [h₁], by simp, rfl, by rw [← hval]; simp, .inr ⟨[alo], ahi, rfl, h₁⟩⟩
    · refine ⟨[alo, ahi, blo], [0], by simp [h₂], by simp, rfl, by rw [← hval]; simp, .inr ⟨[alo, ahi], blo, rfl, h₂⟩⟩
  · refine ⟨[alo, ahi, blo, bhi], [], by simp [h₃], by simp, rfl, hval, .inr ⟨[alo, ahi, blo], bhi, rfl, h₃⟩⟩

end Packing

section Division

/-- A limb that is not zero makes the number as long as its place says. -/
theorem le_value_top (init : List Limb) {v : Limb} (hv : v ≠ 0#32) : 2 ^ (32 * init.length) ≤ value (init ++ [v]) := by
  have hpos : 0 < v.toNat := Nat.pos_of_ne_zero fun h => hv (BitVec.eq_of_toNat_eq h)
  rw [value_append, value_singleton]
  exact (Nat.le_mul_of_pos_right _ hpos).trans (Nat.le_add_left _ _)

theorem divideLimbs_spec {ms rest init drest : List Limb} {v : Limb} (hms : (ms ++ rest).length = 4)
    (hrest : ∀ x ∈ rest, x = 0#32) (hv : v ≠ 0#32) (hlen : init.length + 1 ≤ ms.length) :
    ∃ numer' quotient', divideLimbs ms.length (init.length + 1) (ms ++ rest ++ [0]) (init ++ [v] ++ drest) =
        .ok (numer', quotient') ∧ 4 ≤ numer'.length ∧ quotient'.length = 4 ∧
      value numer' = value ms % value (init ++ [v]) ∧ value quotient' = value ms / value (init ++ [v]) := by
  rw [List.length_append] at hms
  simp only [divideLimbs]
  cases init with
  | nil =>
      have hpos : 0 < v.toNat := Nat.pos_of_ne_zero fun h => hv (BitVec.eq_of_toNat_eq h)
      have hwiden : (v.setWidth 64 : Word).toNat = v.toNat := BitVec.toNat_setWidth_of_le (by decide)
      obtain ⟨qs, rem, hrun, hqs, hrem, hval⟩ := @divideByLimb_spec (v.setWidth 64) (by omega)
        (by rw [hwiden]; exact v.isLt) ms.length ms (rest ++ [0]) [0, 0, 0, 0] 0 rfl (by simp; omega)
        (by rw [hwiden]; exact hpos)
      have hmspos : 1 ≤ ms.length := by
        simpa using hlen
      have hzero : (0 : Word).toNat = 0 := rfl
      rw [hzero, Nat.mul_zero, Nat.add_zero, hwiden] at hval
      rw [hwiden] at hrem
      obtain ⟨hq, hr⟩ := div_mod_of_eq hval.symm hrem
      have hdrop : value (List.drop ms.length ([0, 0, 0, 0] : List Limb)) = 0 :=
        value_zeros fun x hx => by simpa using List.mem_of_mem_drop hx
      refine ⟨(rem.setWidth 32) :: (List.replicate (ms.length - 1) 0 ++ (rest ++ [0])), qs ++ List.drop ms.length [0, 0, 0, 0],
        ?_, ?_, ?_, ?_, ?_⟩
      · have hget : getIdx ([] ++ [v] ++ drest) 0 = .ok v := rfl
        have hzeros : List.replicate ms.length (0 : Limb) = 0 :: List.replicate (ms.length - 1) 0 := by
          rw [← List.replicate_succ, Nat.sub_add_cancel hmspos]
        rw [List.length_nil, Nat.zero_add, if_pos rfl, hget, ok_bind, List.append_assoc, hrun, ok_bind, hzeros]
        rfl
      · simp
        omega
      · simp [hqs]
        omega
      · have hremlt : rem.toNat < 2 ^ 32 := hrem.trans v.isLt
        have htail : value (List.replicate (ms.length - 1) 0 ++ (rest ++ [0])) = 0 := by
          apply value_zeros
          intro x hx
          simp only [List.mem_append, List.mem_replicate, List.mem_singleton] at hx
          rcases hx with ⟨-, h⟩ | h | h
          · exact h
          · exact hrest x h
          · exact h
        rw [value_cons, htail, Nat.mul_zero, Nat.add_zero, BitVec.toNat_setWidth, Nat.mod_eq_of_lt hremlt, hr]
        rfl
      · rw [value_append, hdrop, Nat.mul_zero, Nat.add_zero, hq]
        rfl
  | cons x init =>
      -- the limb after the number is zero already
      obtain ⟨y, rest', hy⟩ := List.exists_cons_of_length_pos (by simp : 0 < (rest ++ [0]).length)
      have hzeros : ∀ z ∈ y :: rest', z = 0#32 := by
        intro z hz
        rw [← hy, List.mem_append, List.mem_singleton] at hz
        rcases hz with hz | hz
        · exact hrest z hz
        · exact hz
      have hset : setIdx (ms ++ rest ++ [0]) ms.length 0 = .ok (ms ++ 0 :: rest') := by
        rw [List.append_assoc, hy]
        exact setIdx_at 0 rfl rfl
      obtain ⟨numer', quotient', hrun, hnlen, hqlen, hr, hq⟩ := @knuthAlgorithmD_spec drest init.length (x :: init) ms rest'
        [0, 0, 0, 0] v rfl hv hlen (fun z hz => hzeros z (List.mem_cons_of_mem _ hz)) (by simp) (by simp; omega)
      refine ⟨numer', quotient', ?_, ?_, hqlen, hr, hq⟩
      · rw [List.length_cons, if_neg (by omega), hset, ok_bind]
        exact hrun
      · have hlength := congrArg List.length hy
        simp only [List.length_append, List.length_cons, List.length_nil] at hlength
        omega

theorem value_lt_of_top {ms init rest : List Limb} {v x : Limb} (hv : v ≠ 0#32)
    (hx : getIdx (ms ++ rest) init.length = .ok x)
    (h : ms.length < init.length + 1 ∨ init.length + 1 = ms.length ∧ x < v) : value ms < value (init ++ [v]) := by
  rcases h with h | ⟨h, hlt⟩
  · calc value ms < 2 ^ (32 * ms.length) := value_lt ms
      _ ≤ 2 ^ (32 * init.length) := Nat.pow_le_pow_right (by decide) (by omega)
      _ ≤ value (init ++ [v]) := le_value_top init hv
  · rcases List.eq_nil_or_concat' ms with rfl | ⟨ms, u, rfl⟩
    · cases h
    have hms : ms.length = init.length := by
      simpa using h.symm
    have hu : getIdx (ms ++ [u] ++ rest) init.length = .ok u := getIdx_at (p := ms) (r := rest) (by simp) hms
    rw [hu] at hx
    rw [← Except.ok.inj hx] at hlt
    have hlow := value_lt ms
    have hlt : u.toNat + 1 ≤ v.toNat := hlt
    rw [value_append, value_append, value_singleton, value_singleton, hms]
    rw [hms] at hlow
    calc value ms + 2 ^ (32 * init.length) * u.toNat < 2 ^ (32 * init.length) * (u.toNat + 1) := by
          rw [Nat.mul_add (2 ^ (32 * init.length))]
          omega
      _ ≤ 2 ^ (32 * init.length) * v.toNat := Nat.mul_le_mul_left _ hlt
      _ ≤ _ := Nat.le_add_left _ _

/-- The division of numbers of two words. -/
theorem udiv128_spec (a b c d : Word) (hd : value [c, d] ≠ 0) :
    ∃ q₀ q₁ r₀ r₁, udiv128 [a, b] [c, d] = .ok ([q₀, q₁], [r₀, r₁]) ∧ value [q₀, q₁] = value [a, b] / value [c, d] ∧
      value [r₀, r₁] = value [a, b] % value [c, d] := by
  have hget₀ : ∀ x y : Word, getIdx [x, y] 0 = .ok x := fun _ _ => rfl
  have hget₁ : ∀ x y : Word, getIdx [x, y] 1 = .ok y := fun _ _ => rfl
  simp only [udiv128, hget₀, hget₁, ok_bind]
  by_cases hsmall : b = 0 ∧ d = 0
  · obtain ⟨rfl, rfl⟩ := hsmall
    have hone : ∀ x : Word, value [x, 0] = x.toNat := fun x => by simp
    have hc : c ≠ 0 := by
      rintro rfl
      exact hd rfl
    refine ⟨a / c, 0, a % c, 0, ?_, ?_, ?_⟩
    · rw [if_pos ⟨rfl, rfl⟩, if_neg hc]
      rfl
    · rw [hone, hone, hone, BitVec.toNat_udiv]
    · rw [hone, hone, hone, BitVec.toNat_umod]
  · obtain ⟨ds, drest, hsplitD, -, hdlen, hdval, hdtop⟩ := split64_32_spec c d
    obtain ⟨ms, rest, hsplitN, hrest, hnlen, hnval, -⟩ := split64_32_spec a b
    rcases hdtop with rfl | ⟨init, v, rfl, hv⟩
    · rw [value_nil] at hdval
      exact absurd hdval.symm hd
    have hlenD : (init ++ [v]).length = init.length + 1 := by simp
    rw [List.length_append, hlenD] at hdlen
    rw [hlenD] at hsplitD
    rw [List.length_append] at hnlen
    have hgetD : getIdx (init ++ [v] ++ drest) init.length = .ok v := getIdx_at (p := init) (r := drest) (by simp) rfl
    obtain ⟨x, hx⟩ : ∃ x, getIdx (ms ++ rest ++ [0]) init.length = .ok x :=
      ⟨_, getIdx_eq (List.getElem?_eq_getElem (by simp; omega))⟩
    simp only [if_neg hsmall, hsplitD, hsplitN, Nat.add_sub_cancel, hgetD, hx, ok_bind, Nat.succ_ne_zero, if_false]
    rw [← hnval, ← hdval]
    by_cases hless : ms.length < init.length + 1 ∨ init.length + 1 = ms.length ∧ x < v
    · have hlt : value ms < value (init ++ [v]) := by
        rw [List.append_assoc] at hx
        exact value_lt_of_top hv hx hless
      refine ⟨0, 0, a, b, ?_, ?_, ?_⟩
      · rw [if_pos hless]
        rfl
      · rw [Nat.div_eq_of_lt hlt]
        rfl
      · rw [Nat.mod_eq_of_lt hlt, hnval]
    · rw [if_neg hless]
      have hle : init.length + 1 ≤ ms.length := by omega
      obtain ⟨numer', quotient', hrun, hnlen', hqlen', hr, hq⟩ := @divideLimbs_spec ms rest init drest v
        (by rw [List.length_append]; exact hnlen) hrest hv hle
      have hdivisor := le_value_top init hv
      have hpos : 0 < value (init ++ [v]) := (Nat.two_pow_pos _).trans_le hdivisor
      have hqbound : value quotient' < 2 ^ (32 * (ms.length - (init.length + 1) + 1)) := by
        rw [hq, Nat.div_lt_iff_lt_mul hpos]
        calc value ms < 2 ^ (32 * ms.length) := value_lt ms
          _ = 2 ^ (32 * (ms.length - (init.length + 1) + 1)) * 2 ^ (32 * init.length) := by
              rw [← Nat.pow_add]
              congr 1
              omega
          _ ≤ _ := Nat.mul_le_mul_left _ hdivisor
      have hrbound : value numer' < 2 ^ (32 * ms.length) := by
        rw [hr]
        exact (Nat.mod_le _ _).trans_lt (value_lt ms)
      obtain ⟨q₀, q₁, hpackq, hvalq⟩ := pack32_64_spec (by omega) (by omega) hqbound
      obtain ⟨r₀, r₁, hpackr, hvalr⟩ := pack32_64_spec hnlen' (by omega) hrbound
      refine ⟨q₀, q₁, r₀, r₁, ?_, by rw [hvalq, hq], by rw [hvalr, hr]⟩
      rw [hrun, ok_bind, hpackq, ok_bind, hpackr]
      rfl

theorem udiv128_zero (a b : Word) : udiv128 [a, b] [0, 0] = .error (.lowlevel "divide by 0") := by
  by_cases hb : b = 0
  · subst hb
    rfl
  · have hget₀ : ∀ x y : Word, getIdx [x, y] 0 = .ok x := fun _ _ => rfl
    have hget₁ : ∀ x y : Word, getIdx [x, y] 1 = .ok y := fun _ _ => rfl
    have hsplit : split64_32 [0, 0] 0 0 = ([0, 0, 0, 0], 0) := by decide
    simp only [udiv128, hget₀, hget₁, ok_bind, hb, false_and, if_false, hsplit, if_true]
    rfl

/-- The division of 128-bit numbers: it fails for a divisor of zero alone, so no
position is out of range and no loop runs on. -/
theorem udiv128_correct (a b c d : Word) :
    (value [c, d] ≠ 0 → ∃ q₀ q₁ r₀ r₁, udiv128 [a, b] [c, d] = .ok ([q₀, q₁], [r₀, r₁]) ∧
        value [a, b] = value [q₀, q₁] * value [c, d] + value [r₀, r₁] ∧ value [r₀, r₁] < value [c, d]) ∧
      ((∃ e, udiv128 [a, b] [c, d] = .error e) ↔ value [c, d] = 0) ∧
      ∀ e, udiv128 [a, b] [c, d] = .error e → e = .lowlevel "divide by 0" := by
  by_cases hd : value [c, d] = 0
  · have hc : c = 0 := by
      apply BitVec.eq_of_toNat_eq
      rw [value_pair] at hd
      exact Nat.eq_zero_of_add_eq_zero_right hd
    have hd' : d = 0 := by
      apply BitVec.eq_of_toNat_eq
      have : (0 : Word).toNat = 0 := rfl
      rw [value_pair] at hd
      omega
    subst hc hd'
    have hrun := udiv128_zero a b
    refine ⟨fun h => absurd hd h, iff_of_true ⟨_, hrun⟩ hd, ?_⟩
    intro e he
    rw [hrun] at he
    exact (Except.error.inj he).symm
  · obtain ⟨q₀, q₁, r₀, r₁, hrun, hq, hr⟩ := udiv128_spec a b c d hd
    have hok : ∀ e, udiv128 [a, b] [c, d] ≠ .error e := by
      intro e he
      rw [hrun] at he
      cases he
    refine ⟨fun _ => ⟨q₀, q₁, r₀, r₁, hrun, ?_, ?_⟩, iff_of_false (fun ⟨e, he⟩ => hok e he) hd, fun e he => absurd he (hok e)⟩
    · rw [hq, hr, Nat.mul_comm]
      exact (Nat.div_add_mod _ _).symm
    · rw [hr]
      exact Nat.mod_lt _ (Nat.pos_of_ne_zero hd)

end Division

end GhidraDecompiler.Multiprecision
