import GhidraDecompiler.Expression.Dataflow

namespace GhidraDecompiler.Expression

open Pcode

namespace Dataflow

/-- The tests on two comparisons that make an answer of them. -/
def Matched (g : Dataflow) (first second : Op) : Prop :=
  first.code = second.code ∧ BooleanMatch.inputsSame g.toFuncdata first.inrefs second.inrefs = some true ∨
    first.code = second.code ∧ BooleanMatch.sameOpComplement g.toFuncdata first second = some true ∨
    getBooleanflip second.code = some (first.code, false) ∧
      BooleanMatch.inputsSame g.toFuncdata first.inrefs second.inrefs = some true ∨
    getBooleanflip second.code = some (first.code, true) ∧
      BooleanMatch.inputsSame g.toFuncdata first.inrefs second.inrefs.reverse = some true

/-- The comparisons whose output depends on the size of the operands. -/
def sizeSensitive (opc : OpCode) : Bool := opc = .intSless ∨ opc = .intSlessequal ∨ opc = .intCarry

/-- What an answer says about the values of the two varnodes. -/
def Correct (g : Dataflow) (env : Assignment g) (vn1 vn2 : VarnodeId) : Correlation → Prop
  | .same => g.value env vn1 = g.value env vn2
  | .complementary => g.value env vn1 = g.value env vn2 ^^^ 1
  | .uncorrelated => True

variable {g : Dataflow} {env : Assignment g} {vn1 vn2 : VarnodeId}

theorem Correct.flip_left {u : VarnodeId} {res : Correlation} (h : g.Correct env u vn2 res)
    (hval : g.value env vn1 = g.value env u ^^^ 1) : g.Correct env vn1 vn2 (BooleanMatch.flipResult res) := by
  cases res with
  | same =>
      have h : g.value env u = g.value env vn2 := h
      rw [h] at hval
      exact hval
  | complementary =>
      have h : g.value env u = g.value env vn2 ^^^ 1 := h
      rw [h, BitVec.xor_assoc, BitVec.xor_self, BitVec.xor_zero] at hval
      exact hval
  | uncorrelated => trivial

theorem Correct.flip_right {u : VarnodeId} {res : Correlation} (h : g.Correct env vn1 u res)
    (hval : g.value env vn2 = g.value env u ^^^ 1) : g.Correct env vn1 vn2 (BooleanMatch.flipResult res) := by
  have hu : g.value env u = g.value env vn2 ^^^ 1 := by
    rw [hval, BitVec.xor_assoc, BitVec.xor_self, BitVec.xor_zero]
  cases res with
  | same =>
      have h : g.value env vn1 = g.value env u := h
      rw [hu] at h
      exact h
  | complementary =>
      have h : g.value env vn1 = g.value env u ^^^ 1 := h
      rw [← hval] at h
      exact h
  | uncorrelated => trivial

/-- Both are truth values. -/
def Related (res : Correlation) (p q : Bool) : Prop :=
  match res with
  | .same => p = q
  | .complementary => p = !q
  | .uncorrelated => True

theorem correct_iff {res : Correlation} {p q : Bool} (h₁ : g.value env vn1 = ofBool p) (h₂ : g.value env vn2 = ofBool q) :
    g.Correct env vn1 vn2 res ↔ Related res p q := by
  cases res with
  | same =>
      rw [Correct, Related, h₁, h₂]
      cases p <;> cases q <;> decide
  | complementary =>
      rw [Correct, Related, h₁, h₂]
      cases p <;> cases q <;> decide
  | uncorrelated => exact Iff.rfl

/-- A correlated pair is equal up to a negation. -/
theorem Related.exists {res : Correlation} {p q : Bool} (h : Related res p q) (hne : res ≠ .uncorrelated) :
    ∃ c, p = (c ^^ q) ∧ res = if c then .complementary else .same := by
  cases res with
  | same => exact ⟨false, by rw [Bool.false_xor]; exact h, rfl⟩
  | complementary => exact ⟨true, by rw [Bool.true_xor]; exact h, rfl⟩
  | uncorrelated => exact absurd rfl hne

theorem combine_related {opc1 opc2 : OpCode} {pair1 pair2 : Correlation} {p q p' q' : Bool}
    (h₁ : BooleanMatch.isLogical opc1 = true)
    (hops : opc1 = opc2 ∨ opc1 = .boolAnd ∧ opc2 = .boolOr ∨ opc1 = .boolOr ∧ opc2 = .boolAnd)
    (hp : Related pair1 p p') (hq : Related pair2 q q') (hne₁ : pair1 ≠ .uncorrelated) (hne₂ : pair2 ≠ .uncorrelated) :
    Related (BooleanMatch.combine opc1 opc2 pair1 pair2) (connective opc1 p q) (connective opc2 p' q') := by
  obtain ⟨c, rfl, hc⟩ := hp.exists hne₁
  obtain ⟨d, rfl, hd⟩ := hq.exists hne₂
  subst hc hd
  rw [BooleanMatch.isLogical, decide_eq_true_iff] at h₁
  rcases hops with rfl | ⟨rfl, rfl⟩ | ⟨rfl, rfl⟩
  · rcases h₁ with rfl | rfl | rfl <;> cases c <;> cases d <;> cases p' <;> cases q' <;> first | rfl | trivial
  · cases c <;> cases d <;> cases p' <;> cases q' <;> first | rfl | trivial
  · cases c <;> cases d <;> cases p' <;> cases q' <;> first | rfl | trivial

section Logical

variable {answer : VarnodeId → VarnodeId → Option Correlation} {opc1 opc2 : OpCode} {a b c d : VarnodeId}

/-- There is an answer for a pair, and it is right under a condition. -/
def Answers (g : Dataflow) (p : Prop) (vn1 vn2 : VarnodeId) (res : Option Correlation) : Prop :=
  ∃ r, res = some r ∧ (p → ∀ env, g.Correct env vn1 vn2 r)

theorem Answers.mono {p p' : Prop} {res : Option Correlation} (h : g.Answers p vn1 vn2 res) (hp : p' → p) :
    g.Answers p' vn1 vn2 res := by
  obtain ⟨r, hr, hcorrect⟩ := h
  exact ⟨r, hr, fun h => hcorrect (hp h)⟩

theorem answers_uncorrelated {p : Prop} : g.Answers p vn1 vn2 (some .uncorrelated) := ⟨_, rfl, fun _ _ => trivial⟩

theorem value_eq_ofBool (h : g.boolean vn1) (env : Assignment g) :
    g.value env vn1 = ofBool (g.value env vn1 == 1#64) := ofBool_cases (value_truth h)

/-- A logical operation on two pairs that are correlated. -/
theorem combine_correct {p q p' q' : VarnodeId} {r₁ r₂ : Correlation} (h₁ : BooleanMatch.isLogical opc1 = true)
    (hops : opc1 = opc2 ∨ opc1 = .boolAnd ∧ opc2 = .boolOr ∨ opc1 = .boolOr ∧ opc2 = .boolAnd)
    (hp : g.boolean p) (hq : g.boolean q) (hp' : g.boolean p') (hq' : g.boolean q')
    (hv₁ : g.value env vn1 = ofBool (connective opc1 (g.value env p == 1#64) (g.value env q == 1#64)))
    (hv₂ : g.value env vn2 = ofBool (connective opc2 (g.value env p' == 1#64) (g.value env q' == 1#64)))
    (hr₁ : g.Correct env p p' r₁) (hr₂ : g.Correct env q q' r₂) (hne₁ : r₁ ≠ .uncorrelated) (hne₂ : r₂ ≠ .uncorrelated) :
    g.Correct env vn1 vn2 (BooleanMatch.combine opc1 opc2 r₁ r₂) := by
  rw [correct_iff hv₁ hv₂]
  rw [correct_iff (value_eq_ofBool hp env) (value_eq_ofBool hp' env)] at hr₁
  rw [correct_iff (value_eq_ofBool hq env) (value_eq_ofBool hq' env)] at hr₂
  exact combine_related h₁ hops hr₁ hr₂ hne₁ hne₂

theorem connective_comm (opc : OpCode) (p q : Bool) : connective opc p q = connective opc q p := by
  cases opc <;> simp only [connective]
  · exact Bool.xor_comm p q
  · exact Bool.and_comm p q
  · exact Bool.or_comm p q

theorem matchLogical_answers {p : Prop} (h₁ : BooleanMatch.isLogical opc1 = true) (ha : g.boolean a) (hb : g.boolean b)
    (hc : g.boolean c) (hd : g.boolean d)
    (hv₁ : ∀ env, g.value env vn1 = ofBool (connective opc1 (g.value env a == 1#64) (g.value env b == 1#64)))
    (hv₂ : ∀ env, g.value env vn2 = ofBool (connective opc2 (g.value env c == 1#64) (g.value env d == 1#64)))
    (hanswer : opc1 = opc2 ∨ opc1 = .boolAnd ∧ opc2 = .boolOr ∨ opc1 = .boolOr ∧ opc2 = .boolAnd →
      g.Answers p a c (answer a c) ∧ g.Answers p a d (answer a d) ∧ g.Answers p b c (answer b c) ∧ g.Answers p b d (answer b d)) :
    g.Answers p vn1 vn2 (BooleanMatch.matchLogical answer ⟨opc1, [a, b]⟩ ⟨opc2, [c, d]⟩) := by
  rw [BooleanMatch.matchLogical]
  split
  · next hcond =>
      rw [Bool.and_eq_true, decide_eq_true_iff] at hcond
      obtain ⟨⟨rac, hac, hcac⟩, ⟨rad, had, hcad⟩, ⟨rbc, hbc, hcbc⟩, ⟨rbd, hbd, hcbd⟩⟩ := hanswer hcond.2
      simp only [List.getElem?_cons_zero, List.getElem?_cons_succ, Option.bind_eq_bind, Option.bind_some, hac, had, hbc, hbd]
      split
      · split
        · exact answers_uncorrelated
        · next hne₁ =>
            split
            · exact answers_uncorrelated
            · next hne₂ =>
                refine ⟨_, rfl, fun hp env => ?_⟩
                have hv₂' := hv₂ env
                rw [connective_comm] at hv₂'
                exact combine_correct h₁ hcond.2 ha hb hd hc (hv₁ env) hv₂' (hcad hp env) (hcbc hp env) hne₁ hne₂
      · next hne₁ =>
          split
          · exact answers_uncorrelated
          · next hne₂ =>
              exact ⟨_, rfl, fun hp env =>
                combine_correct h₁ hcond.2 ha hb hc hd (hv₁ env) (hv₂ env) (hcac hp env) (hcbd hp env) hne₁ hne₂⟩
  · exact answers_uncorrelated

end Logical

section Comparison

variable {opc opc1 opc2 : OpCode} {a b c d u w : VarnodeId}

theorem varnodeSame_cases (h : BooleanMatch.varnodeSame g.toFuncdata u w = true) :
    u = w ∨ (g.vn u).isConstant = true ∧ (g.vn w).isConstant = true ∧ (g.vn u).offset = (g.vn w).offset := by
  rw [BooleanMatch.varnodeSame] at h
  split at h
  · next heq => exact .inl heq
  · split at h
    · next hconst =>
        rw [Bool.and_eq_true] at hconst
        exact .inr ⟨hconst.1, hconst.2, by simpa using h⟩
    · cases h

theorem varnodeSame_value (h : BooleanMatch.varnodeSame g.toFuncdata u w = true) : g.value env u = g.value env w := by
  rcases varnodeSame_cases h with rfl | ⟨hu, hw, hoff⟩
  · rfl
  · rw [value_of_constant hu, value_of_constant hw, hoff]

theorem holds_size {n m : Nat} (h : sizeSensitive opc = false) : Holds n opc = Holds m opc := by
  funext x y
  cases opc <;> simp [sizeSensitive] at h <;> rfl

/-- Operands that are pairwise the same have the same size, unless all of them are
constants. -/
theorem size_eq_of_same {m : Nat} (hab : (g.vn a).size = (g.vn b).size) (hcd : (g.vn c).size = (g.vn d).size)
    (hac : BooleanMatch.varnodeSame g.toFuncdata a c = true) (hbd : BooleanMatch.varnodeSame g.toFuncdata b d = true)
    (hconst : (g.vn a).isConstant = true → (g.vn b).isConstant = true → (g.vn c).isConstant = true →
      (g.vn d).isConstant = true → (g.vn a).size = (g.vn c).size) (hm : m = (g.vn c).size) : (g.vn a).size = m := by
  subst hm
  rcases varnodeSame_cases hac with rfl | ⟨ha, hc, -⟩
  · rfl
  · rcases varnodeSame_cases hbd with rfl | ⟨hb, hd, -⟩
    · rw [hab, hcd]
    · exact hconst ha hb hc hd

/-- The sizes that a comparison of constants needs. -/
def PairSized (g : Dataflow) (opc : OpCode) (a b c d : VarnodeId) : Prop :=
  sizeSensitive opc = true → (g.vn a).isConstant = true → (g.vn b).isConstant = true → (g.vn c).isConstant = true →
    (g.vn d).isConstant = true → (g.vn a).size = (g.vn c).size

theorem holds_eq_of_same (hab : (g.vn a).size = (g.vn b).size) (hcd : (g.vn c).size = (g.vn d).size)
    (hac : BooleanMatch.varnodeSame g.toFuncdata a c = true) (hbd : BooleanMatch.varnodeSame g.toFuncdata b d = true)
    (hsized : PairSized g opc a b c d) (env : Assignment g) :
    Holds (g.vn a).size opc (g.value env a).toNat (g.value env b).toNat =
      Holds (g.vn c).size opc (g.value env c).toNat (g.value env d).toNat := by
  rw [varnodeSame_value hac, varnodeSame_value hbd]
  cases hs : sizeSensitive opc with
  | false => rw [holds_size hs]
  | true => rw [size_eq_of_same hab hcd hac hbd (hsized hs) rfl]

theorem holds_flip {n x y : Nat} {reorder : Bool} (hopc : opc2 ∈ comparisonOps)
    (hflip : getBooleanflip opc2 = some (opc1, reorder)) :
    Holds n opc1 x y = !(if reorder then Holds n opc2 y x else Holds n opc2 x y) := by
  simp only [comparisonOps, List.mem_cons, List.not_mem_nil, or_false] at hopc
  rcases hopc with rfl | rfl | rfl | rfl | rfl | rfl | rfl
  · cases hflip
    simp [Holds]
  · cases hflip
    simp [Holds]
  · cases hflip
    simp only [Holds, if_true]
    rw [← decide_not, decide_eq_decide]
    omega
  · cases hflip
    simp only [Holds, if_true]
    rw [← decide_not, decide_eq_decide]
    omega
  · cases hflip
    simp only [Holds, if_true]
    rw [← decide_not, decide_eq_decide]
    omega
  · cases hflip
    simp only [Holds, if_true]
    rw [← decide_not, decide_eq_decide]
    omega
  · cases hflip

theorem signbitNegative_iff {n : Nat} (h : ByteSize n) {x : Word} (hx : x.toNat < 2 ^ (8 * n)) :
    signbitNegative x n = decide (minSigned n ≤ x.toNat) := by
  have hw : x = (BitVec.ofNat (8 * n) x.toNat).setWidth 64 := by
    rw [← ofNat_widen h hx, BitVec.ofNat_toNat, BitVec.setWidth_eq]
  have hmod : (BitVec.ofNat (8 * n) x.toNat).toNat = x.toNat := by
    rw [BitVec.toNat_ofNat, Nat.mod_eq_of_lt hx]
  rw [hw, signbitNegative_eq h, BitVec.msb_eq_decide, hmod, ← hw, minSigned]

/-- A value is below the next constant exactly when the constant is not below it. -/
theorem holds_next {n : Nat} (h : ByteSize n) {lo hi x : Word} (hlo : lo.toNat < 2 ^ (8 * n)) (hhi : hi.toNat < 2 ^ (8 * n))
    (hopc : opc = .intSless ∨ opc = .intLess) (hnext : lo + 1 = hi) (hless : ¬ (hi = 0#64 ∧ opc = .intLess))
    (hsless : opc = .intSless → (signbitNegative hi n && !signbitNegative lo n) = false) :
    Holds n opc x.toNat hi.toNat = !Holds n opc lo.toNat x.toNat := by
  have hval : hi.toNat = if lo.toNat = 2 ^ 64 - 1 then 0 else lo.toNat + 1 := by
    have hlt := lo.isLt
    rw [← hnext, BitVec.toNat_add]
    split
    · next heq =>
        rw [heq]
        rfl
    · rw [show (1 : Word).toNat = 1 from rfl, Nat.mod_eq_of_lt (by omega)]
  rcases hopc with rfl | rfl
  · have hsless := hsless rfl
    rw [signbitNegative_iff h hhi, signbitNegative_iff h hlo] at hsless
    have htwo := two_minSigned h
    have hpos := minSigned_pos n
    have hcast : ((2 : Int) ^ (8 * n)) = minSigned n + minSigned n := by exact_mod_cast htwo
    have hle : 2 ^ (8 * n) ≤ 2 ^ 64 := Nat.pow_le_pow_right (by decide) h.width_le
    have hsucc : signedOf n hi.toNat = signedOf n lo.toNat + 1 := by
      simp only [Bool.and_eq_false_iff, decide_eq_false_iff_not, Bool.not_eq_false', decide_eq_true_eq] at hsless
      simp only [signedOf, hcast]
      split at hval <;> split_ifs <;> omega
    simp only [Holds, hsucc]
    rw [← decide_not, decide_eq_decide]
    omega
  · have hne : hi.toNat ≠ 0 := by
      intro h0
      exact hless ⟨BitVec.eq_of_toNat_eq h0, rfl⟩
    simp only [Holds]
    rw [← decide_not, decide_eq_decide]
    split at hval <;> omega

/-- The constants that make one strict comparison the opposite of the other. -/
structure NextConstants (g : Dataflow) (opc : OpCode) (n : Nat) (lo hi : VarnodeId) : Prop where
  code : opc = .intSless ∨ opc = .intLess
  low : (g.vn lo).isConstant = true
  high : (g.vn hi).isConstant = true
  next : (g.vn lo).offset + 1 = (g.vn hi).offset
  nowrap : ¬ ((g.vn hi).offset = 0#64 ∧ opc = .intLess)
  signed : opc = .intSless → (signbitNegative (g.vn hi).offset n && !signbitNegative (g.vn lo).offset n) = false

theorem sameOpComplement_spec (g : Dataflow) (opc1 opc2 : OpCode) (a b c d : VarnodeId) :
    ∃ r, BooleanMatch.sameOpComplement g.toFuncdata ⟨opc1, [a, b]⟩ ⟨opc2, [c, d]⟩ = some r ∧
      (r = true →
        g.NextConstants opc1 (g.vn b).size c b ∧ BooleanMatch.varnodeSame g.toFuncdata a d = true ∨
          g.NextConstants opc1 (g.vn a).size a d ∧ BooleanMatch.varnodeSame g.toFuncdata b c = true) := by
  rw [BooleanMatch.sameOpComplement]
  by_cases hcode : opc1 = .intSless ∨ opc1 = .intLess
  · cases hb : (g.vn b).isConstant with
    | true =>
        simp only [hcode, hb, if_true, List.getElem?_cons_zero, List.getElem?_cons_succ, Option.bind_eq_bind,
          Option.bind_some, Bool.not_true, Bool.false_eq_true, if_false, Nat.sub_self, ne_eq, one_ne_zero, not_false_eq_true]
        split_ifs with hc hsame hnext hzero hsless hsign
        all_goals refine ⟨_, rfl, fun hr => ?_⟩
        all_goals cases hr
        · exact .inl ⟨⟨hcode, by simpa using hc, hb, by simpa using hnext, hzero, fun _ => by simpa using hsign⟩,
            by simpa using hsame⟩
        · exact .inl ⟨⟨hcode, by simpa using hc, hb, by simpa using hnext, hzero, fun h => absurd h hsless⟩,
            by simpa using hsame⟩
    | false =>
        simp only [hcode, hb, if_true, List.getElem?_cons_zero, List.getElem?_cons_succ, Option.bind_eq_bind,
          Option.bind_some, Bool.false_eq_true, if_false, Nat.sub_zero, ne_eq, not_true_eq_false]
        split_ifs with ha hd hsame hnext hzero hsless hsign
        all_goals refine ⟨_, rfl, fun hr => ?_⟩
        all_goals cases hr
        · exact .inr ⟨⟨hcode, by simpa using ha, by simpa using hd, by simpa using hnext, hzero, fun _ => by simpa using hsign⟩,
            by simpa using hsame⟩
        · exact .inr ⟨⟨hcode, by simpa using ha, by simpa using hd, by simpa using hnext, hzero, fun h => absurd h hsless⟩,
            by simpa using hsame⟩
  · refine ⟨false, ?_, fun h => by cases h⟩
    simp only [hcode, if_false]
    rfl

/-- Without signs the sizes make no difference. -/
theorem NextConstants.holds {n : Nat} {lo hi : VarnodeId} (h : g.NextConstants opc n lo hi)
    (hsize : opc = .intSless → (g.vn lo).size = n ∧ (g.vn hi).size = n) (env : Assignment g) (x : Word) :
    Holds n opc x.toNat (g.value env hi).toNat = !Holds n opc (g.value env lo).toNat x.toNat := by
  rw [value_of_constant h.low, value_of_constant h.high]
  rcases h.code with rfl | rfl
  · obtain ⟨hlo, hhi⟩ := hsize rfl
    have hlt := (g.constant lo h.low).2
    have hlt' := (g.constant hi h.high).2
    have hbytes := g.bytes lo
    rw [hlo] at hlt hbytes
    rw [hhi] at hlt'
    exact holds_next hbytes hlt hlt' h.code h.next h.nowrap h.signed
  · have heq : Holds n .intLess = Holds 8 .intLess := rfl
    rw [heq]
    exact holds_next ⟨by decide, by decide⟩ (BitVec.isLt _) (BitVec.isLt _) h.code h.next h.nowrap (fun h => by cases h)

theorem holds_complement (hab : (g.vn a).size = (g.vn b).size) (hcd : (g.vn c).size = (g.vn d).size)
    (hsized : PairSized g opc a b c d)
    (h : g.NextConstants opc (g.vn b).size c b ∧ BooleanMatch.varnodeSame g.toFuncdata a d = true ∨
      g.NextConstants opc (g.vn a).size a d ∧ BooleanMatch.varnodeSame g.toFuncdata b c = true) (env : Assignment g) :
    Holds (g.vn a).size opc (g.value env a).toNat (g.value env b).toNat =
      !Holds (g.vn c).size opc (g.value env c).toNat (g.value env d).toNat := by
  have hless : ∀ n m, opc ≠ .intSless → opc = .intSless ∨ opc = .intLess → Holds n opc = Holds m opc := by
    intro n m hne hcode
    rcases hcode with h | rfl
    · exact absurd h hne
    · rfl
  rcases h with ⟨hnext, hsame⟩ | ⟨hnext, hsame⟩
  · have hsize : opc = .intSless → (g.vn a).size = (g.vn c).size := by
      intro hopc
      rcases varnodeSame_cases hsame with rfl | ⟨ha, hd, -⟩
      · exact hcd.symm
      · exact hsized (by rw [hopc]; rfl) ha hnext.high hnext.low hd
    have hholds := hnext.holds (fun hopc => ⟨by rw [← hsize hopc, hab], rfl⟩) env (g.value env a)
    rw [hab, hholds, varnodeSame_value hsame]
    by_cases hopc : opc = .intSless
    · rw [← hab, hsize hopc]
    · rw [hless (g.vn b).size (g.vn c).size hopc hnext.code]
  · have hsize : opc = .intSless → (g.vn a).size = (g.vn c).size := by
      intro hopc
      rcases varnodeSame_cases hsame with rfl | ⟨hb, hc, -⟩
      · exact hab
      · exact hsized (by rw [hopc]; rfl) hnext.low hb hc hnext.high
    have hholds := hnext.holds (fun hopc => ⟨rfl, by rw [hsize hopc, hcd]⟩) env (g.value env b)
    rw [← varnodeSame_value hsame]
    by_cases hopc : opc = .intSless
    · rw [← hsize hopc, hholds, Bool.not_not]
    · rw [hless (g.vn c).size (g.vn a).size hopc hnext.code, hholds, Bool.not_not]

theorem inputsSame_pair (data : Funcdata) (a b c d : VarnodeId) :
    BooleanMatch.inputsSame data [a, b] [c, d] =
      some (BooleanMatch.varnodeSame data a c && BooleanMatch.varnodeSame data b d) := by
  simp only [BooleanMatch.inputsSame]
  cases BooleanMatch.varnodeSame data a c <;> cases BooleanMatch.varnodeSame data b d <;> rfl

theorem PairSized.swap (hcd : (g.vn c).size = (g.vn d).size) (h : PairSized g opc a b c d) : PairSized g opc a b d c := by
  intro hopc ha hb hd hc
  rw [← hcd]
  exact h hopc ha hb hc hd

theorem matchComparison_answers {p : Prop} (hopc2 : opc2 ∈ comparisonOps) (hab : (g.vn a).size = (g.vn b).size)
    (hcd : (g.vn c).size = (g.vn d).size) (hsized : p → g.Matched ⟨opc1, [a, b]⟩ ⟨opc2, [c, d]⟩ → PairSized g opc1 a b c d)
    (hv₁ : ∀ env, g.value env vn1 = ofBool (Holds (g.vn a).size opc1 (g.value env a).toNat (g.value env b).toNat))
    (hv₂ : ∀ env, g.value env vn2 = ofBool (Holds (g.vn c).size opc2 (g.value env c).toNat (g.value env d).toNat)) :
    g.Answers p vn1 vn2 (BooleanMatch.matchComparison g.toFuncdata ⟨opc1, [a, b]⟩ ⟨opc2, [c, d]⟩) := by
  rw [BooleanMatch.matchComparison]
  by_cases hcode : opc1 = opc2
  · subst hcode
    obtain ⟨r, hr, hcompl⟩ := sameOpComplement_spec g opc1 opc1 a b c d
    simp only [if_true, inputsSame_pair, hr, Option.bind_eq_bind, Option.bind_some]
    split_ifs with hsame hrtrue
    · have hmatched : g.Matched ⟨opc1, [a, b]⟩ ⟨opc1, [c, d]⟩ := .inl ⟨rfl, by rw [inputsSame_pair, hsame]⟩
      rw [Bool.and_eq_true] at hsame
      refine ⟨_, rfl, fun hp env => ?_⟩
      rw [correct_iff (hv₁ env) (hv₂ env)]
      exact holds_eq_of_same hab hcd hsame.1 hsame.2 (hsized hp hmatched) env
    · have hmatched : g.Matched ⟨opc1, [a, b]⟩ ⟨opc1, [c, d]⟩ := .inr (.inl ⟨rfl, by rw [hr, hrtrue]⟩)
      refine ⟨_, rfl, fun hp env => ?_⟩
      rw [correct_iff (hv₁ env) (hv₂ env)]
      exact holds_complement hab hcd (hsized hp hmatched) (hcompl hrtrue) env
    · exact answers_uncorrelated
  · simp only [hcode, if_false]
    cases hflip : getBooleanflip opc2 with
    | none => exact answers_uncorrelated
    | some p =>
        obtain ⟨flipped, reorder⟩ := p
        by_cases hflipped : opc1 = flipped
        · subst hflipped
          cases reorder with
          | false =>
              simp only [ne_eq, not_true_eq_false, if_false, Bool.false_eq_true, List.getElem?_cons_zero,
                List.getElem?_cons_succ, Nat.sub_zero, Option.bind_eq_bind, Option.bind_some]
              split_ifs with hac hbd
              · exact answers_uncorrelated
              · exact answers_uncorrelated
              · refine ⟨_, rfl, fun hp env => ?_⟩
                rw [Bool.not_eq_true, Bool.not_eq_false'] at hac hbd
                rw [correct_iff (hv₁ env) (hv₂ env)]
                have hmatched : g.Matched ⟨opc1, [a, b]⟩ ⟨opc2, [c, d]⟩ :=
                  .inr (.inr (.inl ⟨hflip, by rw [inputsSame_pair, hac, hbd]; rfl⟩))
                have hsame := holds_eq_of_same hab hcd hac hbd (hsized hp hmatched) env
                have hflip := holds_flip (n := (g.vn c).size) (x := (g.value env c).toNat)
                  (y := (g.value env d).toNat) hopc2 hflip
                rw [hflip] at hsame
                exact hsame
          | true =>
              simp only [ne_eq, not_true_eq_false, if_false, if_true, List.getElem?_cons_zero,
                List.getElem?_cons_succ, Nat.sub_self, Option.bind_eq_bind, Option.bind_some]
              split_ifs with had hbc
              · exact answers_uncorrelated
              · exact answers_uncorrelated
              · refine ⟨_, rfl, fun hp env => ?_⟩
                rw [Bool.not_eq_true, Bool.not_eq_false'] at had hbc
                rw [correct_iff (hv₁ env) (hv₂ env)]
                have hmatched : g.Matched ⟨opc1, [a, b]⟩ ⟨opc2, [c, d]⟩ :=
                  .inr (.inr (.inr ⟨hflip, (inputsSame_pair _ a b d c).trans (by rw [had, hbc]; rfl)⟩))
                have hsame := holds_eq_of_same hab hcd.symm had hbc ((hsized hp hmatched).swap hcd) env
                have hflip := holds_flip (n := (g.vn d).size) (x := (g.value env d).toNat)
                  (y := (g.value env c).toNat) hopc2 hflip
                rw [hflip, ← hcd] at hsame
                exact hsame
        · simp only [hflipped, ne_eq, not_false_eq_true, if_true]
          exact answers_uncorrelated

/-- Different operations that are not each other's opposite. -/
theorem matchComparison_apart {first second : Op} (hcode : first.code ≠ second.code)
    (hflip : ∀ reorder, getBooleanflip second.code ≠ some (first.code, reorder)) :
    BooleanMatch.matchComparison g.toFuncdata first second = some .uncorrelated := by
  rw [BooleanMatch.matchComparison]
  simp only [hcode, if_false]
  cases hf : getBooleanflip second.code with
  | none => rfl
  | some p =>
      obtain ⟨flipped, reorder⟩ := p
      by_cases heq : first.code = flipped
      · exact absurd (heq ▸ hf) (hflip reorder)
      · simp only [heq, ne_eq, not_false_eq_true, if_true]
        rfl

theorem getBooleanflip_logical (h : BooleanMatch.isLogical opc = true) : getBooleanflip opc = none := by
  rw [BooleanMatch.isLogical, decide_eq_true_iff] at h
  rcases h with rfl | rfl | rfl <;> rfl

theorem getBooleanflip_comparison {reorder : Bool} (hopc : opc2 ∈ comparisonOps)
    (hflip : getBooleanflip opc2 = some (opc1, reorder)) : opc1 ∈ comparisonOps := by
  simp only [comparisonOps, List.mem_cons, List.not_mem_nil, or_false] at hopc
  rcases hopc with rfl | rfl | rfl | rfl | rfl | rfl | rfl <;> cases hflip <;> decide

theorem not_logical_of_comparison (h : opc ∈ comparisonOps) : BooleanMatch.isLogical opc = false := by
  simp only [comparisonOps, List.mem_cons, List.not_mem_nil, or_false] at h
  rcases h with rfl | rfl | rfl | rfl | rfl | rfl | rfl <;> rfl

theorem comparison_ne_logical (h₁ : opc1 ∈ comparisonOps) (h₂ : BooleanMatch.isLogical opc2 = true) : opc1 ≠ opc2 := by
  rintro rfl
  rw [not_logical_of_comparison h₁] at h₂
  cases h₂

theorem matchComparison_logical {p : Prop} (h₁ : BooleanMatch.isLogical opc1 = true) (h₂ : BooleanMatch.isLogical opc2 = true)
    (hv₁ : ∀ env, g.value env vn1 = ofBool (connective opc1 (g.value env a == 1#64) (g.value env b == 1#64)))
    (hv₂ : ∀ env, g.value env vn2 = ofBool (connective opc2 (g.value env c == 1#64) (g.value env d == 1#64))) :
    g.Answers p vn1 vn2 (BooleanMatch.matchComparison g.toFuncdata ⟨opc1, [a, b]⟩ ⟨opc2, [c, d]⟩) := by
  by_cases hcode : opc1 = opc2
  · subst hcode
    have hcompl : BooleanMatch.sameOpComplement g.toFuncdata ⟨opc1, [a, b]⟩ ⟨opc1, [c, d]⟩ = some false := by
      rw [BooleanMatch.isLogical, decide_eq_true_iff] at h₁
      rcases h₁ with rfl | rfl | rfl <;> rfl
    rw [BooleanMatch.matchComparison]
    simp only [if_true, inputsSame_pair, hcompl, Option.bind_eq_bind, Option.bind_some, Bool.false_eq_true, if_false]
    split_ifs with hsame
    · rw [Bool.and_eq_true] at hsame
      refine ⟨_, rfl, fun _ env => ?_⟩
      rw [Correct, hv₁ env, hv₂ env, varnodeSame_value hsame.1, varnodeSame_value hsame.2]
    · exact answers_uncorrelated
  · rw [matchComparison_apart hcode (fun reorder => by rw [getBooleanflip_logical h₂]; simp)]
    exact answers_uncorrelated

theorem matchLogical_apart {answer : VarnodeId → VarnodeId → Option Correlation} {first second : Op}
    (h : BooleanMatch.isLogical second.code = false) :
    BooleanMatch.matchLogical answer first second = some .uncorrelated := by
  rw [BooleanMatch.matchLogical]
  simp only [h, Bool.false_and, Bool.false_eq_true, if_false]
  rfl

end Comparison

end Dataflow

end GhidraDecompiler.Expression
