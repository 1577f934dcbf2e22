import GhidraDecompiler.Expression.Correlation

namespace GhidraDecompiler.Expression

open Pcode

namespace Dataflow

/-- The logical operations whose inputs are matched with each other. -/
def Pairable (opc1 opc2 : OpCode) : Prop :=
  BooleanMatch.isLogical opc1 = true ∧ BooleanMatch.isLogical opc2 = true ∧
    (opc1 = opc2 ∨ opc1 = .boolAnd ∧ opc2 = .boolOr ∨ opc1 = .boolOr ∧ opc2 = .boolAnd)

/-- The pairs of ops that the walk from two varnodes can get to. -/
inductive Compared (g : Dataflow) : Int → VarnodeId → VarnodeId → OpId → OpId → Prop
  | here {depth : Int} {vn1 vn2 : VarnodeId} {o₁ o₂ : OpId} (hne : vn1 ≠ vn2) (h₁ : (g.vn vn1).getDef = some o₁)
      (h₂ : (g.vn vn2).getDef = some o₂) : Compared g depth vn1 vn2 o₁ o₂
  | negateLeft {depth : Int} {vn1 vn2 u : VarnodeId} {o o₁ o₂ : OpId} (hne : vn1 ≠ vn2) (h : (g.vn vn1).getDef = some o)
      (hop : g.op o = ⟨.boolNegate, [u]⟩) (hcompared : Compared g depth u vn2 o₁ o₂) : Compared g depth vn1 vn2 o₁ o₂
  | negateRight {depth : Int} {vn1 vn2 u : VarnodeId} {o o₁ o₂ : OpId} (hne : vn1 ≠ vn2) (h : (g.vn vn2).getDef = some o)
      (hop : g.op o = ⟨.boolNegate, [u]⟩) (hcompared : Compared g depth vn1 u o₁ o₂) : Compared g depth vn1 vn2 o₁ o₂
  | inputs {depth : Int} {vn1 vn2 u w : VarnodeId} {o o' o₁ o₂ : OpId} (hne : vn1 ≠ vn2) (hdepth : depth ≠ 0)
      (h₁ : (g.vn vn1).getDef = some o) (h₂ : (g.vn vn2).getDef = some o') (hpair : Pairable (g.op o).code (g.op o').code)
      (hu : u ∈ (g.op o).inrefs) (hw : w ∈ (g.op o').inrefs) (hcompared : Compared g (depth - 1) u w o₁ o₂) :
      Compared g depth vn1 vn2 o₁ o₂

def AllConstant (g : Dataflow) (o : Op) : Prop := ∀ u ∈ o.inrefs, (g.vn u).isConstant = true

/-- Comparisons of constants are not matched with those of another size, where that
makes a difference. -/
def ConstantsSized (g : Dataflow) (depth : Int) (vn1 vn2 : VarnodeId) : Prop :=
  ∀ o₁ o₂, g.Compared depth vn1 vn2 o₁ o₂ → sizeSensitive (g.op o₁).code = true → g.AllConstant (g.op o₁) →
    g.AllConstant (g.op o₂) → g.Matched (g.op o₁) (g.op o₂) →
      (g.op o₁).inrefs.map (fun u => (g.vn u).size) = (g.op o₂).inrefs.map (fun u => (g.vn u).size)

variable {g : Dataflow} {env : Assignment g} {vn1 vn2 : VarnodeId}

section Evaluate

variable {o o₁ o₂ : OpId} {opc : OpCode} {a b u v : VarnodeId}

theorem value_comparison (hdef : (g.vn v).getDef = some o) (hop : g.op o = ⟨opc, [a, b]⟩) (hopc : opc ∈ comparisonOps)
    (hsize : (g.vn a).size = (g.vn b).size) (env : Assignment g) :
    g.value env v = ofBool (Holds (g.vn a).size opc (g.value env a).toNat (g.value env b).toNat) := by
  rw [value_of_def hdef, hop, emulate_comparison hopc _ hsize (value_lt a) (value_lt b)]

theorem value_logical (hdef : (g.vn v).getDef = some o) (hop : g.op o = ⟨opc, [a, b]⟩)
    (hopc : BooleanMatch.isLogical opc = true) (ha : g.boolean a) (hb : g.boolean b) (env : Assignment g) :
    g.value env v = ofBool (connective opc (g.value env a == 1#64) (g.value env b == 1#64)) := by
  rw [value_of_def hdef, hop, emulate_logical hopc _ (value_eq_ofBool ha env) (value_eq_ofBool hb env)]

theorem value_negate (hdef : (g.vn v).getDef = some o) (hop : g.op o = ⟨.boolNegate, [a]⟩) (env : Assignment g) :
    g.value env v = g.value env a ^^^ 1 := by
  rw [value_of_def hdef, hop, emulate_negate]

theorem ConstantsSized.left {depth : Int} (h : g.ConstantsSized depth vn1 vn2) (hne : vn1 ≠ vn2)
    (hdef : (g.vn vn1).getDef = some o) (hop : g.op o = ⟨.boolNegate, [u]⟩) : g.ConstantsSized depth u vn2 :=
  fun o₁ o₂ hcompared => h o₁ o₂ (.negateLeft hne hdef hop hcompared)

theorem ConstantsSized.right {depth : Int} (h : g.ConstantsSized depth vn1 vn2) (hne : vn1 ≠ vn2)
    (hdef : (g.vn vn2).getDef = some o) (hop : g.op o = ⟨.boolNegate, [u]⟩) : g.ConstantsSized depth vn1 u :=
  fun o₁ o₂ hcompared => h o₁ o₂ (.negateRight hne hdef hop hcompared)

theorem ConstantsSized.inputs {depth : Int} {w : VarnodeId} (h : g.ConstantsSized depth vn1 vn2) (hne : vn1 ≠ vn2)
    (hdepth : depth ≠ 0) (h₁ : (g.vn vn1).getDef = some o₁) (h₂ : (g.vn vn2).getDef = some o₂)
    (hpair : Pairable (g.op o₁).code (g.op o₂).code) (hu : u ∈ (g.op o₁).inrefs) (hw : w ∈ (g.op o₂).inrefs) :
    g.ConstantsSized (depth - 1) u w :=
  fun o₁ o₂ hcompared => h o₁ o₂ (.inputs hne hdepth h₁ h₂ hpair hu hw hcompared)

theorem ConstantsSized.pair {depth : Int} {opc1 opc2 : OpCode} {c d : VarnodeId} (h : g.ConstantsSized depth vn1 vn2)
    (hne : vn1 ≠ vn2) (hdef₁ : (g.vn vn1).getDef = some o₁) (hdef₂ : (g.vn vn2).getDef = some o₂)
    (hop₁ : g.op o₁ = ⟨opc1, [a, b]⟩) (hop₂ : g.op o₂ = ⟨opc2, [c, d]⟩) (hmatched : g.Matched ⟨opc1, [a, b]⟩ ⟨opc2, [c, d]⟩) :
    PairSized g opc1 a b c d := by
  intro hopc ha hb hc hd
  have hall : ∀ {x y : VarnodeId} {op : OpCode}, (g.vn x).isConstant = true → (g.vn y).isConstant = true →
      g.AllConstant ⟨op, [x, y]⟩ := by
    intro x y op hx hy z hz
    simp only [List.mem_cons, List.not_mem_nil, or_false] at hz
    rcases hz with rfl | rfl
    · exact hx
    · exact hy
  have hsizes := h o₁ o₂ (.here hne hdef₁ hdef₂) (by rw [hop₁]; exact hopc) (by rw [hop₁]; exact hall ha hb)
    (by rw [hop₂]; exact hall hc hd) (by rw [hop₁, hop₂]; exact hmatched)
  rw [hop₁, hop₂] at hsizes
  exact (List.cons_eq_cons.mp hsizes).1

/-- Two ops that are no negations, with the answers for their inputs. -/
theorem ops_answers {p : Prop} {answer : VarnodeId → VarnodeId → Option Correlation} {depth : Int}
    (hsized : p → g.ConstantsSized depth vn1 vn2) (hne : vn1 ≠ vn2) (hdef₁ : (g.vn vn1).getDef = some o₁) (hdef₂ : (g.vn vn2).getDef = some o₂)
    (hneg₁ : (g.op o₁).code ≠ .boolNegate) (hneg₂ : (g.op o₂).code ≠ .boolNegate)
    (hanswer : depth ≠ 0 → Pairable (g.op o₁).code (g.op o₂).code → ∀ u ∈ (g.op o₁).inrefs, ∀ w ∈ (g.op o₂).inrefs,
      g.boolean u → g.boolean w → g.Answers p u w (answer u w)) :
    g.Answers p vn1 vn2 (if depth ≠ 0 ∧ BooleanMatch.isLogical (g.op o₁).code then
      BooleanMatch.matchLogical answer (g.op o₁) (g.op o₂)
    else BooleanMatch.matchComparison g.toFuncdata (g.op o₁) (g.op o₂)) := by
  have hlegal₁ := g.legal vn1 o₁ hdef₁
  have hlegal₂ := g.legal vn2 o₂ hdef₂
  generalize hop₁ : g.op o₁ = first at *
  generalize hop₂ : g.op o₂ = second at *
  cases hlegal₁ with
  | negate a ha => exact absurd rfl hneg₁
  | comparison hopc₁ a b hab =>
      rw [if_neg (by rw [not_logical_of_comparison hopc₁]; simp)]
      cases hlegal₂ with
      | negate c hc => exact absurd rfl hneg₂
      | comparison hopc₂ c d hcd =>
          exact matchComparison_answers hopc₂ hab hcd (fun hp => (hsized hp).pair hne hdef₁ hdef₂ hop₁ hop₂)
            (value_comparison hdef₁ hop₁ hopc₁ hab) (value_comparison hdef₂ hop₂ hopc₂ hcd)
      | logical hopc₂ c d hc hd =>
          rw [matchComparison_apart (comparison_ne_logical hopc₁ hopc₂)
            (fun reorder => by rw [getBooleanflip_logical hopc₂]; simp)]
          exact answers_uncorrelated
  | logical hopc₁ a b ha hb =>
      cases hlegal₂ with
      | negate c hc => exact absurd rfl hneg₂
      | comparison hopc₂ c d hcd =>
          split
          · rw [matchLogical_apart (not_logical_of_comparison hopc₂)]
            exact answers_uncorrelated
          · rw [matchComparison_apart (comparison_ne_logical hopc₂ hopc₁).symm
              (fun reorder h => comparison_ne_logical (getBooleanflip_comparison hopc₂ h) hopc₁ rfl)]
            exact answers_uncorrelated
      | logical hopc₂ c d hc hd =>
          have hv₁ := value_logical hdef₁ hop₁ hopc₁ ha hb
          have hv₂ := value_logical hdef₂ hop₂ hopc₂ hc hd
          split
          · next hdepth =>
              apply matchLogical_answers hopc₁ ha hb hc hd hv₁ hv₂
              intro hpair
              have hanswer := hanswer hdepth.1 ⟨hopc₁, hopc₂, hpair⟩
              exact ⟨hanswer a (by simp) c (by simp) ha hc, hanswer a (by simp) d (by simp) ha hd,
                hanswer b (by simp) c (by simp) hb hc, hanswer b (by simp) d (by simp) hb hd⟩
          · exact matchComparison_logical hopc₁ hopc₂ hv₁ hv₂

section Equations

variable {data : Funcdata} {fuel : Nat} {depth : Int}

theorem evaluate_negate_left (hne : vn1 ≠ vn2) (hdef : (data.vn vn1).getDef = some o) (hop : data.op o = ⟨.boolNegate, [u]⟩) :
    BooleanMatch.evaluate data (fuel + 1) vn1 vn2 depth =
      (BooleanMatch.evaluate data fuel u vn2 depth).map BooleanMatch.flipResult := by
  rw [BooleanMatch.evaluate]
  simp only [hne, if_false, hdef, hop, Option.map_some, if_true, List.getElem?_cons_zero, Option.bind_eq_bind,
    Option.bind_some]
  exact Option.map_eq_bind.symm

theorem evaluate_negate_right (hne : vn1 ≠ vn2) (hneg : ∀ o, (data.vn vn1).getDef = some o → (data.op o).code ≠ .boolNegate)
    (hdef : (data.vn vn2).getDef = some o) (hop : data.op o = ⟨.boolNegate, [u]⟩) :
    BooleanMatch.evaluate data (fuel + 1) vn1 vn2 depth =
      (BooleanMatch.evaluate data fuel vn1 u depth).map BooleanMatch.flipResult := by
  rw [BooleanMatch.evaluate]
  cases hdef₁ : (data.vn vn1).getDef with
  | none =>
      simp only [hne, if_false, hdef, hop, Option.map_none, if_true, List.getElem?_cons_zero, Option.bind_eq_bind,
        Option.bind_some]
      exact Option.map_eq_bind.symm
  | some o₁ =>
      simp only [hne, if_false, hdef, hop, Option.map_some, hneg o₁ hdef₁, if_true, List.getElem?_cons_zero,
        Option.bind_eq_bind, Option.bind_some]
      exact Option.map_eq_bind.symm

theorem evaluate_unwritten (hne : vn1 ≠ vn2) (hneg : ∀ o, (data.vn vn1).getDef = some o → (data.op o).code ≠ .boolNegate)
    (hneg₂ : ∀ o, (data.vn vn2).getDef = some o → (data.op o).code ≠ .boolNegate)
    (h : (data.vn vn1).getDef = none ∨ (data.vn vn2).getDef = none) :
    BooleanMatch.evaluate data (fuel + 1) vn1 vn2 depth = some .uncorrelated := by
  rw [BooleanMatch.evaluate]
  cases hdef₁ : (data.vn vn1).getDef with
  | none =>
      cases hdef₂ : (data.vn vn2).getDef with
      | none => simp [hne]
      | some o₂ => simp [hne, hneg₂ o₂ hdef₂]
  | some o₁ =>
      rcases h with h | h
      · rw [hdef₁] at h
        cases h
      · simp [hne, hneg o₁ hdef₁, h]

theorem evaluate_ops (hne : vn1 ≠ vn2) (hdef₁ : (data.vn vn1).getDef = some o₁) (hdef₂ : (data.vn vn2).getDef = some o₂)
    (hneg₁ : (data.op o₁).code ≠ .boolNegate) (hneg₂ : (data.op o₂).code ≠ .boolNegate)
    (hbool₁ : isBoolOutput (data.op o₁).code = true) (hbool₂ : isBoolOutput (data.op o₂).code = true) :
    BooleanMatch.evaluate data (fuel + 1) vn1 vn2 depth =
      if depth ≠ 0 ∧ BooleanMatch.isLogical (data.op o₁).code then
        BooleanMatch.matchLogical (fun a b => BooleanMatch.evaluate data fuel a b (depth - 1)) (data.op o₁) (data.op o₂)
      else BooleanMatch.matchComparison data (data.op o₁) (data.op o₂) := by
  rw [BooleanMatch.evaluate]
  simp only [hne, if_false, hdef₁, hdef₂, Option.map_some, hneg₁, hneg₂, hbool₁, hbool₂, Bool.not_true, Bool.or_self,
    Bool.false_eq_true]

end Equations

theorem Answers.flip_left {p : Prop} {res : Option Correlation} (h : g.Answers p u vn2 res)
    (hval : ∀ env, g.value env vn1 = g.value env u ^^^ 1) : g.Answers p vn1 vn2 (res.map BooleanMatch.flipResult) := by
  obtain ⟨r, rfl, hr⟩ := h
  exact ⟨_, rfl, fun hp env => (hr hp env).flip_left (hval env)⟩

theorem Answers.flip_right {p : Prop} {res : Option Correlation} (h : g.Answers p vn1 u res)
    (hval : ∀ env, g.value env vn2 = g.value env u ^^^ 1) : g.Answers p vn1 vn2 (res.map BooleanMatch.flipResult) := by
  obtain ⟨r, rfl, hr⟩ := h
  exact ⟨_, rfl, fun hp env => (hr hp env).flip_right (hval env)⟩

theorem isBoolOutput_of_legal {op : Op} (h : LegalOp g.toFuncdata g.boolean op) : isBoolOutput op.code = true := by
  cases h with
  | comparison hopc a b hsize =>
      simp only [comparisonOps, List.mem_cons, List.not_mem_nil, or_false] at hopc
      rcases hopc with rfl | rfl | rfl | rfl | rfl | rfl | rfl <;> rfl
  | logical hopc a b ha hb =>
      rw [BooleanMatch.isLogical, decide_eq_true_iff] at hopc
      rcases hopc with rfl | rfl | rfl <;> rfl
  | negate a ha => rfl

theorem negate_input (hdef : (g.vn v).getDef = some o) (hneg : (g.op o).code = .boolNegate) :
    ∃ u, g.op o = ⟨.boolNegate, [u]⟩ ∧ g.boolean u ∧ g.rank u < g.rank v := by
  have hlegal := g.legal v o hdef
  have hacyclic := g.acyclic v o
  generalize g.op o = op at *
  cases hlegal with
  | comparison hopc a b hsize =>
      have hneg : _ = OpCode.boolNegate := hneg
      subst hneg
      exact absurd hopc (by decide)
  | logical hopc a b ha hb =>
      have hneg : _ = OpCode.boolNegate := hneg
      subst hneg
      cases hopc
  | negate a ha => exact ⟨a, rfl, ha, hacyclic a hdef (by simp)⟩

/-- The induction is on the fuel: every call goes to an input, on one side or on
both. -/
theorem evaluate_answers (fuel : Nat) (depth : Int) (h₁ : g.boolean vn1) (h₂ : g.boolean vn2)
    (hfuel : g.rank vn1 + g.rank vn2 < fuel) :
    g.Answers (g.ConstantsSized depth vn1 vn2) vn1 vn2
      (BooleanMatch.evaluate g.toFuncdata fuel vn1 vn2 depth) := by
  induction fuel generalizing vn1 vn2 depth with
  | zero => omega
  | succ fuel ih =>
      by_cases hne : vn1 = vn2
      · subst hne
        rw [BooleanMatch.evaluate, if_pos rfl]
        exact ⟨_, rfl, fun _ _ => rfl⟩
      by_cases hneg₁ : ∀ o, (g.vn vn1).getDef = some o → (g.op o).code ≠ .boolNegate
      · by_cases hneg₂ : ∀ o, (g.vn vn2).getDef = some o → (g.op o).code ≠ .boolNegate
        · cases hdef₁ : (g.vn vn1).getDef with
          | none =>
              rw [evaluate_unwritten hne hneg₁ hneg₂ (.inl hdef₁)]
              exact answers_uncorrelated
          | some o₁ =>
              cases hdef₂ : (g.vn vn2).getDef with
              | none =>
                  rw [evaluate_unwritten hne hneg₁ hneg₂ (.inr hdef₂)]
                  exact answers_uncorrelated
              | some o₂ =>
                  rw [evaluate_ops hne hdef₁ hdef₂ (hneg₁ o₁ hdef₁) (hneg₂ o₂ hdef₂)
                    (isBoolOutput_of_legal (g.legal vn1 o₁ hdef₁)) (isBoolOutput_of_legal (g.legal vn2 o₂ hdef₂))]
                  apply ops_answers id hne hdef₁ hdef₂ (hneg₁ o₁ hdef₁) (hneg₂ o₂ hdef₂)
                  intro hdepth hpair u hu w hw hbu hbw
                  have hlt₁ := g.acyclic vn1 o₁ u hdef₁ hu
                  have hlt₂ := g.acyclic vn2 o₂ w hdef₂ hw
                  exact (ih (depth - 1) hbu hbw (by omega)).mono
                    (fun hsized => hsized.inputs hne hdepth hdef₁ hdef₂ hpair hu hw)
        · push Not at hneg₂
          obtain ⟨o, hdef, hneg⟩ := hneg₂
          obtain ⟨u, hop, hu, hlt⟩ := negate_input hdef hneg
          rw [evaluate_negate_right hne hneg₁ hdef hop]
          have hanswer := (ih depth h₁ hu (by omega)).mono (fun hsized : g.ConstantsSized depth vn1 vn2 => hsized.right hne hdef hop)
          exact hanswer.flip_right (value_negate hdef hop)
      · push Not at hneg₁
        obtain ⟨o, hdef, hneg⟩ := hneg₁
        obtain ⟨u, hop, hu, hlt⟩ := negate_input hdef hneg
        rw [evaluate_negate_left hne hdef hop]
        have hanswer := (ih depth hu h₂ (by omega)).mono (fun hsized : g.ConstantsSized depth vn1 vn2 => hsized.left hne hdef hop)
        exact hanswer.flip_left (value_negate hdef hop)

end Evaluate

/-- `x < 5` and `4 < x`, signed, and the negation of the first. -/
def belowFive : Dataflow where
  vn
    | 0 => ⟨2, false, 0, none⟩
    | 1 => ⟨2, true, 5, none⟩
    | 2 => ⟨2, true, 4, none⟩
    | 3 => ⟨1, false, 0, some 0⟩
    | 4 => ⟨1, false, 0, some 1⟩
    | 5 => ⟨1, false, 0, some 2⟩
    | _ => ⟨1, false, 0, none⟩
  op
    | 0 => ⟨.intSless, [0, 1]⟩
    | 1 => ⟨.intSless, [2, 0]⟩
    | _ => ⟨.boolNegate, [3]⟩
  boolean v := v = 3 ∨ v = 4 ∨ v = 5
  rank v := if v = 5 then 2 else if v = 3 ∨ v = 4 then 1 else 0
  bytes v := by
    split <;> exact ⟨by decide, by decide⟩
  legal v o h := by
    split at h <;> cases h
    · exact .comparison (by decide) 0 1 rfl
    · exact .comparison (by decide) 2 0 rfl
    · exact .negate 3 (.inl rfl)
  output v o h := by
    split at h <;> cases h <;> decide
  constant v h := by
    split at h <;> cases h <;> decide
  truth v h := by
    rcases h with rfl | rfl | rfl <;> decide
  acyclic v o u h hu := by
    split at h <;> cases h <;> revert u <;> decide

/-- The signed comparison of 0x80 with 0, in one byte and in two bytes. -/
def signedTwice : Dataflow where
  vn
    | 0 => ⟨1, true, 0x80, none⟩
    | 1 => ⟨1, true, 0, none⟩
    | 2 => ⟨2, true, 0x80, none⟩
    | 3 => ⟨2, true, 0, none⟩
    | 4 => ⟨1, false, 0, some 0⟩
    | 5 => ⟨1, false, 0, some 1⟩
    | _ => ⟨1, false, 0, none⟩
  op
    | 0 => ⟨.intSless, [0, 1]⟩
    | _ => ⟨.intSless, [2, 3]⟩
  boolean v := v = 4 ∨ v = 5
  rank v := if v = 4 ∨ v = 5 then 1 else 0
  bytes v := by
    split <;> exact ⟨by decide, by decide⟩
  legal v o h := by
    split at h <;> cases h
    · exact .comparison (by decide) 0 1 rfl
    · exact .comparison (by decide) 2 3 rfl
  output v o h := by
    split at h <;> cases h <;> decide
  constant v h := by
    split at h <;> cases h <;> decide
  truth v h := by
    rcases h with rfl | rfl <;> decide
  acyclic v o u h hu := by
    split at h <;> cases h <;> revert u <;> decide

def noLeaves : Assignment signedTwice where
  leaf _ := 0
  within _ := Nat.two_pow_pos _
  truth _ _ := .inl rfl

end Dataflow

end GhidraDecompiler.Expression
