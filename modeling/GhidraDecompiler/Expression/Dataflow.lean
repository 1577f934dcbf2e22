import GhidraDecompiler.Expression.BooleanMatch
import GhidraDecompiler.Pcode.NzMaskSound

namespace GhidraDecompiler.Expression

open Pcode BitWords

/-- The inputs that a comparison or a boolean operation may have. -/
inductive LegalOp (data : Funcdata) (boolean : VarnodeId → Prop) : Op → Prop
  | comparison {opc : OpCode} (hopc : opc ∈ comparisonOps) (a b : VarnodeId) (h : (data.vn a).size = (data.vn b).size) :
      LegalOp data boolean ⟨opc, [a, b]⟩
  | logical {opc : OpCode} (hopc : BooleanMatch.isLogical opc = true) (a b : VarnodeId) (ha : boolean a) (hb : boolean b) :
      LegalOp data boolean ⟨opc, [a, b]⟩
  | negate (a : VarnodeId) (ha : boolean a) : LegalOp data boolean ⟨.boolNegate, [a]⟩

/-- An acyclic graph of comparisons and boolean operations. -/
structure Dataflow extends Funcdata where
  boolean : VarnodeId → Prop
  rank : VarnodeId → Nat
  bytes : ∀ v, ByteSize (vn v).size
  legal : ∀ v o, (vn v).getDef = some o → LegalOp toFuncdata boolean (op o)
  output : ∀ v o, (vn v).getDef = some o → boolean v
  constant : ∀ v, (vn v).isConstant = true →
    (vn v).getDef = none ∧ (vn v).offset.toNat < 2 ^ (8 * (vn v).size)
  truth : ∀ v, boolean v → (vn v).size = 1 ∧ ((vn v).isConstant = true → (vn v).offset = 0#64 ∨ (vn v).offset = 1#64)
  acyclic : ∀ v o u, (vn v).getDef = some o → u ∈ (op o).inrefs → rank u < rank v

namespace Dataflow

/-- Values for the leaves of the graph. -/
structure Assignment (g : Dataflow) where
  leaf : VarnodeId → Word
  within : ∀ v, (leaf v).toNat < 2 ^ (8 * (g.vn v).size)
  truth : ∀ v, g.boolean v → leaf v = 0#64 ∨ leaf v = 1#64

variable (g : Dataflow) (env : Assignment g)

/-- The emulation of an op on the values of its inputs; the size of the first one is
passed along. -/
def emulate (o : Op) (value : VarnodeId → Word) : Except Error Word :=
  match o.inrefs with
  | [a] => evaluateUnary o.code 1 (g.vn a).size (value a)
  | [a, b] => evaluateBinary o.code 1 (g.vn a).size (value a) (value b)
  | _ => .error (.lowlevel ("Cannot perform simple execution of " ++ getOpname o.code))

/-- The operations of the graph always have a result. -/
def result (o : Op) (value : VarnodeId → Word) : Word := (g.emulate o value).toOption.getD 0

def valueAt : Nat → VarnodeId → Word
  | 0, _ => 0
  | fuel + 1, v =>
      if (g.vn v).isConstant then (g.vn v).offset
      else
        match (g.vn v).getDef with
        | none => env.leaf v
        | some o => g.result (g.op o) (valueAt fuel)

/-- The value of a varnode, from the leaves up. -/
def value (v : VarnodeId) : Word := g.valueAt env (g.rank v + 1) v

variable {g env}

theorem result_congr {o : Op} {f f' : VarnodeId → Word} (h : ∀ u ∈ o.inrefs, f u = f' u) :
    g.result o f = g.result o f' := by
  rw [result, result, emulate, emulate]
  split
  · next a heq =>
      rw [h a (by simp [heq])]
  · next a b heq =>
      rw [h a (by simp [heq]), h b (by simp [heq])]
  · rfl

theorem valueAt_eq {fuel : Nat} {v : VarnodeId} (h : g.rank v < fuel) : g.valueAt env fuel v = g.value env v := by
  induction fuel using Nat.strong_induction_on generalizing v with
  | _ fuel ih =>
      obtain ⟨fuel, rfl⟩ := Nat.exists_eq_add_of_lt (Nat.zero_lt_of_lt h)
      rw [Nat.zero_add] at h ih ⊢
      rw [value, valueAt, valueAt]
      split
      · rfl
      · cases hdef : (g.vn v).getDef with
        | none => rfl
        | some o =>
            apply result_congr
            intro u hu
            have hlt := g.acyclic v o u hdef hu
            rw [ih fuel (Nat.lt_succ_self _) (by omega)]
            rcases Nat.lt_or_ge (g.rank v) fuel with hv | hv
            · rw [ih (g.rank v) (by omega) hlt]
            · rw [show g.rank v = fuel by omega, ih fuel (Nat.lt_succ_self _) (by omega)]

theorem value_of_constant {v : VarnodeId} (h : (g.vn v).isConstant = true) : g.value env v = (g.vn v).offset := by
  rw [value, valueAt, if_pos h]

theorem value_of_def {v : VarnodeId} {o : OpId} (h : (g.vn v).getDef = some o) :
    g.value env v = g.result (g.op o) (g.value env) := by
  have hconst : ¬ (g.vn v).isConstant = true := by
    intro hc
    rw [(g.constant v hc).1] at h
    cases h
  rw [value, valueAt, if_neg hconst, h]
  apply result_congr
  intro u hu
  exact valueAt_eq (g.acyclic v o u h hu)

section Values

variable {v a b : VarnodeId} {o : OpId} {opc : OpCode}

theorem emulate_comparison (hopc : opc ∈ comparisonOps) (f : VarnodeId → Word) (hsize : (g.vn a).size = (g.vn b).size)
    (ha : (f a).toNat < 2 ^ (8 * (g.vn a).size)) (hb : (f b).toNat < 2 ^ (8 * (g.vn b).size)) :
    g.result ⟨opc, [a, b]⟩ f = ofBool (Holds (g.vn a).size opc (f a).toNat (f b).toNat) := by
  rw [← hsize] at hb
  have h := evaluate_comparison hopc (g.bytes a) ha hb
  rw [BitVec.ofNat_toNat, BitVec.setWidth_eq, BitVec.ofNat_toNat, BitVec.setWidth_eq] at h
  simp only [result, emulate, h, Except.toOption, Option.getD]

theorem ofBool_cases {x : Word} (h : x = 0#64 ∨ x = 1#64) : x = ofBool (x == 1#64) := by
  rcases h with rfl | rfl
  · rfl
  · rfl

/-- What the logical operations say about truth values. -/
def connective : OpCode → Bool → Bool → Bool
  | .boolAnd, p, q => p && q
  | .boolOr, p, q => p || q
  | .boolXor, p, q => p ^^ q
  | _, _, _ => false

theorem emulate_logical (hopc : BooleanMatch.isLogical opc = true) (f : VarnodeId → Word) {p q : Bool}
    (ha : f a = ofBool p) (hb : f b = ofBool q) : g.result ⟨opc, [a, b]⟩ f = ofBool (connective opc p q) := by
  rw [BooleanMatch.isLogical, decide_eq_true_iff] at hopc
  rcases hopc with rfl | rfl | rfl
  · simp only [result, emulate, evaluateBinary, ha, hb, Except.toOption, Option.getD]
    cases p <;> cases q <;> rfl
  · simp only [result, emulate, evaluateBinary, ha, hb, Except.toOption, Option.getD]
    cases p <;> cases q <;> rfl
  · simp only [result, emulate, evaluateBinary, ha, hb, Except.toOption, Option.getD]
    cases p <;> cases q <;> rfl

theorem emulate_negate (f : VarnodeId → Word) : g.result ⟨.boolNegate, [a]⟩ f = f a ^^^ 1 := rfl

theorem value_lt_of_truth (h : g.boolean v → g.value env v = 0#64 ∨ g.value env v = 1#64) :
    (g.value env v).toNat < 2 ^ (8 * (g.vn v).size) := by
  cases hdef : (g.vn v).getDef with
  | some o =>
      have hbool := g.output v o hdef
      rw [(g.truth v hbool).1]
      rcases h hbool with h | h
      · rw [h]
        decide
      · rw [h]
        decide
  | none =>
      rw [value, valueAt, hdef]
      split
      · next hc => exact (g.constant v hc).2
      · exact env.within v

theorem value_truth (h : g.boolean v) : g.value env v = 0#64 ∨ g.value env v = 1#64 := by
  induction hr : g.rank v using Nat.strong_induction_on generalizing v with
  | _ r ih =>
      subst hr
      cases hdef : (g.vn v).getDef with
      | none =>
          rw [value, valueAt, hdef]
          split
          · next hc => exact (g.truth v h).2 hc
          · exact env.truth v h
      | some o =>
          have hval : g.value env v = _ := value_of_def hdef
          have hbelow : ∀ u ∈ (g.op o).inrefs, g.boolean u → g.value env u = 0#64 ∨ g.value env u = 1#64 :=
            fun u hu hbool => ih (g.rank u) (g.acyclic v o u hdef hu) hbool rfl
          have hlegal := g.legal v o hdef
          rw [hval]
          generalize g.op o = op at hlegal hbelow
          have hofBool : ∀ c, ofBool c = 0#64 ∨ ofBool c = 1#64 := by
            intro c
            cases c with
            | false => exact .inl rfl
            | true => exact .inr rfl
          cases hlegal with
          | comparison hopc a b hsize =>
              rw [emulate_comparison hopc _ hsize (value_lt_of_truth (hbelow a (by simp)))
                (value_lt_of_truth (hbelow b (by simp)))]
              exact hofBool _
          | logical hopc a b ha hb =>
              rw [emulate_logical hopc _ (ofBool_cases (hbelow a (by simp) ha)) (ofBool_cases (hbelow b (by simp) hb))]
              exact hofBool _
          | negate a ha =>
              rw [emulate_negate]
              rcases hbelow a (by simp) ha with h | h
              · right
                rw [h]
                rfl
              · left
                rw [h]
                rfl

theorem value_lt (v : VarnodeId) : (g.value env v).toNat < 2 ^ (8 * (g.vn v).size) := value_lt_of_truth value_truth

end Values

end Dataflow

end GhidraDecompiler.Expression
