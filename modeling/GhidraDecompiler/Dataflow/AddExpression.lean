import Mathlib.Algebra.BigOperators.Group.List.Basic
import Mathlib.Data.BitVec
import Mathlib.Tactic.Ring
import GhidraDecompiler.Dataflow.FunctionalEquality

namespace GhidraDecompiler.Dataflow

open Pcode BitWords
open Expression (VarnodeId OpId)
open RuleAction.RangeMeld (Funcdata)
open RuleAction.RangeMeld.Funcdata (inputVn constantVn logicalOp)

structure AddExpressionTerm where
  vn : VarnodeId
  coeff : Word

/-- The array of terms has two places. -/
structure AddExpression where
  constval : Word
  terms : List AddExpressionTerm

def AddExpressionTerm.isEquivalent (t op2 : AddExpressionTerm) (data : Funcdata) : Option Bool :=
  if t.coeff ≠ op2.coeff then some false else data.functionalEquality t.vn op2.vn

namespace AddExpression

def new : AddExpression := { constval := 0, terms := [] }

/-- A third term is ignored. -/
def add (e : AddExpression) (vn : VarnodeId) (coeff : Word) : AddExpression :=
  if e.terms.length < 2 then { e with terms := e.terms ++ [⟨vn, coeff⟩] } else e

/-- There is no expression when the fuel runs out or when an op lacks an input. -/
def gather (data : Funcdata) : Nat → AddExpression → VarnodeId → Word → Int → Option AddExpression
  | 0, _, _, _, _ => none
  | fuel + 1, e, vn, coeff, depth => do
      let varnode := data.vn vn
      if varnode.isConstant then
        return { e with constval := (e.constval + coeff * varnode.offset) &&& Pcode.calcMask varnode.size }
      let some opid := varnode.getDef | return e.add vn coeff
      let op := data.op opid
      if op.code = .intAdd then
        let in1 ← op.inrefs[1]?
        let depth := if !(data.vn in1).isConstant then depth - 1 else depth
        if depth ≥ 0 then
          let e ← gather data fuel e (← op.inrefs[0]?) coeff depth
          return ← gather data fuel e in1 coeff depth
      else if op.code = .intMult then
        let in1 ← op.inrefs[1]?
        if (data.vn in1).isConstant then
          let coeff := (coeff * (data.vn in1).offset) &&& Pcode.calcMask varnode.size
          return ← gather data fuel e (← op.inrefs[0]?) coeff depth
      return e.add vn coeff

/-- With a constant on one side the other side may have two terms. -/
def twoTermsDepth (data : Funcdata) (first second : VarnodeId) : Int :=
  if (data.vn first).isConstant || (data.vn second).isConstant then 1 else 0

def gatherTwoTermsSubtract (data : Funcdata) (fuel : Nat) (e : AddExpression) (first second : VarnodeId) :
    Option AddExpression := do
  let depth := twoTermsDepth data first second
  let e ← gather data fuel e first 1 depth
  gather data fuel e second (Pcode.calcMask (data.vn second).size) depth

def gatherTwoTermsAdd (data : Funcdata) (fuel : Nat) (e : AddExpression) (first second : VarnodeId) :
    Option AddExpression := do
  let depth := twoTermsDepth data first second
  let e ← gather data fuel e first 1 depth
  gather data fuel e second 1 depth

def gatherTwoTermsRoot (data : Funcdata) (fuel : Nat) (e : AddExpression) (root : VarnodeId) : Option AddExpression :=
  gather data fuel e root 1 1

/-- Two terms are compared straight, then crossed; without terms there is no answer but
no. -/
def isEquivalent (e op2 : AddExpression) (data : Funcdata) : Option Bool :=
  if e.constval ≠ op2.constval then some false
  else
    match e.terms, op2.terms with
    | [t0], [u0] => t0.isEquivalent u0 data
    | [t0, t1], [u0, u1] => do
        if ← t0.isEquivalent u0 data then
          if ← t1.isEquivalent u1 data then return true
        if ← t0.isEquivalent u1 data then
          if ← t1.isEquivalent u0 data then return true
        return false
    | _, _ => some false

section Terms

variable {data : Funcdata} {vn : VarnodeId} {coeff : Word} {depth : Int} {fuel : Nat} {e e' : AddExpression}

/-- The sum that an op adds up, and the depth for its parts. -/
structure SplitsAdd (data : Funcdata) (vn : VarnodeId) (depth : Int) (in0 in1 : VarnodeId) (depth' : Int) : Prop where
  notConstant : (data.vn vn).isConstant = false
  op : ∃ o, (data.vn vn).getDef = some o ∧ (data.op o).code = .intAdd ∧ (data.op o).inrefs[0]? = some in0 ∧
    (data.op o).inrefs[1]? = some in1
  depth_eq : depth' = if (data.vn in1).isConstant then depth else depth - 1
  nonneg : 0 ≤ depth'

/-- The product with a constant, and the coefficient for the other factor. -/
structure SplitsMult (data : Funcdata) (vn : VarnodeId) (coeff : Word) (in0 : VarnodeId) (coeff' : Word) : Prop where
  notConstant : (data.vn vn).isConstant = false
  op : ∃ o in1, (data.vn vn).getDef = some o ∧ (data.op o).code = .intMult ∧ (data.op o).inrefs[0]? = some in0 ∧
    (data.op o).inrefs[1]? = some in1 ∧ (data.vn in1).isConstant = true ∧
    coeff' = (coeff * (data.vn in1).offset) &&& Pcode.calcMask (data.vn vn).size

/-- All the terms of a varnode with a coefficient, at a depth; constants are no
terms. -/
inductive SumTerms (data : Funcdata) : VarnodeId → Word → Int → List AddExpressionTerm → Prop
  | constant {vn : VarnodeId} (coeff : Word) (depth : Int) (h : (data.vn vn).isConstant = true) : SumTerms data vn coeff depth []
  | term {vn : VarnodeId} (coeff : Word) (depth : Int) (h : (data.vn vn).isConstant = false) :
      SumTerms data vn coeff depth [⟨vn, coeff⟩]
  | sum {vn in0 in1 : VarnodeId} {coeff : Word} {depth depth' : Int} {ts0 ts1 : List AddExpressionTerm}
      (h : SplitsAdd data vn depth in0 in1 depth') (h0 : SumTerms data in0 coeff depth' ts0)
      (h1 : SumTerms data in1 coeff depth' ts1) : SumTerms data vn coeff depth (ts0 ++ ts1)
  | product {vn in0 : VarnodeId} {coeff coeff' : Word} {depth : Int} {ts : List AddExpressionTerm}
      (h : SplitsMult data vn coeff in0 coeff') (h0 : SumTerms data in0 coeff' depth ts) : SumTerms data vn coeff depth ts

/-- What one call does. -/
theorem gather_cases (h : gather data (fuel + 1) e vn coeff depth = some e') :
    ((data.vn vn).isConstant = true ∧
        e' = { e with constval := (e.constval + coeff * (data.vn vn).offset) &&& Pcode.calcMask (data.vn vn).size }) ∨
      ((data.vn vn).isConstant = false ∧ e' = e.add vn coeff) ∨
      (∃ in0 in1 depth' mid, SplitsAdd data vn depth in0 in1 depth' ∧ gather data fuel e in0 coeff depth' = some mid ∧
        gather data fuel mid in1 coeff depth' = some e') ∨
      ∃ in0 coeff', SplitsMult data vn coeff in0 coeff' ∧ gather data fuel e in0 coeff' depth = some e' := by
  rw [gather] at h
  cases hconst : (data.vn vn).isConstant with
  | true =>
      simp only [hconst, if_true] at h
      exact .inl ⟨rfl, (Option.some.inj h).symm⟩
  | false =>
      simp only [hconst, Bool.false_eq_true, if_false] at h
      cases hdef : (data.vn vn).getDef with
      | none =>
          simp only [hdef] at h
          exact .inr (.inl ⟨rfl, (Option.some.inj h).symm⟩)
      | some o =>
          simp only [hdef] at h
          by_cases hadd : (data.op o).code = .intAdd
          · rw [if_pos hadd] at h
            obtain ⟨in1, hin1, h⟩ := Option.bind_eq_some_iff.mp h
            by_cases hdepth : (if !(data.vn in1).isConstant then depth - 1 else depth) ≥ 0
            · rw [if_pos hdepth] at h
              obtain ⟨in0, hin0, h⟩ := Option.bind_eq_some_iff.mp h
              obtain ⟨mid, hmid, h⟩ := Option.bind_eq_some_iff.mp h
              refine .inr (.inr (.inl ⟨in0, in1, _, mid, ⟨hconst, ⟨o, hdef, hadd, hin0, hin1⟩, ?_, hdepth⟩, hmid, by simpa using h⟩))
              cases (data.vn in1).isConstant <;> rfl
            · rw [if_neg hdepth] at h
              exact .inr (.inl ⟨rfl, (Option.some.inj h).symm⟩)
          · rw [if_neg hadd] at h
            by_cases hmult : (data.op o).code = .intMult
            · rw [if_pos hmult] at h
              obtain ⟨in1, hin1, h⟩ := Option.bind_eq_some_iff.mp h
              cases hc : (data.vn in1).isConstant with
              | true =>
                  simp only [hc, if_true] at h
                  obtain ⟨in0, hin0, h⟩ := Option.bind_eq_some_iff.mp h
                  exact .inr (.inr (.inr ⟨in0, _, ⟨hconst, o, in1, hdef, hmult, hin0, hin1, hc, rfl⟩, by simpa using h⟩))
              | false =>
                  simp only [hc, Bool.false_eq_true, if_false] at h
                  exact .inr (.inl ⟨rfl, (Option.some.inj h).symm⟩)
            · rw [if_neg hmult] at h
              exact .inr (.inl ⟨rfl, (Option.some.inj h).symm⟩)

theorem add_terms {vn : VarnodeId} (h : e.terms.length < 2) : (e.add vn coeff).terms = e.terms ++ [⟨vn, coeff⟩] := by
  rw [add, if_pos h]

theorem SumTerms.constant_nil {ts : List AddExpressionTerm} (h : SumTerms data vn coeff depth ts)
    (hc : (data.vn vn).isConstant = true) : ts = [] := by
  cases h with
  | constant => rfl
  | term _ _ h => rw [hc] at h; cases h
  | sum h => have := h.notConstant; rw [hc] at this; cases this
  | product h => have := h.notConstant; rw [hc] at this; cases this

/-- The depth bounds the number of terms: each sum of two terms costs one. -/
theorem SumTerms.length_le {ts : List AddExpressionTerm} (h : SumTerms data vn coeff depth ts) (hdepth : 0 ≤ depth) :
    ts.length ≤ 2 ^ depth.toNat := by
  have hpos := Nat.one_le_two_pow (n := depth.toNat)
  induction h with
  | constant coeff depth h => simp
  | term coeff depth h => simpa using hpos
  | @sum vn in0 in1 coeff depth depth' ts0 ts1 hsplit h0 h1 ih0 ih1 =>
      have h0' := ih0 hsplit.nonneg Nat.one_le_two_pow
      have h1' := ih1 hsplit.nonneg Nat.one_le_two_pow
      have heq := hsplit.depth_eq
      rw [List.length_append]
      cases hc : (data.vn in1).isConstant with
      | true =>
          -- the constant has no term
          rw [hc, if_pos rfl] at heq
          subst heq
          rw [h1.constant_nil hc]
          simpa using h0'
      | false =>
          rw [hc, if_neg (by decide)] at heq
          have htoNat : depth.toNat = depth'.toNat + 1 := by have := hsplit.nonneg; omega
          rw [htoNat, Nat.pow_succ]
          omega
  | product hsplit h0 ih0 => exact ih0 hdepth hpos

end Terms

end AddExpression

/-- The varnodes of sums and products. -/
structure SumsLegal (data : Funcdata) : Prop where
  ptradd : PtraddLegal data
  sums : ∀ v o, (data.vn v).getDef = some o → (data.op o).code = .intAdd ∨ (data.op o).code = .intMult →
    ∃ a b, (data.op o).inrefs = [a, b] ∧ (data.vn a).size = (data.vn v).size ∧ (data.vn b).size = (data.vn v).size

namespace AddExpression

section Values

variable {sem : Semantics} {data : Funcdata} {vn : VarnodeId} {coeff : Word} {depth : Int} {fuel n : Nat}
  {e e' : AddExpression}

def termsValue (val : Valuation sem data noLeaf) (n : Nat) (ts : List AddExpressionTerm) : BitVec (8 * n) :=
  (ts.map fun t => t.coeff.setWidth _ * val.bits n t.vn).sum

/-- The constant and the terms, added up in words of `n` bytes. -/
def value (val : Valuation sem data noLeaf) (n : Nat) (e : AddExpression) : BitVec (8 * n) :=
  e.constval.setWidth _ + termsValue val n e.terms

theorem setWidth_and_calcMask (hn : ByteSize n) (x : Word) : (x &&& Pcode.calcMask n).setWidth (8 * n) = x.setWidth (8 * n) := by
  rw [and_calcMask hn, setWidth_narrow _ hn.width_le]

theorem one_setWidth (hn : ByteSize n) : (1 : Word).setWidth (8 * n) = 1 := by
  apply BitVec.eq_of_toNat_eq
  have hwidth := hn.width_pos
  rw [BitVec.toNat_setWidth]
  rfl

/-- The mask is minus one. -/
theorem calcMask_setWidth (hn : ByteSize n) : (Pcode.calcMask n).setWidth (8 * n) = -1 := by
  rw [calcMask_eq hn, setWidth_narrow _ hn.width_le, ← BitVec.neg_one_eq_allOnes]
  rfl

theorem value_new (val : Valuation sem data noLeaf) : new.value val n = 0 := by
  simp [value, new, termsValue]

theorem value_add (val : Valuation sem data noLeaf) (h : e.terms.length < 2) :
    (e.add vn coeff).value val n = e.value val n + coeff.setWidth _ * val.bits n vn := by
  rw [add, if_pos h, value, value, termsValue, termsValue, List.map_append, List.sum_append, List.map_singleton,
    List.sum_singleton, add_assoc]

theorem value_constant (val : Valuation sem data noLeaf) (hn : ByteSize n) (hsize : (data.vn vn).size = n)
    (hc : (data.vn vn).isConstant = true) :
    ({ e with constval := (e.constval + coeff * (data.vn vn).offset) &&& Pcode.calcMask (data.vn vn).size } :
      AddExpression).value val n = e.value val n + coeff.setWidth _ * val.bits n vn := by
  have hbits := val.bits_constant hsize hc
  rw [value, value, hsize, setWidth_and_calcMask hn, BitVec.setWidth_add _ _ hn.width_le,
    BitVec.setWidth_mul _ _ hn.width_le, hbits]
  ring

theorem SplitsAdd.value_eq (hg : SumsLegal data) (val : Valuation sem data noLeaf) {in0 in1 : VarnodeId} {depth' : Int}
    (h : SplitsAdd data vn depth in0 in1 depth') (hsize : (data.vn vn).size = n) :
    (data.vn in0).size = n ∧ (data.vn in1).size = n ∧ val.bits n vn = val.bits n in0 + val.bits n in1 := by
  obtain ⟨o, hdef, hcode, hin0, hin1⟩ := h.op
  obtain ⟨a, b, hin, ha, hb⟩ := hg.sums vn o hdef (.inl hcode)
  rw [hin] at hin0 hin1
  cases hin0
  cases hin1
  rw [hsize] at ha hb
  exact ⟨ha, hb, val.bits_binary (fun x y => .intAdd x y) rfl (by decide) hdef not_false hcode hin hsize ha hb⟩

theorem SplitsMult.value_eq (hg : SumsLegal data) (val : Valuation sem data noLeaf) {in0 : VarnodeId} {coeff' : Word}
    (h : SplitsMult data vn coeff in0 coeff') (hn : ByteSize n) (hsize : (data.vn vn).size = n) :
    (data.vn in0).size = n ∧ coeff.setWidth _ * val.bits n vn = coeff'.setWidth _ * val.bits n in0 := by
  obtain ⟨o, in1, hdef, hcode, hin0, hin1, hc, rfl⟩ := h.op
  obtain ⟨a, b, hin, ha, hb⟩ := hg.sums vn o hdef (.inr hcode)
  rw [hin] at hin0 hin1
  cases hin0
  cases hin1
  rw [hsize] at ha hb
  have hprod := val.bits_binary (fun x y => .intMult x y) rfl (by decide) hdef not_false hcode hin hsize ha hb
  have hbits : val.bits n in1 = (data.vn in1).offset.setWidth (8 * n) := val.bits_constant hb hc
  refine ⟨ha, ?_⟩
  rw [hprod, hsize, setWidth_and_calcMask hn, BitVec.setWidth_mul _ _ hn.width_le, hbits]
  ring

/-- Where there is room for all the terms, none is dropped and the value is added. -/
theorem gather_spec (h : gather data fuel e vn coeff depth = some e') :
    ∃ ts, SumTerms data vn coeff depth ts ∧ (e.terms.length + ts.length ≤ 2 → e'.terms = e.terms ++ ts ∧
      ∀ {sem} (val : Valuation sem data noLeaf) n, SumsLegal data → ByteSize n → (data.vn vn).size = n →
        e'.value val n = e.value val n + coeff.setWidth _ * val.bits n vn) := by
  induction fuel generalizing e e' vn coeff depth with
  | zero => cases h
  | succ fuel ih =>
      rcases gather_cases h with ⟨hconst, rfl⟩ | ⟨hconst, rfl⟩ | ⟨in0, in1, depth', mid, hsplit, h0, h1⟩ | ⟨in0, coeff', hsplit, h0⟩
      · exact ⟨[], .constant _ _ hconst, fun _ => ⟨(List.append_nil _).symm, fun val n _ hn hsize =>
          value_constant val hn hsize hconst⟩⟩
      · refine ⟨_, .term coeff depth hconst, fun hroom => ?_⟩
        rw [List.length_singleton] at hroom
        have hlt : e.terms.length < 2 := by omega
        exact ⟨by rw [add, if_pos hlt], fun val n _ _ _ => value_add val hlt⟩
      · obtain ⟨ts0, hts0, hspec0⟩ := ih h0
        obtain ⟨ts1, hts1, hspec1⟩ := ih h1
        refine ⟨ts0 ++ ts1, .sum hsplit hts0 hts1, fun hroom => ?_⟩
        rw [List.length_append] at hroom
        obtain ⟨heq0, hval0⟩ := hspec0 (by omega)
        obtain ⟨heq1, hval1⟩ := hspec1 (by rw [heq0, List.length_append]; omega)
        refine ⟨by rw [heq1, heq0, List.append_assoc], fun val n hg hn hsize => ?_⟩
        obtain ⟨hsize0, hsize1, hsum⟩ := hsplit.value_eq hg val hsize
        rw [hval1 val n hg hn hsize1, hval0 val n hg hn hsize0, hsum]
        ring
      · obtain ⟨ts, hts, hspec⟩ := ih h0
        refine ⟨ts, .product hsplit hts, fun hroom => ?_⟩
        obtain ⟨heq, hval⟩ := hspec hroom
        refine ⟨heq, fun val n hg hn hsize => ?_⟩
        obtain ⟨hsize0, hprod⟩ := hsplit.value_eq hg val hn hsize
        rw [hval val n hg hn hsize0, hprod]

/-- In a graph without cycles the recursion ends. -/
theorem gather_total (hg : SumsLegal data) (h : Acyclic data noLeaf) (hfuel : h.rank vn < fuel) :
    ∃ e', gather data fuel e vn coeff depth = some e' := by
  induction fuel generalizing e vn coeff depth with
  | zero => omega
  | succ fuel ih =>
      have hbelow : ∀ o u, (data.vn vn).getDef = some o → (data.op o).code = .intAdd ∨ (data.op o).code = .intMult →
          u ∈ (data.op o).inrefs → h.rank u < fuel := by
        intro o u hdef hcode hu
        have hleaf : isLeafOp (data.op o).code = false := by
          rcases hcode with hcode | hcode
          · rw [hcode]
            rfl
          · rw [hcode]
            rfl
        have := h.below vn o u ⟨hdef, not_false, hleaf⟩ hu
        omega
      rw [gather]
      cases hconst : (data.vn vn).isConstant with
      | true => exact ⟨_, rfl⟩
      | false =>
          cases hdef : (data.vn vn).getDef with
          | none => exact ⟨_, rfl⟩
          | some o =>
              simp only [Bool.false_eq_true, if_false]
              by_cases hadd : (data.op o).code = .intAdd
              · obtain ⟨a, b, hin, -, -⟩ := hg.sums vn o hdef (.inl hadd)
                have ha := hbelow o a hdef (.inl hadd) (by simp [hin])
                have hb := hbelow o b hdef (.inl hadd) (by simp [hin])
                simp only [if_pos hadd, hin, List.getElem?_cons_zero, List.getElem?_cons_succ, Option.bind_eq_bind,
                  Option.bind_some]
                generalize (if (!(data.vn b).isConstant) = true then depth - 1 else depth) = d
                by_cases hd : d ≥ 0
                · rw [if_pos hd]
                  obtain ⟨mid, hmid⟩ := @ih a coeff d e ha
                  obtain ⟨e', he'⟩ := @ih b coeff d mid hb
                  exact ⟨e', by rw [hmid, Option.bind_some, he']⟩
                · rw [if_neg hd]
                  exact ⟨_, rfl⟩
              · by_cases hmult : (data.op o).code = .intMult
                · obtain ⟨a, b, hin, -, -⟩ := hg.sums vn o hdef (.inr hmult)
                  have ha := hbelow o a hdef (.inr hmult) (by simp [hin])
                  simp only [if_neg hadd, if_pos hmult, hin, List.getElem?_cons_zero, List.getElem?_cons_succ,
                    Option.bind_eq_bind, Option.bind_some]
                  split
                  · obtain ⟨e', he'⟩ := @ih a ((coeff * (data.vn b).offset) &&& Pcode.calcMask (data.vn vn).size) depth e ha
                    exact ⟨e', by rw [he']⟩
                  · exact ⟨_, rfl⟩
                · exact ⟨_, by rw [if_neg hadd, if_neg hmult]; rfl⟩

end Values

section Equivalence

variable {sem : Semantics} {data : Funcdata} {n : Nat}

theorem AddExpressionTerm.value_eq (hg : SumsLegal data) (val : Valuation sem data noLeaf) {t u : AddExpressionTerm}
    (h : t.isEquivalent u data = some true) :
    t.coeff.setWidth (8 * n) * val.bits n t.vn = u.coeff.setWidth (8 * n) * val.bits n u.vn := by
  rw [AddExpressionTerm.isEquivalent] at h
  by_cases hcoeff : t.coeff = u.coeff
  · rw [if_neg (not_not_intro hcoeff)] at h
    rw [hcoeff, Valuation.bits, Valuation.bits, value_eq_of_functionalEquality hg.ptradd val h]
  · rw [if_pos hcoeff] at h
    cases h

theorem isEquivalent_sound (hg : SumsLegal data) (val : Valuation sem data noLeaf) {e e' : AddExpression}
    (h : e.isEquivalent e' data = some true) : e.value val n = e'.value val n := by
  rw [isEquivalent] at h
  by_cases hconst : e.constval = e'.constval
  swap
  · rw [if_pos hconst] at h
    cases h
  rw [if_neg (not_not_intro hconst)] at h
  rw [value, value, hconst, termsValue, termsValue]
  congr 1
  split at h
  · next t0 u0 ht hu =>
      rw [ht, hu, List.map_singleton, List.map_singleton, AddExpressionTerm.value_eq hg val h]
  · next t0 t1 u0 u1 ht hu =>
      rw [ht, hu]
      simp only [List.map_cons, List.map_nil, List.sum_cons, List.sum_nil]
      have hcrossed : (do
          if ← t0.isEquivalent u1 data then
            if ← t1.isEquivalent u0 data then return true
          return false : Option Bool) = some true → t0.isEquivalent u1 data = some true ∧ t1.isEquivalent u0 data = some true := by
        intro h
        rcases h01 : t0.isEquivalent u1 data with _ | _ | _ <;> rcases h10 : t1.isEquivalent u0 data with _ | _ | _ <;>
          simp [h01, h10] at h ⊢
      have hpairs : t0.isEquivalent u0 data = some true ∧ t1.isEquivalent u1 data = some true ∨
          t0.isEquivalent u1 data = some true ∧ t1.isEquivalent u0 data = some true := by
        rcases h00 : t0.isEquivalent u0 data with _ | _ | _
        · simp [h00] at h
        · rw [h00] at h
          exact .inr (hcrossed h)
        · rcases h11 : t1.isEquivalent u1 data with _ | _ | _
          · simp [h00, h11] at h
          · rw [h00, h11] at h
            exact .inr (hcrossed h)
          · exact .inl ⟨rfl, rfl⟩
      rcases hpairs with ⟨h₀, h₁⟩ | ⟨h₀, h₁⟩
      · rw [AddExpressionTerm.value_eq hg val h₀, AddExpressionTerm.value_eq hg val h₁]
      · rw [AddExpressionTerm.value_eq hg val h₀, AddExpressionTerm.value_eq hg val h₁]
        ring
  · cases h

theorem AddExpressionTerm.size_eq {t u : AddExpressionTerm} (h : t.isEquivalent u data = some true) :
    (data.vn t.vn).size = (data.vn u.vn).size := by
  rw [AddExpressionTerm.isEquivalent] at h
  split at h
  · cases h
  · exact size_eq_of_functionalEquality h

/-- Equivalent expressions have terms. -/
theorem exists_isEquivalent {e e' : AddExpression} (h : e.isEquivalent e' data = some true) :
    ∃ t ∈ e.terms, ∃ u ∈ e'.terms, t.isEquivalent u data = some true := by
  rw [isEquivalent] at h
  split at h
  · cases h
  · split at h
    · next t0 u0 ht hu =>
        rw [ht, hu]
        exact ⟨t0, List.mem_cons_self, u0, List.mem_cons_self, h⟩
    · next t0 t1 u0 u1 ht hu =>
        rw [ht, hu]
        refine ⟨t0, List.mem_cons_self, ?_⟩
        rcases h00 : t0.isEquivalent u0 data with _ | _ | _
        · simp [h00] at h
        · rcases h01 : t0.isEquivalent u1 data with _ | _ | _
          · simp [h00, h01] at h
          · simp [h00, h01] at h
          · exact ⟨u1, List.mem_cons_of_mem _ List.mem_cons_self, h01⟩
        · exact ⟨u0, List.mem_cons_self, h00⟩
    · cases h

/-- The terms of a varnode have its size. -/
theorem SumTerms.size_eq (hg : SumsLegal data) {vn : VarnodeId} {coeff : Word} {depth : Int} {ts : List AddExpressionTerm}
    (h : SumTerms data vn coeff depth ts) : ∀ t ∈ ts, (data.vn t.vn).size = (data.vn vn).size := by
  induction h with
  | constant coeff depth h => exact fun t ht => absurd ht List.not_mem_nil
  | term coeff depth h =>
      rw [List.forall_mem_singleton]
  | sum hsplit h0 h1 ih0 ih1 =>
      obtain ⟨o, hdef, hcode, hin0, hin1⟩ := hsplit.op
      obtain ⟨a, b, hin, ha, hb⟩ := hg.sums _ o hdef (.inl hcode)
      rw [hin] at hin0 hin1
      cases hin0
      cases hin1
      rw [List.forall_mem_append]
      exact ⟨fun t ht => (ih0 t ht).trans ha, fun t ht => (ih1 t ht).trans hb⟩
  | product hsplit h0 ih0 =>
      obtain ⟨o, in1, hdef, hcode, hin0, -, -, -⟩ := hsplit.op
      obtain ⟨a, b, hin, ha, -⟩ := hg.sums _ o hdef (.inr hcode)
      rw [hin] at hin0
      cases hin0
      exact fun t ht => (ih0 t ht).trans ha

end Equivalence

/-- The three ways to gather an expression. -/
inductive Gathering
  | subtract (first second : VarnodeId)
  | add (first second : VarnodeId)
  | root (vn : VarnodeId)

namespace Gathering

variable {sem : Semantics} {data : Funcdata} {n fuel fuel' : Nat} {e e' : AddExpression}

def run (data : Funcdata) (fuel : Nat) : Gathering → Option AddExpression
  | .subtract first second => gatherTwoTermsSubtract data fuel new first second
  | .add first second => gatherTwoTermsAdd data fuel new first second
  | .root vn => gatherTwoTermsRoot data fuel new vn

/-- The varnodes that are gathered have `n` bytes. -/
def Sized (data : Funcdata) (n : Nat) : Gathering → Prop
  | .subtract first second | .add first second => (data.vn first).size = n ∧ (data.vn second).size = n
  | .root vn => (data.vn vn).size = n

/-- The sum, the difference or the value that is gathered. -/
def total (val : Valuation sem data noLeaf) (n : Nat) : Gathering → BitVec (8 * n)
  | .subtract first second => val.bits n first - val.bits n second
  | .add first second => val.bits n first + val.bits n second
  | .root vn => val.bits n vn

/-- All the terms, whether there is room for them or not. -/
def Terms (data : Funcdata) : Gathering → List AddExpressionTerm → Prop
  | .subtract first second, ts => ∃ ts0 ts1, SumTerms data first 1 (twoTermsDepth data first second) ts0 ∧
      SumTerms data second (Pcode.calcMask (data.vn second).size) (twoTermsDepth data first second) ts1 ∧ ts = ts0 ++ ts1
  | .add first second, ts => ∃ ts0 ts1, SumTerms data first 1 (twoTermsDepth data first second) ts0 ∧
      SumTerms data second 1 (twoTermsDepth data first second) ts1 ∧ ts = ts0 ++ ts1
  | .root vn, ts => SumTerms data vn 1 1 ts

/-- Two varnodes have two terms at most: a constant has none and lets the other have
two. -/
theorem twoTerms_le {first second : VarnodeId} {coeff coeff' : Word} {ts0 ts1 : List AddExpressionTerm}
    (h0 : SumTerms data first coeff (twoTermsDepth data first second) ts0)
    (h1 : SumTerms data second coeff' (twoTermsDepth data first second) ts1) : ts0.length + ts1.length ≤ 2 := by
  rw [twoTermsDepth] at h0 h1
  cases hc0 : (data.vn first).isConstant with
  | true =>
      rw [hc0, Bool.true_or, if_pos rfl] at h1
      have hle : ts1.length ≤ 2 := h1.length_le (by decide)
      rw [h0.constant_nil hc0, List.length_nil]
      omega
  | false =>
      cases hc1 : (data.vn second).isConstant with
      | true =>
          rw [hc1, Bool.or_true, if_pos rfl] at h0
          have hle : ts0.length ≤ 2 := h0.length_le (by decide)
          rw [h1.constant_nil hc1, List.length_nil]
          omega
      | false =>
          rw [hc0, hc1, Bool.or_false, if_neg (by decide)] at h0 h1
          have hle0 : ts0.length ≤ 1 := h0.length_le le_rfl
          have hle1 : ts1.length ≤ 1 := h1.length_le le_rfl
          omega

/-- Two varnodes are gathered one after the other. -/
theorem pair_spec {first second : VarnodeId} {coeff : Word} (h : (do
      let e ← gather data fuel new first 1 (twoTermsDepth data first second)
      gather data fuel e second coeff (twoTermsDepth data first second)) = some e) :
    ∃ ts0 ts1, SumTerms data first 1 (twoTermsDepth data first second) ts0 ∧
      SumTerms data second coeff (twoTermsDepth data first second) ts1 ∧ e.terms = ts0 ++ ts1 ∧
      e.terms.length ≤ 2 ∧ ∀ {sem} (val : Valuation sem data noLeaf) n, SumsLegal data → ByteSize n →
        (data.vn first).size = n → (data.vn second).size = n →
          e.value val n = val.bits n first + coeff.setWidth _ * val.bits n second := by
  obtain ⟨mid, hmid, h⟩ := Option.bind_eq_some_iff.mp h
  obtain ⟨ts0, hts0, hspec0⟩ := gather_spec hmid
  obtain ⟨ts1, hts1, hspec1⟩ := gather_spec h
  have hroom := twoTerms_le hts0 hts1
  obtain ⟨heq0, hval0⟩ := hspec0 (by rw [new, List.length_nil]; omega)
  rw [new, List.nil_append] at heq0
  obtain ⟨heq1, hval1⟩ := hspec1 (by rw [heq0]; omega)
  rw [heq0] at heq1
  refine ⟨ts0, ts1, hts0, hts1, heq1, by rw [heq1, List.length_append]; exact hroom, ?_⟩
  intro sem val n hg hn hfirst hsecond
  rw [hval1 val n hg hn hsecond, hval0 val n hg hn hfirst, value_new, one_setWidth hn]
  ring

/-- All the terms are there, and the value is the one that is gathered. -/
theorem run_spec {g : Gathering} (h : g.run data fuel = some e) :
    g.Terms data e.terms ∧ e.terms.length ≤ 2 ∧ ∀ {sem} (val : Valuation sem data noLeaf) n, SumsLegal data → ByteSize n →
      g.Sized data n → e.value val n = g.total val n := by
  cases g with
  | subtract first second =>
      obtain ⟨ts0, ts1, hts0, hts1, heq, hle, hval⟩ := pair_spec h
      refine ⟨⟨ts0, ts1, hts0, hts1, heq⟩, hle, fun val n hg hn hs => ?_⟩
      rw [hval val n hg hn hs.1 hs.2, hs.2, calcMask_setWidth hn, total]
      ring
  | add first second =>
      obtain ⟨ts0, ts1, hts0, hts1, heq, hle, hval⟩ := pair_spec h
      refine ⟨⟨ts0, ts1, hts0, hts1, heq⟩, hle, fun val n hg hn hs => ?_⟩
      rw [hval val n hg hn hs.1 hs.2, one_setWidth hn, total]
      ring
  | root vn =>
      obtain ⟨ts, hts, hspec⟩ := gather_spec h
      have hle : ts.length ≤ 2 := hts.length_le (by decide)
      obtain ⟨heq, hval⟩ := hspec (by rw [new, List.length_nil]; omega)
      rw [new, List.nil_append] at heq
      refine ⟨heq ▸ hts, heq ▸ hle, fun val n hg hn hs => ?_⟩
      rw [hval val n hg hn hs, value_new, one_setWidth hn, total]
      ring

theorem size_of_terms (hg : SumsLegal data) {g : Gathering} (hsize : g.Sized data n) {ts : List AddExpressionTerm}
    (h : g.Terms data ts) : ∀ t ∈ ts, (data.vn t.vn).size = n := by
  cases g with
  | subtract first second =>
      obtain ⟨ts0, ts1, hts0, hts1, rfl⟩ := h
      rw [List.forall_mem_append]
      exact ⟨fun t ht => (hts0.size_eq hg t ht).trans hsize.1, fun t ht => (hts1.size_eq hg t ht).trans hsize.2⟩
  | add first second =>
      obtain ⟨ts0, ts1, hts0, hts1, rfl⟩ := h
      rw [List.forall_mem_append]
      exact ⟨fun t ht => (hts0.size_eq hg t ht).trans hsize.1, fun t ht => (hts1.size_eq hg t ht).trans hsize.2⟩
  | root vn => exact fun t ht => (SumTerms.size_eq hg h t ht).trans hsize

/-- What is equivalent has one size. -/
theorem sized_of_isEquivalent (hg : SumsLegal data) {g : Gathering} {vn : VarnodeId} (hsize : g.Sized data n)
    (h : g.run data fuel = some e) (h' : (Gathering.root vn).run data fuel' = some e') (heq : e.isEquivalent e' data = some true) :
    (data.vn vn).size = n := by
  obtain ⟨t, ht, u, hu, htu⟩ := exists_isEquivalent heq
  obtain ⟨hterms, -, -⟩ := run_spec h
  obtain ⟨hterms', -, -⟩ := run_spec h'
  have hroot : (Gathering.root vn).Sized data (data.vn vn).size := rfl
  rw [← size_of_terms hg hroot hterms' u hu, ← AddExpressionTerm.size_eq htu]
  exact size_of_terms hg hsize hterms t ht

/-- In a graph without cycles an expression is gathered. -/
theorem run_total (hg : SumsLegal data) (h : Acyclic data noLeaf) (g : Gathering) : ∃ fuel e, g.run data fuel = some e := by
  have hpair : ∀ first second coeff depth, ∃ fuel e, (do
      let e ← gather data fuel new first 1 depth
      gather data fuel e second coeff depth) = some e := by
    intro first second coeff depth
    obtain ⟨mid, hmid⟩ := @gather_total data first 1 depth _ new hg h
      (Nat.lt_succ_of_le (Nat.le_max_left (h.rank first) (h.rank second)))
    obtain ⟨e, he⟩ := @gather_total data second coeff depth _ mid hg h
      (Nat.lt_succ_of_le (Nat.le_max_right (h.rank first) (h.rank second)))
    exact ⟨_, e, Option.bind_eq_some_iff.mpr ⟨mid, hmid, he⟩⟩
  cases g with
  | subtract first second => exact hpair first second _ _
  | add first second => exact hpair first second 1 _
  | root vn => exact ⟨_, gather_total hg h (Nat.lt_succ_self _)⟩

end Gathering

/-- Sums of two inputs and a constant: varnode 3 is `0 + 2`, varnode 4 is `1 + 0` and
varnode 5 is `4 + 2`. -/
def constantSums : Funcdata where
  vn v := if v = 2 then constantVn 4 7 else
    { inputVn 4 with getDef := if v = 3 then some 0 else if v = 4 then some 1 else if v = 5 then some 2 else none }
  op o :=
    if o = 0 then logicalOp .intAdd [0, 2] 3 else if o = 1 then logicalOp .intAdd [1, 0] 4 else logicalOp .intAdd [4, 2] 5
  numVarnodes := 6
  isValueClose _ _ _ := false

end AddExpression

end GhidraDecompiler.Dataflow
