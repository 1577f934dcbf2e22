import GhidraDecompiler.Dataflow.FunctionalEquality
import GhidraDecompiler.RuleAction.RuleValues

namespace GhidraDecompiler.RuleAction

open Pcode Dataflow
open Expression (VarnodeId OpId)
open Editing (Funcdata)
open Editing.Funcdata
open Matching
open RangeMeld.Funcdata (inputVn writtenVn logicalOp)

namespace RuleEquality

def getOpList : List OpCode := [.intEqual, .intNotequal]

/-- The constant is chosen after the opcode has been set. -/
def applyOp (data : Funcdata) (op : OpId) : Int × Funcdata :=
  match getIn data op 0, getIn data op 1 with
  | some vn1, some vn2 =>
      if data.functionalEquality vn1 vn2 = some true then
        let data := data.opSetOpcode op .copy
        let data := data.opRemoveInput op 1
        let value := if (data.op op).code = .intEqual then 1 else 0
        let (vn, data) := data.newConstant 1 value
        (1, data.opSetInput op vn 0)
      else (0, data)
  | _, _ => (0, data)

section Preservation

variable {sem : Semantics} {data data' : Funcdata} {op a b : Nat}

/-- The op has become a copy of zero. -/
theorem applyOp_rewired (h : WellSized data) (hout : (data.vn (data.op op).output).getDef = some op) (hin : (data.op op).inrefs = [a, b])
    (happly : applyOp data op = (1, data')) : data.functionalEquality a b = some true ∧
      Rewired data data' [⟨op, (data.op op).output, (data.vn (data.op op).output).size, .copy, [.constant 1 0]⟩] := by
  simp only [applyOp, getIn, hin, List.getElem?_cons_zero, List.getElem?_cons_succ] at happly
  split at happly
  · next heq =>
      refine ⟨heq, ?_⟩
      have hedit := (((Rewired.refl h.toLegal).edit h.toLegal hout (fun _ he => absurd he List.not_mem_nil)).setOpcode .copy).removeInput 1
      have hcode := (hedit.entry _ List.mem_cons_self).code
      have hne : ¬ (((data.opSetOpcode op .copy).opRemoveInput op 1).op op).code = .intEqual := by
        intro hequal
        have hcopy : (((data.opSetOpcode op .copy).opRemoveInput op 1).op op).code = .copy := hcode
        rw [hequal] at hcopy
        cases hcopy
      rw [if_neg hne] at happly
      have hset := (hedit.newConstant 1 0).setInput (Nat.lt_succ_self _) 0
      rw [newConstant_arg] at hset
      simp only [entryOf, hin] at hset
      obtain rfl := (Prod.mk.inj happly).2
      exact hset
  · cases happly

theorem inrefs_of_mem (h : WellSized data) (hout : (data.vn (data.op op).output).getDef = some op) (hcode : (data.op op).code ∈ getOpList) :
    ∃ a b, (data.op op).inrefs = [a, b] := by
  have hsub : ∀ opc ∈ getOpList, opc ∈ twoInputOps := by decide
  exact h.inrefs_two hout (hsub _ hcode)

/-- The comparison of two equal values. -/
theorem bits_comparison (h : WellSized data) (hg : PtraddLegal data.toFuncdata)
    (hout : (data.vn (data.op op).output).getDef = some op) (hcode : (data.op op).code ∈ getOpList)
    (hin : (data.op op).inrefs = [a, b]) (heq : data.functionalEquality a b = some true) (val : Valuation sem data.toFuncdata noLeaf) :
    val.bits 1 (data.op op).output = truth ((data.op op).code = .intEqual) := by
  have hbits : val.bits (data.vn a).size a = val.bits (data.vn a).size b := by
    rw [Valuation.bits, Valuation.bits, value_eq_of_functionalEquality hg val heq]
  simp only [getOpList, List.mem_cons, List.not_mem_nil, or_false] at hcode
  rcases hcode with hcode | hcode
  · rw [h.bits_compare val not_false ⟨op, hout, hcode, hin⟩ (by decide) .intEqual rfl, hbits, hcode]
    simp only [beq_self_eq_true, decide_true]
  · rw [h.bits_compare val not_false ⟨op, hout, hcode, hin⟩ (by decide) .intNotequal rfl, hbits, hcode]
    simp only [bne_self_eq_false, reduceCtorEq, decide_false]

theorem extends_iff_notequal (h : WellSized data) (hg : PtraddLegal data.toFuncdata)
    (hout : (data.vn (data.op op).output).getDef = some op) (hcode : (data.op op).code ∈ getOpList)
    (happly : applyOp data op = (1, data')) (val : Valuation sem data.toFuncdata noLeaf) :
    Extends val data' ↔ (data.op op).code = .intNotequal := by
  obtain ⟨a, b, hin⟩ := inrefs_of_mem h hout hcode
  obtain ⟨heq, hrew⟩ := applyOp_rewired h hout hin happly
  have hsub : ∀ opc ∈ getOpList, opc ∈ compareOps := by decide
  have hsize : (data.vn (data.op op).output).size = 1 := ((h.fit_two ⟨op, hout, rfl, hin⟩).2.1 (hsub _ hcode)).2
  have hcopy : OpCode.copy ∈ twoInputOps ++ oneInputOps := by decide
  have hextends : Extends val data' ↔ val.bits 1 (data.op op).output = truth false :=
    hrew.extends_edited val h.toLegal rfl (fun _ hl => hl.elim) not_false hcopy (h.lt_of_def hout) hsize (fun _ _ => rfl) (.copy _)
  rw [hextends, bits_comparison h hg hout hcode hin heq]
  simp only [getOpList, List.mem_cons, List.not_mem_nil, or_false] at hcode
  rcases hcode with hcode | hcode
  · rw [hcode]
    decide
  · rw [hcode]
    decide

/-- A byte that is compared with itself. -/
def selfCompared (opc : OpCode) : Funcdata := ofLists [inputVn 1, writtenVn 0] [logicalOp opc [0, 0] 1]

theorem selfCompared_ptradd (opc : OpCode) (hopc : opc ≠ .ptradd) : PtraddLegal (selfCompared opc).toFuncdata := by
  intro v o hdef hcode
  have ho : o = 0 := by
    have hv := lt_of_def hdef
    match v, hv with
    | 0, _ => cases hdef
    | 1, _ => exact (Option.some.inj hdef).symm
  subst ho
  exact absurd hcode hopc

theorem selfCompared_wellSized : WellSized (selfCompared .intEqual) ∧ WellSized (selfCompared .intNotequal) := by
  have hequal : wellSized [inputVn 1, writtenVn 0] [logicalOp .intEqual [0, 0] 1] = true := by decide
  have hnotequal : wellSized [inputVn 1, writtenVn 0] [logicalOp .intNotequal [0, 0] 1] = true := by decide
  exact ⟨wellSized_ofLists hequal, wellSized_ofLists hnotequal⟩

end Preservation

end RuleEquality

end GhidraDecompiler.RuleAction
