import GhidraDecompiler.Pcode.ShiftMasks
import GhidraDecompiler.RuleAction.NodeValues

namespace GhidraDecompiler.RuleAction

open Pcode
open Expression (VarnodeId OpId)
open Editing (Funcdata)
open Editing.Funcdata

namespace Matching

/-- A word that is read as a signed number of 32 bits. -/
def toI32 (val : Word) : Int := (val.setWidth 32).toInt

/-- The signed sum of 32 bits. -/
def addI32 (x y : Int) : Int := (x + y).bmod (2 ^ 32)

section Patterns

variable (data : Funcdata)

def getIn (op : OpId) (slot : Nat) : Option VarnodeId := (data.op op).inrefs[slot]?

/-- An input that is a constant. -/
def constantIn (op : OpId) (slot : Nat) : Option VarnodeId := do
  let vn ← getIn data op slot
  guard (data.vn vn).isConstant
  return vn

def definedBy (vn : VarnodeId) (opc : OpCode) : Option OpId := do
  let op ← (data.vn vn).getDef
  guard ((data.op op).code = opc)
  return op

/-- The size of the output. -/
def outSize (op : OpId) : Nat := (data.vn (data.op op).output).size

end Patterns

section Reads

variable {data : Funcdata} {op v a b c : Nat} {opc : OpCode} {slot : Nat}

theorem constantIn_eq : constantIn data op slot = some v ↔ getIn data op slot = some v ∧ (data.vn v).isConstant = true := by
  simp only [constantIn, Option.bind_eq_bind, Option.bind_eq_some_iff, Option.guard_eq_some', exists_and_left, exists_const,
    Option.pure_def, Option.some.injEq]
  constructor
  · rintro ⟨v', hv', hconst, rfl⟩
    exact ⟨hv', hconst⟩
  · rintro ⟨hv, hconst⟩
    exact ⟨v, hv, hconst, rfl⟩

theorem definedBy_eq : definedBy data v opc = some op ↔ (data.vn v).getDef = some op ∧ (data.op op).code = opc := by
  simp only [definedBy, Option.bind_eq_bind, Option.bind_eq_some_iff, Option.guard_eq_some', exists_and_left, exists_const,
    Option.pure_def, Option.some.injEq]
  constructor
  · rintro ⟨o', ho', hcode, rfl⟩
    exact ⟨ho', hcode⟩
  · rintro ⟨ho, hcode⟩
    exact ⟨op, ho, hcode, rfl⟩

/-- The inputs that were looked at are all the inputs. -/
theorem inrefs_two (h : WellSized data) (hdef : (data.vn v).getDef = some op) (hcode : (data.op op).code = opc)
    (hopc : opc ∈ twoInputOps) (ha : getIn data op 0 = some a) (hb : getIn data op 1 = some b) : (data.op op).inrefs = [a, b] := by
  obtain ⟨a', b', hin⟩ := h.inrefs_two hdef (hcode ▸ hopc)
  rw [getIn, hin] at ha hb
  cases ha
  cases hb
  exact hin

theorem written_two (h : WellSized data) (hdef : (data.vn v).getDef = some op) (hcode : (data.op op).code = opc)
    (hopc : opc ∈ twoInputOps) (ha : getIn data op 0 = some a) (hb : getIn data op 1 = some b) : Written data v opc [a, b] :=
  ⟨op, hdef, hcode, inrefs_two h hdef hcode hopc ha hb⟩

theorem inrefs_one (h : WellSized data) (hdef : (data.vn v).getDef = some op) (hcode : (data.op op).code = opc)
    (hopc : opc ∈ oneInputOps) (ha : getIn data op 0 = some a) : (data.op op).inrefs = [a] := by
  obtain ⟨a', hin⟩ := h.inrefs_one hdef (hcode ▸ hopc)
  rw [getIn, hin] at ha
  cases ha
  exact hin

theorem written_one (h : WellSized data) (hdef : (data.vn v).getDef = some op) (hcode : (data.op op).code = opc)
    (hopc : opc ∈ oneInputOps) (ha : getIn data op 0 = some a) : Written data v opc [a] :=
  ⟨op, hdef, hcode, inrefs_one h hdef hcode hopc ha⟩

end Reads

end Matching

end GhidraDecompiler.RuleAction
