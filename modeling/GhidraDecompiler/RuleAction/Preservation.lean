import GhidraDecompiler.RuleAction.Editing

namespace GhidraDecompiler.RuleAction.Editing.Funcdata

open Pcode Dataflow
open Expression (VarnodeId OpId)
open RangeMeld.Funcdata (inputVn logicalOp)

/-- The ops whose operands have the size of the output. -/
def sameSizeOps : List OpCode := [.intAdd, .intMult, .intAnd, .intDiv, .intSdiv, .intRem, .intSrem]

def shiftOps : List OpCode := [.intLeft, .intRight, .intSright]

def binaryOps : List OpCode := sameSizeOps ++ shiftOps ++ [.subpiece]

def unaryOps : List OpCode := [.intZext, .intSext]

/-- The sizes of the varnodes of an op with an output of `n` bytes. -/
def sizesLegal (data : Funcdata) (op : RangeMeld.PcodeOp) (n : Nat) : Bool :=
  match op.inrefs with
  | [a] => op.code ∉ binaryOps ∧ (op.code ∈ unaryOps → (data.vn a).size ≤ n)
  | [a, b] =>
      op.code ∉ unaryOps ∧
      (op.code ∈ sameSizeOps → (data.vn a).size = n ∧ (data.vn b).size = n) ∧
      (op.code ∈ shiftOps → (data.vn a).size = n) ∧
      (op.code = .subpiece → (data.vn b).isConstant = true ∧ (data.vn b).offset.toNat + n ≤ (data.vn a).size)
  | _ => op.code ∉ binaryOps ∧ op.code ∉ unaryOps

/-- A graph as the decompiler builds it. -/
structure Legal (data : Funcdata) : Prop where
  blank : ∀ v : Nat, data.numVarnodes ≤ v → (data.vn v).getDef = none ∧ (data.vn v).isConstant = false
  live : ∀ (v : Nat) (o : Nat), (data.vn v).getDef = some o → o < data.numOps
  output : ∀ (v : Nat) (o : Nat), (data.vn v).getDef = some o → (data.op o).output = v
  inrefs : ∀ o : Nat, o < data.numOps → ∀ u : Nat, u ∈ (data.op o).inrefs → u < data.numVarnodes
  constant : ∀ v, (data.vn v).isConstant = true →
    (data.vn v).getDef = none ∧ (data.vn v).isFree = true ∧ (data.vn v).offset.toNat < 2 ^ (8 * (data.vn v).size)
  sizes : ∀ v o, (data.vn v).getDef = some o → data.sizesLegal (data.op o) (data.vn v).size = true

theorem Legal.lt_of_def {data : Funcdata} (h : data.Legal) {v o : Nat} (hdef : (data.vn v).getDef = some o) :
    v < data.numVarnodes := by
  by_contra hge
  rw [(h.blank v (Nat.le_of_not_lt hge)).1] at hdef
  cases hdef

section Sizes

variable {data : Funcdata} {v o a b : Nat}

theorem Legal.sizes_binary (h : data.Legal) (hdef : (data.vn v).getDef = some o) (hin : (data.op o).inrefs = [a, b]) :
    ((data.op o).code ∈ sameSizeOps → (data.vn a).size = (data.vn v).size ∧ (data.vn b).size = (data.vn v).size) ∧
      ((data.op o).code ∈ shiftOps → (data.vn a).size = (data.vn v).size) ∧
      ((data.op o).code = .subpiece →
        (data.vn b).isConstant = true ∧ (data.vn b).offset.toNat + (data.vn v).size ≤ (data.vn a).size) := by
  have hsizes := h.sizes v o hdef
  simp only [sizesLegal, hin] at hsizes
  exact (of_decide_eq_true hsizes).2

theorem Legal.inrefs_binary (h : data.Legal) (hdef : (data.vn v).getDef = some o) (hcode : (data.op o).code ∈ binaryOps) :
    ∃ a b, (data.op o).inrefs = [a, b] := by
  have hsizes := h.sizes v o hdef
  rw [sizesLegal] at hsizes
  split at hsizes
  · exact absurd hcode (of_decide_eq_true hsizes).1
  · next a b hin => exact ⟨a, b, hin⟩
  · exact absurd hcode (of_decide_eq_true hsizes).1

theorem Legal.inref_extension (h : data.Legal) (hdef : (data.vn v).getDef = some o) (hcode : (data.op o).code ∈ unaryOps) :
    ∃ a : Nat, (data.op o).inrefs = [a] ∧ (data.vn a).size ≤ (data.vn v).size := by
  have hsizes := h.sizes v o hdef
  rw [sizesLegal] at hsizes
  split at hsizes
  · next a hin => exact ⟨a, hin, (of_decide_eq_true hsizes).2 hcode⟩
  · exact absurd hcode (of_decide_eq_true hsizes).1
  · exact absurd hcode (of_decide_eq_true hsizes).2

end Sizes

theorem Legal.not_constant {data : Funcdata} (h : data.Legal) {v : VarnodeId} (hfree : (data.vn v).isFree = false) :
    (data.vn v).isConstant = false := by
  by_contra hconst
  have hfree' := (h.constant v (Bool.eq_true_of_not_eq_false hconst)).2.1
  rw [hfree] at hfree'
  cases hfree'

section Extension

variable {sem : Semantics} {data data' : Funcdata} {leaf : VarnodeId → Prop}

/-- The values of the graph are those of the edited graph as well. -/
def Extends (val : Valuation sem data.toFuncdata leaf) (data' : Funcdata) : Prop :=
  ∃ val' : Valuation sem data'.toFuncdata leaf, ∀ v : Nat, v < data.numVarnodes → val'.value v = val.value v

/-- The values that the old varnodes and the new constants have. -/
def knownValue (data : Funcdata) (fresh : List Fresh) (value : VarnodeId → Nat) (v : Nat) : Nat :=
  if v < data.numVarnodes then value v
  else
    match fresh[v - data.numVarnodes]? with
    | some (.constant size val) => val.toNat % 2 ^ (8 * size)
    | _ => 0

/-- The values of the new results as well. -/
def extendValue (sem : Semantics) (data data' : Funcdata) (fresh : List Fresh) (value : VarnodeId → Nat) (v : Nat) : Nat :=
  if v < data.numVarnodes then value v
  else
    match fresh[v - data.numVarnodes]? with
    | some (.constant size val) => val.toNat % 2 ^ (8 * size)
    | some (.result opc ins size) =>
        (sem.apply opc (ins.map (operandOf data'.toFuncdata (knownValue data fresh value))) size).toNat
    | none => 0

/-- A new op reads old varnodes and new constants. -/
def Fresh.Fits (data : Funcdata) (fresh : List Fresh) : Fresh → Prop
  | .constant _ _ => True
  | .result opc ins _ => isLeafOp opc = false ∧ opc ≠ .load ∧
      ∀ u : Nat, u ∈ ins → u < data.numVarnodes ∨ ∃ size val, fresh[u - data.numVarnodes]? = some (.constant size val)

variable {op out : Nat} {code : OpCode} {ins : List VarnodeId} {fresh : List Fresh} {value : VarnodeId → Nat} {v i : Nat}

theorem extendValue_old (hv : v < data.numVarnodes) : extendValue sem data data' fresh value v = value v := if_pos hv

theorem extendValue_fresh (hi : i < fresh.length) : extendValue sem data data' fresh value (data.numVarnodes + i) =
    match fresh[i] with
    | .constant size val => val.toNat % 2 ^ (8 * size)
    | .result opc ins size =>
        (sem.apply opc (ins.map (operandOf data'.toFuncdata (knownValue data fresh value))) size).toNat := by
  rw [extendValue, if_neg (by omega), Nat.add_sub_cancel_left, List.getElem?_eq_getElem hi]
  cases fresh[i] with
  | constant size val => rfl
  | result opc ins size => rfl

/-- Where a new op reads, the known values are all the values. -/
theorem extendValue_eq_known (hv : v < data.numVarnodes ∨ ∃ size val, fresh[v - data.numVarnodes]? = some (.constant size val)) :
    extendValue sem data data' fresh value v = knownValue data fresh value v := by
  rw [extendValue, knownValue]
  split
  · rfl
  · next hge =>
      obtain hlt | ⟨size, val, hget⟩ := hv
      · exact absurd hlt hge
      · rw [hget]

theorem outcomeOf_op_congr {o : OpId} {f g : VarnodeId → Nat} {n : Nat} (hop : data'.op o = data.op o)
    (h : ∀ u ∈ (data.op o).inrefs, (data'.vn u).size = (data.vn u).size ∧ f u = g u) :
    outcomeOf sem data'.toFuncdata f o n = outcomeOf sem data.toFuncdata g o n := by
  have hmap : (data.op o).inrefs.map (operandOf data'.toFuncdata f) = (data.op o).inrefs.map (operandOf data.toFuncdata g) := by
    apply List.map_congr_left
    intro u hu
    obtain ⟨hsize, heq⟩ := h u hu
    rw [operandOf, operandOf, hsize, heq]
  rw [outcomeOf, outcomeOf, hop, hmap]

/-- What there is to know of a varnode of the edited graph. -/
theorem Edited.cases (h : Edited data data' op code ins fresh) (v : Nat) : v < data.numVarnodes ∧ data'.vn v = data.vn v ∨
    (∃ i, ∃ hi : i < fresh.length, v = data.numVarnodes + i ∧ fresh[i].At data' data.numOps v) ∨
    (data.numVarnodes + fresh.length ≤ v ∧ (data'.vn v).getDef = none ∧ (data'.vn v).isConstant = false) := by
  by_cases hv : v < data.numVarnodes
  · exact .inl ⟨hv, h.vn v hv⟩
  · by_cases hlast : v < data.numVarnodes + fresh.length
    · obtain ⟨i, rfl⟩ := Nat.exists_eq_add_of_le (Nat.le_of_not_lt hv)
      exact .inr (.inl ⟨i, by omega, rfl, h.fresh_at i (by omega)⟩)
    · exact .inr (.inr ⟨Nat.le_of_not_lt hlast, h.blank v (by rw [h.numVarnodes]; exact Nat.le_of_not_lt hlast)⟩)

/-- The old ops read old varnodes, whose values and sizes are kept. -/
theorem Edited.outcomeOf_old (hlegal : data.Legal) (h : Edited data data' op code ins fresh) {o n : Nat} {f : VarnodeId → Nat}
    (ho : o < data.numOps) (hne : o ≠ op) (hf : ∀ u : Nat, u < data.numVarnodes → f u = value u) :
    outcomeOf sem data'.toFuncdata f o n = outcomeOf sem data.toFuncdata value o n := by
  refine outcomeOf_op_congr (h.others o ho hne) fun u hu => ?_
  have hlt := hlegal.inrefs o ho u hu
  exact ⟨by rw [h.vn u hlt], hf u hlt⟩

/-- The outcome of a new op, from the known values. -/
theorem outcomeOf_new {o n : Nat} {opc : OpCode} {rins : List VarnodeId} {f : VarnodeId → Nat} (hload : opc ≠ .load)
    (hcode : (data'.op o).code = opc) (hins : (data'.op o).inrefs = rins)
    (hf : ∀ u : Nat, u ∈ rins → f u = knownValue data fresh value u) : outcomeOf sem data'.toFuncdata f o n =
      (sem.apply opc (rins.map (operandOf data'.toFuncdata (knownValue data fresh value))) n).toNat := by
  have hmap : rins.map (operandOf data'.toFuncdata f) = rins.map (operandOf data'.toFuncdata (knownValue data fresh value)) := by
    apply List.map_congr_left
    intro u hu
    rw [operandOf, operandOf, hf u hu]
  rw [outcomeOf, Semantics.outcome, hcode, if_neg hload, hins, hmap]

variable (val : Valuation sem data.toFuncdata leaf)

/-- The old values extend to the edited graph when the op that was edited still gives
its output. -/
theorem Edited.extends_of (hlegal : data.Legal) (h : Edited data data' op code ins fresh) (hfits : ∀ f ∈ fresh, f.Fits data fresh)
    (hout : (data.vn out).getDef = some op)
    (heq : val.value out = outcomeOf sem data'.toFuncdata (extendValue sem data data' fresh val.value) op (data.vn out).size) :
    Extends val data' := by
  have hblank : ∀ v, data.numVarnodes + fresh.length ≤ v → extendValue sem data data' fresh val.value v = 0 := by
    intro v hv
    rw [extendValue, if_neg (by omega), List.getElem?_eq_none (by omega)]
  refine ⟨⟨extendValue sem data data' fresh val.value, ?_, ?_, ?_⟩, fun v hv => extendValue_old hv⟩
  · intro v
    obtain ⟨hv, hvn⟩ | ⟨i, hi, rfl, hat⟩ | ⟨hv, -⟩ := h.cases v
    · rw [extendValue_old hv, hvn]
      exact val.within v
    · rw [extendValue_fresh hi]
      have hfit := hfits _ (List.getElem_mem hi)
      cases hf : fresh[i] with
      | constant size val =>
          rw [hf] at hat hfit
          rw [hat.1]
          exact Nat.mod_lt _ (Nat.two_pow_pos _)
      | result opc rins size =>
          rw [hf] at hat
          rw [hat.1]
          exact BitVec.isLt _
    · rw [hblank v hv]
      exact Nat.two_pow_pos _
  · intro v hconst
    obtain ⟨hv, hvn⟩ | ⟨i, hi, rfl, hat⟩ | ⟨-, -, hv⟩ := h.cases v
    · rw [extendValue_old hv, hvn]
      rw [hvn] at hconst
      exact val.constant v hconst
    · rw [extendValue_fresh hi]
      cases hf : fresh[i] with
      | constant size val =>
          rw [hf] at hat
          rw [hat.2.2.1, hat.1]
      | result opc rins size =>
          rw [hf] at hat
          rw [hat.2.1] at hconst
          cases hconst
    · rw [hv] at hconst
      cases hconst
  · intro v o hcomp
    have hdef := hcomp.1
    obtain ⟨hv, hvn⟩ | ⟨i, hi, rfl, hat⟩ | ⟨-, hv, -⟩ := h.cases v
    · rw [hvn] at hdef
      rw [extendValue_old hv, hvn]
      have ho := hlegal.live v o hdef
      by_cases hop : o = op
      · subst hop
        have hvout : v = out := (hlegal.output v o hdef).symm.trans (hlegal.output out o hout)
        subst hvout
        exact heq
      · have hold := val.computed v o ⟨hdef, hcomp.2.1, by rw [← h.others o ho hop]; exact hcomp.2.2⟩
        rw [hold]
        exact (h.outcomeOf_old hlegal ho hop fun u hu => extendValue_old hu).symm
    · rw [extendValue_fresh hi]
      have hfit := hfits _ (List.getElem_mem hi)
      cases hf : fresh[i] with
      | constant size val =>
          rw [hf] at hat
          rw [hat.2.2.2] at hdef
          cases hdef
      | result opc rins size =>
          rw [hf] at hat hfit
          obtain ⟨hsize, -, o', -, hdef', hcode, hins⟩ := hat
          obtain rfl : o' = o := Option.some.inj (hdef'.symm.trans hdef)
          rw [hsize]
          exact (outcomeOf_new hfit.2.1 hcode hins fun u hu => extendValue_eq_known (hfit.2.2 u hu)).symm
    · rw [hv] at hdef
      cases hdef

/-- Values that extend are the ones above. -/
theorem Edited.extends_eq (hlegal : data.Legal) (h : Edited data data' op code ins fresh) (hfits : ∀ f ∈ fresh, f.Fits data fresh)
    (hleaf : ∀ v : Nat, data.numVarnodes ≤ v → ¬ leaf v) (val' : Valuation sem data'.toFuncdata leaf)
    (hval : ∀ v : Nat, v < data.numVarnodes → val'.value v = val.value v) (hv : v < data.numVarnodes + fresh.length) :
    val'.value v = extendValue sem data data' fresh val.value v := by
  have hknown : ∀ u : Nat, u < data.numVarnodes ∨ (∃ size c, fresh[u - data.numVarnodes]? = some (.constant size c)) →
      val'.value u = knownValue data fresh val.value u := by
    intro u hu
    rw [knownValue]
    by_cases hlt : u < data.numVarnodes
    · rw [if_pos hlt, hval u hlt]
    · rw [if_neg hlt]
      obtain hlt' | ⟨size, c, hget⟩ := hu
      · exact absurd hlt' hlt
      · obtain ⟨hi, hget'⟩ := List.getElem?_eq_some_iff.mp hget
        have hat := h.fresh_at _ hi
        rw [hget', Nat.add_sub_cancel' (Nat.le_of_not_lt hlt)] at hat
        rw [hget, val'.constant u hat.2.1, hat.2.2.1, hat.1]
  by_cases hlt : v < data.numVarnodes
  · rw [extendValue_old hlt, hval v hlt]
  · obtain ⟨i, rfl⟩ := Nat.exists_eq_add_of_le (Nat.le_of_not_lt hlt)
    have hi : i < fresh.length := by omega
    have hat := h.fresh_at i hi
    have hfit := hfits _ (List.getElem_mem hi)
    rw [extendValue_fresh hi]
    cases hf : fresh[i] with
    | constant size c =>
        rw [hf] at hat
        rw [val'.constant _ hat.2.1, hat.2.2.1, hat.1]
    | result opc rins size =>
        rw [hf] at hat hfit
        obtain ⟨hsize, -, o, -, hdef, hcode, hins⟩ := hat
        rw [val'.computed _ o ⟨hdef, hleaf _ (Nat.le_add_right _ _), by rw [hcode]; exact hfit.1⟩, hsize]
        exact outcomeOf_new hfit.2.1 hcode hins fun u hu => hknown u (hfit.2.2 u hu)

/-- The values of the graph are those of the edited graph if and only if the op that was
edited still gives its output. -/
theorem Edited.extends_iff (hlegal : data.Legal) (h : Edited data data' op code ins fresh) (hfits : ∀ f ∈ fresh, f.Fits data fresh)
    (hleaf : ∀ v : Nat, data.numVarnodes ≤ v → ¬ leaf v) (hout : (data.vn out).getDef = some op) (hnot : ¬ leaf out)
    (hcode : isLeafOp code = false) (hins : ∀ u : Nat, u ∈ ins → u < data.numVarnodes + fresh.length) :
    Extends val data' ↔
      val.value out = outcomeOf sem data'.toFuncdata (extendValue sem data data' fresh val.value) op (data.vn out).size := by
  refine ⟨fun ⟨val', hval⟩ => ?_, h.extends_of val hlegal hfits hout⟩
  have hlt := hlegal.lt_of_def hout
  have hvn := h.vn out hlt
  rw [← hval out hlt, val'.computed out op ⟨by rw [hvn]; exact hout, hnot, by rw [h.code_eq]; exact hcode⟩, hvn]
  apply outcomeOf_congr
  intro u hu
  rw [h.ins_eq] at hu
  exact h.extends_eq val hlegal hfits hleaf val' hval (hins u hu)

section Shapes

variable {val} {x m k n : Nat} {c : Word}

/-- Old operands have their old values. -/
theorem Edited.operandOf_old (h : Edited data data' op code ins fresh) (hx : x < data.numVarnodes) (hm : (data.vn x).size = m) :
    operandOf data'.toFuncdata (extendValue sem data data' fresh val.value) x = ⟨m, val.bits m x⟩ := by
  subst hm
  rw [operandOf, extendValue_old hx, h.vn x hx, Valuation.bits]

theorem Edited.operandOf_constant (h : Edited data data' op code ins fresh) (hi : fresh[i]? = some (.constant k c)) :
    operandOf data'.toFuncdata (extendValue sem data data' fresh val.value) (data.numVarnodes + i) = ⟨k, c.setWidth _⟩ := by
  obtain ⟨hlt, hget⟩ := List.getElem?_eq_some_iff.mp hi
  have hat := h.fresh_at i hlt
  rw [hget] at hat
  rw [operandOf, extendValue_fresh hlt, hget]
  obtain ⟨rfl, -⟩ := hat
  congr 1
  apply BitVec.eq_of_toNat_eq
  rw [BitVec.toNat_ofNat, BitVec.toNat_setWidth, Nat.mod_mod]

/-- A new result is what its operation gives on its operands. -/
theorem Edited.operandOf_result (h : Edited data data' op code ins fresh) {opc : OpCode} {rins : List VarnodeId}
    {operands : List Operand} {w : BitVec (8 * k)} (hi : fresh[i]? = some (.result opc rins k))
    (hknown : ∀ u : Nat, u ∈ rins → u < data.numVarnodes ∨ ∃ size val, fresh[u - data.numVarnodes]? = some (.constant size val))
    (hins : rins.map (operandOf data'.toFuncdata (extendValue sem data data' fresh val.value)) = operands)
    (hw : Denotes opc operands k (some w)) :
    operandOf data'.toFuncdata (extendValue sem data data' fresh val.value) (data.numVarnodes + i) = ⟨k, w⟩ := by
  obtain ⟨hlt, hget⟩ := List.getElem?_eq_some_iff.mp hi
  have hat := h.fresh_at i hlt
  rw [hget] at hat
  have hmap : rins.map (operandOf data'.toFuncdata (knownValue data fresh val.value)) = operands := by
    rw [← hins]
    apply List.map_congr_left
    intro u hu
    rw [operandOf, operandOf, extendValue_eq_known (hknown u hu)]
  rw [operandOf, extendValue_fresh hlt, hget]
  obtain ⟨rfl, -⟩ := hat
  simp only [hmap]
  rw [sem.denotes hw, BitVec.ofNat_toNat, BitVec.setWidth_eq]

/-- The op that was edited is an operation on bit vectors. -/
theorem Edited.extends_iff_of (hlegal : data.Legal) (h : Edited data data' op code ins fresh) (hfits : ∀ f ∈ fresh, f.Fits data fresh)
    (hleaf : ∀ v : Nat, data.numVarnodes ≤ v → ¬ leaf v) (hout : (data.vn out).getDef = some op) (hnot : ¬ leaf out)
    (hcode : isLeafOp code = false) (hload : code ≠ .load) (hins : ∀ u : Nat, u ∈ ins → u < data.numVarnodes + fresh.length)
    (hn : (data.vn out).size = n) {operands : List Operand} {w : BitVec (8 * n)}
    (hoperands : ins.map (operandOf data'.toFuncdata (extendValue sem data data' fresh val.value)) = operands)
    (hw : Denotes code operands n (some w)) : Extends val data' ↔ val.bits n out = w := by
  rw [h.extends_iff val hlegal hfits hleaf hout hnot hcode hins, hn, outcomeOf, Semantics.outcome, h.code_eq, if_neg hload,
    h.ins_eq, hoperands, sem.denotes hw, ← Valuation.toNat_bits hn]
  exact ⟨BitVec.eq_of_toNat_eq, fun heq => by rw [heq]⟩

/-- The op has got a new constant as its second input. -/
theorem Edited.extends_iff_constant (hlegal : data.Legal) (h : Edited data data' op code [x, data.numVarnodes] [.constant k c])
    (hleaf : ∀ v : Nat, data.numVarnodes ≤ v → ¬ leaf v) (hout : (data.vn out).getDef = some op)
    (hnot : ¬ leaf out) (hcode : isLeafOp code = false) (hload : code ≠ .load) (hx : x < data.numVarnodes)
    (hm : (data.vn x).size = m) (hn : (data.vn out).size = n) {f : BitVec (8 * m) → BitVec (8 * n)}
    (hf : ∀ y, Denotes code [⟨m, y⟩, ⟨k, c.setWidth _⟩] n (some (f y))) :
    Extends val data' ↔ val.bits n out = f (val.bits m x) := by
  refine h.extends_iff_of hlegal ?_ hleaf hout hnot hcode hload ?_ hn ?_ (hf _)
  · simp only [List.mem_singleton, forall_eq, Fresh.Fits]
  · simp only [List.mem_cons, List.not_mem_nil, or_false, List.length_singleton]
    omega
  · rw [List.map_cons, List.map_singleton, h.operandOf_old hx hm]
    exact congrArg (fun o => [_, o]) (h.operandOf_constant (i := 0) rfl)

section Inner

variable {t : Nat} {opc : OpCode} {rest : List Fresh}

/-- The value of a new op with a new constant as its second input. -/
theorem Edited.operandOf_inner (h : Edited data data' op code ins (.result opc [x, data.numVarnodes + 1] t :: .constant k c :: rest))
    (hx : x < data.numVarnodes) (hm : (data.vn x).size = m) {w : BitVec (8 * t)}
    (hw : Denotes opc [⟨m, val.bits m x⟩, ⟨k, c.setWidth _⟩] t (some w)) :
    operandOf data'.toFuncdata (extendValue sem data data' (.result opc [x, data.numVarnodes + 1] t :: .constant k c :: rest)
      val.value) data.numVarnodes = ⟨t, w⟩ := by
  refine h.operandOf_result (i := 0) rfl ?_ ?_ hw
  · simp only [List.mem_cons, List.not_mem_nil, or_false]
    rintro u (rfl | rfl)
    · exact .inl hx
    · refine .inr ⟨k, c, ?_⟩
      rw [Nat.add_sub_cancel_left]
      rfl
  · rw [List.map_cons, List.map_singleton, h.operandOf_old hx hm, h.operandOf_constant (i := 1) rfl]

theorem inner_fits (hx : x < data.numVarnodes) (hleaf : isLeafOp opc = false) (hload : opc ≠ .load) :
    Fresh.Fits data (.result opc [x, data.numVarnodes + 1] t :: .constant k c :: rest) (.result opc [x, data.numVarnodes + 1] t) := by
  refine ⟨hleaf, hload, ?_⟩
  simp only [List.mem_cons, List.not_mem_nil, or_false]
  rintro u (rfl | rfl)
  · exact .inl hx
  · refine .inr ⟨k, c, ?_⟩
    rw [Nat.add_sub_cancel_left]
    rfl

/-- The op has become a unary operation on the result of a new op. -/
theorem Edited.extends_iff_unary (hlegal : data.Legal)
    (h : Edited data data' op code [data.numVarnodes] [.result opc [x, data.numVarnodes + 1] t, .constant k c])
    (hleaf : ∀ v : Nat, data.numVarnodes ≤ v → ¬ leaf v) (hout : (data.vn out).getDef = some op) (hnot : ¬ leaf out)
    (hcode : isLeafOp code = false) (hload : code ≠ .load) (hcode' : isLeafOp opc = false) (hload' : opc ≠ .load)
    (hx : x < data.numVarnodes) (hm : (data.vn x).size = m) (hn : (data.vn out).size = n)
    {g : BitVec (8 * m) → BitVec (8 * t)} {f : BitVec (8 * t) → BitVec (8 * n)}
    (hg : ∀ y, Denotes opc [⟨m, y⟩, ⟨k, c.setWidth _⟩] t (some (g y))) (hf : ∀ y, Denotes code [⟨t, y⟩] n (some (f y))) :
    Extends val data' ↔ val.bits n out = f (g (val.bits m x)) := by
  refine h.extends_iff_of hlegal ?_ hleaf hout hnot hcode hload ?_ hn ?_ (hf _)
  · simp only [List.mem_cons, List.not_mem_nil, or_false]
    rintro f (rfl | rfl)
    · exact inner_fits hx hcode' hload'
    · trivial
  · simp only [List.mem_cons, List.not_mem_nil, or_false, List.length_cons, List.length_nil]
    omega
  · rw [List.map_singleton, h.operandOf_inner hx hm (hg _)]

/-- The op has become a binary operation on the result of a new op and a new constant. -/
theorem Edited.extends_iff_binary (hlegal : data.Legal) {k' : Nat} {c' : Word}
    (h : Edited data data' op code [data.numVarnodes, data.numVarnodes + 2]
      [.result opc [x, data.numVarnodes + 1] t, .constant k c, .constant k' c'])
    (hleaf : ∀ v : Nat, data.numVarnodes ≤ v → ¬ leaf v) (hout : (data.vn out).getDef = some op) (hnot : ¬ leaf out)
    (hcode : isLeafOp code = false) (hload : code ≠ .load) (hcode' : isLeafOp opc = false) (hload' : opc ≠ .load)
    (hx : x < data.numVarnodes) (hm : (data.vn x).size = m) (hn : (data.vn out).size = n)
    {g : BitVec (8 * m) → BitVec (8 * t)} {f : BitVec (8 * t) → BitVec (8 * n)}
    (hg : ∀ y, Denotes opc [⟨m, y⟩, ⟨k, c.setWidth _⟩] t (some (g y)))
    (hf : ∀ y, Denotes code [⟨t, y⟩, ⟨k', c'.setWidth _⟩] n (some (f y))) :
    Extends val data' ↔ val.bits n out = f (g (val.bits m x)) := by
  refine h.extends_iff_of hlegal ?_ hleaf hout hnot hcode hload ?_ hn ?_ (hf _)
  · simp only [List.mem_cons, List.not_mem_nil, or_false]
    rintro f (rfl | rfl | rfl)
    · exact inner_fits hx hcode' hload'
    · trivial
    · trivial
  · simp only [List.mem_cons, List.not_mem_nil, or_false, List.length_cons, List.length_nil]
    omega
  · rw [List.map_cons, List.map_singleton, h.operandOf_inner hx hm (hg _), h.operandOf_constant (i := 2) rfl]

end Inner

end Shapes

end Extension

section Lists

/-- The graph of these varnodes and ops. -/
def ofLists (vns : List RangeMeld.Varnode) (ops : List RangeMeld.PcodeOp) : Funcdata where
  vn v := vns.getD v (inputVn 0)
  op o := ops.getD o (logicalOp .copy [] 0)
  numVarnodes := vns.length
  numOps := ops.length
  isValueClose _ _ _ := false
  descend v := (List.range ops.length).filter fun o => v ∈ (ops.getD o (logicalOp .copy [] 0)).inrefs
  isPrecisHi _ := false
  isPrecisLo _ := false

/-- The ops come after their operands. -/
def ordered (vns : List RangeMeld.Varnode) (ops : List RangeMeld.PcodeOp) : Bool :=
  let data := ofLists vns ops
  (∀ v < vns.length, ((data.vn v).isConstant = true → (data.vn v).getDef = none ∧ (data.vn v).isFree = true ∧
      (data.vn v).offset.toNat < 2 ^ (8 * (data.vn v).size)) ∧
    ∀ o ∈ (data.vn v).getDef, o < ops.length ∧ (data.op o).output = v ∧ data.sizesLegal (data.op o) (data.vn v).size = true ∧
      ∀ u ∈ (data.op o).inrefs, u < v) ∧
  ∀ o < ops.length, ∀ u ∈ (data.op o).inrefs, u < vns.length

def Ordered (vns : List RangeMeld.Varnode) (ops : List RangeMeld.PcodeOp) : Prop := ordered vns ops = true

instance (vns : List RangeMeld.Varnode) (ops : List RangeMeld.PcodeOp) : Decidable (Ordered vns ops) := inferInstanceAs (Decidable (_ = _))

variable {vns : List RangeMeld.Varnode} {ops : List RangeMeld.PcodeOp}

theorem ofLists_blank {v : Nat} (hv : vns.length ≤ v) : (ofLists vns ops).vn v = inputVn 0 := by
  show vns.getD v (inputVn 0) = _
  rw [List.getD_eq_getElem?_getD, List.getElem?_eq_none hv]
  rfl

theorem lt_of_def {v o : Nat} (hdef : ((ofLists vns ops).vn v).getDef = some o) : v < vns.length := by
  by_contra hv
  rw [ofLists_blank (not_lt.mp hv)] at hdef
  cases hdef

theorem Ordered.at (h : Ordered vns ops) {v o : Nat} (hdef : ((ofLists vns ops).vn v).getDef = some o) :
    o < ops.length ∧ ((ofLists vns ops).op o).output = v ∧
      (ofLists vns ops).sizesLegal ((ofLists vns ops).op o) ((ofLists vns ops).vn v).size = true ∧
      ∀ u ∈ ((ofLists vns ops).op o).inrefs, u < v :=
  ((of_decide_eq_true h).1 v (lt_of_def hdef)).2 o hdef

theorem Ordered.constant (h : Ordered vns ops) {v : Nat} (hconst : ((ofLists vns ops).vn v).isConstant = true) :
    ((ofLists vns ops).vn v).getDef = none ∧ ((ofLists vns ops).vn v).isFree = true ∧
      ((ofLists vns ops).vn v).offset.toNat < 2 ^ (8 * ((ofLists vns ops).vn v).size) := by
  by_cases hv : v < vns.length
  · exact ((of_decide_eq_true h).1 v hv).1 hconst
  · rw [ofLists_blank (not_lt.mp hv)] at hconst
    cases hconst

theorem Ordered.legal (h : Ordered vns ops) : (ofLists vns ops).Legal where
  blank v hv := by
    rw [ofLists_blank hv]
    exact ⟨rfl, rfl⟩
  live v o hdef := (h.at hdef).1
  output v o hdef := (h.at hdef).2.1
  inrefs o ho u hu := (of_decide_eq_true h).2 o ho u hu
  constant v hconst := h.constant hconst
  sizes v o hdef := (h.at hdef).2.2.1

def Ordered.acyclic (h : Ordered vns ops) (leaf : VarnodeId → Prop) : Acyclic (ofLists vns ops).toFuncdata leaf where
  rank v := v
  below v o u hcomp hu := (h.at hcomp.1).2.2.2 u hu
  constant v hconst := (h.constant hconst).1

/-- A rule that returns one has rewritten the graph. -/
theorem exists_rewritten {r : Option (Int × Funcdata)} (h : r.map Prod.fst = some 1) : ∃ data', r = some (1, data') := by
  obtain ⟨⟨code, data'⟩, hr, rfl⟩ := Option.map_eq_some_iff.mp h
  exact ⟨data', hr⟩

end Lists

end GhidraDecompiler.RuleAction.Editing.Funcdata
