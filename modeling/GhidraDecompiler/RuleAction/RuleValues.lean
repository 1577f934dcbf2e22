import GhidraDecompiler.Dataflow.FunctionalEquality
import GhidraDecompiler.Pcode.ShiftMasks
import GhidraDecompiler.RuleAction.Matching
import GhidraDecompiler.RuleAction.RewiredValues

namespace GhidraDecompiler.RuleAction.Editing.Funcdata

open Pcode Dataflow BitWords
open Expression (VarnodeId OpId)

/-- The readers of the varnodes are known, and have outputs. -/
structure Linked (data : Funcdata) : Prop where
  reads : ∀ v o : Nat, o ∈ data.descend v → v ∈ (data.op o).inrefs
  outputs : ∀ v o : Nat, o ∈ data.descend v → (data.op o).code ∈ twoInputOps ++ oneInputOps → (data.vn (data.op o).output).getDef = some o
  readers : ∀ v w o : Nat, (data.vn w).getDef = some o → v ∈ (data.op o).inrefs → o ∈ data.descend v

section Inputs

variable {data d : Funcdata} {e e' : Entry} {rest entries : List Entry} {x : Nat}

/-- The op of a rule is going to be edited. -/
theorem Rewired.edit_first (h : WellSized data) {op : Nat} (hout : (data.vn (data.op op).output).getDef = some op) :
    Rewired data data [entryOf data op (data.op op).output] :=
  (Rewired.refl h.toLegal).edit h.toLegal hout fun _ he => absurd he List.not_mem_nil

theorem Rewired.lt (h : Rewired data d entries) (hx : x < data.numVarnodes) : x < d.numVarnodes := hx.trans_le h.numVarnodes

/-- The op reads an old varnode. -/
theorem Rewired.setOld (h : Rewired data d (e :: rest)) (hx : x < data.numVarnodes) (slot : Nat) :
    Rewired data (d.opSetInput e.op x slot) ({ e with args := putArg e.args slot (data.arg x) } :: rest) := by
  have hset := h.setInput (h.lt hx) slot
  rw [h.core.arg_eq hx] at hset
  exact hset

/-- The op reads what another one writes. -/
theorem Rewired.setResult (h : Rewired data d (e :: rest)) (he : e' ∈ e :: rest) (slot : Nat) :
    Rewired data (d.opSetInput e.op e'.out slot) ({ e with args := putArg e.args slot (.varnode e'.out) } :: rest) := by
  have hat := h.entry e' he
  have hset := h.setInput hat.out_lt slot
  rw [arg, hat.notConstant, if_neg (by decide)] at hset
  exact hset

/-- The op reads a new constant. -/
theorem Rewired.setConstant (h : Rewired data d (e :: rest)) (size : Nat) (val : Word) (slot : Nat) :
    Rewired data ((d.newConstant size val).2.opSetInput e.op d.numVarnodes slot)
      ({ e with args := putArg e.args slot (.constant size val) } :: rest) := by
  have hset := (h.newConstant size val).setInput (Nat.lt_succ_self d.numVarnodes) slot
  rw [newConstant_arg] at hset
  exact hset

/-- Both inputs are set; the second one is known before. -/
theorem Rewired.setBoth {y : Nat} (h : Rewired data d (e :: rest)) (hx : x < d.numVarnodes) (hy : y < d.numVarnodes) (s t : Nat) :
    Rewired data ((d.opSetInput e.op x s).opSetInput e.op y t)
      ({ e with args := putArg (putArg e.args s (d.arg x)) t (d.arg y) } :: rest) := by
  obtain ⟨hg, -⟩ := opSetInput_reads h.blank hx e.op s
  have hset := (h.setInput hx s).setInput (hy.trans_le hg.numVarnodes) t
  rw [hg.core.arg_eq hy] at hset
  exact hset

/-- An old varnode and a new constant, that was made first. -/
theorem Rewired.setOldConstant (h : Rewired data d (e :: rest)) (hx : x < data.numVarnodes) (size : Nat) (val : Word) (s t : Nat) :
    Rewired data (((d.newConstant size val).2.opSetInput e.op x s).opSetInput e.op d.numVarnodes t)
      ({ e with args := putArg (putArg e.args s (data.arg x)) t (.constant size val) } :: rest) := by
  have hnew := h.newConstant size val
  have hset := hnew.setBoth (hnew.lt hx) (Nat.lt_succ_self d.numVarnodes) s t
  rw [newConstant_arg, hnew.core.arg_eq hx] at hset
  exact hset

end Inputs

section Order

variable {data : Funcdata} {v w u o o' : Nat}

theorem rank_lt (hacyclic : Acyclic data.toFuncdata noLeaf) (hdef : (data.vn v).getDef = some o)
    (hcode : (data.op o).code ∈ twoInputOps ++ oneInputOps) (hu : u ∈ (data.op o).inrefs) : hacyclic.rank u < hacyclic.rank v :=
  hacyclic.below v o u ⟨hdef, not_false, (not_leaf_of_mem hcode).1⟩ hu

/-- What an op reads is not what comes after it. -/
theorem ne_of_chain (hacyclic : Acyclic data.toFuncdata noLeaf) (hdef : (data.vn v).getDef = some o)
    (hcode : (data.op o).code ∈ twoInputOps ++ oneInputOps) (hu : u ∈ (data.op o).inrefs) (hdef' : (data.vn w).getDef = some o')
    (hcode' : (data.op o').code ∈ twoInputOps ++ oneInputOps) (hv : v ∈ (data.op o').inrefs) : v ≠ u ∧ w ≠ u := by
  have hlt := rank_lt hacyclic hdef hcode hu
  have hlt' := rank_lt hacyclic hdef' hcode' hv
  exact ⟨fun heq => by rw [heq] at hlt; exact Nat.lt_irrefl _ hlt, fun heq => by rw [heq] at hlt'; exact Nat.lt_asymm hlt hlt'⟩

end Order

section OneOp

variable {sem : Semantics} {data d : Funcdata} {leaf : VarnodeId → Prop} {results : List Entry} {e : Entry} {rs : List (Nat × Nat)}
  {n out : Nat} {ops : List Operand} {y : BitVec (8 * n)}

theorem Solves.push {value : VarnodeId → Nat} (hs : Solves sem data d value results rs) (hn : e.size = n)
    (hargs : ∀ w, Fits data value rs w → e.args.map (Arg.operand d w) = ops) (hy : Denotes e.code ops n (some y)) :
    Solves sem data d value (e :: results) ((e.out, y.toNat) :: rs) :=
  hs.cons fun w hw => Entry.holds_iff hn (hargs w hw) hy

/-- One op was edited; the values are kept if and only if it gives its old value. -/
theorem Rewired.extends_one (val : Valuation sem data.toFuncdata leaf) (hlegal : data.Legal) (h : Rewired data d (e :: results))
    (hout : e.out = out) (hs : Solves sem data d val.value results rs) (hnew : ∀ e ∈ results, data.numVarnodes ≤ e.out)
    (hold : ∀ v : Nat, leaf v → v < data.numVarnodes) (hleaf : ¬ leaf out)
    (hcode : ∀ e' ∈ e :: results, e'.code ∈ twoInputOps ++ oneInputOps) (hlt : out < data.numVarnodes) (hn : (data.vn out).size = n)
    (hargs : ∀ w, Fits data val.value rs w → e.args.map (Arg.operand d w) = ops) (hy : Denotes e.code ops n (some y)) :
    Extends val d ↔ val.bits n out = y := by
  subst hout
  have hsize : e.size = n := by rw [← (h.entry e List.mem_cons_self).size, (h.core e.out hlt).1, hn]
  refine Rewired.extends_iff val hlegal (show Rewired data d ([e] ++ results) from h) hs hnew (fun e' he' => ?_)
    (fun e' he' => not_leaf_of_mem (hcode e' he')) fun w hw => ?_
  · rcases List.mem_cons.mp he' with rfl | he'
    · exact hleaf
    · intro hl
      have hge := hnew e' he'
      have hlt' := hold e'.out hl
      omega
  · rw [List.forall_mem_singleton]
    exact Entry.holds_old hsize hw hlt hn (hargs w hw) hy

/-- The op reads what is in the graph already. -/
theorem Rewired.extends_edited (val : Valuation sem data.toFuncdata leaf) (hlegal : data.Legal) (h : Rewired data d [e])
    (hout : e.out = out) (hold : ∀ v : Nat, leaf v → v < data.numVarnodes) (hleaf : ¬ leaf out)
    (hcode : e.code ∈ twoInputOps ++ oneInputOps) (hlt : out < data.numVarnodes) (hn : (data.vn out).size = n)
    (hargs : ∀ w, Fits data val.value [] w → e.args.map (Arg.operand d w) = ops) (hy : Denotes e.code ops n (some y)) :
    Extends val d ↔ val.bits n out = y :=
  h.extends_one val hlegal hout .nil (fun _ he => absurd he List.not_mem_nil) hold hleaf (List.forall_mem_singleton.mpr hcode) hlt hn
    hargs hy

theorem Fits.old {value w : VarnodeId → Nat} (hw : Fits data value rs w) : Fits data value [] w :=
  ⟨hw.1, fun _ hp => absurd hp List.not_mem_nil⟩

/-- The op that was edited may read a new result. -/
theorem Rewired.extends_result {r : Entry} {k : Nat} {z : BitVec (8 * k)} {rops : List Operand} (val : Valuation sem data.toFuncdata leaf)
    (hlegal : data.Legal) (h : Rewired data d [e, r]) (hout : e.out = out) (hnew : data.numVarnodes ≤ r.out)
    (hold : ∀ v : Nat, leaf v → v < data.numVarnodes) (hleaf : ¬ leaf out) (hcode : e.code ∈ twoInputOps ++ oneInputOps)
    (hrcode : r.code ∈ twoInputOps ++ oneInputOps) (hlt : out < data.numVarnodes) (hn : (data.vn out).size = n) (hk : r.size = k)
    (hrargs : ∀ w, Fits data val.value [] w → r.args.map (Arg.operand d w) = rops) (hz : Denotes r.code rops k (some z))
    (hargs : ∀ w, Fits data val.value [] w → Arg.operand d w (.varnode r.out) = ⟨k, z⟩ → e.args.map (Arg.operand d w) = ops)
    (hy : Denotes e.code ops n (some y)) : Extends val d ↔ val.bits n out = y := by
  refine h.extends_one val hlegal hout (Solves.nil.push hk hrargs hz) (List.forall_mem_singleton.mpr hnew) hold hleaf
    (List.forall_mem_cons.mpr ⟨hcode, List.forall_mem_singleton.mpr hrcode⟩) hlt hn (fun w hw => ?_) hy
  exact hargs w hw.old (h.operand_result (List.mem_cons_of_mem _ List.mem_cons_self) hk (hw.2 _ List.mem_cons_self))

end OneOp

section Masks

variable {sem : Semantics} {data : Funcdata} {leaf : VarnodeId → Prop} {nz : VarnodeId → Word} {val : Valuation sem data.toFuncdata leaf}
  {v i n : Nat}

/-- The low word of the value is within the mask. -/
def WithinMask (nz : VarnodeId → Word) (val : Valuation sem data.toFuncdata leaf) (v : Nat) : Prop :=
  Within (BitVec.ofNat 64 (val.value v)) (nz v)

theorem getLsbD_bits : (val.bits n v).getLsbD i = (decide (i < 8 * n) && (val.value v).testBit i) := by
  rw [Valuation.bits, BitVec.getLsbD_ofNat]

theorem WithinMask.bit (h : WithinMask nz val v) (hi : i < 64) (hbit : (val.bits n v).getLsbD i = true) : (nz v).getLsbD i = true := by
  rw [getLsbD_bits, Bool.and_eq_true] at hbit
  exact within_ofNat_iff.mp h i hi hbit.2

/-- A constant has no bits beyond its word. -/
theorem lt_of_constant_bit (hc : (data.vn v).isConstant = true) (hbit : (val.bits n v).getLsbD i = true) : i < 64 := by
  rw [getLsbD_bits, Bool.and_eq_true, val.constant v hc, Nat.testBit_mod_two_pow, Bool.and_eq_true] at hbit
  by_contra hge
  have hzero : (data.vn v).offset.toNat.testBit i = false := BitVec.getLsbD_of_ge _ _ (not_lt.mp hge)
  rw [hzero] at hbit
  exact Bool.false_ne_true hbit.2.2

/-- The bit may be set: the mask allows it or does not reach it. -/
def mayBeSet (data : Funcdata) (nz : VarnodeId → Word) (v : VarnodeId) (i : Nat) : Prop :=
  (nz v).getLsbD i = true ∨ (64 ≤ i ∧ (data.vn v).isConstant = false)

theorem mayBeSet_of_bit (hmask : WithinMask nz val v) (hbit : (val.bits n v).getLsbD i = true) : mayBeSet data nz v i := by
  by_cases hi : i < 64
  · exact .inl (hmask.bit hi hbit)
  · refine .inr ⟨not_lt.mp hi, ?_⟩
    by_contra hc
    exact hi (lt_of_constant_bit (Bool.eq_true_of_not_eq_false hc) hbit)

/-- A leaf may have a bit that may be set, and no other one if it is no constant. -/
theorem exists_bit (sem : Semantics) (h : data.Legal) (hacyclic : Acyclic data.toFuncdata leaf)
    (hconst : ∀ v, (data.vn v).isConstant = true → nz v = (data.vn v).offset) (hleaf : leaf v) (hi : i < 8 * (data.vn v).size)
    (hset : mayBeSet data nz v i) : ∃ val : Valuation sem data.toFuncdata leaf,
      WithinMask nz val v ∧ (val.bits (data.vn v).size v).getLsbD i = true ∧ ((data.vn v).isConstant = false → val.value v = 2 ^ i) := by
  obtain ⟨val, hval⟩ := exists_valuation sem (fun _ => 2 ^ i) hacyclic
  have hvalue : (data.vn v).isConstant = false → val.value v = 2 ^ i := fun hc =>
    hval v hc (fun o ho => ho.2.1 hleaf) (Nat.pow_lt_pow_right (by decide) hi)
  refine ⟨val, ?_, ?_, hvalue⟩
  · rw [WithinMask]
    cases hc : (data.vn v).isConstant with
    | true =>
        rw [hconst v hc, val.constant v hc, Nat.mod_eq_of_lt (h.constant v hc).2.2, BitVec.ofNat_toNat, BitVec.setWidth_eq]
        exact within_iff.mpr fun _ hk => hk
    | false =>
        rw [hvalue hc, within_ofNat_iff]
        intro k hk hbit
        rw [Nat.testBit_two_pow, decide_eq_true_iff] at hbit
        subst hbit
        rcases hset with hset | ⟨hge, -⟩
        · exact hset
        · omega
  · rw [getLsbD_bits, decide_eq_true hi, Bool.true_and]
    cases hc : (data.vn v).isConstant with
    | true =>
        rcases hset with hset | ⟨-, hset⟩
        · rw [val.constant v hc, Nat.testBit_mod_two_pow, decide_eq_true hi, Bool.true_and]
          rw [hconst v hc] at hset
          exact hset
        · rw [hc] at hset
          cases hset
    | false =>
        rw [hvalue hc]
        exact Nat.testBit_two_pow_self

end Masks

section Lists

variable {vns : List RangeMeld.Varnode} {ops : List RangeMeld.PcodeOp}

/-- The graph is well sized, and the ops write their outputs. -/
def linked (vns : List RangeMeld.Varnode) (ops : List RangeMeld.PcodeOp) : Bool :=
  wellSized vns ops ∧ ∀ o < ops.length, (((ofLists vns ops).vn ((ofLists vns ops).op o).output).getDef = some o) ∧
    ((ofLists vns ops).op o).code ≠ .ptradd

theorem wellSized_of_linked (h : linked vns ops = true) : WellSized (ofLists vns ops) := wellSized_ofLists (of_decide_eq_true h).1

theorem linked_ofLists (h : linked vns ops = true) : Linked (ofLists vns ops) where
  reads v o ho := of_decide_eq_true (List.mem_filter.mp ho).2
  outputs v o ho _ := ((of_decide_eq_true h).2 o (List.mem_range.mp (List.mem_filter.mp ho).1)).1
  readers v w o hdef hv := by
    have hlt := (wellSized_of_linked h).live w o hdef
    exact List.mem_filter.mpr ⟨List.mem_range.mpr hlt, decide_eq_true hv⟩

theorem ptraddLegal_of_linked (h : linked vns ops = true) : PtraddLegal (ofLists vns ops).toFuncdata := by
  intro v o hdef hcode
  exact absurd hcode ((of_decide_eq_true h).2 o ((wellSized_of_linked h).live v o hdef)).2

end Lists

end GhidraDecompiler.RuleAction.Editing.Funcdata
