import GhidraDecompiler.Dataflow.Values

namespace GhidraDecompiler.RuleAction

open Pcode Dataflow
open Expression (VarnodeId OpId)
open RangeMeld.Funcdata (constantVn)

namespace Editing

/-- The sums of sizes and amounts must not overflow. -/
def checkedI32 (x : Int) : Option Int := if -0x80000000 ≤ x ∧ x < 0x80000000 then some x else none

/-- A function with the readers of its varnodes. -/
structure Funcdata extends RangeMeld.Funcdata where
  numOps : Nat
  descend : VarnodeId → List OpId
  isPrecisHi : VarnodeId → Bool
  isPrecisLo : VarnodeId → Bool

namespace Funcdata

section Edits

variable (data : Funcdata)

def loneDescend (vn : VarnodeId) : Option OpId :=
  match data.descend vn with
  | [op] => some op
  | _ => none

/-- The number of inputs when the varnode is none of them. -/
def getSlot (op : OpId) (vn : VarnodeId) : Nat := (data.op op).inrefs.findIdx (· == vn)

def newConstant (size : Nat) (val : Word) : VarnodeId × Funcdata :=
  let (vn, base) := data.toFuncdata.newConstant size val
  (vn, { data with toFuncdata := base, descend := Function.update data.descend vn [] })

/-- A new op has no inputs yet. -/
def newOp (opc : OpCode) (pc : Address) : OpId × Funcdata :=
  let op : RangeMeld.PcodeOp := { code := opc, inrefs := [], output := 0, addr := pc }
  (data.numOps, { data with op := Function.update data.op data.numOps op, numOps := data.numOps + 1 })

def uniqueVn (size : Nat) (op : OpId) : RangeMeld.Varnode :=
  { size := size, isConstant := false, offset := 0, getDef := some op, isFree := false, isHeritageKnown := true, symbolEntry := none }

def newUniqueOut (size : Nat) (op : OpId) : VarnodeId × Funcdata :=
  (data.numVarnodes, { data with
    vn := Function.update data.vn data.numVarnodes (uniqueVn size op)
    op := Function.update data.op op { data.op op with output := data.numVarnodes }
    numVarnodes := data.numVarnodes + 1
    descend := Function.update data.descend data.numVarnodes [] })

def opSetOpcode (op : OpId) (opc : OpCode) : Funcdata :=
  { data with op := Function.update data.op op { data.op op with code := opc } }

/-- The inputs are set from the first slot on. -/
def setSlot (inrefs : List VarnodeId) (slot : Nat) (vn : VarnodeId) : List VarnodeId :=
  if slot < inrefs.length then inrefs.set slot vn else inrefs ++ [vn]

def opUnsetInput (op : OpId) (slot : Nat) : Funcdata :=
  match (data.op op).inrefs[slot]? with
  | some vn => { data with descend := Function.update data.descend vn ((data.descend vn).erase op) }
  | none => data

/-- A constant that has a reader is copied for another one. -/
def opSetInput (op : OpId) (vn : VarnodeId) (slot : Nat) : Funcdata :=
  if (data.op op).inrefs[slot]? = some vn then data
  else
    let (vn, data) :=
      if (data.vn vn).isConstant && !(data.descend vn).isEmpty then data.newConstant (data.vn vn).size (data.vn vn).offset
      else (vn, data)
    let data := data.opUnsetInput op slot
    { data with
      descend := Function.update data.descend vn (data.descend vn ++ [op])
      op := Function.update data.op op { data.op op with inrefs := setSlot (data.op op).inrefs slot vn } }

def opRemoveInput (op : OpId) (slot : Nat) : Funcdata :=
  let data := data.opUnsetInput op slot
  { data with op := Function.update data.op op { data.op op with inrefs := (data.op op).inrefs.eraseIdx slot } }

/-- A new op with a constant as its second input, and its output. -/
def opWithConstant (opc : OpCode) (pc : Address) (size : Nat) (vn : VarnodeId) (constSize : Nat) (val : Word) :
    VarnodeId × Funcdata :=
  let (newop, data) := data.newOp opc pc
  let (newout, data) := data.newUniqueOut size newop
  let data := data.opSetInput newop vn 0
  let (constvn, data) := data.newConstant constSize val
  (newout, data.opSetInput newop constvn 1)

end Edits

/-- A varnode that an edit adds: a constant, or the output of a new op. -/
inductive Fresh
  | constant (size : Nat) (val : Word)
  | result (opc : OpCode) (ins : List VarnodeId) (size : Nat)

def Fresh.At (data : Funcdata) (numOps v : Nat) : Fresh → Prop
  | .constant size val => (data.vn v).size = size ∧ (data.vn v).isConstant = true ∧ (data.vn v).offset = val ∧ (data.vn v).getDef = none
  | .result opc ins size => (data.vn v).size = size ∧ (data.vn v).isConstant = false ∧
      ∃ o : Nat, numOps ≤ o ∧ (data.vn v).getDef = some o ∧ (data.op o).code = opc ∧ (data.op o).inrefs = ins

/-- One op has got another opcode and other inputs, and there are new varnodes; all the
rest is as it was. -/
structure Edited (data data' : Funcdata) (op : Nat) (code : OpCode) (ins : List VarnodeId) (fresh : List Fresh) : Prop where
  numVarnodes : data'.numVarnodes = data.numVarnodes + fresh.length
  numOps : data.numOps ≤ data'.numOps
  vn : ∀ v : Nat, v < data.numVarnodes → data'.vn v = data.vn v
  blank : ∀ v : Nat, data'.numVarnodes ≤ v → (data'.vn v).getDef = none ∧ (data'.vn v).isConstant = false
  live : ∀ (v : Nat) (o : Nat), (data'.vn v).getDef = some o → o < data'.numOps
  others : ∀ o : Nat, o < data.numOps → o ≠ op → data'.op o = data.op o
  op_lt : op < data.numOps
  code_eq : (data'.op op).code = code
  ins_eq : (data'.op op).inrefs = ins
  fresh_at : ∀ i (h : i < fresh.length), fresh[i].At data' data.numOps (data.numVarnodes + i)

section Steps

variable {data d : Funcdata} {op x : Nat} {code : OpCode} {ins : List VarnodeId} {fresh : List Fresh}

theorem Edited.refl (hblank : ∀ v : Nat, data.numVarnodes ≤ v → (data.vn v).getDef = none ∧ (data.vn v).isConstant = false)
    (hlive : ∀ (v : Nat) (o : Nat), (data.vn v).getDef = some o → o < data.numOps) (hop : op < data.numOps) : Edited data data op (data.op op).code (data.op op).inrefs [] :=
  ⟨rfl, le_rfl, fun _ _ => rfl, hblank, hlive, fun _ _ _ => rfl, hop, rfl, rfl, fun _ h => by cases h⟩

/-- Only the op that is edited changes. -/
theorem Edited.of_op {d' : Funcdata} {code' : OpCode} {ins' : List VarnodeId} (h : Edited data d op code ins fresh)
    (hvn : d'.vn = d.vn) (hnum : d'.numVarnodes = d.numVarnodes) (hops : d'.numOps = d.numOps)
    (hop : ∃ p : RangeMeld.PcodeOp, d'.op = Function.update d.op op p ∧ p.code = code' ∧ p.inrefs = ins') :
    Edited data d' op code' ins' fresh := by
  obtain ⟨p, hp, hcode, hins⟩ := hop
  refine ⟨by rw [hnum, h.numVarnodes], by rw [hops]; exact h.numOps, ?_, ?_, ?_, ?_, h.op_lt, ?_, ?_, ?_⟩
  · intro v hv
    rw [hvn, h.vn v hv]
  · intro v hv
    rw [hvn]
    exact h.blank v (by rw [← hnum]; exact hv)
  · intro v o hdef
    rw [hvn] at hdef
    rw [hops]
    exact h.live v o hdef
  · intro o ho hne
    rw [hp, Function.update_of_ne hne, h.others o ho hne]
  · rw [hp, Function.update_self, hcode]
  · rw [hp, Function.update_self, hins]
  · intro i hi
    have hat := h.fresh_at i hi
    cases hf : fresh[i] with
    | constant size val =>
        rw [hf] at hat
        simpa only [Fresh.At, hvn] using hat
    | result opc rins size =>
        rw [hf] at hat
        obtain ⟨hsize, hconst, o, ho, hdef, hcode', hins'⟩ := hat
        have hne : o ≠ op := by
          have := h.op_lt
          omega
        refine ⟨by rw [hvn]; exact hsize, by rw [hvn]; exact hconst, o, ho, by rw [hvn]; exact hdef, ?_, ?_⟩
        · rw [hp, Function.update_of_ne hne, hcode']
        · rw [hp, Function.update_of_ne hne, hins']

theorem Edited.setOpcode (h : Edited data d op code ins fresh) (opc : OpCode) :
    Edited data (d.opSetOpcode op opc) op opc ins fresh := h.of_op rfl rfl rfl ⟨_, rfl, rfl, h.ins_eq⟩

/-- The varnode is no constant with another reader. -/
def Settable (data : Funcdata) (x : VarnodeId) : Prop := (data.vn x).isConstant = false ∨ data.descend x = []

theorem opUnsetInput_eq (d : Funcdata) (o slot : Nat) : ∃ f, d.opUnsetInput o slot = { d with descend := f } := by
  rw [opUnsetInput]
  split
  · exact ⟨_, rfl⟩
  · exact ⟨d.descend, rfl⟩

theorem opSetInput_spec {o : Nat} (hx : Settable d x) (slot : Nat) : (d.opSetInput o x slot).vn = d.vn ∧
    (d.opSetInput o x slot).numVarnodes = d.numVarnodes ∧ (d.opSetInput o x slot).numOps = d.numOps ∧
    ∃ p : RangeMeld.PcodeOp, (d.opSetInput o x slot).op = Function.update d.op o p ∧ p.code = (d.op o).code ∧
      p.inrefs = setSlot (d.op o).inrefs slot x ∧ p.output = (d.op o).output := by
  rw [opSetInput]
  by_cases hsame : (d.op o).inrefs[slot]? = some x
  · rw [if_pos hsame]
    obtain ⟨hlt, hget⟩ := List.getElem?_eq_some_iff.mp hsame
    refine ⟨rfl, rfl, rfl, d.op o, (Function.update_eq_self o d.op).symm, rfl, ?_, rfl⟩
    rw [setSlot, if_pos hlt, ← hget, List.set_getElem_self]
  · have hdup : ((d.vn x).isConstant && !(d.descend x).isEmpty) = false := by
      rcases hx with hx | hx
      · rw [hx, Bool.false_and]
      · rw [hx]
        exact Bool.and_false _
    rw [if_neg hsame, hdup]
    simp only [Bool.false_eq_true, if_false]
    obtain ⟨f, hf⟩ := opUnsetInput_eq d o slot
    rw [hf]
    exact ⟨rfl, rfl, rfl, _, rfl, rfl, rfl, rfl⟩

theorem Edited.setInput (h : Edited data d op code ins fresh) (hx : Settable d x) (slot : Nat) :
    Edited data (d.opSetInput op x slot) op code (setSlot ins slot x) fresh := by
  obtain ⟨hvn, hnum, hops, p, hp, hcode, hins, -⟩ := opSetInput_spec (o := op) hx slot
  exact h.of_op hvn hnum hops ⟨p, hp, hcode.trans h.code_eq, by rw [hins, h.ins_eq]⟩

theorem Edited.removeInput (h : Edited data d op code ins fresh) (slot : Nat) :
    Edited data (d.opRemoveInput op slot) op code (ins.eraseIdx slot) fresh := by
  obtain ⟨f, hf⟩ := opUnsetInput_eq d op slot
  rw [opRemoveInput, hf]
  exact h.of_op rfl rfl rfl ⟨_, rfl, h.code_eq, by rw [← h.ins_eq]⟩

/-- An old varnode that is not free can be set. -/
theorem Edited.settable (h : Edited data d op code ins fresh) (hx : x < data.numVarnodes)
    (hconst : (data.vn x).isConstant = false) : Settable d x := .inl (by rw [h.vn x hx, hconst])

/-- A new result can be set. -/
theorem Edited.settable_result {i : Nat} {opc : OpCode} {rins : List VarnodeId} {size : Nat} (h : Edited data d op code ins fresh)
    (hi : fresh[i]? = some (.result opc rins size)) : Settable d (data.numVarnodes + i : Nat) := by
  obtain ⟨hlt, hget⟩ := List.getElem?_eq_some_iff.mp hi
  have hat := h.fresh_at i hlt
  rw [hget] at hat
  exact .inl hat.2.1

theorem newConstant_settable (size : Nat) (val : Word) : Settable (d.newConstant size val).2 (d.newConstant size val).1 :=
  .inr (Function.update_self _ _ _)

/-- A new varnode is added; the ops that are there already keep their places. -/
theorem Edited.of_vn {d' : Funcdata} {v : RangeMeld.Varnode} {f : Fresh} (h : Edited data d op code ins fresh)
    (hvn : d'.vn = Function.update d.vn d.numVarnodes v) (hnum : d'.numVarnodes = d.numVarnodes + 1)
    (hops : d.numOps ≤ d'.numOps) (hop : ∀ o : Nat, o < d.numOps → d'.op o = d.op o)
    (hdef : ∀ o : Nat, v.getDef = some o → o < d'.numOps)
    (hf : f.At d' data.numOps d.numVarnodes) : Edited data d' op code ins (fresh ++ [f]) := by
  have hle : data.numVarnodes ≤ d.numVarnodes := by rw [h.numVarnodes]; exact Nat.le_add_right _ _
  have hold : ∀ u, u ≠ d.numVarnodes → d'.vn u = d.vn u := fun u hu => by rw [hvn, Function.update_of_ne hu]
  have hop' := h.op_lt.trans_le h.numOps
  refine ⟨?_, h.numOps.trans hops, ?_, ?_, ?_, ?_, h.op_lt, ?_, ?_, ?_⟩
  · rw [hnum, h.numVarnodes, List.length_append, List.length_singleton, Nat.add_assoc]
  · intro u hu
    rw [hold u (by omega), h.vn u hu]
  · intro u hu
    rw [hold u (by omega)]
    exact h.blank u (by omega)
  · intro u o hu
    by_cases heq : u = d.numVarnodes
    · rw [heq, hvn, Function.update_self] at hu
      exact hdef o hu
    · rw [hold u heq] at hu
      exact (h.live u o hu).trans_le hops
  · intro o ho hne
    rw [hop o (ho.trans_le h.numOps), h.others o ho hne]
  · rw [hop op hop', h.code_eq]
  · rw [hop op hop', h.ins_eq]
  · intro i hi
    rw [List.length_append, List.length_singleton] at hi
    by_cases hlast : i = fresh.length
    · subst hlast
      rw [List.getElem_concat_length rfl, ← h.numVarnodes]
      exact hf
    · have hlt : i < fresh.length := by omega
      have hat := h.fresh_at i hlt
      have hne : data.numVarnodes + i ≠ d.numVarnodes := by
        rw [h.numVarnodes]
        omega
      rw [List.getElem_append_left hlt]
      cases hfi : fresh[i] with
      | constant size val =>
          rw [hfi] at hat
          simpa only [Fresh.At, hold _ hne] using hat
      | result opc rins size =>
          rw [hfi] at hat
          obtain ⟨hsize, hconst, o, ho, hwritten, hcode', hins'⟩ := hat
          have hlt' := h.live _ _ hwritten
          refine ⟨by rw [hold _ hne]; exact hsize, by rw [hold _ hne]; exact hconst, o, ho, by rw [hold _ hne]; exact hwritten, ?_, ?_⟩
          · rw [hop o hlt', hcode']
          · rw [hop o hlt', hins']

theorem Edited.newConstant (h : Edited data d op code ins fresh) (size : Nat) (val : Word) :
    Edited data (d.newConstant size val).2 op code ins (fresh ++ [.constant size val]) := by
  refine h.of_vn rfl rfl le_rfl (fun _ _ => rfl) (fun o ho => by cases ho) ?_
  have hself : (d.newConstant size val).2.vn d.numVarnodes = constantVn size val :=
    Function.update_self _ _ _
  rw [Fresh.At, hself]
  exact ⟨rfl, rfl, rfl, rfl⟩

theorem Edited.newConstant_id (h : Edited data d op code ins fresh) (size : Nat) (val : Word) :
    (d.newConstant size val).1 = data.numVarnodes + fresh.length := h.numVarnodes

/-- A new constant becomes an input. -/
theorem Edited.setConstant (h : Edited data d op code ins fresh) (size : Nat) (val : Word) (slot : Nat) :
    Edited data ((d.newConstant size val).2.opSetInput op (d.newConstant size val).1 slot) op code
      (setSlot ins slot (data.numVarnodes + fresh.length)) (fresh ++ [.constant size val]) := by
  have hset := (h.newConstant size val).setInput (newConstant_settable size val) slot
  rw [h.newConstant_id] at hset
  rw [h.newConstant_id]
  exact hset

theorem Edited.opWithConstant_id (h : Edited data d op code ins fresh) (opc : OpCode) (pc : Address) (size : Nat) (x : VarnodeId)
    (constSize : Nat) (val : Word) : (d.opWithConstant opc pc size x constSize val).1 = data.numVarnodes + fresh.length :=
  h.numVarnodes

theorem Edited.opWithConstant (h : Edited data d op code ins fresh) (opc : OpCode) (pc : Address) (size : Nat)
    (hx : x < data.numVarnodes) (hconst : (data.vn x).isConstant = false) (constSize : Nat) (val : Word) :
    Edited data (d.opWithConstant opc pc size x constSize val).2 op code ins
      (fresh ++ [.result opc [x, data.numVarnodes + fresh.length + 1] size] ++ [.constant constSize val]) := by
  have hne : x ≠ d.numVarnodes := by
    have := h.numVarnodes
    omega
  -- the op with its output
  let d₁ := (d.newOp opc pc).2
  let d₂ := (d₁.newUniqueOut size d.numOps).2
  have hvn₂ : d₂.vn = Function.update d.vn d.numVarnodes (uniqueVn size d.numOps) := rfl
  have hop₂ : ∀ o : Nat, o < d.numOps → d₂.op o = d.op o := by
    intro o ho
    have hne : o ≠ d.numOps := Nat.ne_of_lt ho
    show Function.update (Function.update d.op d.numOps _) d.numOps _ o = d.op o
    rw [Function.update_of_ne hne, Function.update_of_ne hne]
  have hnew₂ : (d₂.op d.numOps).code = opc ∧ (d₂.op d.numOps).inrefs = [] := by
    have hself : d₂.op d.numOps = { d₁.op d.numOps with output := d.numVarnodes } := Function.update_self _ _ _
    have hself' : d₁.op d.numOps = { code := opc, inrefs := [], output := 0, addr := pc } := Function.update_self _ _ _
    rw [hself, hself']
    exact ⟨rfl, rfl⟩
  -- its inputs
  have hset : Settable d₂ x := .inl (by rw [hvn₂, Function.update_of_ne hne, h.vn x hx, hconst])
  obtain ⟨hvn₃, hnum₃, hops₃, p, hp, hpcode, hpins, -⟩ := opSetInput_spec (o := d.numOps) hset 0
  let d₃ := d₂.opSetInput d.numOps x 0
  let d₄ := (d₃.newConstant constSize val).2
  obtain ⟨hvn₅, hnum₅, hops₅, q, hq, hqcode, hqins, -⟩ :=
    opSetInput_spec (o := d.numOps) (newConstant_settable (d := d₃) constSize val) 1
  have hins : q.inrefs = [x, data.numVarnodes + fresh.length + 1] := by
    have hop₄ : d₄.op d.numOps = p := by
      show d₃.op d.numOps = p
      rw [hp, Function.update_self]
    have hid : (d₃.newConstant constSize val).1 = data.numVarnodes + fresh.length + 1 := by
      show d₃.numVarnodes = _
      rw [hnum₃, ← h.numVarnodes]
      rfl
    rw [hqins, hop₄, hpins, hnew₂.2, hid]
    rfl
  have hcode : q.code = opc := by
    rw [hqcode]
    show (d₃.op d.numOps).code = opc
    rw [hp, Function.update_self, hpcode, hnew₂.1]
  have hresult : Edited data { d₂ with op := Function.update d.op d.numOps q } op code ins
      (fresh ++ [.result opc [x, data.numVarnodes + fresh.length + 1] size]) := by
    refine h.of_vn hvn₂ rfl (Nat.le_succ _) (fun o ho => Function.update_of_ne (Nat.ne_of_lt ho) _ _) ?_ ?_
    · intro o ho
      cases ho
      exact Nat.lt_succ_self _
    · have hself : d₂.vn d.numVarnodes = uniqueVn size d.numOps := Function.update_self _ _ _
      refine ⟨by rw [hself]; rfl, by rw [hself]; rfl, d.numOps, h.numOps, by rw [hself]; rfl, ?_, ?_⟩
      · show (Function.update d.op d.numOps q d.numOps).code = opc
        rw [Function.update_self, hcode]
      · show (Function.update d.op d.numOps q d.numOps).inrefs = _
        rw [Function.update_self, hins]
  -- the constant
  have hvn₄ : d₄.vn = Function.update d₂.vn d₂.numVarnodes (constantVn constSize val) := by
    show Function.update d₃.vn d₃.numVarnodes _ = _
    rw [hvn₃, hnum₃]
    rfl
  have hvn := hvn₅.trans hvn₄
  have hop : ∀ o : Nat, o < d.numOps + 1 →
      (d₄.opSetInput d.numOps (d₃.newConstant constSize val).1 1).op o = Function.update d.op d.numOps q o := by
    intro o ho
    refine (congrFun hq o).trans ?_
    by_cases heq : o = d.numOps
    · subst heq
      rw [Function.update_self, Function.update_self]
    · rw [Function.update_of_ne heq, Function.update_of_ne heq]
      refine (congrFun hp o).trans ?_
      rw [Function.update_of_ne heq]
      exact hop₂ o (Nat.lt_of_le_of_ne (Nat.le_of_lt_succ ho) heq)
  refine hresult.of_vn hvn ?_ ?_ hop (fun o ho => by cases ho) ?_
  · exact hnum₅.trans (congrArg (· + 1) hnum₃)
  · exact (hops₅.trans hops₃).ge
  · have hself := (congrFun hvn d₂.numVarnodes).trans (Function.update_self _ _ _)
    exact ⟨congrArg (·.size) hself, congrArg (·.isConstant) hself, congrArg (·.offset) hself, congrArg (·.getDef) hself⟩

end Steps

end Funcdata

end Editing

end GhidraDecompiler.RuleAction
