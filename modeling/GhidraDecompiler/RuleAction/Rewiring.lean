import Mathlib.Data.List.InsertIdx
import GhidraDecompiler.RuleAction.Preservation

namespace GhidraDecompiler.RuleAction.Editing.Funcdata

open Pcode Dataflow
open Expression (VarnodeId OpId)

section Edits

variable (data : Funcdata)

/-- A constant that has a reader is copied for another one. -/
def ownConstant (vn : VarnodeId) : VarnodeId × Funcdata :=
  if (data.vn vn).isConstant && !(data.descend vn).isEmpty then data.newConstant (data.vn vn).size (data.vn vn).offset
  else (vn, data)

def opInsertInput (op : OpId) (vn : VarnodeId) (slot : Nat) : Funcdata :=
  let (vn, data) := data.ownConstant vn
  { data with
    descend := Function.update data.descend vn (data.descend vn ++ [op])
    op := Function.update data.op op { data.op op with inrefs := (data.op op).inrefs.insertIdx slot vn } }

/-- The varnode is free afterwards; the op waits for another output. -/
def opUnsetOutput (op : OpId) : Funcdata :=
  let vn := (data.op op).output
  if (data.vn vn).getDef = some op then
    { data with vn := Function.update data.vn vn { data.vn vn with getDef := none, isFree := true } }
  else data

def newUnique (size : Nat) : VarnodeId × Funcdata :=
  (data.numVarnodes, { data with
    vn := Function.update data.vn data.numVarnodes { uniqueVn size 0 with getDef := none, isFree := true }
    numVarnodes := data.numVarnodes + 1
    descend := Function.update data.descend data.numVarnodes [] })

def opSetOutput (op : OpId) (vn : VarnodeId) : Funcdata :=
  if (data.vn vn).getDef = some op then data
  else
    let data := data.opUnsetOutput op
    let data :=
      match (data.vn vn).getDef with
      | some writer => data.opUnsetOutput writer
      | none => data
    { data with
      vn := Function.update data.vn vn { data.vn vn with getDef := some op, isFree := false }
      op := Function.update data.op op { data.op op with output := vn } }

/-- An op without an output is left, that reads nothing. -/
def opDestroy (op : OpId) : Funcdata :=
  let data := data.opUnsetOutput op
  let data := (List.range (data.op op).inrefs.length).foldl (fun data slot => data.opUnsetInput op slot) data
  { data with op := Function.update data.op op { data.op op with inrefs := [] } }

end Edits

/-- What an op reads: a constant, or a varnode that is none. -/
inductive Arg
  | constant (size : Nat) (val : Word)
  | varnode (v : Nat)

def arg (data : Funcdata) (u : Nat) : Arg :=
  if (data.vn u).isConstant then .constant (data.vn u).size (data.vn u).offset else .varnode u

def putArg (args : List Arg) (slot : Nat) (a : Arg) : List Arg := if slot < args.length then args.set slot a else args ++ [a]

/-- An op that is new or not as it was, with its output. -/
structure Entry where
  op : Nat
  out : Nat
  size : Nat
  code : OpCode
  args : List Arg

structure Entry.At (d : Funcdata) (e : Entry) : Prop where
  op_lt : e.op < d.numOps
  out_lt : e.out < d.numVarnodes
  size : (d.vn e.out).size = e.size
  notConstant : (d.vn e.out).isConstant = false
  getDef : (d.vn e.out).getDef = some e.op
  code : (d.op e.op).code = e.code
  inrefs : ∀ u : Nat, u ∈ (d.op e.op).inrefs → u < d.numVarnodes
  args : (d.op e.op).inrefs.map d.arg = e.args

/-- The varnodes keep what is known of them besides their writers. -/
def SameCore (data d : Funcdata) : Prop := ∀ v : Nat, v < data.numVarnodes →
  (d.vn v).size = (data.vn v).size ∧ (d.vn v).isConstant = (data.vn v).isConstant ∧ (d.vn v).offset = (data.vn v).offset

/-- The entries are all that is new; the other ops write what they wrote. -/
structure Rewired (data d : Funcdata) (entries : List Entry) : Prop where
  numVarnodes : data.numVarnodes ≤ d.numVarnodes
  core : SameCore data d
  blank : ∀ v : Nat, d.numVarnodes ≤ v → (d.vn v).getDef = none ∧ (d.vn v).isConstant = false
  live : ∀ (v : Nat) (o : Nat), (d.vn v).getDef = some o → o < d.numOps
  entry : ∀ e ∈ entries, e.At d
  nodup : (entries.map Entry.op).Nodup
  writer : ∀ (v : Nat) (o : Nat), (d.vn v).getDef = some o → (∃ e ∈ entries, e.out = v ∧ e.op = o) ∨
    v < data.numVarnodes ∧ (data.vn v).getDef = some o ∧ d.op o = data.op o ∧ ∀ e ∈ entries, e.op ≠ o

section Steps

variable {data d d' : Funcdata} {e : Entry} {rest entries : List Entry} {x slot size : Nat} {val : Word}

theorem SameCore.arg_eq (h : SameCore data d) (hx : x < data.numVarnodes) : d.arg x = data.arg x := by
  obtain ⟨hsize, hconst, hoffset⟩ := h x hx
  rw [arg, arg, hsize, hconst, hoffset]

theorem SameCore.trans {d₂ : Funcdata} (h : SameCore data d) (h' : SameCore d d₂) (hle : data.numVarnodes ≤ d.numVarnodes) :
    SameCore data d₂ := by
  intro v hv
  obtain ⟨hsize, hconst, hoffset⟩ := h' v (hv.trans_le hle)
  obtain ⟨hsize', hconst', hoffset'⟩ := h v hv
  exact ⟨hsize.trans hsize', hconst.trans hconst', hoffset.trans hoffset'⟩

/-- An entry stays where its op and the writer of its output stay. -/
theorem Entry.At.mono (h : e.At d) (hcore : SameCore d d') (hnum : d.numVarnodes ≤ d'.numVarnodes) (hops : d.numOps ≤ d'.numOps)
    (hdef : (d'.vn e.out).getDef = (d.vn e.out).getDef) (hop : d'.op e.op = d.op e.op) : e.At d' := by
  obtain ⟨hsize, hconst, -⟩ := hcore e.out h.out_lt
  refine ⟨h.op_lt.trans_le hops, h.out_lt.trans_le hnum, hsize.trans h.size, hconst.trans h.notConstant, hdef.trans h.getDef,
    by rw [hop]; exact h.code, fun u hu => ?_, ?_⟩
  · rw [hop] at hu
    exact (h.inrefs u hu).trans_le hnum
  · rw [hop, ← h.args]
    apply List.map_congr_left
    intro u hu
    exact hcore.arg_eq (h.inrefs u hu)

theorem Rewired.perm (h : Rewired data d entries) {entries' : List Entry} (hp : entries.Perm entries') : Rewired data d entries' where
  numVarnodes := h.numVarnodes
  core := h.core
  blank := h.blank
  live := h.live
  entry e he := h.entry e (hp.mem_iff.mpr he)
  nodup := (hp.map Entry.op).nodup_iff.mp h.nodup
  writer v o hdef := by
    rcases h.writer v o hdef with ⟨e, he, heq⟩ | ⟨hv, hdef', hop, hne⟩
    · exact .inl ⟨e, hp.mem_iff.mp he, heq⟩
    · exact .inr ⟨hv, hdef', hop, fun e he => hne e (hp.mem_iff.mpr he)⟩

theorem Rewired.refl (hlegal : data.Legal) : Rewired data data [] where
  numVarnodes := le_rfl
  core _ _ := ⟨rfl, rfl, rfl⟩
  blank := hlegal.blank
  live := hlegal.live
  entry e he := absurd he List.not_mem_nil
  nodup := List.nodup_nil
  writer v o hdef := .inr ⟨hlegal.lt_of_def hdef, hdef, rfl, fun e he => absurd he List.not_mem_nil⟩

/-- An op as it is. -/
def entryOf (data : Funcdata) (op out : Nat) : Entry where
  op := op
  out := out
  size := (data.vn out).size
  code := (data.op op).code
  args := (data.op op).inrefs.map data.arg

/-- An op is going to be edited. -/
theorem Rewired.edit (hlegal : data.Legal) (h : Rewired data data entries) {op out : Nat} (hdef : (data.vn out).getDef = some op)
    (hne : ∀ e ∈ entries, e.op ≠ op) : Rewired data data (entryOf data op out :: entries) where
  numVarnodes := le_rfl
  core := h.core
  blank := h.blank
  live := h.live
  entry := by
    intro e he
    rcases List.mem_cons.mp he with rfl | he
    · have hop := hlegal.live _ _ hdef
      have hconst : (data.vn out).isConstant = false := by
        by_contra hconst
        have hnone := (hlegal.constant out (Bool.eq_true_of_not_eq_false hconst)).1
        rw [hdef] at hnone
        cases hnone
      exact ⟨hop, hlegal.lt_of_def hdef, rfl, hconst, hdef, rfl, hlegal.inrefs _ hop, rfl⟩
    · exact h.entry e he
  nodup := by
    rw [List.map_cons, List.nodup_cons]
    refine ⟨fun hmem => ?_, h.nodup⟩
    obtain ⟨e, he, heq⟩ := List.mem_map.mp hmem
    exact hne e he heq
  writer := by
    intro v o hv
    by_cases ho : o = op
    · subst ho
      exact .inl ⟨_, List.mem_cons_self, (hlegal.output _ _ hdef).symm.trans (hlegal.output _ _ hv), rfl⟩
    · rcases h.writer v o hv with ⟨e, he, heq⟩ | ⟨hlt, hv', hop, hne'⟩
      · exact .inl ⟨e, List.mem_cons_of_mem _ he, heq⟩
      · refine .inr ⟨hlt, hv', hop, fun e he => ?_⟩
        rcases List.mem_cons.mp he with rfl | he
        · exact fun heq => ho heq.symm
        · exact hne' e he

/-- There may be new varnodes that no op writes. -/
structure Grown (d d' : Funcdata) : Prop where
  vn : ∀ v : Nat, v < d.numVarnodes → d'.vn v = d.vn v
  numVarnodes : d.numVarnodes ≤ d'.numVarnodes
  numOps : d'.numOps = d.numOps
  unwritten : ∀ v : Nat, d.numVarnodes ≤ v → (d'.vn v).getDef = none
  blank : ∀ v : Nat, d'.numVarnodes ≤ v → (d'.vn v).isConstant = false

theorem Grown.core (h : Grown d d') : SameCore d d' := by
  intro v hv
  rw [h.vn v hv]
  exact ⟨rfl, rfl, rfl⟩

theorem Grown.getDef_eq (h : Grown d d') {v : Nat} (hv : v < d.numVarnodes) : (d'.vn v).getDef = (d.vn v).getDef := by rw [h.vn v hv]

theorem Grown.lt_of_def (h : Grown d d') {v o : Nat} (hdef : (d'.vn v).getDef = some o) : v < d.numVarnodes := by
  by_contra hge
  rw [h.unwritten v (not_lt.mp hge)] at hdef
  cases hdef

/-- The ops are as they were. -/
theorem Rewired.grow (h : Rewired data d entries) (hg : Grown d d') (hop : d'.op = d.op) : Rewired data d' entries where
  numVarnodes := h.numVarnodes.trans hg.numVarnodes
  core := h.core.trans hg.core h.numVarnodes
  blank v hv := ⟨hg.unwritten v (hg.numVarnodes.trans hv), hg.blank v hv⟩
  live v o hdef := by
    rw [hg.getDef_eq (hg.lt_of_def hdef)] at hdef
    rw [hg.numOps]
    exact h.live v o hdef
  entry e he := (h.entry e he).mono hg.core hg.numVarnodes hg.numOps.ge (hg.getDef_eq (h.entry e he).out_lt) (by rw [hop])
  nodup := h.nodup
  writer v o hdef := by
    rw [hg.getDef_eq (hg.lt_of_def hdef)] at hdef
    rw [hop]
    exact h.writer v o hdef

/-- The first op has got another opcode or other inputs. -/
theorem Rewired.growOp (h : Rewired data d (e :: rest)) (hg : Grown d d') (hop : ∀ o : Nat, o ≠ e.op → d'.op o = d.op o) {code : OpCode}
    {args : List Arg} (hcode : (d'.op e.op).code = code) (hin : ∀ u : Nat, u ∈ (d'.op e.op).inrefs → u < d'.numVarnodes)
    (hargs : (d'.op e.op).inrefs.map d'.arg = args) : Rewired data d' ({ e with code := code, args := args } :: rest) := by
  have hnodup := h.nodup
  rw [List.map_cons, List.nodup_cons] at hnodup
  have hrest : ∀ e' ∈ rest, e'.op ≠ e.op := fun e' he' heq => hnodup.1 (List.mem_map.mpr ⟨e', he', heq⟩)
  refine ⟨h.numVarnodes.trans hg.numVarnodes, h.core.trans hg.core h.numVarnodes,
    fun v hv => ⟨hg.unwritten v (hg.numVarnodes.trans hv), hg.blank v hv⟩, ?_, ?_, ?_, ?_⟩
  · intro v o hdef
    rw [hg.getDef_eq (hg.lt_of_def hdef)] at hdef
    rw [hg.numOps]
    exact h.live v o hdef
  · intro e' he'
    rcases List.mem_cons.mp he' with rfl | he'
    · have hat := h.entry e List.mem_cons_self
      obtain ⟨hsize, hconst, -⟩ := hg.core e.out hat.out_lt
      exact ⟨by rw [hg.numOps]; exact hat.op_lt, hat.out_lt.trans_le hg.numVarnodes, hsize.trans hat.size, hconst.trans hat.notConstant,
        (hg.getDef_eq hat.out_lt).trans hat.getDef, hcode, hin, hargs⟩
    · have hat := h.entry e' (List.mem_cons_of_mem _ he')
      exact hat.mono hg.core hg.numVarnodes hg.numOps.ge (hg.getDef_eq hat.out_lt) (hop _ (hrest e' he'))
  · rw [List.map_cons, List.nodup_cons]
    exact hnodup
  · intro v o hdef
    rw [hg.getDef_eq (hg.lt_of_def hdef)] at hdef
    rcases h.writer v o hdef with ⟨e', he', heq⟩ | ⟨hv, hdef', hop', hne⟩
    · rcases List.mem_cons.mp he' with rfl | he'
      · exact .inl ⟨_, List.mem_cons_self, heq⟩
      · exact .inl ⟨e', List.mem_cons_of_mem _ he', heq⟩
    · have hne' := hne e List.mem_cons_self
      refine .inr ⟨hv, hdef', (hop o hne'.symm).trans hop', fun e' he' => ?_⟩
      rcases List.mem_cons.mp he' with rfl | he'
      · exact hne'
      · exact hne e' (List.mem_cons_of_mem _ he')


section Primitives

variable {code : OpCode} {pc : Address} {op : Nat}

theorem grown_refl (hblank : ∀ v : Nat, d.numVarnodes ≤ v → (d.vn v).getDef = none ∧ (d.vn v).isConstant = false)
    (hvn : d'.vn = d.vn) (hnum : d'.numVarnodes = d.numVarnodes) (hops : d'.numOps = d.numOps) : Grown d d' where
  vn v hv := by rw [hvn]
  numVarnodes := hnum.ge
  numOps := hops
  unwritten v hv := by
    rw [hvn]
    exact (hblank v hv).1
  blank v hv := by
    rw [hvn]
    exact (hblank v (hnum ▸ hv)).2

theorem Rewired.setOpcode (h : Rewired data d (e :: rest)) (code : OpCode) :
    Rewired data (d.opSetOpcode e.op code) ({ e with code := code } :: rest) := by
  have hat := h.entry e List.mem_cons_self
  have hg : Grown d (d.opSetOpcode e.op code) := grown_refl h.blank rfl rfl rfl
  refine h.growOp hg (fun o ho => Function.update_of_ne ho _ _) ?_ ?_ ?_
  · exact congrArg (fun p : RangeMeld.PcodeOp => p.code) (Function.update_self e.op { d.op e.op with code := code } d.op)
  · intro u hu
    simp only [opSetOpcode, Function.update_self] at hu
    exact hat.inrefs u hu
  · simp only [opSetOpcode, Function.update_self]
    exact hat.args

theorem opRemoveInput_eq (d : Funcdata) (op : OpId) (slot : Nat) : ∃ f, d.opRemoveInput op slot = { d with
    descend := f
    op := Function.update d.op op { d.op op with inrefs := (d.op op).inrefs.eraseIdx slot } } := by
  obtain ⟨f, hf⟩ := opUnsetInput_eq d op slot
  rw [opRemoveInput, hf]
  exact ⟨f, rfl⟩

theorem Rewired.removeInput (h : Rewired data d (e :: rest)) (slot : Nat) :
    Rewired data (d.opRemoveInput e.op slot) ({ e with args := e.args.eraseIdx slot } :: rest) := by
  have hat := h.entry e List.mem_cons_self
  obtain ⟨f, hf⟩ := opRemoveInput_eq d e.op slot
  have hg : Grown d (d.opRemoveInput e.op slot) := by
    rw [hf]
    exact grown_refl h.blank rfl rfl rfl
  have hself : (d.opRemoveInput e.op slot).op e.op = { d.op e.op with inrefs := (d.op e.op).inrefs.eraseIdx slot } := by
    rw [hf]
    exact Function.update_self _ _ _
  refine h.growOp hg ?_ (show _ = e.code from ?_) ?_ ?_
  · intro o ho
    rw [hf]
    exact Function.update_of_ne ho _ _
  · rw [hself]
    exact hat.code
  · intro u hu
    rw [hself] at hu
    exact (hat.inrefs u (List.mem_of_mem_eraseIdx hu)).trans_le hg.numVarnodes
  · rw [hself, ← hat.args, List.eraseIdx_map]
    apply List.map_congr_left
    intro u hu
    exact hg.core.arg_eq (hat.inrefs u (List.mem_of_mem_eraseIdx hu))

theorem newConstant_grown (hblank : ∀ v : Nat, d.numVarnodes ≤ v → (d.vn v).getDef = none ∧ (d.vn v).isConstant = false)
    (size : Nat) (val : Word) : Grown d (d.newConstant size val).2 where
  vn v hv := Function.update_of_ne (Nat.ne_of_lt hv) _ _
  numVarnodes := Nat.le_succ _
  numOps := rfl
  unwritten v hv := by
    by_cases heq : v = d.numVarnodes
    · rw [heq]
      exact congrArg (fun w : RangeMeld.Varnode => w.getDef) (Function.update_self d.numVarnodes (RangeMeld.Funcdata.constantVn size val) d.vn)
    · exact (congrArg (fun w : RangeMeld.Varnode => w.getDef) (Function.update_of_ne heq _ _)).trans (hblank v hv).1
  blank v hv := by
    have hne : v ≠ d.numVarnodes := by
      have : d.numVarnodes + 1 ≤ v := hv
      omega
    exact (congrArg (fun w : RangeMeld.Varnode => w.isConstant) (Function.update_of_ne hne _ _)).trans
      (hblank v ((Nat.le_succ _).trans hv)).2

/-- The new constant is the varnode that comes next. -/
theorem newConstant_arg (d : Funcdata) (size : Nat) (val : Word) : (d.newConstant size val).2.arg d.numVarnodes = .constant size val := by
  have hself : (d.newConstant size val).2.vn d.numVarnodes = RangeMeld.Funcdata.constantVn size val := Function.update_self _ _ _
  rw [arg, hself]
  rfl

theorem Rewired.newConstant (h : Rewired data d entries) (size : Nat) (val : Word) : Rewired data (d.newConstant size val).2 entries :=
  h.grow (newConstant_grown h.blank size val) rfl

/-- The varnode that is read in the end is the one that was given, or a copy of it. -/
theorem ownConstant_spec (hblank : ∀ v : Nat, d.numVarnodes ≤ v → (d.vn v).getDef = none ∧ (d.vn v).isConstant = false)
    (hx : x < d.numVarnodes) : Grown d (d.ownConstant x).2 ∧ (d.ownConstant x).2.op = d.op ∧
      (d.ownConstant x).1 < (d.ownConstant x).2.numVarnodes ∧ (d.ownConstant x).2.arg (d.ownConstant x).1 = d.arg x := by
  rw [ownConstant]
  split
  · next hcopy =>
      rw [Bool.and_eq_true] at hcopy
      refine ⟨newConstant_grown hblank _ _, rfl, Nat.lt_succ_self _, (newConstant_arg d _ _).trans ?_⟩
      rw [arg, if_pos hcopy.1]
  · exact ⟨grown_refl hblank rfl rfl rfl, rfl, hx, rfl⟩

theorem map_setSlot (f : VarnodeId → Arg) (inrefs : List VarnodeId) (slot : Nat) (x : VarnodeId) :
    (setSlot inrefs slot x).map f = putArg (inrefs.map f) slot (f x) := by
  rw [setSlot, putArg, List.length_map]
  split
  · exact List.map_set
  · rw [List.map_append, List.map_singleton]

theorem mem_setSlot {inrefs : List VarnodeId} {y u : VarnodeId} (hu : u ∈ setSlot inrefs slot y) : u ∈ inrefs ∨ u = y := by
  rw [setSlot] at hu
  split at hu
  · exact List.mem_or_eq_of_mem_set hu
  · rw [List.mem_append, List.mem_singleton] at hu
    exact hu

/-- The op that is set reads the varnode or a copy of it. -/
theorem opSetInput_reads (hblank : ∀ v : Nat, d.numVarnodes ≤ v → (d.vn v).getDef = none ∧ (d.vn v).isConstant = false)
    (hx : x < d.numVarnodes) (op slot : Nat) : Grown d (d.opSetInput op x slot) ∧
      (∀ o : Nat, o ≠ op → (d.opSetInput op x slot).op o = d.op o) ∧ ((d.opSetInput op x slot).op op).code = (d.op op).code ∧
      ∃ y : Nat, y < (d.opSetInput op x slot).numVarnodes ∧ (d.opSetInput op x slot).arg y = d.arg x ∧
        ((d.opSetInput op x slot).op op).inrefs = setSlot (d.op op).inrefs slot y := by
  by_cases hsame : (d.op op).inrefs[slot]? = some x
  · have heq : d.opSetInput op x slot = d := by rw [opSetInput, if_pos hsame]
    rw [heq]
    obtain ⟨hlt, hget⟩ := List.getElem?_eq_some_iff.mp hsame
    refine ⟨grown_refl hblank rfl rfl rfl, fun _ _ => rfl, rfl, x, hx, rfl, ?_⟩
    rw [setSlot, if_pos hlt, ← hget, List.set_getElem_self]
  · obtain ⟨hg, hop, hlt, harg⟩ := ownConstant_spec hblank hx
    obtain ⟨f, hf⟩ : ∃ f, d.opSetInput op x slot = { (d.ownConstant x).2 with
        descend := f
        op := Function.update d.op op { d.op op with inrefs := setSlot (d.op op).inrefs slot (d.ownConstant x).1 } } := by
      obtain ⟨f, hf⟩ := opUnsetInput_eq (d.ownConstant x).2 op slot
      rw [← hop, opSetInput, if_neg hsame]
      rw [ownConstant] at hf ⊢
      dsimp only
      rw [hf]
      exact ⟨_, rfl⟩
    rw [hf]
    refine ⟨⟨hg.vn, hg.numVarnodes, hg.numOps, hg.unwritten, hg.blank⟩, fun o ho => Function.update_of_ne ho _ _, ?_,
      (d.ownConstant x).1, hlt, harg, ?_⟩
    · simp only [Function.update_self]
    · simp only [Function.update_self]

theorem Rewired.setInput (h : Rewired data d (e :: rest)) (hx : x < d.numVarnodes) (slot : Nat) :
    Rewired data (d.opSetInput e.op x slot) ({ e with args := putArg e.args slot (d.arg x) } :: rest) := by
  have hat := h.entry e List.mem_cons_self
  obtain ⟨hg, hop, hcode, y, hy, harg, hin⟩ := opSetInput_reads h.blank hx e.op slot
  refine h.growOp hg hop (hcode.trans hat.code) ?_ ?_
  · intro u hu
    rw [hin] at hu
    rcases mem_setSlot hu with hu | rfl
    · exact (hat.inrefs u hu).trans_le hg.numVarnodes
    · exact hy
  · rw [hin, map_setSlot, harg, ← hat.args]
    congr 1
    apply List.map_congr_left
    intro u hu
    exact hg.core.arg_eq (hat.inrefs u hu)

/-- The input comes after the last one. -/
theorem Rewired.insertInput (h : Rewired data d (e :: rest)) (hx : x < d.numVarnodes) (hslot : slot = e.args.length) :
    Rewired data (d.opInsertInput e.op x slot) ({ e with args := e.args ++ [d.arg x] } :: rest) := by
  have hat := h.entry e List.mem_cons_self
  obtain ⟨hg, hop, hlt, harg⟩ := ownConstant_spec h.blank hx
  have hlength : slot = (d.op e.op).inrefs.length := by rw [hslot, ← hat.args, List.length_map]
  obtain ⟨f, hf⟩ : ∃ f, d.opInsertInput e.op x slot = { (d.ownConstant x).2 with
      descend := f
      op := Function.update d.op e.op { d.op e.op with inrefs := (d.op e.op).inrefs ++ [(d.ownConstant x).1] } } := by
    rw [← List.insertIdx_length_self, ← hlength, ← hop]
    exact ⟨_, rfl⟩
  have hg' : Grown d (d.opInsertInput e.op x slot) := by
    rw [hf]
    exact ⟨hg.vn, hg.numVarnodes, hg.numOps, hg.unwritten, hg.blank⟩
  have hself : ((d.opInsertInput e.op x slot).op e.op) =
      { d.op e.op with inrefs := (d.op e.op).inrefs ++ [(d.ownConstant x).1] } := by
    rw [hf]
    exact Function.update_self _ _ _
  have hnum : (d.opInsertInput e.op x slot).numVarnodes = (d.ownConstant x).2.numVarnodes := by rw [hf]
  have harg' : (d.opInsertInput e.op x slot).arg = (d.ownConstant x).2.arg := by
    rw [hf]
    rfl
  refine h.growOp hg' ?_ (show _ = e.code from ?_) ?_ ?_
  · intro o ho
    rw [hf]
    exact Function.update_of_ne ho _ _
  · rw [hself]
    exact hat.code
  · intro u hu
    rw [hself, List.mem_append, List.mem_singleton] at hu
    rcases hu with hu | rfl
    · exact (hat.inrefs u hu).trans_le hg'.numVarnodes
    · rw [hnum]
      exact hlt
  · rw [hself, List.map_append, List.map_singleton, harg', harg, ← hat.args]
    congr 1
    apply List.map_congr_left
    intro u hu
    exact hg.core.arg_eq (hat.inrefs u hu)

/-- A new op that has no output yet, with what it reads. -/
structure Pending (d d' : Funcdata) (code : OpCode) (args : List Arg) : Prop where
  vn : ∀ v : Nat, v < d.numVarnodes → d'.vn v = d.vn v
  numVarnodes : d.numVarnodes ≤ d'.numVarnodes
  numOps : d'.numOps = d.numOps + 1
  blank : ∀ v : Nat, d'.numVarnodes ≤ v → (d'.vn v).getDef = none ∧ (d'.vn v).isConstant = false
  unwritten : ∀ v : Nat, d.numVarnodes ≤ v → (d'.vn v).getDef = none
  others : ∀ o : Nat, o ≠ d.numOps → d'.op o = d.op o
  code : (d'.op d.numOps).code = code
  inrefs : ∀ u : Nat, u ∈ (d'.op d.numOps).inrefs → u < d'.numVarnodes
  args : (d'.op d.numOps).inrefs.map d'.arg = args

section PendingOps

variable {args : List Arg}

theorem Pending.core (h : Pending d d' code args) : SameCore d d' := by
  intro v hv
  rw [h.vn v hv]
  exact ⟨rfl, rfl, rfl⟩

theorem newOp_pending (hblank : ∀ v : Nat, d.numVarnodes ≤ v → (d.vn v).getDef = none ∧ (d.vn v).isConstant = false)
    (code : OpCode) (pc : Address) : Pending d (d.newOp code pc).2 code [] := by
  have hself : (d.newOp code pc).2.op d.numOps = { code := code, inrefs := [], output := 0, addr := pc } := Function.update_self _ _ _
  refine ⟨fun _ _ => rfl, le_rfl, rfl, hblank, fun v hv => (hblank v hv).1, fun o ho => Function.update_of_ne ho _ _, ?_, ?_, ?_⟩
  · rw [hself]
  · rw [hself]
    exact fun u hu => absurd hu List.not_mem_nil
  · rw [hself]
    rfl

theorem Pending.setInput (h : Pending d d' code args) (hx : x < d'.numVarnodes) (slot : Nat) :
    Pending d (d'.opSetInput d.numOps x slot) code (putArg args slot (d'.arg x)) := by
  obtain ⟨hg, hop, hcode, y, hy, harg, hin⟩ := opSetInput_reads h.blank hx d.numOps slot
  refine ⟨?_, h.numVarnodes.trans hg.numVarnodes, hg.numOps.trans h.numOps, ?_, ?_, fun o ho => (hop o ho).trans (h.others o ho),
    hcode.trans h.code, ?_, ?_⟩
  · intro v hv
    rw [hg.vn v (hv.trans_le h.numVarnodes), h.vn v hv]
  · exact fun v hv => ⟨hg.unwritten v (hg.numVarnodes.trans hv), hg.blank v hv⟩
  · intro v hv
    by_cases hv' : v < d'.numVarnodes
    · rw [hg.vn v hv']
      exact h.unwritten v hv
    · exact hg.unwritten v (not_lt.mp hv')
  · intro u hu
    rw [hin] at hu
    rcases mem_setSlot hu with hu | rfl
    · exact (h.inrefs u hu).trans_le hg.numVarnodes
    · exact hy
  · rw [hin, map_setSlot, harg, ← h.args]
    congr 1
    apply List.map_congr_left
    intro u hu
    exact hg.core.arg_eq (h.inrefs u hu)

theorem Pending.newConstant (h : Pending d d' code args) (size : Nat) (val : Word) : Pending d (d'.newConstant size val).2 code args := by
  have hg := newConstant_grown h.blank size val
  refine ⟨?_, h.numVarnodes.trans hg.numVarnodes, hg.numOps.trans h.numOps, ?_, ?_, h.others, h.code, ?_, ?_⟩
  · intro v hv
    rw [hg.vn v (hv.trans_le h.numVarnodes), h.vn v hv]
  · exact fun v hv => ⟨hg.unwritten v (hg.numVarnodes.trans hv), hg.blank v hv⟩
  · intro v hv
    by_cases hv' : v < d'.numVarnodes
    · rw [hg.vn v hv']
      exact h.unwritten v hv
    · exact hg.unwritten v (not_lt.mp hv')
  · exact fun u hu => (h.inrefs u hu).trans_le hg.numVarnodes
  · refine Eq.trans ?_ h.args
    apply List.map_congr_left
    intro u hu
    exact hg.core.arg_eq (h.inrefs u hu)

/-- The output comes last. -/
theorem Rewired.pendingOut (h : Rewired data d entries) (hp : Pending d d' code args) (size : Nat) :
    Rewired data (d'.newUniqueOut size d.numOps).2 (⟨d.numOps, d'.numVarnodes, size, code, args⟩ :: entries) := by
  let d₂ := (d'.newUniqueOut size d.numOps).2
  have hnew : d₂.vn d'.numVarnodes = uniqueVn size d.numOps := Function.update_self _ _ _
  have hold : ∀ v : Nat, v ≠ d'.numVarnodes → d₂.vn v = d'.vn v := fun v hv => Function.update_of_ne hv _ _
  have hself : d₂.op d.numOps = { d'.op d.numOps with output := d'.numVarnodes } := Function.update_self _ _ _
  have hop : ∀ o : Nat, o ≠ d.numOps → d₂.op o = d.op o := fun o ho => (Function.update_of_ne ho _ _).trans (hp.others o ho)
  have hcore' : SameCore d' d₂ := by
    intro v hv
    rw [hold v (Nat.ne_of_lt hv)]
    exact ⟨rfl, rfl, rfl⟩
  have hcore : SameCore d d₂ := hp.core.trans hcore' hp.numVarnodes
  have hnum : d.numVarnodes ≤ d₂.numVarnodes := hp.numVarnodes.trans (Nat.le_succ _)
  have hops : d.numOps ≤ d₂.numOps := (Nat.le_succ _).trans hp.numOps.ge
  have hdefs : ∀ v o : Nat, (d₂.vn v).getDef = some o →
      (v = d'.numVarnodes ∧ o = d.numOps) ∨ (d.vn v).getDef = some o ∧ v < d.numVarnodes := by
    intro v o hdef
    by_cases hv : v = d'.numVarnodes
    · rw [hv, hnew] at hdef
      exact .inl ⟨hv, (Option.some.inj hdef).symm⟩
    · rw [hold v hv] at hdef
      by_cases hlt : v < d.numVarnodes
      · rw [hp.vn v hlt] at hdef
        exact .inr ⟨hdef, hlt⟩
      · rw [hp.unwritten v (not_lt.mp hlt)] at hdef
        cases hdef
  refine ⟨h.numVarnodes.trans hnum, h.core.trans hcore h.numVarnodes, ?_, ?_, ?_, ?_, ?_⟩
  · intro v hv
    have hle : d'.numVarnodes + 1 ≤ v := hv
    show (d₂.vn v).getDef = none ∧ (d₂.vn v).isConstant = false
    rw [hold v (by omega)]
    exact hp.blank v (by omega)
  · intro v o hdef
    rcases hdefs v o hdef with ⟨-, rfl⟩ | ⟨hdef, -⟩
    · exact (Nat.lt_succ_self _).trans_le hp.numOps.ge
    · exact (h.live v o hdef).trans_le hops
  · intro e he
    rcases List.mem_cons.mp he with rfl | he
    · refine ⟨(Nat.lt_succ_self _).trans_le hp.numOps.ge, Nat.lt_succ_self _, ?_, ?_, ?_, ?_, ?_, ?_⟩
      · exact congrArg (fun w : RangeMeld.Varnode => w.size) hnew
      · exact congrArg (fun w : RangeMeld.Varnode => w.isConstant) hnew
      · exact congrArg (fun w : RangeMeld.Varnode => w.getDef) hnew
      · exact (congrArg (fun p : RangeMeld.PcodeOp => p.code) hself).trans hp.code
      · intro u hu
        rw [show (d'.newUniqueOut size d.numOps).2.op d.numOps = _ from hself] at hu
        exact (hp.inrefs u hu).trans (Nat.lt_succ_self _)
      · rw [show (d'.newUniqueOut size d.numOps).2.op d.numOps = _ from hself]
        refine Eq.trans ?_ hp.args
        apply List.map_congr_left
        intro u hu
        exact hcore'.arg_eq (hp.inrefs u hu)
    · have hat := h.entry e he
      have hne : e.out ≠ d'.numVarnodes := Nat.ne_of_lt (hat.out_lt.trans_le hp.numVarnodes)
      exact hat.mono hcore hnum hops (by rw [hold _ hne, hp.vn _ hat.out_lt]) (hop _ (Nat.ne_of_lt hat.op_lt))
  · rw [List.map_cons, List.nodup_cons]
    refine ⟨fun hmem => ?_, h.nodup⟩
    obtain ⟨e, he, heq⟩ := List.mem_map.mp hmem
    exact absurd heq (Nat.ne_of_lt (h.entry e he).op_lt)
  · intro v o hdef
    rcases hdefs v o hdef with ⟨rfl, rfl⟩ | ⟨hdef, -⟩
    · exact .inl ⟨_, List.mem_cons_self, rfl, rfl⟩
    · have ho := Nat.ne_of_lt (h.live v o hdef)
      rcases h.writer v o hdef with ⟨e, he, heq⟩ | ⟨hlt', hdef', hop', hne⟩
      · exact .inl ⟨e, List.mem_cons_of_mem _ he, heq⟩
      · refine .inr ⟨hlt', hdef', (hop o ho).trans hop', fun e he => ?_⟩
        rcases List.mem_cons.mp he with rfl | he
        · exact ho.symm
        · exact hne e he

end PendingOps

/-- A new op with a new output; it has no inputs yet. -/
def newOut (d : Funcdata) (code : OpCode) (pc : Address) (size : Nat) : Funcdata :=
  ((d.newOp code pc).2.newUniqueOut size d.numOps).2

theorem newOut_arg (hx : x < d.numVarnodes) : (d.newOut code pc size).arg x = d.arg x := by
  have hold : (d.newOut code pc size).vn x = d.vn x := Function.update_of_ne (Nat.ne_of_lt hx) _ _
  rw [arg, arg, hold]

theorem Rewired.newOut (h : Rewired data d entries) (code : OpCode) (pc : Address) (size : Nat) :
    Rewired data (d.newOut code pc size) (⟨d.numOps, d.numVarnodes, size, code, []⟩ :: entries) :=
  h.pendingOut (newOp_pending h.blank code pc) size

/-- The first op writes another varnode instead of its output. -/
theorem Rewired.moveOut (h : Rewired data d (e :: rest)) {v : Nat} {w : RangeMeld.Varnode} (hv : v < d'.numVarnodes) (hne : v ≠ e.out)
    (hnum : d.numVarnodes ≤ d'.numVarnodes) (hops : d'.numOps = d.numOps)
    (hvn : ∀ u : Nat, u ≠ v → u ≠ e.out → d'.vn u = d.vn u) (hold : d'.vn e.out = { d.vn e.out with getDef := none, isFree := true })
    (hnew : d'.vn v = w) (hdef : w.getDef = some e.op) (hconst : w.isConstant = false)
    (hcore : v < d.numVarnodes → w.size = (d.vn v).size ∧ (d.vn v).isConstant = false ∧ w.offset = (d.vn v).offset)
    (hrest : ∀ e' ∈ rest, e'.out ≠ v) (hop : ∀ o : Nat, (d'.op o).code = (d.op o).code ∧ (d'.op o).inrefs = (d.op o).inrefs)
    (hop' : ∀ o : Nat, o ≠ e.op → d'.op o = d.op o) : Rewired data d' ({ e with out := v, size := w.size } :: rest) := by
  have hnodup := h.nodup
  rw [List.map_cons, List.nodup_cons] at hnodup
  have hopne : ∀ e' ∈ rest, e'.op ≠ e.op := fun e' he' heq => hnodup.1 (List.mem_map.mpr ⟨e', he', heq⟩)
  have houtne : ∀ e' ∈ rest, e'.out ≠ e.out := by
    intro e' he' heq
    have hdef := (h.entry e' (List.mem_cons_of_mem _ he')).getDef
    rw [heq, (h.entry e List.mem_cons_self).getDef] at hdef
    exact hopne e' he' (Option.some.inj hdef).symm
  have hsame : SameCore d d' := by
    intro u hu
    by_cases huv : u = v
    · subst huv
      obtain ⟨hsize, hconst', hoffset⟩ := hcore hu
      rw [hnew, hsize, hconst, hconst', hoffset]
      exact ⟨rfl, rfl, rfl⟩
    · by_cases huo : u = e.out
      · rw [huo, hold]
        exact ⟨rfl, rfl, rfl⟩
      · rw [hvn u huv huo]
        exact ⟨rfl, rfl, rfl⟩
  have hwriter : ∀ u o : Nat, (d'.vn u).getDef = some o → u = v ∧ o = e.op ∨ u ≠ v ∧ u ≠ e.out ∧ (d.vn u).getDef = some o := by
    intro u o hu
    by_cases huv : u = v
    · rw [huv, hnew, hdef] at hu
      exact .inl ⟨huv, (Option.some.inj hu).symm⟩
    · by_cases huo : u = e.out
      · rw [huo, hold] at hu
        cases hu
      · rw [hvn u huv huo] at hu
        exact .inr ⟨huv, huo, hu⟩
  have hat := h.entry e List.mem_cons_self
  refine ⟨h.numVarnodes.trans hnum, h.core.trans hsame h.numVarnodes, ?_, ?_, ?_, (List.nodup_cons.mpr hnodup :), ?_⟩
  · intro u hu
    have := hat.out_lt
    rw [hvn u (by omega) (by omega)]
    exact h.blank u (hnum.trans hu)
  · intro u o hu
    rw [hops]
    rcases hwriter u o hu with ⟨-, rfl⟩ | ⟨-, -, hu⟩
    · exact hat.op_lt
    · exact h.live u o hu
  · intro e' he'
    rcases List.mem_cons.mp he' with rfl | he'
    · refine ⟨by rw [hops]; exact hat.op_lt, hv, by rw [hnew], by rw [hnew, hconst], by rw [hnew, hdef], (hop e.op).1.trans hat.code, ?_, ?_⟩
      · intro u hu
        rw [(hop e.op).2] at hu
        exact (hat.inrefs u hu).trans_le hnum
      · rw [(hop e.op).2]
        refine Eq.trans ?_ hat.args
        apply List.map_congr_left
        intro u hu
        exact hsame.arg_eq (hat.inrefs u hu)
    · have hat' := h.entry e' (List.mem_cons_of_mem _ he')
      exact hat'.mono hsame hnum hops.ge (by rw [hvn _ (hrest e' he') (houtne e' he')]) (hop' _ (hopne e' he'))
  · intro u o hu
    rcases hwriter u o hu with ⟨rfl, rfl⟩ | ⟨huv, huo, hu⟩
    · exact .inl ⟨_, List.mem_cons_self, rfl, rfl⟩
    · rcases h.writer u o hu with ⟨e', he', heq, heq'⟩ | ⟨hlt, hu', hopeq, hne'⟩
      · rcases List.mem_cons.mp he' with rfl | he'
        · exact absurd heq.symm huo
        · exact .inl ⟨e', List.mem_cons_of_mem _ he', heq, heq'⟩
      · have hne'' := hne' e List.mem_cons_self
        refine .inr ⟨hlt, hu', (hop' o hne''.symm).trans hopeq, fun e' he' => ?_⟩
        rcases List.mem_cons.mp he' with rfl | he'
        · exact hne''
        · exact hne' e' (List.mem_cons_of_mem _ he')

theorem opUnsetOutput_numVarnodes (d : Funcdata) (op : OpId) : (d.opUnsetOutput op).numVarnodes = d.numVarnodes := by
  simp only [opUnsetOutput]
  split
  · rfl
  · rfl

/-- The op writes a new varnode instead; the old one is free. -/
theorem Rewired.newOutput (h : Rewired data d (e :: rest)) (hout : (d.op e.op).output = e.out) (size : Nat) :
    Rewired data ((d.opUnsetOutput e.op).newUniqueOut size e.op).2 ({ e with out := (d.opUnsetOutput e.op).numVarnodes, size := size } :: rest) := by
  have hat := h.entry e List.mem_cons_self
  have hunset : d.opUnsetOutput e.op = { d with vn := Function.update d.vn e.out { d.vn e.out with getDef := none, isFree := true } } := by
    rw [opUnsetOutput, hout]
    exact if_pos hat.getDef
  have hne : d.numVarnodes ≠ e.out := (Nat.ne_of_lt hat.out_lt).symm
  rw [hunset]
  refine h.moveOut (w := uniqueVn size e.op) (Nat.lt_succ_self d.numVarnodes) hne (Nat.le_succ _) rfl ?_ ?_ (Function.update_self _ _ _) rfl rfl
    (fun hlt => absurd hlt (Nat.lt_irrefl _)) (fun e' he' => Nat.ne_of_lt (h.entry e' (List.mem_cons_of_mem _ he')).out_lt) ?_ ?_
  · exact fun u hu hu' => (Function.update_of_ne hu _ _).trans (Function.update_of_ne hu' _ _)
  · exact (Function.update_of_ne hne.symm _ _).trans (Function.update_self _ _ _)
  · intro o
    by_cases ho : o = e.op
    · subst ho
      simp only [newUniqueOut, Function.update_self, and_self]
    · simp only [newUniqueOut, Function.update_of_ne ho, and_self]
  · exact fun o ho => Function.update_of_ne ho _ _

end Primitives

end Steps

end GhidraDecompiler.RuleAction.Editing.Funcdata
