import Mathlib.Data.List.Nodup
import GhidraDecompiler.RuleAction.Rewiring

namespace GhidraDecompiler.RuleAction.Editing.Funcdata

open Pcode Dataflow
open Expression (VarnodeId OpId)

variable {sem : Semantics} {data d : Funcdata} {leaf : VarnodeId → Prop} {entries results edited : List Entry} {e : Entry}
  {w value : VarnodeId → Nat} {rs : List (Nat × Nat)}

def Arg.operand (d : Funcdata) (w : VarnodeId → Nat) : Arg → Operand
  | .constant size val => ⟨size, val.setWidth _⟩
  | .varnode v => operandOf d.toFuncdata w v

/-- The output is what the op gives on what it reads. -/
def Entry.Holds (sem : Semantics) (d : Funcdata) (w : VarnodeId → Nat) (e : Entry) : Prop :=
  w e.out = (sem.apply e.code (e.args.map (Arg.operand d w)) e.size).toNat

/-- The values of the old graph are kept, but for some varnodes. -/
def ExtendsOff (hidden : Nat → Prop) (val : Valuation sem data.toFuncdata leaf) (d : Funcdata) : Prop :=
  ∃ val' : Valuation sem d.toFuncdata leaf, ∀ v : Nat, v < data.numVarnodes → ¬ hidden v → val'.value v = val.value v

theorem extendsOff_false {val : Valuation sem data.toFuncdata leaf} : ExtendsOff (fun _ => False) val d ↔ Extends val d := by
  rw [ExtendsOff, Extends]
  simp only [not_false_eq_true, forall_const]

/-- An input as it is read, when the constants have their values. -/
theorem operand_arg {u : Nat} (hconst : (d.vn u).isConstant = true → value u = (d.vn u).offset.toNat % 2 ^ (8 * (d.vn u).size))
    (heq : (d.vn u).isConstant = false → value u % 2 ^ (8 * (d.vn u).size) = w u % 2 ^ (8 * (d.vn u).size)) :
    Arg.operand d w (d.arg u) = operandOf d.toFuncdata value u := by
  rw [arg]
  cases hc : (d.vn u).isConstant with
  | true =>
      rw [if_pos rfl, Arg.operand, operandOf, hconst hc]
      congr 1
      apply BitVec.eq_of_toNat_eq
      rw [BitVec.toNat_setWidth, BitVec.toNat_ofNat, Nat.mod_mod]
  | false =>
      rw [if_neg (by decide), Arg.operand, operandOf, operandOf]
      congr 1
      apply BitVec.eq_of_toNat_eq
      rw [BitVec.toNat_ofNat, BitVec.toNat_ofNat, heq hc]

theorem Entry.At.outcome (hat : e.At d) (hload : e.code ≠ .load) (h : ∀ u : Nat, u ∈ (d.op e.op).inrefs →
      Arg.operand d w (d.arg u) = operandOf d.toFuncdata value u) :
    outcomeOf sem d.toFuncdata value e.op e.size = (sem.apply e.code (e.args.map (Arg.operand d w)) e.size).toNat := by
  have hmap : (d.op e.op).inrefs.map (operandOf d.toFuncdata value) = e.args.map (Arg.operand d w) := by
    rw [← hat.args, List.map_map]
    apply List.map_congr_left
    intro u hu
    exact (h u hu).symm
  rw [outcomeOf, Semantics.outcome, hat.code, if_neg hload, hmap]

section Extension

variable {hidden : Nat → Prop} (val : Valuation sem data.toFuncdata leaf)

/-- Values that hold at the entries are those of a valuation, when the other ops read
nothing that is hidden. -/
theorem Rewired.extendsOff_of (hlegal : data.Legal) (h : Rewired data d entries)
    (hw : ∀ v : Nat, v < data.numVarnodes → ¬ hidden v → w v = val.value v) (hhidden : ∀ v, hidden v → ∃ e ∈ entries, e.out = v)
    (hreads : ∀ v o : Nat, (data.vn v).getDef = some o → (∀ e ∈ entries, e.op ≠ o) → ∀ u : Nat, u ∈ (data.op o).inrefs → ¬ hidden u)
    (hload : ∀ e ∈ entries, e.code ≠ .load) (heq : ∀ e ∈ entries, e.Holds sem d w) : ExtendsOff hidden val d := by
  let value : VarnodeId → Nat := fun v =>
    if (d.vn v).isConstant then (d.vn v).offset.toNat % 2 ^ (8 * (d.vn v).size) else w v % 2 ^ (8 * (d.vn v).size)
  have hconst : ∀ v, (d.vn v).isConstant = true → value v = (d.vn v).offset.toNat % 2 ^ (8 * (d.vn v).size) := fun v hc => if_pos hc
  have hother : ∀ v, (d.vn v).isConstant = false → value v = w v % 2 ^ (8 * (d.vn v).size) := fun v hc => if_neg (by rw [hc]; decide)
  have hold : ∀ v : Nat, v < data.numVarnodes → ¬ hidden v → value v = val.value v := by
    intro v hv hh
    obtain ⟨hsize, hc, hoffset⟩ := h.core v hv
    cases hcv : (d.vn v).isConstant with
    | true => rw [hconst v hcv, val.constant v (hc ▸ hcv), hsize, hoffset]
    | false => rw [hother v hcv, hw v hv hh, hsize, Nat.mod_eq_of_lt (val.within v)]
  have hentry : ∀ e ∈ entries, value e.out = outcomeOf sem d.toFuncdata value e.op e.size := by
    intro e he
    have hat := h.entry e he
    have hval : w e.out < 2 ^ (8 * e.size) := by
      rw [heq e he]
      exact BitVec.isLt _
    rw [hother _ hat.notConstant, hat.size, Nat.mod_eq_of_lt hval, heq e he, hat.outcome (hload e he)]
    intro u hu
    exact operand_arg (hconst u) fun hc => by rw [hother u hc, Nat.mod_mod]
  refine ⟨⟨value, ?_, hconst, ?_⟩, hold⟩
  · intro v
    cases hc : (d.vn v).isConstant with
    | true =>
        rw [hconst v hc]
        exact Nat.mod_lt _ (Nat.two_pow_pos _)
    | false =>
        rw [hother v hc]
        exact Nat.mod_lt _ (Nat.two_pow_pos _)
  · intro v o hcomp
    rcases h.writer v o hcomp.1 with ⟨e, he, rfl, rfl⟩ | ⟨hv, hdef, hop, hne⟩
    · rw [hentry e he, (h.entry e he).size]
    · have hnot : ∀ u : Nat, u ∈ (data.op o).inrefs → ¬ hidden u := hreads v o hdef hne
      have hvis : ¬ hidden v := by
        intro hh
        obtain ⟨e, he, rfl⟩ := hhidden v hh
        have hwriter := (h.entry e he).getDef
        rw [hcomp.1] at hwriter
        exact hne e he (Option.some.inj hwriter).symm
      obtain ⟨hsize, -, -⟩ := h.core v hv
      rw [hold v hv hvis, val.computed v o ⟨hdef, hcomp.2.1, by rw [← hop]; exact hcomp.2.2⟩, hsize]
      refine (outcomeOf_op_congr hop fun u hu => ?_).symm
      have hlt := hlegal.inrefs o (hlegal.live v o hdef) u hu
      exact ⟨(h.core u hlt).1, hold u hlt (hnot u hu)⟩

/-- Every valuation of the edited graph holds at the entries. -/
theorem Rewired.holds (h : Rewired data d entries) (val' : Valuation sem d.toFuncdata leaf) (he : e ∈ entries) (hleaf : ¬ leaf e.out)
    (hcode : isLeafOp e.code = false) (hload : e.code ≠ .load) : e.Holds sem d val'.value := by
  have hat := h.entry e he
  rw [Entry.Holds, val'.computed e.out e.op ⟨hat.getDef, hleaf, by rw [hat.code]; exact hcode⟩, hat.size, hat.outcome hload]
  exact fun u _ => operand_arg (val'.constant u) fun _ => rfl

end Extension

section Solutions

/-- Values that are the old ones where nothing is hidden, and these on the results. -/
def FitsOff (hidden : Nat → Prop) (data : Funcdata) (value : VarnodeId → Nat) (rs : List (Nat × Nat)) (w : VarnodeId → Nat) : Prop :=
  (∀ v : Nat, v < data.numVarnodes → ¬ hidden v → w v = value v) ∧ ∀ p ∈ rs, w p.1 = p.2

/-- The values of the results, each from those of the earlier ones. -/
inductive SolvesOff (hidden : Nat → Prop) (sem : Semantics) (data d : Funcdata) (value : VarnodeId → Nat) :
    List Entry → List (Nat × Nat) → Prop
  | nil : SolvesOff hidden sem data d value [] []
  | cons {e : Entry} {es : List Entry} {rs : List (Nat × Nat)} {x : Nat} (hs : SolvesOff hidden sem data d value es rs)
      (he : ∀ w, FitsOff hidden data value rs w → (e.Holds sem d w ↔ w e.out = x)) :
      SolvesOff hidden sem data d value (e :: es) ((e.out, x) :: rs)

section Hidden

variable {hidden : Nat → Prop}

theorem SolvesOff.holds_iff (h : SolvesOff hidden sem data d value results rs)
    (hw : ∀ v : Nat, v < data.numVarnodes → ¬ hidden v → w v = value v) :
    (∀ e ∈ results, e.Holds sem d w) ↔ ∀ p ∈ rs, w p.1 = p.2 := by
  induction h with
  | nil => simp only [List.not_mem_nil, false_imp_iff, implies_true]
  | cons hs he ih =>
      rw [List.forall_mem_cons, List.forall_mem_cons, ih, and_congr_left_iff]
      exact fun hrs => he w ⟨hw, hrs⟩

theorem SolvesOff.fst_eq (h : SolvesOff hidden sem data d value results rs) : rs.map Prod.fst = results.map Entry.out := by
  induction h with
  | nil => rfl
  | cons hs he ih => rw [List.map_cons, List.map_cons, ih]

end Hidden

/-- Values that are the old ones on the old varnodes, and these on the new results. -/
def Fits (data : Funcdata) (value : VarnodeId → Nat) (rs : List (Nat × Nat)) (w : VarnodeId → Nat) : Prop :=
  (∀ v : Nat, v < data.numVarnodes → w v = value v) ∧ ∀ p ∈ rs, w p.1 = p.2

/-- The values of the new results, each from those of the earlier ones. -/
inductive Solves (sem : Semantics) (data d : Funcdata) (value : VarnodeId → Nat) : List Entry → List (Nat × Nat) → Prop
  | nil : Solves sem data d value [] []
  | cons {e : Entry} {es : List Entry} {rs : List (Nat × Nat)} {x : Nat} (hs : Solves sem data d value es rs)
      (he : ∀ w, Fits data value rs w → (e.Holds sem d w ↔ w e.out = x)) : Solves sem data d value (e :: es) ((e.out, x) :: rs)

theorem fitsOff_false : FitsOff (fun _ => False) data value rs w ↔ Fits data value rs w := by
  rw [FitsOff, Fits]
  simp only [not_false_eq_true, forall_const]

theorem Solves.off (h : Solves sem data d value results rs) : SolvesOff (fun _ => False) sem data d value results rs := by
  induction h with
  | nil => exact .nil
  | cons hs he ih => exact .cons ih fun w hw => he w (fitsOff_false.mp hw)

def assign (value : VarnodeId → Nat) : List (Nat × Nat) → VarnodeId → Nat
  | [] => value
  | p :: rs => Function.update (assign value rs) p.1 p.2

theorem assign_old {v : Nat} (h : ∀ p ∈ rs, p.1 ≠ v) : assign value rs v = value v := by
  induction rs with
  | nil => rfl
  | cons p rs ih =>
      rw [List.forall_mem_cons] at h
      rw [assign, Function.update_of_ne h.1.symm, ih h.2]

theorem assign_new (hnodup : (rs.map Prod.fst).Nodup) {p : Nat × Nat} (hp : p ∈ rs) : assign value rs p.1 = p.2 := by
  induction rs with
  | nil => cases hp
  | cons q rs ih =>
      rw [List.map_cons, List.nodup_cons] at hnodup
      rcases List.mem_cons.mp hp with rfl | hp
      · exact Function.update_self _ _ _
      · have hne : p.1 ≠ q.1 := fun heq => hnodup.1 (List.mem_map.mpr ⟨p, hp, heq⟩)
        rw [assign, Function.update_of_ne hne, ih hnodup.2 hp]

theorem Rewired.nodup_out (h : Rewired data d entries) : (entries.map Entry.out).Nodup := by
  refine List.Nodup.of_map (fun v => (d.vn v).getDef) ?_
  have hmap : (entries.map Entry.out).map (fun v => (d.vn v).getDef) = (entries.map Entry.op).map some := by
    rw [List.map_map, List.map_map]
    apply List.map_congr_left
    intro e he
    exact (h.entry e he).getDef
  rw [hmap]
  exact h.nodup.map (Option.some_injective _)

variable (val : Valuation sem data.toFuncdata leaf)

/-- The values are kept if and only if the ops that were edited give their outputs, from
the values that the results then have. What is hidden is a result, and the other ops do not
read it. -/
theorem Rewired.extendsOff_iff {hidden : Nat → Prop} (hlegal : data.Legal) (h : Rewired data d (edited ++ results))
    (hs : SolvesOff hidden sem data d val.value results rs) (hnew : ∀ e ∈ results, data.numVarnodes ≤ e.out ∨ hidden e.out)
    (hhidden : ∀ v, hidden v → ∃ e ∈ results, e.out = v)
    (hreads : ∀ v o : Nat, (data.vn v).getDef = some o → (∀ e ∈ edited ++ results, e.op ≠ o) →
      ∀ u : Nat, u ∈ (data.op o).inrefs → ¬ hidden u)
    (hleaf : ∀ e ∈ edited ++ results, ¬ leaf e.out) (hcode : ∀ e ∈ edited ++ results, isLeafOp e.code = false ∧ e.code ≠ .load) {P : Prop}
    (hP : ∀ w, FitsOff hidden data val.value rs w → ((∀ e ∈ edited, e.Holds sem d w) ↔ P)) : ExtendsOff hidden val d ↔ P := by
  constructor
  · rintro ⟨val', hval⟩
    have hholds : ∀ e ∈ edited ++ results, e.Holds sem d val'.value := fun e he =>
      h.holds val' he (hleaf e he) (hcode e he).1 (hcode e he).2
    rw [List.forall_mem_append] at hholds
    exact (hP val'.value ⟨hval, (hs.holds_iff hval).mp hholds.2⟩).mp hholds.1
  · intro hp
    have hnodup : (rs.map Prod.fst).Nodup := by
      have hout := h.nodup_out
      rw [List.map_append] at hout
      rw [hs.fst_eq]
      exact (List.nodup_append.mp hout).2.1
    have hold : ∀ v : Nat, v < data.numVarnodes → ¬ hidden v → assign val.value rs v = val.value v := by
      intro v hv hvis
      apply assign_old
      intro p hp heq
      have hmem : p.1 ∈ results.map Entry.out := by
        rw [← hs.fst_eq]
        exact List.mem_map.mpr ⟨p, hp, rfl⟩
      obtain ⟨e, he, hout⟩ := List.mem_map.mp hmem
      rw [heq] at hout
      rcases hnew e he with hge | hh
      · omega
      · exact hvis (hout ▸ hh)
    have hfits : FitsOff hidden data val.value rs (assign val.value rs) := ⟨hold, fun p hp => assign_new hnodup hp⟩
    refine h.extendsOff_of val hlegal hold (fun v hh => ?_) hreads (fun e he => (hcode e he).2) ?_
    · obtain ⟨e, he, hout⟩ := hhidden v hh
      exact ⟨e, List.mem_append_right _ he, hout⟩
    · rw [List.forall_mem_append]
      exact ⟨(hP _ hfits).mpr hp, (hs.holds_iff hold).mpr hfits.2⟩

/-- Nothing is hidden where all the results are new. -/
theorem Rewired.extends_iff (hlegal : data.Legal) (h : Rewired data d (edited ++ results))
    (hs : Solves sem data d val.value results rs) (hnew : ∀ e ∈ results, data.numVarnodes ≤ e.out)
    (hleaf : ∀ e ∈ edited ++ results, ¬ leaf e.out) (hcode : ∀ e ∈ edited ++ results, isLeafOp e.code = false ∧ e.code ≠ .load) {P : Prop}
    (hP : ∀ w, Fits data val.value rs w → ((∀ e ∈ edited, e.Holds sem d w) ↔ P)) : Extends val d ↔ P := by
  rw [← extendsOff_false]
  exact h.extendsOff_iff val hlegal hs.off (fun e he => .inl (hnew e he)) (fun v hf => hf.elim) (fun _ _ _ _ _ _ hf => hf) hleaf hcode
    fun w hw => hP w (fitsOff_false.mp hw)

end Solutions

section Operands

variable {val : Valuation sem data.toFuncdata leaf} {x m : Nat} {ops : List Operand}

theorem Entry.holds_iff {n : Nat} (hn : e.size = n) {y : BitVec (8 * n)} (hargs : e.args.map (Arg.operand d w) = ops)
    (hy : Denotes e.code ops n (some y)) : e.Holds sem d w ↔ w e.out = y.toNat := by
  subst hn
  rw [Entry.Holds, hargs, sem.denotes hy]

/-- The op gives its old output. -/
theorem Entry.holds_same {n : Nat} (hn : e.size = n) {y : BitVec (8 * n)} (hout : w e.out = val.value e.out)
    (hsize : (data.vn e.out).size = n) (hargs : e.args.map (Arg.operand d w) = ops) (hy : Denotes e.code ops n (some y)) :
    e.Holds sem d w ↔ val.bits n e.out = y := by
  rw [Entry.holds_iff hn hargs hy, hout, ← Valuation.toNat_bits hsize]
  exact ⟨BitVec.eq_of_toNat_eq, fun heq => by rw [heq]⟩

theorem Entry.holds_old {n : Nat} (hn : e.size = n) {y : BitVec (8 * n)} (hw : Fits data val.value rs w)
    (hout : e.out < data.numVarnodes) (hsize : (data.vn e.out).size = n) (hargs : e.args.map (Arg.operand d w) = ops)
    (hy : Denotes e.code ops n (some y)) : e.Holds sem d w ↔ val.bits n e.out = y := holds_same hn (hw.1 e.out hout) hsize hargs hy

/-- An old input has the value that it had. -/
theorem Rewired.operand_same (h : Rewired data d entries) (hw : w x = val.value x) (hx : x < data.numVarnodes)
    (hm : (data.vn x).size = m) : Arg.operand d w (data.arg x) = ⟨m, val.bits m x⟩ := by
  subst hm
  rw [← h.core.arg_eq hx]
  obtain ⟨hsize, hconst, hoffset⟩ := h.core x hx
  have harg : Arg.operand d w (d.arg x) = operandOf d.toFuncdata val.value x := by
    refine operand_arg (fun hc => ?_) fun _ => by rw [hw]
    rw [hsize, hoffset, val.constant x (hconst ▸ hc)]
  rw [harg, operandOf, hsize, Valuation.bits]

/-- Old inputs have their old values. -/
theorem Rewired.operand_old (h : Rewired data d entries) (hw : Fits data val.value rs w) (hx : x < data.numVarnodes)
    (hm : (data.vn x).size = m) : Arg.operand d w (data.arg x) = ⟨m, val.bits m x⟩ := h.operand_same (hw.1 x hx) hx hm

/-- A new result has the value that its op gives. -/
theorem Rewired.operand_result (h : Rewired data d entries) (he : e ∈ entries) {k : Nat} (hk : e.size = k) {y : BitVec (8 * k)}
    (hw : w e.out = y.toNat) : Arg.operand d w (.varnode e.out) = ⟨k, y⟩ := by
  subst hk
  rw [Arg.operand, operandOf, (h.entry e he).size, hw, BitVec.ofNat_toNat, BitVec.setWidth_eq]

end Operands

end GhidraDecompiler.RuleAction.Editing.Funcdata
