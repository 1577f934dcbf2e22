import GhidraDecompiler.Lib.BitPieces
import GhidraDecompiler.RuleAction.RuleValues

namespace GhidraDecompiler.RuleAction

open Pcode Dataflow BitPieces BitWords
open Expression (VarnodeId OpId)
open Editing (Funcdata)
open Editing.Funcdata
open Matching
open RangeMeld.Funcdata (inputVn constantVn writtenVn logicalOp)

namespace RuleAndPiece

/-- The operand that is a concatenation, its two parts, and the op that replaces it. -/
structure Found where
  slot : Nat
  piecevn : VarnodeId
  othervn : VarnodeId
  opc : OpCode
  highvn : VarnodeId
  lowvn : VarnodeId

section Rule

variable (data : Funcdata) (nz : VarnodeId → Word)

/-- The part that is dropped: the high one, or else the low one. -/
def chooseOp (othermask : Word) (highvn lowvn : VarnodeId) : Option OpCode :=
  if nz highvn &&& wrappingShr othermask ((data.vn lowvn).size * 8) = 0 then
    if nz highvn = 0 ∧ (data.vn highvn).isConstant then none else some .intZext
  else if nz lowvn &&& othermask = 0 then
    if (data.vn lowvn).isConstant then none else some .piece
  else none

def look (op : OpId) (slot : Nat) : Option Found := do
  let piecevn ← getIn data op slot
  let pieceop ← definedBy data piecevn .piece
  let othervn ← getIn data op (1 - slot)
  let othermask := nz othervn
  guard (othermask ≠ Pcode.calcMask (outSize data op))
  guard (othermask ≠ 0)
  let highvn ← getIn data pieceop 0
  guard (data.vn highvn).isHeritageKnown
  let lowvn ← getIn data pieceop 1
  guard (data.vn lowvn).isHeritageKnown
  let opc ← chooseOp data nz othermask highvn lowvn
  return { slot := slot, piecevn := piecevn, othervn := othervn, opc := opc, highvn := highvn, lowvn := lowvn }

def find (op : OpId) : Option Found := [0, 1].findSome? (look data nz op)

/-- The new op gets its output when its inputs have been set. -/
def rewrite (op : OpId) (found : Found) : Funcdata :=
  let size := outSize data op
  let addr := (data.op op).addr
  let (newop, data) :=
    if found.opc = .intZext then
      let (newop, data) := data.newOp found.opc addr
      (newop, data.opSetInput newop found.lowvn 0)
    else
      let (newvn2, data) := data.newConstant (data.vn found.lowvn).size 0
      let (newop, data) := data.newOp found.opc addr
      let data := data.opSetInput newop found.highvn 0
      (newop, data.opSetInput newop newvn2 1)
  let (newvn, data) := data.newUniqueOut size newop
  data.opSetInput op newvn found.slot

def applyOp (op : OpId) : Int × Funcdata :=
  match find data nz op with
  | none => (0, data)
  | some found => (1, rewrite data op found)

/-- The two parts and the other operand may have any values. -/
def Found.Leaf (found : Found) (v : VarnodeId) : Prop :=
  v = found.highvn ∨ v = found.lowvn ∨ v = found.othervn ∧ found.othervn ≠ found.piecevn

/-- No bit is dropped beyond the word of the masks, where the other operand may have any
bits. -/
def Found.Exact (found : Found) : Prop :=
  (data.vn found.othervn).isConstant = true ∨
    if found.opc = .intZext then
      ∀ i < 8 * (data.vn found.highvn).size, 64 ≤ 8 * (data.vn found.lowvn).size + i → ¬ mayBeSet data nz found.highvn i
    else (data.vn found.lowvn).size ≤ 8

end Rule

section Matches

variable {data data' : Funcdata} {nz : VarnodeId → Word} {op : Nat} {found : Found}

structure Found.Matches (found : Found) (data : Funcdata) (nz : VarnodeId → Word) (op : OpId) : Prop where
  slot : found.slot ≤ 1
  piecevn : getIn data op found.slot = some found.piecevn
  othervn : getIn data op (1 - found.slot) = some found.othervn
  written : Written data found.piecevn .piece [found.highvn, found.lowvn]
  opc : chooseOp data nz (nz found.othervn) found.highvn found.lowvn = some found.opc

theorem find_matches (h : WellSized data) (hfind : find data nz op = some found) : found.Matches data nz op := by
  obtain ⟨slot, hslot, hlook⟩ := List.exists_of_findSome?_eq_some hfind
  simp only [look, Option.bind_eq_bind, Option.bind_eq_some_iff, Option.guard_eq_some', exists_and_left, exists_const, Option.pure_def,
    Option.some.injEq] at hlook
  obtain ⟨piecevn, hpiece, pieceop, hpieceop, othervn, hother, -, -, highvn, hhigh, -, lowvn, hlow, -, opc, hopc, rfl⟩ := hlook
  obtain ⟨hdef, hcode⟩ := definedBy_eq.mp hpieceop
  refine ⟨?_, hpiece, hother, written_two h hdef hcode (by decide) hhigh hlow, hopc⟩
  rcases List.mem_cons.mp hslot with rfl | hslot
  · exact Nat.zero_le 1
  · rw [List.mem_singleton.mp hslot]

theorem Found.Matches.inrefs (hm : found.Matches data nz op) (h : WellSized data) (hout : (data.vn (data.op op).output).getDef = some op)
    (hcode : (data.op op).code = .intAnd) :
    (data.op op).inrefs = if found.slot = 0 then [found.piecevn, found.othervn] else [found.othervn, found.piecevn] := by
  obtain ⟨a, b, hin⟩ := h.inrefs_two hout (by rw [hcode]; decide)
  have hpiece := hm.piecevn
  have hother := hm.othervn
  have hslot := hm.slot
  rw [getIn, hin] at hpiece hother
  obtain hs | hs : found.slot = 0 ∨ found.slot = 1 := by omega
  · rw [hs] at hpiece hother
    cases hpiece
    cases hother
    rw [hin, if_pos hs]
  · rw [hs] at hpiece hother
    cases hpiece
    cases hother
    rw [hin, if_neg (by omega)]

/-- What the new op reads. -/
def Found.newArgs (found : Found) (data : Funcdata) : List Arg :=
  if found.opc = .intZext then [data.arg found.lowvn] else [data.arg found.highvn, .constant (data.vn found.lowvn).size 0]

/-- The new op, and the operand that it takes the place of. -/
theorem rewrite_rewired (h : WellSized data) (hm : found.Matches data nz op) (hout : (data.vn (data.op op).output).getDef = some op)
    (hcode : (data.op op).code = .intAnd) : ∃ newop newvn : Nat, data.numVarnodes ≤ newvn ∧
      Rewired data (rewrite data op found) [{ entryOf data op (data.op op).output with
        args := if found.slot = 0 then [.varnode newvn, data.arg found.othervn] else [data.arg found.othervn, .varnode newvn] },
        ⟨newop, newvn, outSize data op, found.opc, found.newArgs data⟩] := by
  have hedit := (Rewired.refl h.toLegal).edit h.toLegal hout (fun _ he => absurd he List.not_mem_nil)
  have hargs : (entryOf data op (data.op op).output).args =
      if found.slot = 0 then [data.arg found.piecevn, data.arg found.othervn] else [data.arg found.othervn, data.arg found.piecevn] := by
    rw [entryOf, hm.inrefs h hout hcode]
    split
    · rfl
    · rfl
  obtain ⟨-, hlt⟩ := hm.written.lt h.toLegal
  have hhigh := hlt found.highvn (by simp)
  have hlow := hlt found.lowvn (by simp)
  -- the operand is replaced in its slot
  have hreplace : ∀ (d : Funcdata) (new : Entry), Rewired data d [new, entryOf data op (data.op op).output] →
      Rewired data (d.opSetInput op new.out found.slot) [{ entryOf data op (data.op op).output with
        args := if found.slot = 0 then [.varnode new.out, data.arg found.othervn] else [data.arg found.othervn, .varnode new.out] }, new] := by
    intro d new hnew
    have hset := (hnew.perm (List.Perm.swap _ _ _)).setResult (List.mem_cons_of_mem _ List.mem_cons_self) found.slot
    have hslot := hm.slot
    rw [hargs] at hset
    match hs : found.slot, hslot with
    | 0, _ =>
        rw [hs] at hset
        exact hset
    | 1, _ =>
        rw [hs] at hset
        exact hset
  by_cases hzext : found.opc = .intZext
  · have hpending := (newOp_pending hedit.blank found.opc (data.op op).addr).setInput hlow 0
    have hset := hreplace _ _ (hedit.pendingOut hpending (outSize data op))
    refine ⟨data.numOps, _, hpending.numVarnodes, ?_⟩
    simp only [rewrite, Found.newArgs, if_pos hzext]
    exact hset
  · have hconst := hedit.newConstant (data.vn found.lowvn).size 0
    have hpending := (newOp_pending hconst.blank found.opc (data.op op).addr).setInput (hconst.lt hhigh) 0
    have hpending' := hpending.setInput ((Nat.lt_succ_self data.numVarnodes).trans_le hpending.numVarnodes) 1
    have hset := hreplace _ _ (hconst.pendingOut hpending' (outSize data op))
    have harg : ((data.newConstant (data.vn found.lowvn).size 0).2.newOp found.opc (data.op op).addr).2.arg found.highvn =
        data.arg found.highvn := hconst.core.arg_eq hhigh
    rw [hpending.core.arg_eq (Nat.lt_succ_self data.numVarnodes), newConstant_arg, harg] at hset
    refine ⟨data.numOps, _, (Nat.le_succ data.numVarnodes).trans hpending'.numVarnodes, ?_⟩
    simp only [rewrite, Found.newArgs, if_neg hzext]
    exact hset

end Matches

section Values

variable {sem : Semantics} {data : Funcdata} {nz : VarnodeId → Word} {op : Nat} {found : Found} (h : WellSized data)
  (hm : found.Matches data nz op) (hout : (data.vn (data.op op).output).getDef = some op) (hcode : (data.op op).code = .intAnd)

include h hm hout hcode

/-- The op is the conjunction of the concatenation and the other operand. -/
theorem Found.Matches.operands : (data.vn found.highvn).size + (data.vn found.lowvn).size = outSize data op ∧
    (data.vn found.piecevn).size = outSize data op ∧ (data.vn found.othervn).size = outSize data op ∧
    ∀ {sem : Semantics} {leaf : VarnodeId → Prop} (val : Valuation sem data.toFuncdata leaf), ¬ leaf (data.op op).output →
      val.bits (outSize data op) (data.op op).output =
        val.bits (outSize data op) found.piecevn &&& val.bits (outSize data op) found.othervn := by
  have hin := hm.inrefs h hout hcode
  have hpiece := (h.fit_two hm.written).2.2.2 rfl
  by_cases hs : found.slot = 0
  · rw [if_pos hs] at hin
    have hw : Written data (data.op op).output .intAnd [found.piecevn, found.othervn] := ⟨op, hout, hcode, hin⟩
    obtain ⟨hp, ho⟩ := h.same_sizes hw (by decide)
    exact ⟨hpiece.trans hp, hp, ho, fun val hleaf => h.bits_and val hleaf rfl hw⟩
  · rw [if_neg hs] at hin
    have hw : Written data (data.op op).output .intAnd [found.othervn, found.piecevn] := ⟨op, hout, hcode, hin⟩
    obtain ⟨ho, hp⟩ := h.same_sizes hw (by decide)
    exact ⟨hpiece.trans hp, hp, ho, fun val hleaf => (h.bits_and val hleaf rfl hw).trans (BitVec.and_comm _ _)⟩

theorem Found.Matches.not_leaf (hacyclic : Acyclic data.toFuncdata noLeaf) :
    ¬ found.Leaf (data.op op).output ∧ ¬ found.Leaf found.piecevn := by
  obtain ⟨pieceop, hdef, hpiece, hins⟩ := hm.written
  have hin := hm.inrefs h hout hcode
  have hlow := hacyclic.below found.piecevn pieceop found.lowvn ⟨hdef, not_false, by rw [hpiece]; rfl⟩ (by rw [hins]; simp)
  have hhigh := hacyclic.below found.piecevn pieceop found.highvn ⟨hdef, not_false, by rw [hpiece]; rfl⟩ (by rw [hins]; simp)
  have hbelow : ∀ u, u ∈ (data.op op).inrefs → hacyclic.rank u < hacyclic.rank (data.op op).output :=
    fun u hu => hacyclic.below (data.op op).output op u ⟨hout, not_false, by rw [hcode]; rfl⟩ hu
  have hpieceBelow := hbelow found.piecevn (by rw [hin]; split <;> simp)
  have hotherBelow := hbelow found.othervn (by rw [hin]; split <;> simp)
  constructor
  · rintro (heq | heq | ⟨heq, -⟩)
    · rw [heq] at hpieceBelow
      omega
    · rw [heq] at hpieceBelow
      omega
    · rw [heq] at hotherBelow
      omega
  · rintro (heq | heq | ⟨heq, hne⟩)
    · rw [← heq] at hhigh
      omega
    · rw [← heq] at hlow
      omega
    · exact hne heq.symm

theorem Found.Matches.lt : found.highvn < data.numVarnodes ∧ found.lowvn < data.numVarnodes ∧ found.othervn < data.numVarnodes := by
  obtain ⟨-, hlt⟩ := hm.written.lt h.toLegal
  have hlt' := h.inrefs op (h.live _ _ hout) found.othervn
  rw [hm.inrefs h hout hcode] at hlt'
  exact ⟨hlt found.highvn (by simp), hlt found.lowvn (by simp), hlt' (by split <;> simp)⟩

/-- The part that was dropped has no bit in common with the other operand. -/
def Found.Harmless (found : Found) (data : Funcdata) (n : Nat) {leaf : VarnodeId → Prop} (val : Valuation sem data.toFuncdata leaf) : Prop :=
  if found.opc = .intZext then
    ∀ i < 8 * (data.vn found.highvn).size, (val.bits (data.vn found.highvn).size found.highvn).getLsbD i = true →
      (val.bits n found.othervn).getLsbD (8 * (data.vn found.lowvn).size + i) = false
  else
    ∀ i < 8 * (data.vn found.lowvn).size, (val.bits (data.vn found.lowvn).size found.lowvn).getLsbD i = true →
      (val.bits n found.othervn).getLsbD i = false

theorem rewrite_extends_iff (hacyclic : Acyclic data.toFuncdata noLeaf) (val : Valuation sem data.toFuncdata found.Leaf) :
    Extends val (rewrite data op found) ↔ found.Harmless data (outSize data op) val := by
  obtain ⟨hsum, hpsize, hosize, hand⟩ := hm.operands h hout hcode
  obtain ⟨hleafOut, hleafPiece⟩ := hm.not_leaf h hout hcode hacyclic
  obtain ⟨hhigh, hlow, hother⟩ := hm.lt h hout hcode
  obtain ⟨newop, newvn, hnew, hrew⟩ := rewrite_rewired h hm hout hcode
  have hwidth : 8 * (data.vn found.highvn).size + 8 * (data.vn found.lowvn).size = 8 * outSize data op := by omega
  have hpiece := h.bits_piece val hleafPiece hpsize hm.written rfl rfl
  -- the new op gives one of two values
  have hnewValue : ∃ y : BitVec (8 * outSize data op), (∀ w, Fits data val.value [] w →
      ∃ ops, (found.newArgs data).map (Arg.operand (rewrite data op found) w) = ops ∧ Denotes found.opc ops (outSize data op) (some y)) ∧
      (val.bits (outSize data op) found.piecevn &&& val.bits (outSize data op) found.othervn =
        y &&& val.bits (outSize data op) found.othervn ↔ found.Harmless data (outSize data op) val) ∧
      found.opc ∈ twoInputOps ++ oneInputOps := by
    by_cases hzext : found.opc = .intZext
    · refine ⟨(val.bits (data.vn found.lowvn).size found.lowvn).setWidth _, fun w hw => ⟨_, rfl, ?_⟩, ?_, by rw [hzext]; decide⟩
      · rw [Found.newArgs, if_pos hzext, List.map_cons, List.map_nil, hrew.operand_old hw hlow rfl, hzext]
        exact .intZext (by omega) _
      · rw [Found.Harmless, if_pos hzext, hpiece]
        exact piece_and_eq_low hwidth _
    · have hopc : found.opc = .piece := by
        have hchoose := hm.opc
        simp only [chooseOp] at hchoose
        split_ifs at hchoose
        · exact absurd (Option.some.inj hchoose).symm hzext
        · exact (Option.some.inj hchoose).symm
      refine ⟨piece _ (val.bits (data.vn found.highvn).size found.highvn) (0#(8 * (data.vn found.lowvn).size)),
        fun w hw => ⟨_, rfl, ?_⟩, ?_, by rw [hopc]; decide⟩
      · have hzero : ((0 : Word).setWidth (8 * (data.vn found.lowvn).size)) = 0#_ := BitVec.setWidth_zero _ 64
        rw [Found.newArgs, if_neg hzext, List.map_cons, List.map_cons, List.map_nil, hrew.operand_old hw hhigh rfl, hopc, Arg.operand, hzero]
        exact .piece hsum _ _
      · rw [Found.Harmless, if_neg hzext, hpiece]
        exact piece_and_eq_high hwidth _
  obtain ⟨y, hy, hiff, hmem⟩ := hnewValue
  have hsolves : Solves sem data (rewrite data op found) val.value [⟨newop, newvn, outSize data op, found.opc, found.newArgs data⟩]
      [(newvn, y.toNat)] := by
    refine Solves.nil.cons fun w hw => ?_
    obtain ⟨ops, hargs, hdenotes⟩ := hy w hw
    exact Entry.holds_iff rfl hargs hdenotes
  have hcodes : ∀ e' ∈ [{ entryOf data op (data.op op).output with
      args := if found.slot = 0 then [.varnode newvn, data.arg found.othervn] else [data.arg found.othervn, .varnode newvn] },
      (⟨newop, newvn, outSize data op, found.opc, found.newArgs data⟩ : Entry)], e'.code ∈ twoInputOps ++ oneInputOps := by
    rw [List.forall_mem_cons, List.forall_mem_singleton]
    refine ⟨?_, hmem⟩
    show (data.op op).code ∈ _
    rw [hcode]
    decide
  have hresult : ∀ w, Fits data val.value [(newvn, y.toNat)] w →
      Arg.operand (rewrite data op found) w (.varnode newvn) = ⟨outSize data op, y⟩ := fun w hw =>
    hrew.operand_result (List.mem_cons_of_mem _ List.mem_cons_self) rfl (hw.2 _ List.mem_cons_self)
  have hold : ∀ v : Nat, found.Leaf v → v < data.numVarnodes := by
    rintro v (rfl | rfl | ⟨rfl, -⟩)
    · exact hhigh
    · exact hlow
    · exact hother
  have hold' : ∀ w, Fits data val.value [(newvn, y.toNat)] w →
      Arg.operand (rewrite data op found) w (data.arg found.othervn) = ⟨outSize data op, val.bits (outSize data op) found.othervn⟩ :=
    fun w hw => hrew.operand_old hw hother hosize
  rw [← hiff, ← hand val hleafOut]
  have hargs : ∀ w, Fits data val.value [(newvn, y.toNat)] w →
      (if found.slot = 0 then [.varnode newvn, data.arg found.othervn] else [data.arg found.othervn, .varnode newvn]).map
        (Arg.operand (rewrite data op found) w) =
      if found.slot = 0 then [⟨outSize data op, y⟩, ⟨outSize data op, val.bits (outSize data op) found.othervn⟩]
      else [⟨outSize data op, val.bits (outSize data op) found.othervn⟩, ⟨outSize data op, y⟩] := by
    intro w hw
    by_cases hs : found.slot = 0
    · simp only [if_pos hs, List.map_cons, List.map_nil, hresult w hw, hold' w hw]
    · simp only [if_neg hs, List.map_cons, List.map_nil, hresult w hw, hold' w hw]
  refine hrew.extends_one val h.toLegal rfl hsolves (List.forall_mem_singleton.mpr hnew) hold hleafOut hcodes (h.lt_of_def hout) rfl hargs ?_
  show Denotes (data.op op).code _ _ _
  rw [hcode]
  split
  · exact .intAnd _ _
  · rw [BitVec.and_comm]
    exact .intAnd _ _

end Values

section Masks

variable {sem : Semantics} {data : Funcdata} {nz : VarnodeId → Word} {op : Nat} {found : Found}

/-- The masks show that the part has no bit in common with the other operand, as far as
they reach. -/
theorem Found.Matches.masks (hm : found.Matches data nz op) {i : Nat} :
    if found.opc = .intZext then 8 * (data.vn found.lowvn).size + i < 64 → (nz found.highvn).getLsbD i = true →
      (nz found.othervn).getLsbD (8 * (data.vn found.lowvn).size + i) = false
    else (nz found.lowvn).getLsbD i = true → (nz found.othervn).getLsbD i = false := by
  have hchoose := hm.opc
  simp only [chooseOp] at hchoose
  split at hchoose
  · next hzero =>
      split at hchoose
      · cases hchoose
      · rw [← Option.some.inj hchoose, if_pos rfl]
        intro hi hbit
        have hand := congrArg (fun v => v.getLsbD i) hzero
        have hamount : (((data.vn found.lowvn).size : Int) * 8 % 64).toNat = 8 * (data.vn found.lowvn).size := by omega
        simp only [wrappingShr, hamount, BitVec.getLsbD_and, hbit, Bool.true_and, BitVec.getLsbD_ushiftRight] at hand
        exact hand.trans BitVec.getLsbD_zero
  · split at hchoose
    · next hzero =>
        split at hchoose
        · cases hchoose
        · rw [← Option.some.inj hchoose, if_neg (by decide)]
          intro hbit
          have hand := congrArg (fun v => v.getLsbD i) hzero
          simp only [BitVec.getLsbD_and, hbit, Bool.true_and] at hand
          exact hand.trans BitVec.getLsbD_zero
    · cases hchoose

theorem Found.Exact.harmless (hexact : found.Exact data nz) (hm : found.Matches data nz op)
    {val : Valuation sem data.toFuncdata found.Leaf} (hmasks : ∀ v, found.Leaf v → WithinMask nz val v)
    (hother : WithinMask nz val found.othervn) (n : Nat) : found.Harmless data n val := by
  have hbits := fun i => hm.masks (i := i)
  rw [Found.Harmless]
  split
  · next hzext =>
      simp only [if_pos hzext] at hbits
      intro i hi hx
      by_contra hz
      have hz' := Bool.eq_true_of_not_eq_false hz
      have hhigh := mayBeSet_of_bit (hmasks _ (.inl rfl)) hx
      by_cases hlt : 8 * (data.vn found.lowvn).size + i < 64
      · have hclear := hbits i hlt ((hmasks _ (.inl rfl)).bit (by omega) hx)
        rw [hother.bit hlt hz'] at hclear
        cases hclear
      · rcases hexact with hc | hexact
        · exact hlt (lt_of_constant_bit hc hz')
        · rw [if_pos hzext] at hexact
          exact hexact i hi (not_lt.mp hlt) hhigh
  · next hzext =>
      simp only [if_neg hzext] at hbits
      intro i hi hy
      by_contra hz
      have hz' := Bool.eq_true_of_not_eq_false hz
      have hlt : i < 64 := by
        rcases hexact with hc | hexact
        · exact lt_of_constant_bit hc hz'
        · rw [if_neg hzext] at hexact
          omega
      have hclear := hbits i ((hmasks _ (.inr (.inl rfl))).bit hlt hy)
      rw [hother.bit hlt hz'] at hclear
      cases hclear

/-- A bit of a part and a bit of the other operand beyond the masks may both be set. -/
theorem Found.Matches.exists_bits (sem : Semantics) (hm : found.Matches data nz op) (h : WellSized data)
    (hout : (data.vn (data.op op).output).getDef = some op) (hcode : (data.op op).code = .intAnd)
    (hacyclic : Acyclic data.toFuncdata noLeaf) (hconst : ∀ v, (data.vn v).isConstant = true → nz v = (data.vn v).offset)
    (hfree : (data.vn found.othervn).isConstant = false) {c i j : Nat}
    (hc : c = found.highvn ∧ j = 8 * (data.vn found.lowvn).size + i ∨ c = found.lowvn ∧ j = i) (hi : i < 8 * (data.vn c).size)
    (hj : 64 ≤ j) (hset : mayBeSet data nz c i) : ∃ val : Valuation sem data.toFuncdata found.Leaf,
      (∀ v, found.Leaf v → WithinMask nz val v) ∧ (val.bits (data.vn c).size c).getLsbD i = true ∧
        (val.bits (outSize data op) found.othervn).getLsbD j = true := by
  obtain ⟨hsum, hpsize, hosize, -⟩ := hm.operands h hout hcode
  obtain ⟨-, hleafPiece⟩ := hm.not_leaf h hout hcode hacyclic
  obtain ⟨hhigh, hlow, -⟩ := hm.lt h hout hcode
  have hpositive := h.positive found.lowvn hlow
  have hpositive' := h.positive found.highvn hhigh
  have hsizec : (data.vn c).size < outSize data op := by
    rcases hc with ⟨rfl, -⟩ | ⟨rfl, -⟩ <;> omega
  have hjlt : j < 8 * outSize data op := by
    rcases hc with ⟨rfl, rfl⟩ | ⟨rfl, rfl⟩ <;> omega
  have hne : c ≠ found.othervn := by
    rintro rfl
    omega
  let env : VarnodeId → Nat := fun v => if v = c then 2 ^ i else if v = found.othervn then 2 ^ j else 0
  obtain ⟨val, hval⟩ := exists_valuation sem env (hacyclic.mono (q := found.Leaf) fun _ hf => hf.elim)
  have hvalue : ∀ v, found.Leaf v → (data.vn v).isConstant = false → val.value v = env v := by
    intro v hv hvc
    refine hval v hvc (fun o ho => ho.2.1 hv) ?_
    simp only [env]
    split
    · next heq =>
        rw [heq]
        exact Nat.pow_lt_pow_right (by decide) hi
    · split
      · next heq =>
          rw [heq, hosize]
          exact Nat.pow_lt_pow_right (by decide) hjlt
      · exact Nat.two_pow_pos _
  have hleafc : found.Leaf c := by
    rcases hc with ⟨rfl, -⟩ | ⟨rfl, -⟩
    · exact .inl rfl
    · exact .inr (.inl rfl)
  have hbitc : (val.bits (data.vn c).size c).getLsbD i = true := by
    rw [getLsbD_bits, decide_eq_true hi, Bool.true_and]
    cases hcc : (data.vn c).isConstant with
    | true =>
        rcases hset with hset | ⟨-, hset⟩
        · rw [val.constant c hcc, Nat.testBit_mod_two_pow, decide_eq_true hi, Bool.true_and]
          rw [hconst c hcc] at hset
          exact hset
        · rw [hcc] at hset
          cases hset
    | false =>
        rw [hvalue c hleafc hcc]
        simp only [env, if_true]
        exact Nat.testBit_two_pow_self
  refine ⟨val, fun v hv => ?_, hbitc, ?_⟩
  · -- the leaves are within their masks
    rw [WithinMask]
    cases hvc : (data.vn v).isConstant with
    | true =>
        rw [hconst v hvc, val.constant v hvc, Nat.mod_eq_of_lt (h.constant v hvc).2.2, BitVec.ofNat_toNat, BitVec.setWidth_eq]
        exact within_iff.mpr fun _ hk => hk
    | false =>
        rw [hvalue v hv hvc, within_ofNat_iff]
        intro k hk hbit
        simp only [env] at hbit
        split at hbit
        · next heq =>
            rw [Nat.testBit_two_pow, decide_eq_true_iff] at hbit
            subst hbit
            rcases hset with hset | ⟨hge, -⟩
            · rw [heq]
              exact hset
            · omega
        · split at hbit
          · rw [Nat.testBit_two_pow, decide_eq_true_iff] at hbit
            omega
          · rw [Nat.zero_testBit] at hbit
            cases hbit
  · by_cases hpiece : found.othervn = found.piecevn
    · have hwidth : 8 * (data.vn found.highvn).size + 8 * (data.vn found.lowvn).size ≤ 8 * outSize data op := by omega
      have hbits : val.bits (outSize data op) found.piecevn = piece _ (val.bits (data.vn found.highvn).size found.highvn)
          (val.bits (data.vn found.lowvn).size found.lowvn) := h.bits_piece val hleafPiece hpsize hm.written rfl rfl
      rw [hpiece, hbits, getLsbD_piece hwidth]
      rcases hc with ⟨rfl, rfl⟩ | ⟨rfl, rfl⟩
      · rw [if_neg (by omega), Nat.add_sub_cancel_left]
        exact hbitc
      · rw [if_pos hi]
        exact hbitc
    · rw [getLsbD_bits, decide_eq_true hjlt, Bool.true_and, hvalue _ (.inr (.inr ⟨rfl, hpiece⟩)) hfree]
      simp only [env, if_neg hne.symm, if_true]
      exact Nat.testBit_two_pow_self

/-- The values are kept if and only if nothing that was dropped is asked for beyond the
masks. -/
theorem applyOp_extends_iff {data' : Funcdata} (h : WellSized data) (hacyclic : Acyclic data.toFuncdata noLeaf)
    (hout : (data.vn (data.op op).output).getDef = some op) (hcode : (data.op op).code = .intAnd)
    (hconst : ∀ v, (data.vn v).isConstant = true → nz v = (data.vn v).offset) (hfind : find data nz op = some found)
    (hsound : ∀ val : Valuation sem data.toFuncdata found.Leaf, (∀ v, found.Leaf v → WithinMask nz val v) →
      WithinMask nz val found.othervn)
    (happly : applyOp data nz op = (1, data')) : (∀ val : Valuation sem data.toFuncdata found.Leaf,
      (∀ v, found.Leaf v → WithinMask nz val v) → Extends val data') ↔ found.Exact data nz := by
  rw [applyOp, hfind] at happly
  obtain rfl := (Prod.mk.inj happly).2
  have hm := find_matches h hfind
  constructor
  · intro hall
    by_contra hexact
    have hfree : (data.vn found.othervn).isConstant = false := by
      by_contra hc
      exact hexact (.inl (Bool.eq_true_of_not_eq_false hc))
    rw [Found.Exact, hfree] at hexact
    by_cases hzext : found.opc = .intZext
    · simp only [if_pos hzext, Bool.false_eq_true, false_or, not_forall, not_not] at hexact
      obtain ⟨i, hi, hj, hset⟩ := hexact
      obtain ⟨val, hmasks, hbit, hbit'⟩ := hm.exists_bits sem h hout hcode hacyclic hconst hfree (.inl ⟨rfl, rfl⟩) hi hj hset
      have hharmless := (rewrite_extends_iff h hm hout hcode hacyclic val).mp (hall val hmasks)
      rw [Found.Harmless, if_pos hzext] at hharmless
      rw [hharmless i hi hbit] at hbit'
      cases hbit'
    · simp only [if_neg hzext, Bool.false_eq_true, false_or, not_le] at hexact
      have hlow : (data.vn found.lowvn).isConstant = false := by
        have hchoose := hm.opc
        simp only [chooseOp] at hchoose
        split_ifs at hchoose with _ _ _ hlow
        · exact absurd (Option.some.inj hchoose).symm hzext
        · exact Bool.eq_false_of_not_eq_true hlow
      have hi : 64 < 8 * (data.vn found.lowvn).size := by omega
      obtain ⟨val, hmasks, hbit, hbit'⟩ := hm.exists_bits sem h hout hcode hacyclic hconst hfree (.inr ⟨rfl, rfl⟩) hi le_rfl
        (.inr ⟨le_rfl, hlow⟩)
      have hharmless := (rewrite_extends_iff h hm hout hcode hacyclic val).mp (hall val hmasks)
      rw [Found.Harmless, if_neg hzext] at hharmless
      rw [hharmless 64 hi hbit] at hbit'
      cases hbit'
  · intro hexact val hmasks
    exact (rewrite_extends_iff h hm hout hcode hacyclic val).mpr (hexact.harmless hm hmasks (hsound val hmasks) _)

/-- A concatenation, with high bits or low bits that the other operand does not have, is
replaced by an op that leaves them out. The value of the conjunction is kept under all
values within the masks if and only if no bit was left out beyond the word of the masks. -/
theorem andPiece_extends_iff {data' : Funcdata} (h : WellSized data) (hacyclic : Acyclic data.toFuncdata noLeaf)
    (hout : (data.vn (data.op op).output).getDef = some op) (hcode : (data.op op).code = .intAnd)
    (hconst : ∀ v, (data.vn v).isConstant = true → nz v = (data.vn v).offset) (hfind : find data nz op = some found)
    (hsound : ∀ val : Valuation sem data.toFuncdata found.Leaf, (∀ v, found.Leaf v → WithinMask nz val v) →
      WithinMask nz val found.othervn)
    (happly : applyOp data nz op = (1, data')) : (∀ val : Valuation sem data.toFuncdata found.Leaf,
      (∀ v, found.Leaf v → WithinMask nz val v) → Extends val data') ↔ found.Exact data nz :=
  applyOp_extends_iff h hacyclic hout hcode hconst hfind hsound happly

/-- The conjunction of a concatenation and another number. -/
def concatAnd (high low : Nat) : Funcdata :=
  ofLists [inputVn high, inputVn low, inputVn (high + low), { inputVn (high + low) with getDef := some 0 },
    { inputVn (high + low) with getDef := some 1 }] [logicalOp .piece [0, 1] 3, logicalOp .intAnd [3, 2] 4]

def concatFound : Found := { slot := 0, piecevn := 3, othervn := 2, opc := .intZext, highvn := 0, lowvn := 1 }

theorem concatAnd_constant {nz : VarnodeId → Word} (high low : Nat) :
    ∀ v, ((concatAnd high low).vn v).isConstant = true → nz v = ((concatAnd high low).vn v).offset := by
  intro v hc
  have hnone : ((concatAnd high low).vn v).isConstant = false := by
    match v with
    | 0 | 1 | 2 | 3 | 4 => rfl
    | _ + 5 => rfl
  rw [hnone] at hc
  cases hc

/-- The first part and the other operand have these masks. -/
def concatNz (high other : Word) (v : VarnodeId) : Word := if v = 0 then high else if v = 2 then other else 0xffffffffffffffff

/-- Two bytes, of which the low one is asked for. -/
theorem andPiece_extends_iff_bytes : ∃ data', applyOp (concatAnd 1 1) (concatNz 0xff 0xff) 1 = (1, data') ∧
    ∀ val : Valuation bitVectors (concatAnd 1 1).toFuncdata concatFound.Leaf,
      (∀ v, concatFound.Leaf v → WithinMask (concatNz 0xff 0xff) val v) → Extends val data' := by
  have hlinked : linked [inputVn 1, inputVn 1, inputVn 2, { inputVn 2 with getDef := some 0 }, { inputVn 2 with getDef := some 1 }]
      [logicalOp .piece [0, 1] 3, logicalOp .intAnd [3, 2] 4] = true := by decide
  obtain ⟨data', happly⟩ : ∃ data', applyOp (concatAnd 1 1) (concatNz 0xff 0xff) 1 = (1, data') := ⟨_, rfl⟩
  refine ⟨data', happly, ?_⟩
  refine (andPiece_extends_iff (wellSized_of_linked hlinked) ((ordered_of_wellSized (of_decide_eq_true hlinked).1).acyclic noLeaf) rfl rfl
    (concatAnd_constant 1 1) rfl (fun val hmasks => hmasks 2 (.inr (.inr ⟨rfl, by decide⟩))) happly).mpr (.inr ?_)
  rw [if_pos (show concatFound.opc = .intZext from rfl)]
  intro i hi hj
  have hi' : i < 8 := hi
  have hj' : 64 ≤ 8 + i := hj
  omega

/-- The mask of nine bytes is shifted by no bits at all. -/
theorem andPiece_not_extends : ∃ data', applyOp (concatAnd 1 8) (concatNz 1 2) 1 = (1, data') ∧
    ¬ ∀ val : Valuation bitVectors (concatAnd 1 8).toFuncdata concatFound.Leaf,
      (∀ v, concatFound.Leaf v → WithinMask (concatNz 1 2) val v) → Extends val data' := by
  have hlinked : linked [inputVn 1, inputVn 8, inputVn 9, { inputVn 9 with getDef := some 0 }, { inputVn 9 with getDef := some 1 }]
      [logicalOp .piece [0, 1] 3, logicalOp .intAnd [3, 2] 4] = true := by decide
  obtain ⟨data', happly⟩ : ∃ data', applyOp (concatAnd 1 8) (concatNz 1 2) 1 = (1, data') := ⟨_, rfl⟩
  refine ⟨data', happly, fun hall => ?_⟩
  have hexact := (applyOp_extends_iff (wellSized_of_linked hlinked)
    ((ordered_of_wellSized (of_decide_eq_true hlinked).1).acyclic noLeaf) rfl rfl (concatAnd_constant 1 8) rfl
    (fun val hmasks => hmasks 2 (.inr (.inr ⟨rfl, by decide⟩))) happly).mp hall
  rcases hexact with hc | hexact
  · cases hc
  · rw [if_pos (show concatFound.opc = .intZext from rfl)] at hexact
    exact hexact 0 (by decide) (by decide) (.inl rfl)

end Masks

end RuleAndPiece

end GhidraDecompiler.RuleAction
