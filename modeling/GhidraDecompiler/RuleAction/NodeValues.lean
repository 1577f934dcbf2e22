import GhidraDecompiler.RuleAction.Preservation

namespace GhidraDecompiler.RuleAction.Editing.Funcdata

open Pcode Dataflow
open Expression (VarnodeId OpId)

def logicOps : List OpCode := [.intOr, .intXor]

def compareOps : List OpCode :=
  [.intEqual, .intNotequal, .intSless, .intSlessequal, .intLess, .intLessequal, .intCarry, .intScarry, .intSborrow]

def truthOps : List OpCode := [.boolXor, .boolAnd, .boolOr]

def plainOps : List OpCode := [.copy, .intNegate, .int2comp]

/-- The sizes of the ops that are not among the legal ones yet. -/
def sizesFit (data : Funcdata) (op : RangeMeld.PcodeOp) (n : Nat) : Bool :=
  match op.inrefs with
  | [a] =>
      op.code ∉ logicOps ++ compareOps ++ truthOps ++ [.piece] ∧ (op.code ∈ plainOps → (data.vn a).size = n) ∧
      (op.code = .boolNegate → (data.vn a).size = 1 ∧ n = 1)
  | [a, b] =>
      op.code ∉ plainOps ++ [.boolNegate] ∧
      (op.code ∈ logicOps → (data.vn a).size = n ∧ (data.vn b).size = n) ∧
      (op.code ∈ compareOps → (data.vn a).size = (data.vn b).size ∧ n = 1) ∧
      (op.code ∈ truthOps → (data.vn a).size = 1 ∧ (data.vn b).size = 1 ∧ n = 1) ∧
      (op.code = .piece → (data.vn a).size + (data.vn b).size = n)
  | _ => op.code ∉ logicOps ++ compareOps ++ truthOps ++ plainOps ++ [.piece, .boolNegate]

/-- A graph as the decompiler builds it, with all the ops that the rules match. -/
structure WellSized (data : Funcdata) : Prop extends Legal data where
  positive : ∀ v : Nat, v < data.numVarnodes → 0 < (data.vn v).size
  fit : ∀ v o, (data.vn v).getDef = some o → data.sizesFit (data.op o) (data.vn v).size = true

def twoInputOps : List OpCode := binaryOps ++ logicOps ++ compareOps ++ truthOps ++ [.piece]

def oneInputOps : List OpCode := unaryOps ++ plainOps ++ [.boolNegate]

/-- The varnode is written by an op of this kind with these inputs. -/
def Written (data : Funcdata) (v : Nat) (opc : OpCode) (ins : List Nat) : Prop :=
  ∃ o : Nat, (data.vn v).getDef = some o ∧ (data.op o).code = opc ∧ (data.op o).inrefs = ins

theorem not_leaf_of_mem {opc : OpCode} (h : opc ∈ twoInputOps ++ oneInputOps) : isLeafOp opc = false ∧ opc ≠ .load := by
  have hall : ∀ opc ∈ twoInputOps ++ oneInputOps, isLeafOp opc = false ∧ opc ≠ .load := by decide
  exact hall opc h

section Sizes

variable {data : Funcdata} {v o a b : Nat} {opc : OpCode}

theorem WellSized.inrefs_two (h : WellSized data) (hdef : (data.vn v).getDef = some o) (hcode : (data.op o).code ∈ twoInputOps) :
    ∃ a b, (data.op o).inrefs = [a, b] := by
  rw [twoInputOps, List.append_assoc, List.append_assoc, List.append_assoc, List.mem_append] at hcode
  rcases hcode with hcode | hcode
  · exact h.inrefs_binary hdef hcode
  · have hfit := h.fit v o hdef
    rw [sizesFit] at hfit
    have hmem : (data.op o).code ∈ logicOps ++ compareOps ++ truthOps ++ [OpCode.piece] := by
      rw [List.append_assoc, List.append_assoc]
      exact hcode
    split at hfit
    · exact absurd hmem (of_decide_eq_true hfit).1
    · next a b hin => exact ⟨a, b, hin⟩
    · refine absurd ?_ (of_decide_eq_true hfit)
      have hsub : ∀ opc ∈ logicOps ++ compareOps ++ truthOps ++ [OpCode.piece],
          opc ∈ logicOps ++ compareOps ++ truthOps ++ plainOps ++ [OpCode.piece, .boolNegate] := by decide
      exact hsub _ hmem

theorem WellSized.inrefs_one (h : WellSized data) (hdef : (data.vn v).getDef = some o) (hcode : (data.op o).code ∈ oneInputOps) :
    ∃ a, (data.op o).inrefs = [a] := by
  rw [oneInputOps, List.append_assoc, List.mem_append] at hcode
  rcases hcode with hcode | hcode
  · obtain ⟨a, ha, -⟩ := h.inref_extension hdef hcode
    exact ⟨a, ha⟩
  · have hfit := h.fit v o hdef
    rw [sizesFit] at hfit
    split at hfit
    · next a hin => exact ⟨a, hin⟩
    · exact absurd hcode (of_decide_eq_true hfit).1
    · refine absurd ?_ (of_decide_eq_true hfit)
      have hsub : ∀ opc ∈ plainOps ++ [OpCode.boolNegate],
          opc ∈ logicOps ++ compareOps ++ truthOps ++ plainOps ++ [OpCode.piece, .boolNegate] := by decide
      exact hsub _ hcode

theorem WellSized.fit_two (h : WellSized data) (hw : Written data v opc [a, b]) :
    (opc ∈ logicOps → (data.vn a).size = (data.vn v).size ∧ (data.vn b).size = (data.vn v).size) ∧
      (opc ∈ compareOps → (data.vn a).size = (data.vn b).size ∧ (data.vn v).size = 1) ∧
      (opc ∈ truthOps → (data.vn a).size = 1 ∧ (data.vn b).size = 1 ∧ (data.vn v).size = 1) ∧
      (opc = .piece → (data.vn a).size + (data.vn b).size = (data.vn v).size) := by
  obtain ⟨o, hdef, rfl, hin⟩ := hw
  have hfit := h.fit v o hdef
  simp only [sizesFit, hin] at hfit
  exact (of_decide_eq_true hfit).2

theorem WellSized.fit_one (h : WellSized data) (hw : Written data v opc [a]) :
    (opc ∈ plainOps → (data.vn a).size = (data.vn v).size) ∧ (opc = .boolNegate → (data.vn a).size = 1 ∧ (data.vn v).size = 1) := by
  obtain ⟨o, hdef, rfl, hin⟩ := hw
  have hfit := h.fit v o hdef
  simp only [sizesFit, hin] at hfit
  exact (of_decide_eq_true hfit).2

theorem WellSized.same_sizes (h : WellSized data) (hw : Written data v opc [a, b]) (hopc : opc ∈ sameSizeOps ++ logicOps) :
    (data.vn a).size = (data.vn v).size ∧ (data.vn b).size = (data.vn v).size := by
  rw [List.mem_append] at hopc
  rcases hopc with hopc | hopc
  · obtain ⟨o, hdef, rfl, hin⟩ := hw
    exact (h.sizes_binary hdef hin).1 hopc
  · exact (h.fit_two hw).1 hopc

theorem WellSized.shift_size (h : WellSized data) (hw : Written data v opc [a, b]) (hopc : opc ∈ shiftOps) :
    (data.vn a).size = (data.vn v).size := by
  obtain ⟨o, hdef, rfl, hin⟩ := hw
  exact (h.sizes_binary hdef hin).2.1 hopc

theorem WellSized.subpiece_sizes (h : WellSized data) (hw : Written data v .subpiece [a, b]) :
    (data.vn b).isConstant = true ∧ (data.vn b).offset.toNat + (data.vn v).size ≤ (data.vn a).size := by
  obtain ⟨o, hdef, hcode, hin⟩ := hw
  exact (h.sizes_binary hdef hin).2.2 hcode

theorem WellSized.extension_size (h : WellSized data) (hw : Written data v opc [a]) (hopc : opc ∈ unaryOps) :
    (data.vn a).size ≤ (data.vn v).size := by
  obtain ⟨o, hdef, rfl, hin⟩ := hw
  obtain ⟨a', hin', hle⟩ := h.inref_extension hdef hopc
  rw [hin] at hin'
  cases hin'
  exact hle

theorem Written.lt (h : data.Legal) {ins : List Nat} (hw : Written data v opc ins) : v < data.numVarnodes ∧ ∀ u ∈ ins, u < data.numVarnodes := by
  obtain ⟨o, hdef, -, rfl⟩ := hw
  exact ⟨h.lt_of_def hdef, h.inrefs o (h.live _ _ hdef)⟩

end Sizes

section Values

variable {sem : Semantics} {data : Funcdata} {leaf : VarnodeId → Prop} (val : Valuation sem data.toFuncdata leaf) {v a b n m k : Nat}
  {opc : OpCode}

/-- The value of an op with two inputs. -/
theorem Written.bits_two (hw : Written data v opc [a, b]) (hopc : opc ∈ twoInputOps) (hv : ¬ leaf v)
    {f : BitVec (8 * m) → BitVec (8 * k) → BitVec (8 * n)} (hf : ∀ x y, Denotes opc [⟨m, x⟩, ⟨k, y⟩] n (some (f x y)))
    (hn : (data.vn v).size = n) (ha : (data.vn a).size = m) (hb : (data.vn b).size = k) :
    val.bits n v = f (val.bits m a) (val.bits k b) := by
  obtain ⟨o, hdef, hcode, hin⟩ := hw
  obtain ⟨hleaf, hload⟩ := not_leaf_of_mem (List.mem_append_left _ hopc)
  exact val.bits_binary hf hleaf hload hdef hv hcode hin hn ha hb

theorem Written.bits_one (hw : Written data v opc [a]) (hopc : opc ∈ oneInputOps) (hv : ¬ leaf v)
    {f : BitVec (8 * m) → BitVec (8 * n)} (hf : ∀ x, Denotes opc [⟨m, x⟩] n (some (f x)))
    (hn : (data.vn v).size = n) (ha : (data.vn a).size = m) : val.bits n v = f (val.bits m a) := by
  obtain ⟨o, hdef, hcode, hin⟩ := hw
  obtain ⟨hleaf, hload⟩ := not_leaf_of_mem (List.mem_append_right _ hopc)
  exact val.bits_unary hf hleaf hload hdef hv hcode hin hn ha

variable (h : WellSized data) (hv : ¬ leaf v) (hn : (data.vn v).size = n)
include h hv hn

theorem WellSized.bits_same (hw : Written data v opc [a, b]) (hopc : opc ∈ sameSizeOps ++ logicOps)
    {f : BitVec (8 * n) → BitVec (8 * n) → BitVec (8 * n)} (hf : ∀ x y, Denotes opc [⟨n, x⟩, ⟨n, y⟩] n (some (f x y))) :
    val.bits n v = f (val.bits n a) (val.bits n b) := by
  obtain ⟨ha, hb⟩ := h.same_sizes hw hopc
  have hsub : ∀ opc ∈ sameSizeOps ++ logicOps, opc ∈ twoInputOps := by decide
  exact hw.bits_two val (hsub _ hopc) hv hf hn (ha.trans hn) (hb.trans hn)

theorem WellSized.bits_and (hw : Written data v .intAnd [a, b]) : val.bits n v = val.bits n a &&& val.bits n b :=
  h.bits_same val hv hn hw (by decide) .intAnd

theorem WellSized.bits_or (hw : Written data v .intOr [a, b]) : val.bits n v = val.bits n a ||| val.bits n b :=
  h.bits_same val hv hn hw (by decide) .intOr

theorem WellSized.bits_xor (hw : Written data v .intXor [a, b]) : val.bits n v = val.bits n a ^^^ val.bits n b :=
  h.bits_same val hv hn hw (by decide) .intXor

theorem WellSized.bits_add (hw : Written data v .intAdd [a, b]) : val.bits n v = val.bits n a + val.bits n b :=
  h.bits_same val hv hn hw (by decide) .intAdd

theorem WellSized.bits_mult (hw : Written data v .intMult [a, b]) : val.bits n v = val.bits n a * val.bits n b :=
  h.bits_same val hv hn hw (by decide) .intMult

theorem WellSized.bits_left (hw : Written data v .intLeft [a, b]) (hb : (data.vn b).size = k) :
    val.bits n v = val.bits n a <<< (val.bits k b).toNat :=
  hw.bits_two val (by decide) hv (fun x y => .intLeft x y) hn ((h.shift_size hw (by decide)).trans hn) hb

theorem WellSized.bits_right (hw : Written data v .intRight [a, b]) (hb : (data.vn b).size = k) :
    val.bits n v = val.bits n a >>> (val.bits k b).toNat :=
  hw.bits_two val (by decide) hv (fun x y => .intRight x y) hn ((h.shift_size hw (by decide)).trans hn) hb

theorem WellSized.bits_sright (hw : Written data v .intSright [a, b]) (hb : (data.vn b).size = k) :
    val.bits n v = (val.bits n a).sshiftRight (val.bits k b).toNat :=
  hw.bits_two val (by decide) hv (fun x y => .intSright x y) hn ((h.shift_size hw (by decide)).trans hn) hb

theorem WellSized.bits_piece (hw : Written data v .piece [a, b]) (ha : (data.vn a).size = m) (hb : (data.vn b).size = k) :
    val.bits n v = (val.bits m a ++ val.bits k b).setWidth (8 * n) := by
  have hsize := (h.fit_two hw).2.2.2 rfl
  exact hw.bits_two val (by decide) hv (fun x y => .piece (by rw [← ha, ← hb, hsize, hn]) x y) hn ha hb

theorem WellSized.bits_subpiece (hw : Written data v .subpiece [a, b]) (ha : (data.vn a).size = m) (hb : (data.vn b).size = k) :
    val.bits n v = (val.bits m a).extractLsb' (8 * (val.bits k b).toNat) (8 * n) :=
  hw.bits_two val (by decide) hv (fun x y => .subpiece n x y) hn ha hb

theorem WellSized.bits_zext (hw : Written data v .intZext [a]) (ha : (data.vn a).size = m) : val.bits n v = (val.bits m a).setWidth _ := by
  have hle := h.extension_size hw (by decide)
  exact hw.bits_one val (by decide) hv (fun x => .intZext (by rw [← ha, ← hn]; exact hle) x) hn ha

theorem WellSized.bits_sext (hw : Written data v .intSext [a]) (ha : (data.vn a).size = m) : val.bits n v = (val.bits m a).signExtend _ := by
  have hle := h.extension_size hw (by decide)
  exact hw.bits_one val (by decide) hv (fun x => .intSext (by rw [← ha, ← hn]; exact hle) x) hn ha

omit hn in
theorem WellSized.bits_compare (hw : Written data v opc [a, b]) (hopc : opc ∈ compareOps)
    {f : BitVec (8 * m) → BitVec (8 * m) → BitVec (8 * 1)} (hf : ∀ x y, Denotes opc [⟨m, x⟩, ⟨m, y⟩] 1 (some (f x y)))
    (ha : (data.vn a).size = m) : val.bits 1 v = f (val.bits m a) (val.bits m b) := by
  obtain ⟨hab, hsize⟩ := (h.fit_two hw).2.1 hopc
  have hsub : ∀ opc ∈ compareOps, opc ∈ twoInputOps := by decide
  exact hw.bits_two val (hsub _ hopc) hv hf hsize ha (hab.symm.trans ha)

end Values

/-- The value of a constant. -/
theorem Legal.toNat_bits_constant {sem : Semantics} {data : Funcdata} {leaf : VarnodeId → Prop} (h : data.Legal)
    (val : Valuation sem data.toFuncdata leaf) {c k : Nat} (hc : (data.vn c).isConstant = true) (hk : (data.vn c).size = k) :
    (val.bits k c).toNat = (data.vn c).offset.toNat := by
  rw [val.bits_constant hk hc, BitVec.toNat_setWidth, Nat.mod_eq_of_lt]
  rw [← hk]
  exact (h.constant c hc).2.2

section Lists

variable {vns : List RangeMeld.Varnode} {ops : List RangeMeld.PcodeOp}

/-- The ops come after their operands, and all the sizes fit. -/
def wellSized (vns : List RangeMeld.Varnode) (ops : List RangeMeld.PcodeOp) : Bool :=
  ordered vns ops ∧ ∀ v < vns.length, 0 < ((ofLists vns ops).vn v).size ∧
    ∀ o ∈ ((ofLists vns ops).vn v).getDef, (ofLists vns ops).sizesFit ((ofLists vns ops).op o) ((ofLists vns ops).vn v).size = true

theorem ordered_of_wellSized (h : wellSized vns ops = true) : Ordered vns ops := (of_decide_eq_true h).1

theorem wellSized_ofLists (h : wellSized vns ops = true) : WellSized (ofLists vns ops) where
  toLegal := (ordered_of_wellSized h).legal
  positive v hv := ((of_decide_eq_true h).2 v hv).1
  fit v o hdef := ((of_decide_eq_true h).2 v (lt_of_def hdef)).2 o hdef

end Lists

end GhidraDecompiler.RuleAction.Editing.Funcdata
