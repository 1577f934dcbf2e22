import GhidraDecompiler.Pcode.Semantics
import GhidraDecompiler.RuleAction.RangeMeld

namespace GhidraDecompiler.Dataflow

open Pcode BitWords
open Expression (VarnodeId OpId)
open RuleAction.RangeMeld (Funcdata isMarker isCall isCommutative)

/-- What the operations compute. The operations on bit vectors have their own
values, at any size; the others (on floats and pointers) may be any function of the
operands that does not depend on their order where the operation is commutative. A
load reads the memory as it is at the address of its instruction. -/
structure Semantics where
  apply : OpCode → List Operand → (sizeout : Nat) → BitVec (8 * sizeout)
  load : Address → List Operand → (sizeout : Nat) → BitVec (8 * sizeout)
  denotes : ∀ {opc operands sizeout v}, Denotes opc operands sizeout (some v) → apply opc operands sizeout = v
  commutes : ∀ {opc}, isCommutative opc = true → ∀ a b sizeout, apply opc [a, b] sizeout = apply opc [b, a] sizeout

section BitVectors

/-- The binary operations on operands of one size. -/
def sameSize (opc : OpCode) {n : Nat} (x y : BitVec (8 * n)) (sizeout : Nat) : BitVec (8 * sizeout) :=
  match opc with
  | .intEqual => (truth (x == y)).setWidth _
  | .intNotequal => (truth (x != y)).setWidth _
  | .intSless => (truth (x.slt y)).setWidth _
  | .intSlessequal => (truth (x.sle y)).setWidth _
  | .intLess => (truth (x.ult y)).setWidth _
  | .intLessequal => (truth (x.ule y)).setWidth _
  | .intCarry => (truth (x.uaddOverflow y)).setWidth _
  | .intScarry => (truth (x.saddOverflow y)).setWidth _
  | .intSborrow => (truth (x.ssubOverflow y)).setWidth _
  | .intAdd => (x + y).setWidth _
  | .intSub => (x - y).setWidth _
  | .intMult => (x * y).setWidth _
  | .intXor | .boolXor => (x ^^^ y).setWidth _
  | .intAnd | .boolAnd => (x &&& y).setWidth _
  | .intOr | .boolOr => (x ||| y).setWidth _
  | .intDiv => (x / y).setWidth _
  | .intSdiv => (x.sdiv y).setWidth _
  | .intRem => (x % y).setWidth _
  | .intSrem => (x.srem y).setWidth _
  | _ => 0

def meaning (opc : OpCode) (operands : List Operand) (sizeout : Nat) : BitVec (8 * sizeout) :=
  match opc, operands with
  | .copy, [a] | .intZext, [a] => a.val.setWidth _
  | .intSext, [a] => a.val.signExtend _
  | .int2comp, [a] => (-a.val).setWidth _
  | .intNegate, [a] => (~~~a.val).setWidth _
  | .popcount, [a] => BitVec.ofNat _ (countOnes a.val)
  | .lzcount, [a] => BitVec.ofNat _ (leadingZeros a.val)
  | .boolNegate, [a] => (a.val ^^^ 1#(8 * a.size)).setWidth _
  | .intLeft, [a, b] => (a.val <<< b.val.toNat).setWidth _
  | .intRight, [a, b] => (a.val >>> b.val.toNat).setWidth _
  | .intSright, [a, b] => (a.val.sshiftRight b.val.toNat).setWidth _
  | .piece, [a, b] => (a.val ++ b.val).setWidth _
  | .subpiece, [a, b] => a.val.extractLsb' (8 * b.val.toNat) _
  | .ptrsub, [a, b] => (a.val + b.val.setWidth _).setWidth _
  | .ptradd, [a, b, c] => (a.val + b.val.setWidth _ * c.val.setWidth _).setWidth _
  | opc, [a, b] => if h : b.size = a.size then sameSize opc a.val (h ▸ b.val) sizeout else 0
  | _, _ => 0

theorem meaning_of_denotes {opc : OpCode} {operands : List Operand} {sizeout : Nat} {v : BitVec (8 * sizeout)}
    (h : Denotes opc operands sizeout (some v)) : meaning opc operands sizeout = v := by
  generalize hr : some v = r at h
  cases h
  case intDiv x y => by_cases hy : y = 0#_ <;> simp_all [meaning, sameSize]
  case intSdiv x y => by_cases hy : y = 0#_ <;> simp_all [meaning, sameSize]
  case intRem x y => by_cases hy : y = 0#_ <;> simp_all [meaning, sameSize]
  case intSrem x y => by_cases hy : y = 0#_ <;> simp_all [meaning, sameSize]
  case boolNegate a => cases a <;> simp_all [meaning, truth]
  case boolXor a b => cases a <;> cases b <;> simp_all [meaning, sameSize, truth]
  case boolAnd a b => cases a <;> cases b <;> simp_all [meaning, sameSize, truth]
  case boolOr a b => cases a <;> cases b <;> simp_all [meaning, sameSize, truth]
  all_goals
    cases hr
    simp [meaning, sameSize]

theorem sameSize_comm {opc : OpCode} (h : isCommutative opc = true) {n : Nat} (x y : BitVec (8 * n)) (sizeout : Nat) :
    sameSize opc x y sizeout = sameSize opc y x sizeout := by
  cases opc <;> first | contradiction | skip
  case intEqual => rw [sameSize, sameSize, Bool.beq_comm]
  case intNotequal => rw [sameSize, sameSize, bne, bne, Bool.beq_comm]
  case intCarry => rw [sameSize, sameSize, BitVec.uaddOverflow, BitVec.uaddOverflow, Nat.add_comm]
  case intScarry => rw [sameSize, sameSize, BitVec.saddOverflow, BitVec.saddOverflow, Int.add_comm]
  case intAdd => rw [sameSize, sameSize, BitVec.add_comm]
  case intMult => rw [sameSize, sameSize, BitVec.mul_comm]
  case intXor => rw [sameSize, sameSize, BitVec.xor_comm]
  case boolXor => rw [sameSize, sameSize, BitVec.xor_comm]
  case intAnd => rw [sameSize, sameSize, BitVec.and_comm]
  case boolAnd => rw [sameSize, sameSize, BitVec.and_comm]
  case intOr => rw [sameSize, sameSize, BitVec.or_comm]
  case boolOr => rw [sameSize, sameSize, BitVec.or_comm]
  all_goals rfl

theorem meaning_commutes {opc : OpCode} (h : isCommutative opc = true) (a b : Operand) (sizeout : Nat) :
    meaning opc [a, b] sizeout = meaning opc [b, a] sizeout := by
  have hlast : ∀ a b, meaning opc [a, b] sizeout =
      if h : b.size = a.size then sameSize opc a.val (h ▸ b.val) sizeout else 0 := by
    intro a b
    cases opc <;> first | contradiction | rfl
  obtain ⟨n, x⟩ := a
  obtain ⟨m, y⟩ := b
  rw [hlast, hlast]
  by_cases hnm : m = n
  · subst hnm
    rw [dif_pos rfl, dif_pos rfl]
    exact sameSize_comm h x y sizeout
  · rw [dif_neg hnm, dif_neg (Ne.symm hnm)]

/-- Everything that is not an operation on bit vectors is zero. -/
def bitVectors : Semantics where
  apply := meaning
  load _ _ _ := 0
  denotes := meaning_of_denotes
  commutes := meaning_commutes

end BitVectors

/-- The merges at the head of a block and the calls have values of their own, as the
inputs of the function have. -/
def isLeafOp (opc : OpCode) : Bool := isMarker opc || isCall opc

def Semantics.outcome (sem : Semantics) (op : RuleAction.RangeMeld.PcodeOp) (operands : List Operand) (sizeout : Nat) : BitVec (8 * sizeout) :=
  if op.code = .load then sem.load op.addr operands sizeout else sem.apply op.code operands sizeout

def operandOf (data : Funcdata) (value : VarnodeId → Nat) (v : VarnodeId) : Operand :=
  ⟨(data.vn v).size, BitVec.ofNat _ (value v)⟩

def outcomeOf (sem : Semantics) (data : Funcdata) (value : VarnodeId → Nat) (o : OpId) (sizeout : Nat) : Nat :=
  (sem.outcome (data.op o) ((data.op o).inrefs.map (operandOf data value)) sizeout).toNat

/-- The varnode is written by an op that computes its value. -/
def Computed (data : Funcdata) (leaf : VarnodeId → Prop) (v : VarnodeId) (o : OpId) : Prop :=
  (data.vn v).getDef = some o ∧ ¬ leaf v ∧ isLeafOp (data.op o).code = false

/-- Values of all the varnodes. Those of the leaves are free: the varnodes that no op
computes, and some that are taken as leaves too. -/
structure Valuation (sem : Semantics) (data : Funcdata) (leaf : VarnodeId → Prop) where
  value : VarnodeId → Nat
  within : ∀ v, value v < 2 ^ (8 * (data.vn v).size)
  constant : ∀ v, (data.vn v).isConstant = true → value v = (data.vn v).offset.toNat % 2 ^ (8 * (data.vn v).size)
  computed : ∀ v o, Computed data leaf v o → value v = outcomeOf sem data value o (data.vn v).size

/-- The graph has no cycle but through a leaf. -/
structure Acyclic (data : Funcdata) (leaf : VarnodeId → Prop) where
  rank : VarnodeId → Nat
  below : ∀ v o u, Computed data leaf v o → u ∈ (data.op o).inrefs → rank u < rank v
  constant : ∀ v, (data.vn v).isConstant = true → (data.vn v).getDef = none

/-- There are fewer cycles when more varnodes are leaves. -/
def Acyclic.mono {data : Funcdata} {p q : VarnodeId → Prop} (h : Acyclic data p) (hle : ∀ v, p v → q v) : Acyclic data q where
  rank := h.rank
  below v o u hcomp hu := h.below v o u ⟨hcomp.1, fun hv => hcomp.2.1 (hle v hv), hcomp.2.2⟩ hu
  constant := h.constant

theorem outcomeOf_congr {sem : Semantics} {data : Funcdata} {f g : VarnodeId → Nat} {o : OpId} {sizeout : Nat}
    (h : ∀ u ∈ (data.op o).inrefs, f u = g u) : outcomeOf sem data f o sizeout = outcomeOf sem data g o sizeout := by
  have hmap : (data.op o).inrefs.map (operandOf data f) = (data.op o).inrefs.map (operandOf data g) := by
    apply List.map_congr_left
    intro u hu
    rw [operandOf, operandOf, h u hu]
  rw [outcomeOf, outcomeOf, hmap]

section Existence

variable (sem : Semantics) {data : Funcdata} {leaf : VarnodeId → Prop} (env : VarnodeId → Nat)

open Classical in
/-- The value of a varnode, from the leaves up; the fuel bounds the depth. -/
noncomputable def valueAt (data : Funcdata) (leaf : VarnodeId → Prop) : Nat → VarnodeId → Nat
  | 0, _ => 0
  | fuel + 1, v =>
      if (data.vn v).isConstant then (data.vn v).offset.toNat % 2 ^ (8 * (data.vn v).size)
      else if hv : ∃ o, Computed data leaf v o then outcomeOf sem data (valueAt data leaf fuel) hv.choose (data.vn v).size
      else env v % 2 ^ (8 * (data.vn v).size)

theorem Computed.unique {v : VarnodeId} {o o' : OpId} (h : Computed data leaf v o) (h' : Computed data leaf v o') : o = o' :=
  Option.some.inj (h.1.symm.trans h'.1)

theorem valueAt_stable (h : Acyclic data leaf) {fuel : Nat} {v : VarnodeId} (hv : h.rank v < fuel) :
    valueAt sem env data leaf fuel v = valueAt sem env data leaf (h.rank v + 1) v := by
  induction fuel using Nat.strong_induction_on generalizing v with
  | _ fuel ih =>
      obtain ⟨fuel, rfl⟩ : ∃ k, fuel = k + 1 := ⟨fuel - 1, by omega⟩
      rw [valueAt, valueAt]
      split
      · rfl
      · split
        · next hcomp =>
            apply outcomeOf_congr
            intro u hu
            have hlt := h.below v _ u hcomp.choose_spec hu
            rw [ih fuel (Nat.lt_succ_self _) (by omega)]
            rcases Nat.lt_or_ge (h.rank v) fuel with hlow | hhigh
            · rw [ih (h.rank v) (by omega) hlt]
            · rw [show h.rank v = fuel by omega, ih fuel (Nat.lt_succ_self _) (by omega)]
        · rfl

/-- Values for the leaves extend to all the varnodes. -/
theorem exists_valuation (h : Acyclic data leaf) : ∃ val : Valuation sem data leaf,
    ∀ v, (data.vn v).isConstant = false → (∀ o, ¬ Computed data leaf v o) → env v < 2 ^ (8 * (data.vn v).size) →
      val.value v = env v := by
  refine ⟨⟨fun v => valueAt sem env data leaf (h.rank v + 1) v, ?_, ?_, ?_⟩, ?_⟩
  · intro v
    simp only [valueAt]
    split
    · exact Nat.mod_lt _ (Nat.two_pow_pos _)
    · split
      · exact BitVec.isLt _
      · exact Nat.mod_lt _ (Nat.two_pow_pos _)
  · intro v hconst
    simp only [valueAt, if_pos hconst]
  · intro v o hcomp
    have hconst : ¬ (data.vn v).isConstant = true := by
      intro hc
      have hdef := hcomp.1
      rw [h.constant v hc] at hdef
      cases hdef
    have hex : ∃ o, Computed data leaf v o := ⟨o, hcomp⟩
    show valueAt sem env data leaf (h.rank v + 1) v = _
    rw [valueAt, if_neg hconst, dif_pos hex, hex.choose_spec.unique hcomp]
    apply outcomeOf_congr
    intro u hu
    exact valueAt_stable sem env h (h.below v o u hcomp hu)
  · intro v hconst hcomp henv
    have hno : ¬ ∃ o, Computed data leaf v o := fun ⟨o, ho⟩ => hcomp o ho
    show valueAt sem env data leaf (h.rank v + 1) v = _
    rw [valueAt, if_neg (by rw [hconst]; decide), dif_neg hno, Nat.mod_eq_of_lt henv]

end Existence

namespace Valuation

variable {sem : Semantics} {data : Funcdata} {leaf : VarnodeId → Prop} (val : Valuation sem data leaf) {n : Nat}

/-- The value of a varnode of `n` bytes. -/
def bits (n : Nat) (v : VarnodeId) : BitVec (8 * n) := BitVec.ofNat _ (val.value v)

variable {val} {v a b : VarnodeId} {o : OpId}

theorem operandOf_eq (hv : (data.vn v).size = n) : operandOf data val.value v = ⟨n, val.bits n v⟩ := by
  subst hv
  rfl

theorem toNat_bits (hv : (data.vn v).size = n) : (val.bits n v).toNat = val.value v := by
  rw [bits, BitVec.toNat_ofNat, Nat.mod_eq_of_lt (hv ▸ val.within v)]

variable (val)

theorem bits_constant (hv : (data.vn v).size = n) (hc : (data.vn v).isConstant = true) :
    val.bits n v = (data.vn v).offset.setWidth (8 * n) := by
  apply BitVec.eq_of_toNat_eq
  rw [toNat_bits hv, BitVec.toNat_setWidth, val.constant v hc, hv]

/-- The equation of a unary operation on bit vectors. -/
theorem bits_unary {m : Nat} {opc : OpCode} {f : BitVec (8 * m) → BitVec (8 * n)}
    (hf : ∀ x, Denotes opc [⟨m, x⟩] n (some (f x))) (hleaf : isLeafOp opc = false) (hload : opc ≠ .load)
    (hdef : (data.vn v).getDef = some o) (hv : ¬ leaf v) (hcode : (data.op o).code = opc) (hin : (data.op o).inrefs = [a])
    (hn : (data.vn v).size = n) (ha : (data.vn a).size = m) : val.bits n v = f (val.bits m a) := by
  apply BitVec.eq_of_toNat_eq
  have hval := val.computed v o ⟨hdef, hv, by rw [hcode, hleaf]⟩
  rw [toNat_bits hn, hval, outcomeOf, hin, hn, Semantics.outcome, hcode, if_neg hload, List.map_singleton,
    operandOf_eq ha, sem.denotes (hf _)]

/-- The equation of a binary operation on bit vectors. -/
theorem bits_binary {m k : Nat} {opc : OpCode} {f : BitVec (8 * m) → BitVec (8 * k) → BitVec (8 * n)}
    (hf : ∀ x y, Denotes opc [⟨m, x⟩, ⟨k, y⟩] n (some (f x y))) (hleaf : isLeafOp opc = false) (hload : opc ≠ .load)
    (hdef : (data.vn v).getDef = some o) (hv : ¬ leaf v) (hcode : (data.op o).code = opc) (hin : (data.op o).inrefs = [a, b])
    (hn : (data.vn v).size = n) (ha : (data.vn a).size = m) (hb : (data.vn b).size = k) :
    val.bits n v = f (val.bits m a) (val.bits k b) := by
  apply BitVec.eq_of_toNat_eq
  have hval := val.computed v o ⟨hdef, hv, by rw [hcode, hleaf]⟩
  rw [toNat_bits hn, hval, outcomeOf, hin, hn, Semantics.outcome, hcode, if_neg hload, List.map_cons, List.map_singleton,
    operandOf_eq ha, operandOf_eq hb, sem.denotes (hf _ _)]

/-- The equation of a binary operation with a constant as its second operand. -/
theorem bits_binary_constant {m k : Nat} {opc : OpCode} {c : Word} {f : BitVec (8 * m) → BitVec (8 * n)}
    (hf : ∀ x, Denotes opc [⟨m, x⟩, ⟨k, c.setWidth _⟩] n (some (f x))) (hleaf : isLeafOp opc = false) (hload : opc ≠ .load)
    (hdef : (data.vn v).getDef = some o) (hv : ¬ leaf v) (hcode : (data.op o).code = opc) (hin : (data.op o).inrefs = [a, b])
    (hn : (data.vn v).size = n) (ha : (data.vn a).size = m) (hb : (data.vn b).size = k) (hconst : (data.vn b).isConstant = true)
    (hc : (data.vn b).offset = c) : val.bits n v = f (val.bits m a) := by
  apply BitVec.eq_of_toNat_eq
  have hval := val.computed v o ⟨hdef, hv, by rw [hcode, hleaf]⟩
  rw [toNat_bits hn, hval, outcomeOf, hin, hn, Semantics.outcome, hcode, if_neg hload, List.map_cons, List.map_singleton,
    operandOf_eq ha, operandOf_eq hb, val.bits_constant hb hconst, hc, sem.denotes (hf _)]

/-- A leaf that is no constant has every value. -/
theorem forall_bits_iff (sem : Semantics) {x : VarnodeId} (h : Acyclic data (· = x)) (hx : (data.vn x).isConstant = false)
    (hn : (data.vn x).size = n) (P : BitVec (8 * n) → Prop) : (∀ val : Valuation sem data (· = x), P (val.bits n x)) ↔ ∀ y, P y := by
  constructor
  · intro hall y
    obtain ⟨val, hval⟩ := exists_valuation sem (fun _ => y.toNat) h
    have hvalue : val.value x = y.toNat := hval x hx (fun o hcomp => hcomp.2.1 rfl) (by rw [hn]; exact y.isLt)
    have hbits : val.bits n x = y := by rw [bits, hvalue, BitVec.ofNat_toNat, BitVec.setWidth_eq]
    exact hbits ▸ hall val
  · exact fun hall val => hall _

end Valuation

end GhidraDecompiler.Dataflow
