import GhidraDecompiler.Dataflow.Values

namespace GhidraDecompiler.Dataflow

open Pcode
open Expression (VarnodeId OpId)
open RuleAction.RangeMeld (Funcdata isMarker isCall isCommutative)
open RuleAction.RangeMeld.Funcdata (inputVn logicalOp)

/-- The varnodes of a pointer addition: the multiplier is a constant that fits its size. -/
def PtraddLegal (data : Funcdata) : Prop :=
  ∀ v o, (data.vn v).getDef = some o → (data.op o).code = .ptradd →
    ∃ a b c, (data.op o).inrefs = [a, b, c] ∧ (data.vn a).size = (data.vn v).size ∧ (data.vn c).isConstant = true ∧
      (data.vn c).offset.toNat < 2 ^ (8 * (data.vn c).size)

namespace Valuation

variable {sem : Semantics} {data : Funcdata} {leaf : VarnodeId → Prop} (val : Valuation sem data leaf)

def operand (v : VarnodeId) : Operand := operandOf data val.value v

/-- Two varnodes have the same size and the same value. -/
def Same (v w : VarnodeId) : Prop := val.operand v = val.operand w

variable {val} {v w : VarnodeId}

theorem same_of_eq (hsize : (data.vn v).size = (data.vn w).size) (h : val.value v = val.value w) : val.Same v w := by
  rw [Same, operand, operand, operandOf, operandOf, hsize, h]

theorem Same.value_eq (h : val.Same v w) : val.value v = val.value w := by
  have hval : ∀ u, (val.operand u).val.toNat = val.value u := by
    intro u
    rw [operand, operandOf, BitVec.toNat_ofNat, Nat.mod_eq_of_lt (val.within u)]
  rw [← hval v, ← hval w, h]

/-- What the comparison of two varnodes says: they agree, or they agree when their
values do, or nothing. -/
theorem level0_cases (val : Valuation sem data leaf) (v w : VarnodeId) :
    data.functionalEqualityLevel0 v w = 0 ∧ val.Same v w ∨
      data.functionalEqualityLevel0 v w = 1 ∧ (val.value v = val.value w → val.Same v w) ∨
      data.functionalEqualityLevel0 v w = -1 := by
  simp only [Funcdata.functionalEqualityLevel0]
  by_cases hvw : v = w
  · subst hvw
    exact .inl ⟨if_pos rfl, rfl⟩
  rw [if_neg hvw]
  by_cases hsize : (data.vn v).size = (data.vn w).size
  swap
  · rw [if_pos hsize]
    exact .inr (.inr rfl)
  rw [if_neg (not_not_intro hsize)]
  cases hv : (data.vn v).isConstant with
  | true =>
      rw [if_pos rfl]
      cases hw : (data.vn w).isConstant with
      | false => exact .inr (.inr (if_neg (by decide)))
      | true =>
          rw [if_pos rfl]
          by_cases hoff : (data.vn v).offset = (data.vn w).offset
          · rw [if_pos hoff]
            refine .inl ⟨rfl, same_of_eq hsize ?_⟩
            rw [val.constant v hv, val.constant w hw, hoff, hsize]
          · rw [if_neg hoff]
            exact .inr (.inr rfl)
  | false =>
      rw [if_neg (by decide)]
      split
      · exact .inr (.inr rfl)
      · exact .inr (.inl ⟨rfl, same_of_eq hsize⟩)

/-- The inputs agree in this order, or crossed where the op allows it. -/
def InputsSame (val : Valuation sem data leaf) (commutative : Bool) (in1 in2 : List VarnodeId) : Prop :=
  in1.map val.operand = in2.map val.operand ∨
    commutative = true ∧ ∃ a b c d, in1 = [a, b] ∧ in2 = [c, d] ∧ val.Same a d ∧ val.Same b c

/-- An answer about two things: they agree outright, or when the pairs do. -/
def Answers (val : Valuation sem data leaf) (res : Int × List (VarnodeId × VarnodeId)) (agree : Prop) : Prop :=
  (res.1 = 0 → agree) ∧
    (res.1 = 1 ∨ res.1 = 2 → (res.2.length : Int) = res.1 ∧ ((∀ p ∈ res.2, val.value p.1 = val.value p.2) → agree))

theorem Answers.mono {res : Int × List (VarnodeId × VarnodeId)} {p q : Prop} (h : val.Answers res p) (hpq : p → q) :
    val.Answers res q := ⟨fun h0 => hpq (h.1 h0), fun hn => ⟨(h.2 hn).1, fun hpairs => hpq ((h.2 hn).2 hpairs)⟩⟩

theorem answers_equal {pairs : List (VarnodeId × VarnodeId)} {p : Prop} (h : p) : val.Answers (0, pairs) p :=
  ⟨fun _ => h, fun hn => by simp at hn⟩

theorem answers_unequal {pairs : List (VarnodeId × VarnodeId)} {p : Prop} : val.Answers (-1, pairs) p :=
  ⟨fun h => by simp at h, fun hn => by simp at hn⟩

theorem answers_one {a b : VarnodeId} {p : Prop} (h : val.value a = val.value b → p) : val.Answers (1, [(a, b)]) p :=
  ⟨fun h => by simp at h, fun _ => ⟨rfl, fun hpairs => h (hpairs (a, b) (by simp))⟩⟩

theorem answers_two {a b c d : VarnodeId} {p : Prop} (h : val.value a = val.value b → val.value c = val.value d → p) :
    val.Answers (2, [(a, b), (c, d)]) p :=
  ⟨fun h => by simp at h, fun _ => ⟨rfl, fun hpairs => h (hpairs (a, b) (by simp)) (hpairs (c, d) (by simp))⟩⟩

section Inputs

variable {a₀ a₁ b₀ b₁ : VarnodeId} {commutative : Bool}

theorem inputsSame_straight (h₀ : val.Same a₀ b₀) (h₁ : val.Same a₁ b₁) : val.InputsSame commutative [a₀, a₁] [b₀, b₁] := by
  left
  rw [List.map_cons, List.map_cons, List.map_cons, List.map_cons, h₀, h₁]

theorem inputsSame_crossed (h₀ : val.Same a₀ b₁) (h₁ : val.Same a₁ b₀) : val.InputsSame true [a₀, a₁] [b₀, b₁] :=
  .inr ⟨rfl, a₀, a₁, b₀, b₁, rfl, rfl, h₀, h₁⟩

/-- The level of two inputs in pairs, from the four comparisons. -/
theorem functionalEqualityInputs_pair (res : Int × List (VarnodeId × VarnodeId))
    (h : data.functionalEqualityInputs commutative [a₀, a₁] [b₀, b₁] = some res) :
    val.Answers res (val.InputsSame commutative [a₀, a₁] [b₀, b₁]) := by
  simp only [Funcdata.functionalEqualityInputs] at h
  rcases level0_cases val a₀ b₀ with ⟨h₀, s₀⟩ | h₀
  · rw [if_pos h₀] at h
    rcases level0_cases val a₁ b₁ with ⟨h₁, s₁⟩ | ⟨h₁, s₁⟩ | h₁
    · rw [if_pos h₁] at h
      cases h
      exact answers_equal (inputsSame_straight s₀ s₁)
    · rw [if_neg (by omega), if_neg (by omega)] at h
      cases h
      exact answers_one fun hval => inputsSame_straight s₀ (s₁ hval)
    · rw [if_neg (by omega), if_pos (by omega)] at h
      cases h
      exact answers_unequal
  rw [if_neg (by omega)] at h
  rcases level0_cases val a₁ b₁ with ⟨h₁, s₁⟩ | h₁
  · rw [if_pos h₁] at h
    cases h
    rcases h₀ with ⟨h₀, s₀⟩ | h₀
    · rw [h₀]
      exact answers_one fun hval => inputsSame_straight (s₀ hval) s₁
    · rw [h₀]
      exact answers_unequal
  rw [if_neg (by omega)] at h
  have hstraight : val.Answers
      (if data.functionalEqualityLevel0 a₀ b₀ = 1 ∧ data.functionalEqualityLevel0 a₁ b₁ = 1 then (2 : Int) else -1,
        [(a₀, b₀), (a₁, b₁)]) (val.InputsSame commutative [a₀, a₁] [b₀, b₁]) := by
    split
    · next hboth =>
        obtain ⟨-, s₀⟩ | h₀ := h₀
        · obtain ⟨-, s₁⟩ | h₁ := h₁
          · exact answers_two fun e₀ e₁ => inputsSame_straight (s₀ e₀) (s₁ e₁)
          · omega
        · omega
    · exact answers_unequal
  generalize (if data.functionalEqualityLevel0 a₀ b₀ = 1 ∧ data.functionalEqualityLevel0 a₁ b₁ = 1 then (2 : Int) else -1) =
    unmatchsize at h hstraight
  cases commutative with
  | false =>
      cases h
      exact hstraight
  | true =>
      rw [if_neg (by decide)] at h
      rcases level0_cases val a₀ b₁ with ⟨c₀, s₀⟩ | ⟨c₀, s₀⟩ | c₀
      · rcases level0_cases val a₁ b₀ with ⟨c₁, s₁⟩ | ⟨c₁, s₁⟩ | c₁
        · rw [if_pos ⟨c₀, c₁⟩] at h
          cases h
          exact answers_equal (inputsSame_crossed s₀ s₁)
        · rw [if_neg (by omega), if_neg (by omega), if_pos c₀] at h
          cases h
          exact answers_one fun hval => inputsSame_crossed s₀ (s₁ hval)
        · rw [if_neg (by omega), if_pos (by omega)] at h
          cases h
          exact hstraight
      · rcases level0_cases val a₁ b₀ with ⟨c₁, s₁⟩ | ⟨c₁, s₁⟩ | c₁
        · rw [if_neg (by omega), if_neg (by omega), if_neg (by omega), if_pos c₁] at h
          cases h
          exact answers_one fun hval => inputsSame_crossed (s₀ hval) s₁
        · rw [if_neg (by omega), if_neg (by omega), if_neg (by omega), if_neg (by omega)] at h
          split at h
          · next hboth =>
              cases h
              rwa [hboth] at hstraight
          · cases h
            exact answers_two fun e₀ e₁ => inputsSame_crossed (s₀ e₀) (s₁ e₁)
        · rw [if_neg (by omega), if_pos (by omega)] at h
          cases h
          exact hstraight
      · rw [if_neg (by omega), if_pos (by omega)] at h
        cases h
        exact hstraight

theorem functionalEqualityInputs_sound {in1 in2 : List VarnodeId} {res : Int × List (VarnodeId × VarnodeId)}
    (h : data.functionalEqualityInputs commutative in1 in2 = some res) :
    val.Answers res (val.InputsSame commutative in1 in2) := by
  match in1, in2 with
  | [a₀], [b₀] =>
      cases h
      rcases level0_cases val a₀ b₀ with ⟨h₀, s₀⟩ | ⟨h₀, s₀⟩ | h₀
      · rw [h₀]
        refine answers_equal (.inl ?_)
        rw [List.map_singleton, List.map_singleton, s₀]
      · rw [h₀]
        refine answers_one fun hval => .inl ?_
        rw [List.map_singleton, List.map_singleton, s₀ hval]
      · rw [h₀]
        exact answers_unequal
  | [a₀, a₁], [b₀, b₁] => exact functionalEqualityInputs_pair res h
  | [], _ => cases h
  | [_], [] => cases h
  | [_], _ :: _ :: _ => cases h
  | [_, _], [] => cases h
  | [_, _], [_] => cases h
  | [_, _], _ :: _ :: _ :: _ => cases h
  | _ :: _ :: _ :: _, _ => cases h

end Inputs

section Level

theorem size_of_level0 (h : data.functionalEqualityLevel0 v w = 1) : (data.vn v).size = (data.vn w).size := by
  by_contra hsize
  simp only [Funcdata.functionalEqualityLevel0] at h
  split at h
  · cases h
  · cases h

/-- A pointer addition does not depend on the size of the multiplier. -/
theorem apply_ptradd (sem : Semantics) {a b c c' : Operand} {n : Nat} (ha : a.size = n) (hc : c.val.toNat = c'.val.toNat) :
    sem.apply .ptradd [a, b, c] n = sem.apply .ptradd [a, b, c'] n := by
  obtain ⟨n, x⟩ := a
  subst ha
  have hwidth : c.val.setWidth (8 * n) = c'.val.setWidth (8 * n) := by
    apply BitVec.eq_of_toNat_eq
    rw [BitVec.toNat_setWidth, BitVec.toNat_setWidth, hc]
  rw [sem.denotes (.ptradd x b.val c.val), sem.denotes (.ptradd x b.val c'.val), hwidth]

/-- Ops that agree in all that the level looks at have the same outcome. -/
theorem outcome_eq {op1 op2 : RuleAction.RangeMeld.PcodeOp} {n : Nat} (hcode : op1.code = op2.code) (haddr : op1.code = .load → op1.addr = op2.addr)
    (hin : val.InputsSame (isCommutative op1.code) op1.inrefs op2.inrefs) :
    sem.outcome op1 (op1.inrefs.map val.operand) n = sem.outcome op2 (op2.inrefs.map val.operand) n := by
  rw [Semantics.outcome, Semantics.outcome, ← hcode]
  rcases hin with hin | ⟨hcomm, a, b, c, d, h₁, h₂, had, hbc⟩
  · rw [hin]
    by_cases hload : op1.code = .load
    · rw [if_pos hload, if_pos hload, haddr hload]
    · rw [if_neg hload, if_neg hload]
  · have hload : ¬ op1.code = .load := by
      intro hload
      rw [hload] at hcomm
      cases hcomm
    rw [if_neg hload, if_neg hload, h₁, h₂, List.map_cons, List.map_singleton, List.map_cons, List.map_singleton, had, hbc]
    exact sem.commutes hcomm _ _ _

end Level

end Valuation

section Level

variable {sem : Semantics} {data : Funcdata} {vn1 vn2 : VarnodeId} {res : Int × List (VarnodeId × VarnodeId)}

/-- No other varnode is taken as a leaf. -/
abbrev noLeaf (_ : VarnodeId) : Prop := False

theorem ptradd_outcome_eq (val : Valuation sem data noLeaf) {a0 a1 a2 b0 b1 b2 : VarnodeId} {op1 op2 : RuleAction.RangeMeld.PcodeOp} {n : Nat}
    (hcode : op1.code = .ptradd) (hcode' : op2.code = .ptradd) (h₁ : op1.inrefs = [a0, a1, a2]) (h₂ : op2.inrefs = [b0, b1, b2])
    (hsize : (data.vn a0).size = n) (ha : (data.vn a2).isConstant = true) (hb : (data.vn b2).isConstant = true)
    (ha' : (data.vn a2).offset.toNat < 2 ^ (8 * (data.vn a2).size)) (hb' : (data.vn b2).offset.toNat < 2 ^ (8 * (data.vn b2).size))
    (hoff : (data.vn a2).offset = (data.vn b2).offset) (hin : val.InputsSame (isCommutative op1.code) [a0, a1] [b0, b1]) :
    sem.outcome op1 (op1.inrefs.map val.operand) n = sem.outcome op2 (op2.inrefs.map val.operand) n := by
  have hload : ¬ OpCode.ptradd = .load := by decide
  have hmult : (val.operand a2).val.toNat = (val.operand b2).val.toNat := by
    have hval : ∀ u, (val.operand u).val.toNat = val.value u := by
      intro u
      rw [Valuation.operand, operandOf, BitVec.toNat_ofNat, Nat.mod_eq_of_lt (val.within u)]
    rw [hval, hval, val.constant _ ha, val.constant _ hb, Nat.mod_eq_of_lt ha', Nat.mod_eq_of_lt hb', hoff]
  rcases hin with hin | ⟨hcomm, -⟩
  · rw [List.map_cons, List.map_singleton, List.map_cons, List.map_singleton, List.cons.injEq, List.cons.injEq] at hin
    rw [Semantics.outcome, Semantics.outcome, hcode, hcode', if_neg hload, if_neg hload, h₁, h₂]
    simp only [List.map_cons, List.map_nil]
    rw [← hin.1, ← hin.2.1]
    exact Valuation.apply_ptradd sem hsize hmult
  · rw [hcode] at hcomm
    cases hcomm

theorem level_answers (hg : PtraddLegal data) (val : Valuation sem data noLeaf)
    (h : data.functionalEqualityLevel vn1 vn2 = some res) : val.Answers res (val.value vn1 = val.value vn2) := by
  simp only [Funcdata.functionalEqualityLevel] at h
  rcases val.level0_cases vn1 vn2 with ⟨hl, hsame⟩ | ⟨hl, -⟩ | hl
  · rw [if_pos (by omega), hl] at h
    cases h
    exact Valuation.answers_equal hsame.value_eq
  swap
  · rw [if_pos (by omega), hl] at h
    cases h
    exact Valuation.answers_unequal
  rw [if_neg (by omega)] at h
  have hsize := Valuation.size_of_level0 hl
  split at h
  swap
  · cases h
    exact Valuation.answers_unequal
  next def1 def2 hdef1 hdef2 =>
  have hunequal : ∀ {p : Prop}, some ((-1 : Int), ([] : List (VarnodeId × VarnodeId))) = some res → val.Answers res p := by
    intro p h
    cases h
    exact Valuation.answers_unequal
  by_cases hcode : (data.op def1).code = (data.op def2).code
  swap
  · rw [if_pos hcode] at h
    exact hunequal h
  by_cases hlen : (data.op def1).inrefs.length = (data.op def2).inrefs.length
  swap
  · rw [if_neg (not_not_intro hcode), if_pos hlen] at h
    exact hunequal h
  rw [if_neg (not_not_intro hcode), if_neg (not_not_intro hlen)] at h
  by_cases hmarker : isMarker (data.op def1).code = true
  · rw [if_pos hmarker] at h
    exact hunequal h
  by_cases hcall : isCall (data.op def2).code = true
  · rw [if_neg hmarker, if_pos hcall] at h
    exact hunequal h
  by_cases haddr : (data.op def1).code = .load ∧ (data.op def1).addr ≠ (data.op def2).addr
  · rw [if_neg hmarker, if_neg hcall, if_pos haddr] at h
    exact hunequal h
  rw [if_neg hmarker, if_neg hcall, if_neg haddr] at h
  -- the two ops compute the values
  have hleaf : isLeafOp (data.op def1).code = false := by
    rw [isLeafOp, Bool.or_eq_false_iff, hcode]
    rw [hcode] at hmarker
    exact ⟨Bool.eq_false_of_not_eq_true hmarker, Bool.eq_false_of_not_eq_true hcall⟩
  have hval1 := val.computed vn1 def1 ⟨hdef1, not_false, hleaf⟩
  have hval2 := val.computed vn2 def2 ⟨hdef2, not_false, hcode ▸ hleaf⟩
  have haddr' : (data.op def1).code = .load → (data.op def1).addr = (data.op def2).addr := by
    intro hload
    by_contra hne
    exact haddr ⟨hload, hne⟩
  split at h
  · next a0 a1 a2 as b0 b1 b2 bs hin1 hin2 =>
      split_ifs at h with hptr hoff
      · exact hunequal h
      · exact hunequal h
      · have hptr := not_not.mp hptr
        have hoff := not_not.mp hoff
        obtain ⟨x, y, z, hx, hxsize, hz, hfit⟩ := hg vn1 def1 hdef1 hptr
        obtain ⟨x', y', z', hx', -, hz', hfit'⟩ := hg vn2 def2 hdef2 (hcode ▸ hptr)
        rw [hin1] at hx
        rw [hin2] at hx'
        cases hx
        cases hx'
        refine (Valuation.functionalEqualityInputs_sound h).mono fun hsame => ?_
        have heq := ptradd_outcome_eq val hptr (hcode ▸ hptr) hin1 hin2 hxsize hz hz' hfit hfit' hoff hsame
        rw [hval1, hval2, ← hsize]
        exact congrArg BitVec.toNat heq
  · refine (Valuation.functionalEqualityInputs_sound h).mono fun hsame => ?_
    have heq := Valuation.outcome_eq (n := (data.vn vn1).size) hcode haddr' hsame
    rw [hval1, hval2, ← hsize]
    exact congrArg BitVec.toNat heq

theorem value_eq_of_functionalEquality (hg : PtraddLegal data) (val : Valuation sem data noLeaf)
    (h : data.functionalEquality vn1 vn2 = some true) : val.value vn1 = val.value vn2 := by
  obtain ⟨res, hlevel, hzero⟩ := Option.map_eq_some_iff.mp h
  exact (level_answers hg val hlevel).1 (of_decide_eq_true hzero)

/-- Equal varnodes have one size. -/
theorem size_eq_of_functionalEquality (h : data.functionalEquality vn1 vn2 = some true) : (data.vn vn1).size = (data.vn vn2).size := by
  obtain ⟨res, hlevel, hzero⟩ := Option.map_eq_some_iff.mp h
  by_cases hone : data.functionalEqualityLevel0 vn1 vn2 = 1
  · exact Valuation.size_of_level0 hone
  · rw [Funcdata.functionalEqualityLevel, if_pos hone] at hlevel
    obtain rfl := Option.some.inj hlevel
    have hlevel0 : data.functionalEqualityLevel0 vn1 vn2 = 0 := of_decide_eq_true hzero
    by_contra hsize
    simp only [Funcdata.functionalEqualityLevel0, if_pos hsize] at hlevel0
    split at hlevel0
    · next heq => exact hsize (by rw [heq])
    · cases hlevel0

/-- Three sums of four inputs. -/
def crossedSums : Funcdata where
  vn v := { inputVn 4 with getDef := if v = 2 then some 0 else if v = 3 then some 1 else if v = 5 then some 2 else none }
  op o :=
    if o = 0 then logicalOp .intAdd [0, 1] 2 else if o = 1 then logicalOp .intAdd [1, 0] 3 else logicalOp .intAdd [1, 4] 5
  numVarnodes := 6
  isValueClose _ _ _ := false

def crossedSums_acyclic : Acyclic crossedSums noLeaf where
  rank v := if v = 2 ∨ v = 3 ∨ v = 5 then 1 else 0
  below := by
    rintro v o u ⟨hdef, -, -⟩ hu
    have hv : v = 2 ∨ v = 3 ∨ v = 5 := by
      simp only [crossedSums] at hdef
      split_ifs at hdef with h₂ h₃ h₅
      · exact .inl h₂
      · exact .inr (.inl h₃)
      · exact .inr (.inr h₅)
    have hleaf : ¬ (u = 2 ∨ u = 3 ∨ u = 5) := by
      have hin : u = 0 ∨ u = 1 ∨ u = 4 := by
        simp only [crossedSums] at hu
        split_ifs at hu <;> simp [logicalOp] at hu <;> tauto
      rcases hin with rfl | rfl | rfl <;> decide
    rw [if_pos hv, if_neg hleaf]
    decide
  constant := by
    intro v hv
    cases hv

end Level

end GhidraDecompiler.Dataflow
