import Mathlib.Algebra.Order.Ring.Int
import GhidraDecompiler.OpCode
import GhidraDecompiler.Lib.SortedMap

namespace GhidraDecompiler.LiveRange

structure PcodeOp where
  code : OpCode
  marker : Bool
  order : Nat
  parent : Nat
  inputs : List Nat
  out : Option Nat
  order_lt : order < 2 ^ 32

structure Varnode where
  offset : Nat
  defOp : Option Nat
  input : Bool
  implied : Bool
  descend : List Nat

structure FlowBlock where
  index : Int
  ins : List Nat
  ops : List Nat

/-- A function, with its operations, varnodes and blocks by their ids. -/
structure Funcdata where
  op : Nat → PcodeOp
  vn : Nat → Varnode
  block : Nat → FlowBlock
  blocks : List Nat

inductive CoverPoint
  | begin
  | finish
  | input
  | op (id : Nat)
  deriving DecidableEq

structure CoverBlock where
  start : CoverPoint
  stop : CoverPoint
  deriving DecidableEq

def PcodeOp.getIn (op : PcodeOp) (slot : Nat) : Nat := op.inputs.getD slot 0

/-- The id of an operation that the address of a varnode encodes. -/
def getOpFromConst (vn : Varnode) : Nat := vn.offset % 2 ^ 32

namespace CoverBlock

def new : CoverBlock := ⟨.begin, .begin⟩

def getUIndex (data : Funcdata) : CoverPoint → Nat
  | .begin => 0
  | .finish => 2 ^ 32 - 1
  | .input => 0
  | .op id =>
      let op := data.op id
      if op.marker ∧ op.code = .multiequal then 0
      else if op.marker ∧ op.code = .indirect then (data.op (getOpFromConst (data.vn (op.getIn 1)))).order
      else op.order

def empty (a : CoverBlock) : Bool := a.start = .begin ∧ a.stop = .begin

def setAll : CoverBlock := ⟨.begin, .finish⟩

def setBegin (a : CoverBlock) (start : CoverPoint) : CoverBlock :=
  ⟨start, if a.stop = .begin then .finish else a.stop⟩

def setEnd (a : CoverBlock) (stop : CoverPoint) : CoverBlock := { a with stop := stop }

def intersectIndices (ustart ustop u2start u2stop : Nat) : Nat :=
  if ustart ≤ ustop then
    if u2start ≤ u2stop then
      if ustop ≤ u2start ∨ u2stop ≤ ustart then
        if ustart = u2stop ∨ ustop = u2start then 1 else 0
      else 2
    else if ustart ≥ u2stop ∧ ustop ≤ u2start then
      if ustart = u2stop ∨ ustop = u2start then 1 else 0
    else 2
  else if u2start ≤ u2stop ∧ u2start ≥ ustop ∧ u2stop ≤ ustart then
    if u2start = ustop ∨ u2stop = ustart then 1 else 0
  else 2

section

variable (data : Funcdata)

def intersect (a b : CoverBlock) : Nat :=
  if a.empty then 0
  else if b.empty then 0
  else intersectIndices (getUIndex data a.start) (getUIndex data a.stop) (getUIndex data b.start)
    (getUIndex data b.stop)

def contain (a : CoverBlock) (point : CoverPoint) : Bool :=
  if a.empty then false
  else
    let upoint := getUIndex data point
    let ustart := getUIndex data a.start
    let ustop := getUIndex data a.stop
    if ustart ≤ ustop then upoint ≥ ustart ∧ upoint ≤ ustop
    else upoint ≤ ustop ∨ upoint ≥ ustart

def boundary (a : CoverBlock) (point : CoverPoint) : Nat :=
  if a.empty then 0
  else
    let val := getUIndex data point
    if getUIndex data a.start = val ∧ a.start ≠ .begin then 2
    else if getUIndex data a.stop = val then 1
    else 0

def merge (a b : CoverBlock) : CoverBlock :=
  if b.empty then a
  else if a.empty then b
  else
    let ustart := getUIndex data a.start
    let u2start := getUIndex data b.start
    let internal4 := decide (ustart = 0 ∧ b.stop = .finish)
    let internal1 := internal4 || contain data b a.start
    let internal3 := decide (u2start = 0 ∧ a.stop = .finish)
    let internal2 := internal3 || contain data a b.start
    let stop := if internal3 || contain data b a.stop then b.stop else a.stop
    if internal1 ∧ internal2 ∧ (ustart ≠ u2start ∨ internal3 ∨ internal4) then setAll
    else if internal1 then ⟨b.start, stop⟩
    else if ¬ internal2 then
      if ustart < u2start then { a with stop := b.stop } else { a with start := b.start }
    else { a with stop := stop }

end

/-- The points between two indices, which wrap around when the first is the larger. -/
def Within (u ustart ustop : Nat) : Prop :=
  (ustart ≤ u ∧ u ≤ ustop) ∨ (ustop < ustart ∧ (u ≤ ustop ∨ ustart ≤ u))
  deriving Decidable

/-- The points of a block: its ends, the input of the function and its operations. -/
def PointOf (data : Funcdata) (bl : Nat) : CoverPoint → Prop
  | .op id => (data.op id).parent = bl
  | _ => True

def OfBlock (data : Funcdata) (bl : Nat) (a : CoverBlock) : Prop :=
  PointOf data bl a.start ∧ PointOf data bl a.stop

/-- A point with the index of the start or of the stop. -/
def EndPoint (data : Funcdata) (a : CoverBlock) (point : CoverPoint) : Prop :=
  getUIndex data point = getUIndex data a.start ∨ getUIndex data point = getUIndex data a.stop

variable {data : Funcdata} {a b : CoverBlock} {point : CoverPoint} {bl : Nat}

theorem getUIndex_lt (data : Funcdata) (point : CoverPoint) : getUIndex data point < 2 ^ 32 := by
  cases point with
  | begin => exact Nat.two_pow_pos 32
  | finish => exact Nat.sub_one_lt (by decide)
  | input => exact Nat.two_pow_pos 32
  | op id =>
      simp only [getUIndex]
      split_ifs
      · decide
      · exact (data.op _).order_lt
      · exact (data.op id).order_lt

@[simp] theorem getUIndex_begin : getUIndex data .begin = 0 := rfl

@[simp] theorem getUIndex_finish : getUIndex data .finish = 2 ^ 32 - 1 := rfl

@[simp] theorem empty_mk (start stop : CoverPoint) : empty ⟨start, stop⟩ = decide (start = .begin ∧ stop = .begin) :=
  rfl

theorem contain_iff : contain data a point = true ↔ a.empty = false ∧
    Within (getUIndex data point) (getUIndex data a.start) (getUIndex data a.stop) := by
  simp only [contain, Within]
  split_ifs with h₁ h₂
  · simp [h₁]
  · simp only [h₁, ge_iff_le, decide_eq_true_eq, true_and]
    omega
  · simp only [h₁, ge_iff_le, decide_eq_true_eq, true_and]
    omega

theorem empty_eq_false : a.empty = false ↔ ¬ (a.start = .begin ∧ a.stop = .begin) := by
  simp [empty]

theorem contain_setAll (data : Funcdata) (point : CoverPoint) : contain data setAll point = true := by
  have := getUIndex_lt data point
  rw [contain_iff]
  simp only [setAll, empty_eq_false, Within, getUIndex_begin, getUIndex_finish]
  refine ⟨by simp, ?_⟩
  omega

/-- The branches of `merge` on blocks that are not empty. -/
theorem merge_cases (data : Funcdata) (ha : a.empty = false) (hb : b.empty = false) :
    ∃ (internal3 internal4 : Prop) (stop : CoverPoint),
      (internal3 ↔ getUIndex data b.start = 0 ∧ a.stop = .finish) ∧
      (internal4 ↔ getUIndex data a.start = 0 ∧ b.stop = .finish) ∧
      ((internal3 ∨ Within (getUIndex data a.stop) (getUIndex data b.start) (getUIndex data b.stop)) ∧ stop = b.stop ∨
        ¬ (internal3 ∨ Within (getUIndex data a.stop) (getUIndex data b.start) (getUIndex data b.stop)) ∧
          stop = a.stop) ∧
      let internal1 := internal4 ∨ Within (getUIndex data a.start) (getUIndex data b.start) (getUIndex data b.stop)
      let internal2 := internal3 ∨ Within (getUIndex data b.start) (getUIndex data a.start) (getUIndex data a.stop)
      merge data a b = setAll ∨
      (internal1 ∧ ¬ (internal2 ∧ (getUIndex data a.start ≠ getUIndex data b.start ∨ internal3 ∨ internal4)) ∧
        merge data a b = ⟨b.start, stop⟩) ∨
      (¬ internal1 ∧ ¬ internal2 ∧ getUIndex data a.start < getUIndex data b.start ∧
        merge data a b = ⟨a.start, b.stop⟩) ∨
      (¬ internal1 ∧ ¬ internal2 ∧ getUIndex data b.start ≤ getUIndex data a.start ∧
        merge data a b = ⟨b.start, a.stop⟩) ∨
      (¬ internal1 ∧ internal2 ∧ merge data a b = ⟨a.start, stop⟩) := by
  refine ⟨_, _, if (getUIndex data b.start = 0 ∧ a.stop = .finish) ∨
      Within (getUIndex data a.stop) (getUIndex data b.start) (getUIndex data b.stop) then b.stop else a.stop,
    Iff.rfl, Iff.rfl, ?_, ?_⟩
  · split_ifs with h
    · exact .inl ⟨h, rfl⟩
    · exact .inr ⟨h, rfl⟩
  · intro internal1 internal2
    rw [merge, if_neg (by simp [hb]), if_neg (by simp [ha])]
    simp only [Bool.or_eq_true, decide_eq_true_eq, contain_iff, ha, hb, true_and]
    split
    · exact .inl rfl
    · rename_i hall
      by_cases h₁ : internal1
      · rw [if_pos h₁]
        exact .inr (.inl ⟨h₁, fun h => hall ⟨h₁, h⟩, rfl⟩)
      · rw [if_neg h₁]
        by_cases h₂ : internal2
        · rw [if_neg (not_not.mpr h₂)]
          exact .inr (.inr (.inr (.inr ⟨h₁, h₂, rfl⟩)))
        · rw [if_pos h₂]
          split
          · exact .inr (.inr (.inl ⟨h₁, h₂, ‹_›, rfl⟩))
          · exact .inr (.inr (.inr (.inl ⟨h₁, h₂, Nat.le_of_not_lt ‹_›, rfl⟩)))

section

variable {s e s2 e2 u : Nat} {internal3 internal4 : Prop}

theorem within_begin_merged (h₃ : internal3 → s2 = 0 ∧ e = 2 ^ 32 - 1) (h₄ : internal4 → s = 0 ∧ e2 = 2 ^ 32 - 1)
    (hu : u < 2 ^ 32) (hall : ¬ ((internal3 ∨ Within s2 s e) ∧ (s ≠ s2 ∨ internal3 ∨ internal4)))
    (h₁ : internal4 ∨ Within s s2 e2) (h : Within u s e ∨ Within u s2 e2) :
    (internal3 ∨ Within e s2 e2 → Within u s2 e2) ∧ (¬ (internal3 ∨ Within e s2 e2) → Within u s2 e) := by
  simp only [Within] at *
  by_cases internal3 <;> by_cases internal4 <;> simp_all <;> omega

theorem within_end_merged (h₃ : internal3 → s2 = 0 ∧ e = 2 ^ 32 - 1) (hs : s < 2 ^ 32)
    (h₁ : ¬ Within s s2 e2) (h₂ : internal3 ∨ Within s2 s e) (h : Within u s e ∨ Within u s2 e2) :
    (internal3 ∨ Within e s2 e2 → Within u s e2) ∧ (¬ (internal3 ∨ Within e s2 e2) → Within u s e) := by
  simp only [Within] at *
  by_cases internal3 <;> simp_all <;> omega

theorem within_apart (h₁ : ¬ Within s s2 e2) (h₂ : ¬ Within s2 s e) (h : Within u s e ∨ Within u s2 e2) :
    (s < s2 → Within u s e2) ∧ (s2 ≤ s → Within u s2 e) := by
  simp only [Within] at *
  omega

end

theorem getUIndex_of_begin (h : point = .begin) : getUIndex data point = 0 := by
  rw [h, getUIndex_begin]

theorem getUIndex_of_finish (h : point = .finish) : getUIndex data point = 2 ^ 32 - 1 := by
  rw [h, getUIndex_finish]

/-- A block with the start of one and the stop of the other is not empty when the stop
does not reach the start. -/
theorem not_empty_of_not_within {start stop : CoverPoint} {e2 : Nat}
    (h : ¬ Within (getUIndex data stop) (getUIndex data start) e2) : empty ⟨start, stop⟩ = false := by
  rw [empty_eq_false]
  rintro ⟨h₁, h₂⟩
  rw [getUIndex_of_begin h₁, getUIndex_of_begin h₂] at h
  exact h (.inl ⟨Nat.le_refl _, Nat.zero_le _⟩)

theorem not_empty_of_not_within_start {start stop : CoverPoint} {s2 : Nat}
    (h : ¬ Within (getUIndex data start) s2 (getUIndex data stop)) : empty ⟨start, stop⟩ = false := by
  rw [empty_eq_false]
  rintro ⟨h₁, h₂⟩
  rw [getUIndex_of_begin h₁, getUIndex_of_begin h₂] at h
  simp only [Within] at h
  omega

theorem merge_contain (h : contain data a point = true ∨ contain data b point = true) :
    contain data (merge data a b) point = true := by
  by_cases hb : b.empty = true
  · rw [merge, if_pos hb]
    rcases h with h | h
    · exact h
    · rw [contain, if_pos hb] at h
      cases h
  by_cases ha : a.empty = true
  · rw [merge, if_neg hb, if_pos ha]
    rcases h with h | h
    · rw [contain, if_pos ha] at h
      cases h
    · exact h
  rw [Bool.not_eq_true] at ha hb
  simp only [contain_iff, ha, hb, true_and] at h
  have hu := getUIndex_lt data point
  obtain ⟨i3, i4, stop, hi3, hi4, hstop, hcases⟩ := merge_cases data ha hb
  have h₃ : i3 → getUIndex data b.start = 0 ∧ getUIndex data a.stop = 2 ^ 32 - 1 := fun hi =>
    ⟨(hi3.mp hi).1, getUIndex_of_finish (hi3.mp hi).2⟩
  have h₄ : i4 → getUIndex data a.start = 0 ∧ getUIndex data b.stop = 2 ^ 32 - 1 := fun hi =>
    ⟨(hi4.mp hi).1, getUIndex_of_finish (hi4.mp hi).2⟩
  rcases hcases with hm | ⟨h₁, hall, hm⟩ | ⟨h₁, h₂, hlt, hm⟩ | ⟨h₁, h₂, hle, hm⟩ | ⟨h₁, h₂, hm⟩
  · rw [hm]
    exact contain_setAll data point
  · obtain ⟨hin, hout⟩ := within_begin_merged h₃ h₄ hu hall h₁ h
    rw [hm, contain_iff]
    rcases hstop with ⟨hs, rfl⟩ | ⟨hs, rfl⟩
    · exact ⟨hb, hin hs⟩
    · exact ⟨not_empty_of_not_within (not_or.mp hs).2, hout hs⟩
  · rw [hm, contain_iff]
    exact ⟨not_empty_of_not_within_start (not_or.mp h₁).2, (within_apart (not_or.mp h₁).2 (not_or.mp h₂).2 h).1 hlt⟩
  · rw [hm, contain_iff]
    exact ⟨not_empty_of_not_within_start (not_or.mp h₂).2, (within_apart (not_or.mp h₁).2 (not_or.mp h₂).2 h).2 hle⟩
  · obtain ⟨hin, hout⟩ := within_end_merged h₃ (getUIndex_lt data a.start) (not_or.mp h₁).2 h₂ h
    rw [hm, contain_iff]
    rcases hstop with ⟨hs, rfl⟩ | ⟨hs, rfl⟩
    · exact ⟨not_empty_of_not_within_start (not_or.mp h₁).2, hin hs⟩
    · exact ⟨ha, hout hs⟩

section

variable {s e s2 e2 u : Nat}

theorem intersectIndices_ne_zero (h₁ : Within u s e) (h₂ : Within u s2 e2) : intersectIndices s e s2 e2 ≠ 0 := by
  simp only [intersectIndices, Within] at *
  split_ifs <;> omega

/-- Sets of indices that are not apart share one of their ends or the first index. -/
theorem exists_common (h : intersectIndices s e s2 e2 ≠ 0) :
    ∃ u, (u = 0 ∨ u = s ∨ u = e ∨ u = s2 ∨ u = e2) ∧ Within u s e ∧ Within u s2 e2 := by
  simp only [intersectIndices, Within] at *
  by_cases h₀ : e < s ∧ e2 < s2
  · exact ⟨0, .inl rfl, by omega, by omega⟩
  by_cases h₁ : (s2 ≤ s ∧ s ≤ e2) ∨ (e2 < s2 ∧ (s ≤ e2 ∨ s2 ≤ s))
  · exact ⟨s, by omega, by omega, by omega⟩
  by_cases h₂ : (s2 ≤ e ∧ e ≤ e2) ∨ (e2 < s2 ∧ (e ≤ e2 ∨ s2 ≤ e))
  · exact ⟨e, by omega, by omega, by omega⟩
  by_cases h₃ : (s ≤ s2 ∧ s2 ≤ e) ∨ (e < s ∧ (s2 ≤ e ∨ s ≤ s2))
  · exact ⟨s2, by omega, by omega, by omega⟩
  · refine ⟨e2, by omega, ?_, by omega⟩
    split_ifs at h <;> omega

theorem intersectIndices_le : intersectIndices s e s2 e2 ≤ 2 := by
  simp only [intersectIndices]
  split_ifs <;> decide

theorem intersectIndices_one (h : intersectIndices s e s2 e2 = 1) (h₁ : Within u s e) (h₂ : Within u s2 e2) :
    (u = s ∨ u = e) ∧ (u = s2 ∨ u = e2) := by
  simp only [intersectIndices, Within] at *
  split_ifs at h <;> omega

end

theorem intersect_eq_zero (ha : OfBlock data bl a) (hb : OfBlock data bl b) :
    intersect data a b = 0 ↔ ¬ ∃ point, PointOf data bl point ∧ contain data a point = true ∧
      contain data b point = true := by
  by_cases hae : a.empty = true
  · simp [intersect, contain, hae]
  by_cases hbe : b.empty = true
  · simp [intersect, contain, hbe]
  rw [intersect, if_neg hae, if_neg hbe]
  rw [Bool.not_eq_true] at hae hbe
  simp only [contain_iff, hae, hbe, true_and]
  constructor
  · rintro hz ⟨point, -, h₁, h₂⟩
    exact intersectIndices_ne_zero h₁ h₂ hz
  · intro hno
    by_contra hne
    obtain ⟨u, rfl | rfl | rfl | rfl | rfl, hu⟩ := exists_common hne
    · exact hno ⟨.begin, trivial, hu⟩
    · exact hno ⟨a.start, ha.1, hu⟩
    · exact hno ⟨a.stop, ha.2, hu⟩
    · exact hno ⟨b.start, hb.1, hu⟩
    · exact hno ⟨b.stop, hb.2, hu⟩

theorem intersect_le : intersect data a b ≤ 2 := by
  rw [intersect]
  split_ifs
  · decide
  · decide
  · exact intersectIndices_le

theorem intersect_eq_one (h : intersect data a b = 1) (ha : contain data a point = true)
    (hb : contain data b point = true) : EndPoint data a point ∧ EndPoint data b point := by
  rw [contain_iff] at ha hb
  rw [intersect, if_neg (by simp [ha.1]), if_neg (by simp [hb.1])] at h
  exact intersectIndices_one h ha.2 hb.2

theorem not_contain_of_intersect (h : intersect data a b = 0) (ha : contain data a point = true)
    (hb : contain data b point = true) : False := by
  rw [contain_iff] at ha hb
  rw [intersect, if_neg (by simp [ha.1]), if_neg (by simp [hb.1])] at h
  exact intersectIndices_ne_zero ha.2 hb.2 h

end CoverBlock

open CoverBlock

/-- A cover holds the part of each block that is covered by the index of the block. -/
structure Cover where
  cover : SortedMap Int CoverBlock

namespace Cover

def getCoverBlock (c : Cover) (index : Int) : CoverBlock := (c.cover.lookup index).getD CoverBlock.new

/-- The two iterators of `intersect`, as the entries in front of them. -/
def intersectEntries (data : Funcdata) : List (Int × CoverBlock) → List (Int × CoverBlock) → Nat → Nat
  | [], _, res => res
  | _ :: _, [], res => res
  | (key, block) :: iter, (key2, block2) :: iter2, res =>
      if key < key2 then intersectEntries data iter ((key2, block2) :: iter2) res
      else if key > key2 then intersectEntries data ((key, block) :: iter) iter2 res
      else
        let newres := block.intersect data block2
        if newres = 2 then 2
        else intersectEntries data iter iter2 (if newres = 1 then 1 else res)
  termination_by iter iter2 => iter.length + iter2.length

def intersect (data : Funcdata) (c d : Cover) : Nat := intersectEntries data c.cover.entries d.cover.entries 0

variable {data : Funcdata} {c d : Cover}

theorem intersectEntries_eq_zero {l l₂ : List (Int × CoverBlock)} {res : Nat}
    (hl : l.Pairwise fun x y => x.1 < y.1) (hl₂ : l₂.Pairwise fun x y => x.1 < y.1)
    (h : intersectEntries data l l₂ res = 0) :
    res = 0 ∧ ∀ x ∈ l, ∀ y ∈ l₂, x.1 = y.1 → x.2.intersect data y.2 = 0 := by
  fun_induction intersectEntries data l l₂ res with
  | case1 l₂ res => exact ⟨h, by simp⟩
  | case2 x l res => exact ⟨h, by simp⟩
  | case3 key block iter key2 block2 iter2 res hlt ih =>
      obtain ⟨hz, hall⟩ := ih (List.pairwise_cons.mp hl).2 hl₂ h
      refine ⟨hz, fun x hx y hy hxy => ?_⟩
      rcases List.mem_cons.mp hx with rfl | hx
      · -- the key in front is below those of the other list
        rcases List.mem_cons.mp hy with rfl | hy
        · simp only at hxy
          omega
        · have := (List.pairwise_cons.mp hl₂).1 y hy
          simp only at hxy this
          omega
      · exact hall x hx y hy hxy
  | case4 key block iter key2 block2 iter2 res hlt hgt ih =>
      obtain ⟨hz, hall⟩ := ih hl (List.pairwise_cons.mp hl₂).2 h
      refine ⟨hz, fun x hx y hy hxy => ?_⟩
      rcases List.mem_cons.mp hy with rfl | hy
      · rcases List.mem_cons.mp hx with rfl | hx
        · simp only at hxy
          omega
        · have := (List.pairwise_cons.mp hl).1 x hx
          simp only at hxy this
          omega
      · exact hall x hx y hy hxy
  | case5 => cases h
  | case6 key block iter key2 block2 iter2 res hlt hgt newres hne ih =>
      obtain ⟨hz, hall⟩ := ih (List.pairwise_cons.mp hl).2 (List.pairwise_cons.mp hl₂).2 h
      have hone : newres ≠ 1 := fun he => by
        rw [dif_pos he] at hz
        cases hz
      rw [dif_neg hone] at hz
      refine ⟨hz, fun x hx y hy hxy => ?_⟩
      rcases List.mem_cons.mp hx with rfl | hx
      · rcases List.mem_cons.mp hy with rfl | hy
        · have hle : newres ≤ 2 := intersect_le
          simp only
          omega
        · have := (List.pairwise_cons.mp hl₂).1 y hy
          simp only at hxy this
          omega
      · rcases List.mem_cons.mp hy with rfl | hy
        · have := (List.pairwise_cons.mp hl).1 x hx
          simp only at hxy this
          omega
        · exact hall x hx y hy hxy

theorem mem_entries_of_contain {index : Int} {point : CoverPoint}
    (h : (c.getCoverBlock index).contain data point = true) : (index, c.getCoverBlock index) ∈ c.cover.entries := by
  rw [getCoverBlock] at h ⊢
  cases hl : c.cover.lookup index with
  | none =>
      rw [hl] at h
      cases h
  | some block => exact SortedMap.lookup_eq_some.mp hl

theorem not_contain_of_intersect (h : c.intersect data d = 0) (index : Int) (point : CoverPoint) :
    ¬ ((c.getCoverBlock index).contain data point = true ∧ (d.getCoverBlock index).contain data point = true) := by
  rintro ⟨hc, hd⟩
  obtain ⟨-, hall⟩ := intersectEntries_eq_zero c.cover.sorted d.cover.sorted h
  exact CoverBlock.not_contain_of_intersect
    (hall _ (mem_entries_of_contain hc) _ (mem_entries_of_contain hd) rfl) hc hd

end Cover

/-- What merging variables relies on: a merged block holds the points of both, the
intersection of two blocks is told by their common points, and covers that do not
intersect share no point. -/
theorem cover_algebra (data : Funcdata) (bl : Nat) (a b : CoverBlock) (ha : OfBlock data bl a)
    (hb : OfBlock data bl b) :
    (∀ point, a.contain data point = true ∨ b.contain data point = true →
      (a.merge data b).contain data point = true) ∧
    (a.intersect data b = 0 ↔ ¬ ∃ point, PointOf data bl point ∧ a.contain data point = true ∧
      b.contain data point = true) ∧
    (a.intersect data b = 1 → ∀ point, a.contain data point = true → b.contain data point = true →
      EndPoint data a point ∧ EndPoint data b point) ∧
    ∀ c d : Cover, c.intersect data d = 0 → ∀ index point,
      ¬ ((c.getCoverBlock index).contain data point = true ∧ (d.getCoverBlock index).contain data point = true) := by
  refine ⟨fun point h => merge_contain h, intersect_eq_zero ha hb, fun h point hpa hpb => ?_,
    fun c d h index point => Cover.not_contain_of_intersect h index point⟩
  exact intersect_eq_one h hpa hpb

/-- A block that wraps around and one that ends where its first part ends. -/
theorem cover_algebra_wrapping :
    let data : Funcdata :=
      { op := fun id => ⟨.copy, false, id % 2 ^ 32, 0, [], none, Nat.mod_lt _ (by decide)⟩
        vn := fun _ => ⟨0, none, false, false, []⟩
        block := fun _ => ⟨0, [], []⟩
        blocks := [0] }
    let a : CoverBlock := ⟨.op 8, .op 2⟩
    let b : CoverBlock := ⟨.op 2, .op 5⟩
    a.intersect data b = 1 ∧ (a.merge data b).contain data (.op 5) = true ∧
      ∀ point, a.contain data point = true → b.contain data point = true → EndPoint data a point ∧
        EndPoint data b point := by
  intro data a b
  obtain ⟨hm, -, hone, -⟩ := cover_algebra data 0 a b ⟨rfl, rfl⟩ ⟨rfl, rfl⟩
  exact ⟨by decide, hm _ (.inr (by decide)), hone (by decide)⟩

end GhidraDecompiler.LiveRange
