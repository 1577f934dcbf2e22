import Mathlib.Algebra.Order.BigOperators.Group.List
import Mathlib.Algebra.Order.Group.Nat
import GhidraDecompiler.Cover.Rebuild

/-! What the recursion over the predecessors of a block adds to a cover. -/

namespace GhidraDecompiler.LiveRange.Cover

open CoverBlock Fallible

section

variable (data : Funcdata)

/-- The cover of a block of the function. -/
def blk (c : Cover) (bl : Nat) : CoverBlock := c.getCoverBlock (data.block bl).index

/-- The end of the block is covered, from the start of its cover on. -/
def DoneOut (c : Cover) (bl : Nat) : Prop :=
  (c.blk data bl).empty = false ∧ (getUIndex data (c.blk data bl).stop = 2 ^ 32 - 1 ∨
    getUIndex data (c.blk data bl).stop < getUIndex data (c.blk data bl).start)

/-- The block is covered from its begin on, and not only for a `MULTIEQUAL`. The block of
the definition never is. -/
def Expanded (defBlock : Nat) (c : Cover) (bl : Nat) : Prop :=
  bl ≠ defBlock ∧ (c.blk data bl).empty = false ∧ isMultiequal data (c.blk data bl).stop = false

/-- How often the recursion can still go on from a block. -/
def weight (c : Cover) (bl : Nat) : Nat :=
  if (c.blk data bl).empty then 2
  else if isMultiequal data (c.blk data bl).stop ∧ (c.blk data bl).start = .begin then 1
  else 0

def totalWeight (c : Cover) : Nat := (data.blocks.map (c.weight data)).sum

/-- Covers start at the definition in its block and at the begin of all others, and stop
at operations of the function. -/
structure Shape (defBlock : Nat) (defPoint : CoverPoint) (c : Cover) : Prop where
  origin : (c.blk data defBlock).start = defPoint
  others : ∀ bl ∈ data.blocks, bl ≠ defBlock → (c.blk data bl).start = .begin
  known : ∀ bl ∈ data.blocks, ∀ id, (c.blk data bl).stop = .op id → ∃ b ∈ data.blocks, id ∈ (data.block b).ops

/-- A cover with more in it. -/
structure Extended (defBlock : Nat) (c c' : Cover) : Prop where
  contain : ∀ bl ∈ data.blocks, ∀ point, (c.blk data bl).contain data point = true →
    (c'.blk data bl).contain data point = true
  doneOut : ∀ bl ∈ data.blocks, c.DoneOut data bl → c'.DoneOut data bl
  expanded : ∀ bl ∈ data.blocks, c.Expanded data defBlock bl → c'.Expanded data defBlock bl
  weight_le : c'.totalWeight data ≤ c.totalWeight data

/-- The blocks that are newly expanded have all their predecessors covered at the end. -/
structure Grown (defBlock : Nat) (c c' : Cover) : Prop extends Extended data defBlock c c' where
  closed : ∀ bl ∈ data.blocks, c'.Expanded data defBlock bl →
    c.Expanded data defBlock bl ∨ ∀ p ∈ (data.block bl).ins, c'.DoneOut data p

end

variable {data : Funcdata} {entry defBlock bl y fuel : Nat} {defPoint : CoverPoint} {c c' c₁ c₂ : Cover}
  {block : CoverBlock}

theorem getCoverBlock_setBlock (c : Cover) (index index' : Int) (block : CoverBlock) :
    (c.setBlock index block).getCoverBlock index' = if index' = index then block else c.getCoverBlock index' := by
  simp only [getCoverBlock, setBlock]
  split_ifs with h
  · have hl : (c.cover.insert index block).lookup index' = some block :=
      SortedMap.lookup_eq_some.mpr (SortedMap.mem_insert.mpr (.inl (by rw [h])))
    rw [hl, Option.getD_some]
  · have hl : (c.cover.insert index block).lookup index' = c.cover.lookup index' := by
      ext v
      rw [SortedMap.lookup_eq_some, SortedMap.lookup_eq_some, SortedMap.mem_insert]
      simp [h]
    rw [hl]

theorem blk_setBlock_self (c : Cover) (bl : Nat) (block : CoverBlock) :
    (c.setBlock (data.block bl).index block).blk data bl = block := by
  rw [blk, getCoverBlock_setBlock, if_pos rfl]

theorem blk_setBlock_ne (hssa : Ssa data entry) (hbl : bl ∈ data.blocks) (hy : y ∈ data.blocks) (hne : y ≠ bl)
    (c : Cover) (block : CoverBlock) : (c.setBlock (data.block bl).index block).blk data y = c.blk data y := by
  rw [blk, getCoverBlock_setBlock, if_neg fun h => hne (hssa.index_inj y hy bl hbl h), blk]

theorem Extended.refl (c : Cover) : Extended data defBlock c c :=
  ⟨fun _ _ _ h => h, fun _ _ h => h, fun _ _ h => h, Nat.le_refl _⟩

theorem Extended.trans (h₁ : Extended data defBlock c c₁) (h₂ : Extended data defBlock c₁ c₂) :
    Extended data defBlock c c₂ where
  contain bl hbl point h := h₂.contain bl hbl point (h₁.contain bl hbl point h)
  doneOut bl hbl h := h₂.doneOut bl hbl (h₁.doneOut bl hbl h)
  expanded bl hbl h := h₂.expanded bl hbl (h₁.expanded bl hbl h)
  weight_le := Nat.le_trans h₂.weight_le h₁.weight_le

theorem Grown.refl (c : Cover) : Grown data defBlock c c := ⟨.refl c, fun _ _ h => .inl h⟩

theorem Grown.trans (hssa : Ssa data entry) (h₁ : Grown data defBlock c c₁) (h₂ : Grown data defBlock c₁ c₂) :
    Grown data defBlock c c₂ := by
  refine ⟨h₁.toExtended.trans h₂.toExtended, fun bl hbl hexp => ?_⟩
  rcases h₂.closed bl hbl hexp with hexp | hins
  · rcases h₁.closed bl hbl hexp with hexp | hins
    · exact .inl hexp
    · exact .inr fun p hp => h₂.doneOut p (hssa.ins_mem bl hbl p hp) (hins p hp)
  · exact .inr hins

/-- What writing one block does to a cover. -/
theorem Extended.setBlock (hssa : Ssa data entry) (hbl : bl ∈ data.blocks)
    (hcontain : ∀ point, (c.blk data bl).contain data point = true → block.contain data point = true)
    (hdone : c.DoneOut data bl → getUIndex data block.stop = 2 ^ 32 - 1 ∨
      getUIndex data block.stop < getUIndex data block.start)
    (hne : block.empty = false)
    (hexp : c.Expanded data defBlock bl → isMultiequal data block.stop = false)
    (hweight : (c.setBlock (data.block bl).index block).weight data bl ≤ c.weight data bl) :
    Extended data defBlock c (c.setBlock (data.block bl).index block) := by
  have hother : ∀ y ∈ data.blocks, y ≠ bl → (c.setBlock (data.block bl).index block).blk data y = c.blk data y :=
    fun y hy hyb => blk_setBlock_ne hssa hbl hy hyb c block
  refine ⟨fun y hy point h => ?_, fun y hy h => ?_, fun y hy h => ?_, ?_⟩
  · by_cases hyb : y = bl
    · subst hyb
      rw [blk_setBlock_self]
      exact hcontain point h
    · rwa [hother y hy hyb]
  · by_cases hyb : y = bl
    · subst hyb
      rw [DoneOut, blk_setBlock_self]
      exact ⟨hne, hdone h⟩
    · rwa [DoneOut, hother y hy hyb]
  · by_cases hyb : y = bl
    · subst hyb
      rw [Expanded, blk_setBlock_self]
      exact ⟨h.1, hne, hexp h⟩
    · rwa [Expanded, hother y hy hyb]
  · refine List.sum_le_sum fun y hy => ?_
    by_cases hyb : y = bl
    · subst hyb
      exact hweight
    · rw [weight, hother y hy hyb, ← weight]

theorem Shape.setBlock (hssa : Ssa data entry) (hbl : bl ∈ data.blocks) (hdef : defBlock ∈ data.blocks)
    (h : c.Shape data defBlock defPoint) (hstart : block.start = (c.blk data bl).start)
    (hstop : ∀ id, block.stop = .op id → ∃ b ∈ data.blocks, id ∈ (data.block b).ops) :
    (c.setBlock (data.block bl).index block).Shape data defBlock defPoint := by
  have hat : ∀ y ∈ data.blocks, ((c.setBlock (data.block bl).index block).blk data y).start = (c.blk data y).start := by
    intro y hy
    by_cases hyb : y = bl
    · subst hyb
      rw [blk_setBlock_self, hstart]
    · rw [blk_setBlock_ne hssa hbl hy hyb]
  refine ⟨by rw [hat defBlock hdef, h.origin], fun y hy hne => by rw [hat y hy, h.others y hy hne], ?_⟩
  intro y hy id hid
  by_cases hyb : y = bl
  · subst hyb
    rw [blk_setBlock_self] at hid
    exact hstop id hid
  · rw [blk_setBlock_ne hssa hbl hy hyb] at hid
    exact h.known y hy id hid

/-- The blocks other than the one that is written are expanded as before. -/
theorem expanded_setBlock_ne (hssa : Ssa data entry) (hbl : bl ∈ data.blocks) (hy : y ∈ data.blocks) (hne : y ≠ bl)
    (h : (c.setBlock (data.block bl).index block).Expanded data defBlock y) : c.Expanded data defBlock y := by
  rwa [Expanded, blk_setBlock_ne hssa hbl hy hne] at h

/-- Writing a block and then covering its predecessors at their ends. -/
theorem Grown.of_setBlock (hssa : Ssa data entry) (hbl : bl ∈ data.blocks)
    (h₁ : Extended data defBlock c (c.setBlock (data.block bl).index block))
    (h₂ : Grown data defBlock (c.setBlock (data.block bl).index block) c')
    (hins : ∀ p ∈ (data.block bl).ins, c'.DoneOut data p) : Grown data defBlock c c' := by
  refine ⟨h₁.trans h₂.toExtended, fun y hy hexp => ?_⟩
  by_cases hyb : y = bl
  · subst hyb
    exact .inr hins
  · rcases h₂.closed y hy hexp with hexp | hins'
    · exact .inl (expanded_setBlock_ne hssa hbl hy hyb hexp)
    · exact .inr hins'

theorem Grown.setBlock (hssa : Ssa data entry) (hbl : bl ∈ data.blocks)
    (h : Extended data defBlock c (c.setBlock (data.block bl).index block))
    (hexp : (c.setBlock (data.block bl).index block).Expanded data defBlock bl → c.Expanded data defBlock bl) :
    Grown data defBlock c (c.setBlock (data.block bl).index block) := by
  refine ⟨h, fun y hy hy' => .inl ?_⟩
  by_cases hyb : y = bl
  · subst hyb
    exact hexp hy'
  · exact expanded_setBlock_ne hssa hbl hy hyb hy'

theorem totalWeight_lt (hbl : bl ∈ data.blocks) (h : ∀ y ∈ data.blocks, c'.weight data y ≤ c.weight data y)
    (hlt : c'.weight data bl < c.weight data bl) : c'.totalWeight data < c.totalWeight data :=
  List.sum_lt_sum _ _ h ⟨bl, hbl, hlt⟩

theorem totalWeight_setBlock_lt (hssa : Ssa data entry) (hbl : bl ∈ data.blocks)
    (hlt : (c.setBlock (data.block bl).index block).weight data bl < c.weight data bl) :
    (c.setBlock (data.block bl).index block).totalWeight data < c.totalWeight data := by
  refine totalWeight_lt hbl (fun y hy => ?_) hlt
  by_cases hyb : y = bl
  · subst hyb
    exact hlt.le
  · rw [weight, blk_setBlock_ne hssa hbl hy hyb, ← weight]

theorem totalWeight_lt_recurseFuel (data : Funcdata) (c : Cover) : c.totalWeight data < recurseFuel data := by
  have h : (data.blocks.map (c.weight data)).sum ≤ (data.blocks.map (c.weight data)).length * 2 := by
    refine List.sum_le_card_nsmul _ 2 fun w hw => ?_
    obtain ⟨y, -, rfl⟩ := List.mem_map.mp hw
    simp only [weight]
    split_ifs <;> decide
  rw [List.length_map] at h
  rw [totalWeight, recurseFuel]
  omega

theorem isMultiequal_finish : isMultiequal data .finish = false := rfl

theorem contain_setEnd_finish {a : CoverBlock} {point : CoverPoint}
    (hle : getUIndex data a.start ≤ getUIndex data a.stop) (h : a.contain data point = true) :
    (a.setEnd .finish).contain data point = true := by
  have hu := getUIndex_lt data point
  rw [contain_iff] at h ⊢
  simp only [setEnd, empty_eq_false, getUIndex_finish, Within] at h ⊢
  refine ⟨by simp, ?_⟩
  omega

/-- The first visit of a block covers it as a whole. -/
theorem extended_setAll (hssa : Ssa data entry) (hbl : bl ∈ data.blocks) (hempty : (c.blk data bl).empty = true) :
    Extended data defBlock c (c.setBlock (data.block bl).index setAll) ∧
      (c.setBlock (data.block bl).index setAll).totalWeight data < c.totalWeight data := by
  have hlt : (c.setBlock (data.block bl).index setAll).weight data bl < c.weight data bl := by
    rw [weight, blk_setBlock_self, weight, if_pos hempty, if_neg (by decide), if_neg (by simp [setAll, isMultiequal])]
    decide
  refine ⟨.setBlock hssa hbl (fun point h => ?_) (fun h => ?_) rfl (fun h => ?_) hlt.le,
    totalWeight_setBlock_lt hssa hbl hlt⟩
  · rw [CoverBlock.contain, if_pos hempty] at h
    cases h
  · rw [DoneOut, hempty] at h
    cases h.1
  · rw [Expanded, hempty] at h
    cases h.2.1

/-- A later visit covers the block to its end. -/
theorem extended_setEnd (hssa : Ssa data entry) (hbl : bl ∈ data.blocks)
    (hle : getUIndex data (c.blk data bl).start ≤ getUIndex data (c.blk data bl).stop) :
    Extended data defBlock c (c.setBlock (data.block bl).index ((c.blk data bl).setEnd .finish)) ∧
      (c.setBlock (data.block bl).index ((c.blk data bl).setEnd .finish)).weight data bl = 0 := by
  have hzero : (c.setBlock (data.block bl).index ((c.blk data bl).setEnd .finish)).weight data bl = 0 := by
    rw [weight, blk_setBlock_self, if_neg (by simp [setEnd]), if_neg (by simp [setEnd, isMultiequal_finish])]
  refine ⟨.setBlock hssa hbl (fun point h => contain_setEnd_finish hle h) (fun _ => .inl rfl) (by simp [setEnd])
    (fun _ => rfl) (by rw [hzero]; exact Nat.zero_le _), hzero⟩

/-- Visiting blocks one after the other, each visit from a state of bounded weight. -/
theorem visit_all (hssa : Ssa data entry) {visit : Cover → Nat → Outcome Cover} {n : Nat}
    (hvisit : ∀ c bl, bl ∈ data.blocks → c.Shape data defBlock defPoint → c.totalWeight data < n →
      ∃ c', visit c bl = .ok c' ∧ c'.Shape data defBlock defPoint ∧ Grown data defBlock c c' ∧ c'.DoneOut data bl)
    {l : List Nat} (hl : ∀ p ∈ l, p ∈ data.blocks) (hs : c.Shape data defBlock defPoint)
    (hn : c.totalWeight data < n) :
    ∃ c', l.foldlM visit c = .ok c' ∧ c'.Shape data defBlock defPoint ∧ Grown data defBlock c c' ∧
      ∀ p ∈ l, c'.DoneOut data p := by
  refine foldlM_total (fun before c' => c'.Shape data defBlock defPoint ∧ Grown data defBlock c c' ∧
    ∀ p ∈ before, c'.DoneOut data p) l ?_ ⟨hs, .refl c, by simp⟩
  rintro before p after hsplit c₁ ⟨hs₁, hg₁, hdone⟩
  obtain ⟨c₂, hc₂, hs₂, hg₂, hp⟩ := hvisit c₁ p (hl p (by simp [hsplit])) hs₁ (by have := hg₁.weight_le; omega)
  refine ⟨c₂, hc₂, hs₂, hg₁.trans hssa hg₂, fun x hx => ?_⟩
  rcases List.mem_append.mp hx with hx | hx
  · exact hg₂.doneOut x (hl x (by simp [hsplit, hx])) (hdone x hx)
  · rw [List.mem_singleton.mp hx]
    exact hp

theorem multiequal_uIndex (hssa : Ssa data entry) {id : Nat} (hid : ∃ b ∈ data.blocks, id ∈ (data.block b).ops)
    (h : (data.op id).code = .multiequal) : getUIndex data (.op id) = 0 := by
  obtain ⟨b, hb, hid⟩ := hid
  have hm : (data.op id).marker = true := (hssa.marker b hb id hid).mpr (.inl h)
  simp [getUIndex, hm, h]

theorem stop_uIndex (hssa : Ssa data entry) (hs : c.Shape data defBlock defPoint) (hbl : bl ∈ data.blocks)
    (h : isMultiequal data (c.blk data bl).stop = true) : getUIndex data (c.blk data bl).stop = 0 := by
  cases hstop : (c.blk data bl).stop with
  | op id =>
      rw [hstop] at h
      exact multiequal_uIndex hssa (hs.known bl hbl id hstop) (by simpa [isMultiequal] using h)
  | begin => rfl
  | input => rfl
  | finish =>
      rw [hstop] at h
      cases h

section

variable (hssa : Ssa data entry) (hdef : defBlock ∈ data.blocks) (hpoint : defPoint ≠ .begin)

include hssa hdef hpoint

theorem ne_of_empty (hs : c.Shape data defBlock defPoint) (h : (c.blk data bl).empty = true) : bl ≠ defBlock := by
  rintro rfl
  rw [CoverBlock.empty, decide_eq_true_eq, hs.origin] at h
  exact hpoint h.1

/-- A call returns, covers the end of its block and closes what it expands. -/
theorem addRefRecurse_spec (hbl : bl ∈ data.blocks) (hs : c.Shape data defBlock defPoint)
    (hf : c.totalWeight data < fuel) :
    ∃ c', addRefRecurse data fuel c bl = .ok c' ∧ c'.Shape data defBlock defPoint ∧ Grown data defBlock c c' ∧
      c'.DoneOut data bl := by
  induction fuel generalizing c bl with
  | zero => omega
  | succ fuel ih =>
      have hins : ∀ c₁ : Cover, c₁.Shape data defBlock defPoint → c₁.totalWeight data < fuel →
          ∃ c', (data.block bl).ins.foldlM (addRefRecurse data fuel) c₁ = .ok c' ∧
            c'.Shape data defBlock defPoint ∧ Grown data defBlock c₁ c' ∧
            ∀ p ∈ (data.block bl).ins, c'.DoneOut data p := fun c₁ hs₁ hf₁ =>
        visit_all hssa (fun c bl hbl hs hf => ih hbl hs hf) (hssa.ins_mem bl hbl) hs₁ hf₁
      have hblk : c.getCoverBlock (data.block bl).index = c.blk data bl := rfl
      rw [addRefRecurse]
      simp only [hblk]
      by_cases hempty : (c.blk data bl).empty = true
      · -- the first visit
        rw [if_pos hempty]
        obtain ⟨hext, hlt⟩ : Extended data defBlock c _ ∧ _ := extended_setAll hssa hbl hempty
        have hne := ne_of_empty hssa hdef hpoint hs hempty
        have hs₁ : (c.setBlock (data.block bl).index setAll).Shape data defBlock defPoint :=
          hs.setBlock hssa hbl hdef (hs.others bl hbl hne).symm (by simp [setAll])
        obtain ⟨c', hc', hs', hg, hdone⟩ := hins _ hs₁ (by omega)
        refine ⟨c', hc', hs', .of_setBlock hssa hbl hext hg hdone, hg.doneOut bl hbl ?_⟩
        rw [DoneOut, blk_setBlock_self]
        exact ⟨rfl, .inl rfl⟩
      · rw [if_neg hempty]
        rw [Bool.not_eq_true] at hempty
        by_cases hcond : getUIndex data (c.blk data bl).stop ≠ 2 ^ 32 - 1 ∧
            getUIndex data (c.blk data bl).stop ≥ getUIndex data (c.blk data bl).start
        · -- the cover goes on to the end of the block
          obtain ⟨hext, hzero⟩ : Extended data defBlock c _ ∧ _ := extended_setEnd hssa hbl hcond.2
          have hs₁ : (c.setBlock (data.block bl).index ((c.blk data bl).setEnd .finish)).Shape data defBlock defPoint :=
            hs.setBlock hssa hbl hdef rfl (by simp [setEnd])
          have hdone : (c.setBlock (data.block bl).index ((c.blk data bl).setEnd .finish)).DoneOut data bl := by
            rw [DoneOut, blk_setBlock_self]
            exact ⟨by simp [setEnd, CoverBlock.empty], .inl rfl⟩
          rw [if_pos hcond]
          split
          · rename_i hmulti
            have hone : c.weight data bl = 1 := by
              rw [weight, if_neg (by simp [hempty]), if_pos ⟨hmulti.2.2, hmulti.2.1⟩]
            have hlt := totalWeight_setBlock_lt hssa hbl (show _ < c.weight data bl by rw [hzero, hone]; decide)
            obtain ⟨c', hc', hs', hg, hins'⟩ := hins _ hs₁ (by omega)
            exact ⟨c', hc', hs', .of_setBlock hssa hbl hext hg hins', hg.doneOut bl hbl hdone⟩
          · rename_i hmulti
            refine ⟨_, rfl, hs₁, .setBlock hssa hbl hext fun hexp => ?_, hdone⟩
            refine ⟨hexp.1, hempty, ?_⟩
            by_contra hm
            rw [Bool.not_eq_false] at hm
            exact hmulti ⟨stop_uIndex hssa hs hbl hm, hs.others bl hbl hexp.1, hm⟩
        · -- its end is covered already
          have hnot : ¬ (getUIndex data (c.blk data bl).stop = 0 ∧ (c.blk data bl).start = .begin ∧
              isMultiequal data (c.blk data bl).stop = true) := by
            rintro ⟨hz, hb, -⟩
            refine hcond ⟨by omega, ?_⟩
            rw [hb, getUIndex_begin]
            exact Nat.zero_le _
          rw [if_neg hcond, if_neg hnot]
          refine ⟨c, rfl, hs, .refl c, hempty, ?_⟩
          omega

end

end GhidraDecompiler.LiveRange.Cover
