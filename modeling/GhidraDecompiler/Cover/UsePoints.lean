import GhidraDecompiler.Cover.LiveBlocks

/-! What adding one use of a varnode does to its cover. -/

namespace GhidraDecompiler.LiveRange

open CoverBlock Fallible

namespace Cover

variable {data : Funcdata} {entry defBlock bl vn use : Nat} {defPoint : CoverPoint} {c c' : Cover} {block : CoverBlock}

/-- A use is covered: a `MULTIEQUAL` at the ends of the blocks it reads the varnode from,
another operation from the definition or the begin of its block on. -/
def UseDone (data : Funcdata) (defBlock vn use : Nat) (c : Cover) : Prop :=
  if (data.op use).code = .multiequal then
    ∀ slot : Nat, (data.op use).inputs[slot]? = some vn →
      ∀ p, (data.block (data.op use).parent).ins[slot]? = some p → c.DoneOut data p
  else
    (c.blk data (data.op use).parent).contain data (.op use) = true ∧
      ((data.op use).parent ≠ defBlock → c.Expanded data defBlock (data.op use).parent)

theorem UseDone.grown (hssa : Ssa data entry) (hbl : (data.op use).parent ∈ data.blocks)
    (h : c.UseDone data defBlock vn use) (hg : Grown data defBlock c c') : c'.UseDone data defBlock vn use := by
  rw [UseDone] at h ⊢
  split_ifs at h ⊢ with hm
  · intro slot hslot p hp
    exact hg.doneOut p (hssa.ins_mem _ hbl p (List.mem_of_getElem? hp)) (h slot hslot p hp)
  · exact ⟨hg.contain _ hbl _ h.1, fun hne => hg.expanded _ hbl (h.2 hne)⟩

/-- The first point in a block that was empty. -/
theorem extended_of_empty (hssa : Ssa data entry) (hbl : bl ∈ data.blocks) (hempty : (c.blk data bl).empty = true)
    (hne : block.empty = false) : Extended data defBlock c (c.setBlock (data.block bl).index block) := by
  refine .setBlock hssa hbl (fun point h => ?_) (fun h => ?_) hne (fun h => ?_) ?_
  · rw [CoverBlock.contain, if_pos hempty] at h
    cases h
  · rw [DoneOut, hempty] at h
    cases h.1
  · rw [Expanded, hempty] at h
    cases h.2.1
  · rw [weight, blk_setBlock_self, weight, if_pos hempty]
    split_ifs <;> decide

/-- A later point in a block whose cover does not wrap around. -/
theorem extended_setEnd_op (hssa : Ssa data entry) (hbl : bl ∈ data.blocks) (hne : (c.blk data bl).empty = false)
    (hout : (c.blk data bl).contain data (.op use) = false)
    (hge : getUIndex data (c.blk data bl).start ≤ getUIndex data (.op use))
    (hm : (data.op use).code ≠ .multiequal) :
    Extended data defBlock c (c.setBlock (data.block bl).index ((c.blk data bl).setEnd (.op use))) := by
  rw [← Bool.not_eq_true, contain_iff, hne] at hout
  have hlt := getUIndex_lt data (.op use)
  simp only [Within, true_and] at hout
  refine .setBlock hssa hbl (fun point h => ?_) (fun h => ?_) (by simp [setEnd, CoverBlock.empty])
    (fun _ => by simpa [setEnd, isMultiequal] using hm) ?_
  · rw [contain_iff] at h ⊢
    simp only [Within, setEnd, empty_mk, decide_eq_false_iff_not] at h ⊢
    exact ⟨by simp, by omega⟩
  · have := h.2
    omega
  · rw [weight, blk_setBlock_self, if_neg (by simp [setEnd, CoverBlock.empty]),
      if_neg (by simp [setEnd, isMultiequal, hm])]
    exact Nat.zero_le _

/-- A `MULTIEQUAL` above the definition makes the cover of the block wrap around. -/
theorem extended_wrap (hssa : Ssa data entry) (hdef : defBlock ∈ data.blocks)
    (hpoint : (c.blk data defBlock).start ≠ .begin) (hout : (c.blk data defBlock).contain data (.op use) = false)
    (hu : getUIndex data (.op use) = 0) :
    Extended data defBlock c (c.setBlock (data.block defBlock).index ((c.blk data defBlock).setEnd (.op use))) ∧
      getUIndex data (.op use) < getUIndex data (c.blk data defBlock).start := by
  have hne : (c.blk data defBlock).empty = false := by
    rw [empty_eq_false]
    exact fun h => hpoint h.1
  rw [← Bool.not_eq_true, contain_iff, hne] at hout
  simp only [Within, true_and, hu] at hout
  refine ⟨.setBlock hssa hdef (fun point h => ?_) (fun _ => .inr ?_) (by simp [setEnd, CoverBlock.empty])
    (fun h => absurd rfl h.1) ?_, by omega⟩
  · rw [contain_iff] at h ⊢
    simp only [Within, setEnd, empty_mk, decide_eq_false_iff_not, hu] at h ⊢
    exact ⟨by simp, by omega⟩
  · simp only [setEnd, hu]
    omega
  · rw [weight, blk_setBlock_self, if_neg (by simp [setEnd, CoverBlock.empty]), if_neg (by simp [setEnd, hpoint])]
    exact Nat.zero_le _

theorem isMultiequal_op (id : Nat) : isMultiequal data (.op id) = decide ((data.op id).code = .multiequal) := rfl

section

variable (hssa : Ssa data entry) (hdef : defBlock ∈ data.blocks) (hpoint : defPoint ≠ .begin)

include hssa hdef hpoint

theorem addRefIns_spec (hbl : bl ∈ data.blocks) (hs : c.Shape data defBlock defPoint) :
    ∃ c', addRefIns data c bl = .ok c' ∧ c'.Shape data defBlock defPoint ∧ Grown data defBlock c c' ∧
      ∀ p ∈ (data.block bl).ins, c'.DoneOut data p :=
  visit_all hssa (fun _ _ hbl hs hf => addRefRecurse_spec hssa hdef hpoint hbl hs hf) (hssa.ins_mem bl hbl) hs
    (totalWeight_lt_recurseFuel data c)

theorem addRefSlot_spec (hbl : bl ∈ data.blocks) (hs : c.Shape data defBlock defPoint) {slot : Nat}
    (hslot : slot < (data.block bl).ins.length) :
    ∃ c', addRefSlot data bl use vn c slot = .ok c' ∧ c'.Shape data defBlock defPoint ∧ Grown data defBlock c c' ∧
      ((data.op use).inputs[slot]? = some vn → ∀ p, (data.block bl).ins[slot]? = some p → c'.DoneOut data p) := by
  have hin : (data.block bl).ins[slot]? = some (data.block bl).ins[slot] := List.getElem?_eq_getElem hslot
  have hpred : (data.block bl).ins[slot] ∈ data.blocks := hssa.ins_mem bl hbl _ (List.getElem_mem hslot)
  rw [addRefSlot]
  split_ifs with hvn
  · obtain ⟨c', hc', hs', hg, hdone⟩ :=
      addRefRecurse_spec hssa hdef hpoint hpred hs (totalWeight_lt_recurseFuel data c)
    refine ⟨c', by rw [getIdx_eq hin, ok_bind, hc'], hs', hg, fun _ p hp => ?_⟩
    rw [hin, Option.some.injEq] at hp
    exact hp ▸ hdone
  · refine ⟨c, rfl, hs, .refl c, fun hread => absurd ?_ hvn⟩
    rw [PcodeOp.getIn, List.getD_eq_getElem?_getD, hread, Option.getD_some]

theorem addRefSlots_spec (hbl : bl ∈ data.blocks) (hs : c.Shape data defBlock defPoint)
    (hslots : (data.op use).inputs.length = (data.block bl).ins.length) :
    ∃ c', addRefSlots data c bl use vn = .ok c' ∧ c'.Shape data defBlock defPoint ∧ Grown data defBlock c c' ∧
      ∀ slot : Nat, (data.op use).inputs[slot]? = some vn →
        ∀ p, (data.block bl).ins[slot]? = some p → c'.DoneOut data p := by
  have hfold := foldlM_total (f := addRefSlot data bl use vn) (fun before c' => c'.Shape data defBlock defPoint ∧
    Grown data defBlock c c' ∧ ∀ slot ∈ before, (data.op use).inputs[slot]? = some vn →
      ∀ p, (data.block bl).ins[slot]? = some p → c'.DoneOut data p)
    (List.range (data.op use).inputs.length) (s := c) ?_ ⟨hs, .refl c, by simp⟩
  · obtain ⟨c', hc', hs', hg, hdone⟩ := hfold
    refine ⟨c', hc', hs', hg, fun slot hslot => hdone slot ?_ hslot⟩
    exact List.mem_range.mpr (List.getElem?_eq_some_iff.mp hslot).1
  · rintro before slot after hsplit c₁ ⟨hs₁, hg₁, hdone⟩
    have hlt : slot < (data.op use).inputs.length := List.mem_range.mp (by rw [hsplit]; simp)
    obtain ⟨c₂, hc₂, hs₂, hg₂, hslot⟩ : ∃ c₂, addRefSlot data bl use vn c₁ slot = .ok c₂ ∧ _ :=
      addRefSlot_spec hssa hdef hpoint hbl hs₁ (hslots ▸ hlt)
    refine ⟨c₂, hc₂, hs₂, hg₁.trans hssa hg₂, fun x hx hread p hp => ?_⟩
    rcases List.mem_append.mp hx with hx | hx
    · exact hg₂.doneOut p (hssa.ins_mem bl hbl p (List.mem_of_getElem? hp)) (hdone x hx hread p hp)
    · rw [List.mem_singleton] at hx
      subst hx
      exact hslot hread p hp

/-- Adding a use keeps what is covered, and covers the use. -/
theorem addRefPoint_spec (hbl : (data.op use).parent ∈ data.blocks)
    (hmem : use ∈ (data.block (data.op use).parent).ops) (hs : c.Shape data defBlock defPoint)
    (hpos : (data.op use).code ≠ .multiequal → 0 < getUIndex data (.op use))
    (hafter : (data.op use).code ≠ .multiequal → (data.op use).parent = defBlock →
      getUIndex data defPoint ≤ getUIndex data (.op use)) :
    ∃ c', addRefPoint data c use vn = .ok c' ∧ c'.Shape data defBlock defPoint ∧ Grown data defBlock c c' ∧
      c'.UseDone data defBlock vn use := by
  have hblk : c.getCoverBlock (data.block (data.op use).parent).index = c.blk data (data.op use).parent := rfl
  rw [addRefPoint]
  simp only [hblk, UseDone]
  generalize hparent : (data.op use).parent = bl at *
  have hknown : ∀ id, CoverPoint.op use = .op id → ∃ b ∈ data.blocks, id ∈ (data.block b).ops := by
    rintro id h
    cases h
    exact ⟨bl, hbl, hmem⟩
  have hs₁ : (c.setBlock (data.block bl).index ((c.blk data bl).setEnd (.op use))).Shape data defBlock defPoint :=
    hs.setBlock hssa hbl hdef rfl hknown
  have hne₁ : ((c.blk data bl).setEnd (.op use)).empty = false := by simp [setEnd, CoverBlock.empty]
  by_cases hm : (data.op use).code = .multiequal
  · have hu := multiequal_uIndex hssa ⟨bl, hbl, hmem⟩ hm
    have hslots := hssa.slots bl hbl use hmem hm
    have hnot : ¬ (c.setBlock (data.block bl).index ((c.blk data bl).setEnd (.op use))).Expanded data defBlock bl := by
      rw [Expanded, blk_setBlock_self]
      rintro ⟨-, -, h⟩
      simp [setEnd, isMultiequal, hm] at h
    -- the slots are visited from the old cover or from one that stops at the use
    have hslots_from : ∀ c₁ : Cover, c₁.Shape data defBlock defPoint → Grown data defBlock c c₁ →
        ∃ c', addRefSlots data c₁ bl use vn = .ok c' ∧ c'.Shape data defBlock defPoint ∧
          Grown data defBlock c c' ∧ ∀ slot : Nat, (data.op use).inputs[slot]? = some vn →
            ∀ p, (data.block bl).ins[slot]? = some p → c'.DoneOut data p := by
      intro c₁ hs₁ hg₁
      obtain ⟨c', hc', hs', hg', hdone⟩ := addRefSlots_spec hssa hdef hpoint hbl hs₁ hslots
      exact ⟨c', hc', hs', hg₁.trans hssa hg', hdone⟩
    simp only [hm, if_true, ne_eq, not_true_eq_false, if_false]
    by_cases hempty : (c.blk data bl).empty = true
    · rw [if_pos hempty]
      exact hslots_from _ hs₁ (.setBlock hssa hbl (extended_of_empty hssa hbl hempty hne₁) fun h => absurd h hnot)
    rw [if_neg hempty]
    by_cases hin : (c.blk data bl).contain data (.op use) = true
    · rw [if_pos hin]
      exact hslots_from c hs (.refl c)
    · -- only a cover that starts behind the begin does not hold the use
      rw [if_neg hin]
      have hbd : bl = defBlock := by
        by_contra hne
        refine hin (contain_iff.mpr ⟨by simpa using hempty, ?_⟩)
        rw [hs.others bl hbl hne, hu, getUIndex_begin]
        exact .inl ⟨Nat.le_refl _, Nat.zero_le _⟩
      subst hbd
      obtain ⟨hext, hlt⟩ := extended_wrap hssa hdef (hs.origin.symm ▸ hpoint) (by simpa using hin) hu
      rw [if_neg (by omega)]
      exact hslots_from _ hs₁ (.setBlock hssa hbl hext fun h => absurd h hnot)
  · have hat : ∀ c₁ : Cover, Grown data defBlock (c.setBlock (data.block bl).index
          ((c.blk data bl).setEnd (.op use))) c₁ → getUIndex data (c.blk data bl).start ≤ getUIndex data (.op use) →
        (c₁.blk data bl).contain data (.op use) = true ∧ (bl ≠ defBlock → c₁.Expanded data defBlock bl) := by
      intro c₁ hg hle
      constructor
      · refine hg.contain bl hbl _ ?_
        rw [blk_setBlock_self, contain_iff]
        exact ⟨hne₁, .inl ⟨hle, Nat.le_refl _⟩⟩
      · intro hne
        refine hg.expanded bl hbl ?_
        rw [Expanded, blk_setBlock_self]
        exact ⟨hne, hne₁, by simpa [setEnd, isMultiequal] using hm⟩
    have hle : getUIndex data (c.blk data bl).start ≤ getUIndex data (.op use) := by
      by_cases hbd : bl = defBlock
      · subst hbd
        rw [hs.origin]
        exact hafter hm rfl
      · rw [hs.others bl hbl hbd, getUIndex_begin]
        exact Nat.zero_le _
    simp only [hm, if_false, ne_eq, not_false_eq_true, if_true]
    by_cases hempty : (c.blk data bl).empty = true
    · rw [if_pos hempty]
      obtain ⟨c', hc', hs', hg, hins⟩ := addRefIns_spec hssa hdef hpoint hbl hs₁
      exact ⟨c', hc', hs', .of_setBlock hssa hbl (extended_of_empty hssa hbl hempty hne₁) hg hins,
        hat c' hg hle⟩
    rw [if_neg hempty]
    rw [Bool.not_eq_true] at hempty
    by_cases hin : (c.blk data bl).contain data (.op use) = true
    · rw [if_pos hin]
      refine ⟨c, rfl, hs, .refl c, hin, fun hne => ⟨hne, hempty, ?_⟩⟩
      -- a cover that stops at a `MULTIEQUAL` holds no other operation
      by_contra hstop
      rw [Bool.not_eq_false] at hstop
      have hz := stop_uIndex hssa hs hbl hstop
      have hw := (contain_iff.mp hin).2
      rw [hz, hs.others bl hbl hne, getUIndex_begin] at hw
      have := hpos hm
      simp only [Within] at hw
      omega
    · rw [if_neg hin, if_pos hle]
      have hext : Extended data defBlock c _ := extended_setEnd_op hssa hbl hempty (by simpa using hin) hle hm
      split
      · obtain ⟨c', hc', hs', hg, hins⟩ := addRefIns_spec hssa hdef hpoint hbl hs₁
        exact ⟨c', hc', hs', .of_setBlock hssa hbl hext hg hins, hat c' hg hle⟩
      · rename_i hcond
        refine ⟨_, rfl, hs₁, .setBlock hssa hbl hext fun hexp => ⟨hexp.1, hempty, ?_⟩, hat _ (.refl _) hle⟩
        by_contra hstop
        rw [Bool.not_eq_false] at hstop
        exact hcond ⟨hstop, hs.others bl hbl hexp.1⟩

end

end Cover

end GhidraDecompiler.LiveRange
