import GhidraDecompiler.Cover.UsePoints

/-! The cover of a varnode holds every path from its definition to a use. -/

namespace GhidraDecompiler.LiveRange

open CoverBlock Fallible Cover

variable {data : Funcdata} {entry vn use d b i j x y : Nat}

theorem Ssa.getUIndex_eq (hssa : Ssa data entry) (hb : b ∈ data.blocks) (hx : x ∈ (data.block b).ops)
    (hm : (data.op x).code ≠ .multiequal) :
    getUIndex data (.op x) = if (data.op x).code = .indirect then (data.op (iop data x)).order
      else (data.op x).order := by
  have hmark := hssa.marker b hb x hx
  simp only [getUIndex, iop]
  by_cases hi : (data.op x).code = .indirect
  · have hmt : (data.op x).marker = true := hmark.mpr (.inr hi)
    simp [hmt, hi]
  · simp [hm, hi]

theorem Ssa.order_lt_of_lt (hssa : Ssa data entry) (hb : b ∈ data.blocks) (hx : (data.block b).ops[i]? = some x)
    (hy : (data.block b).ops[j]? = some y) (hij : i < j) : (data.op x).order < (data.op y).order := by
  obtain ⟨hi, rfl⟩ := List.getElem?_eq_some_iff.mp hx
  obtain ⟨hj, rfl⟩ := List.getElem?_eq_some_iff.mp hy
  exact List.pairwise_iff_getElem.mp (hssa.orders b hb) i j hi hj hij

theorem Ssa.order_le_getUIndex (hssa : Ssa data entry) (hb : b ∈ data.blocks) (hx : (data.block b).ops[i]? = some x)
    (hm : (data.op x).code ≠ .multiequal) : (data.op x).order ≤ getUIndex data (.op x) := by
  rw [hssa.getUIndex_eq hb (List.mem_of_getElem? hx) hm]
  split_ifs with hi
  · obtain ⟨t, hit, ht, -⟩ := hssa.indirects b hb i x hx hi
    exact (hssa.order_lt_of_lt hb hx ht hit).le
  · exact Nat.le_refl _

theorem Ssa.uIndex_pos (hssa : Ssa data entry) (hb : b ∈ data.blocks) (hx : (data.block b).ops[i]? = some x)
    (hm : (data.op x).code ≠ .multiequal) : 0 < getUIndex data (.op x) :=
  Nat.lt_of_lt_of_le (hssa.order_pos b hb x (List.mem_of_getElem? hx)) (hssa.order_le_getUIndex hb hx hm)

theorem Ssa.multiequal_of_lt (hssa : Ssa data entry) (hb : b ∈ data.blocks) (hx : (data.block b).ops[i]? = some x)
    (hy : (data.block b).ops[j]? = some y) (hij : i < j) (hm : (data.op y).code = .multiequal) :
    (data.op x).code = .multiequal := by
  obtain ⟨hi, rfl⟩ := List.getElem?_eq_some_iff.mp hx
  obtain ⟨hj, rfl⟩ := List.getElem?_eq_some_iff.mp hy
  exact List.pairwise_iff_getElem.mp (hssa.multiequals b hb) i j hi hj hij hm

/-- The indices of covers follow the operations of a block. -/
theorem Ssa.uIndex_le (hssa : Ssa data entry) (hb : b ∈ data.blocks) (hx : (data.block b).ops[i]? = some x)
    (hy : (data.block b).ops[j]? = some y) (hij : i ≤ j) : getUIndex data (.op x) ≤ getUIndex data (.op y) := by
  rcases Nat.lt_or_eq_of_le hij with hlt | rfl
  · by_cases hmx : (data.op x).code = .multiequal
    · rw [multiequal_uIndex hssa ⟨b, hb, List.mem_of_getElem? hx⟩ hmx]
      exact Nat.zero_le _
    have hmy : (data.op y).code ≠ .multiequal := fun h => hmx (hssa.multiequal_of_lt hb hx hy hlt h)
    by_cases hi : (data.op x).code = .indirect
    · -- up to the operation behind the `INDIRECT`s all have its order
      obtain ⟨t, hit, ht, hmark, hsame⟩ := hssa.indirects b hb i x hx hi
      have hux := hssa.getUIndex_eq hb (List.mem_of_getElem? hx) hmx
      rw [if_pos hi] at hux
      rw [hux]
      rcases Nat.lt_trichotomy j t with hjt | rfl | hjt
      · obtain ⟨y', hy', hyi, hyt⟩ := hsame j hlt hjt
        rw [hy, Option.some.injEq] at hy'
        subst hy'
        rw [hssa.getUIndex_eq hb (List.mem_of_getElem? hy) hmy, if_pos hyi, hyt]
      · rw [hy, Option.some.injEq] at ht
        rw [← ht]
        exact hssa.order_le_getUIndex hb hy hmy
      · exact (hssa.order_lt_of_lt hb ht hy hjt).le.trans (hssa.order_le_getUIndex hb hy hmy)
    · rw [hssa.getUIndex_eq hb (List.mem_of_getElem? hx) hmx, if_neg hi]
      exact (hssa.order_lt_of_lt hb hx hy hlt).le.trans (hssa.order_le_getUIndex hb hy hmy)
  · rw [hx, Option.some.injEq] at hy
    rw [hy]

theorem Ssa.position_unique (hssa : Ssa data entry) (hb : b ∈ data.blocks) (hx : (data.block b).ops[i]? = some x)
    (hy : (data.block b).ops[j]? = some x) : i = j := by
  rcases Nat.lt_trichotomy i j with hij | rfl | hij
  · exact absurd (hssa.order_lt_of_lt hb hx hy hij) (Nat.lt_irrefl _)
  · rfl
  · exact absurd (hssa.order_lt_of_lt hb hy hx hij) (Nat.lt_irrefl _)

/-- A block is reached without passing its own operations. -/
theorem Flow.first_visit (hssa : Ssa data entry) {p q : Nat × Nat} {ids : List Nat} (h : Flow data p ids q)
    (hp : p.1 ∈ data.blocks) (hq : q.2 = 0) (hd : ∀ b ∈ data.blocks, d ∈ (data.block b).ops → b = q.1)
    (hstart : p.1 ≠ q.1 ∨ p = q) : ∃ ids', Flow data p ids' q ∧ d ∉ ids' := by
  induction h with
  | refl p => exact ⟨[], .refl p, by simp⟩
  | @op bl i id ids q hop h ih =>
      rcases hstart with hne | rfl
      · obtain ⟨ids', hf, hn⟩ := ih hp hq hd (.inl hne)
        refine ⟨id :: ids', .op hop hf, ?_⟩
        rw [List.mem_cons, not_or]
        refine ⟨?_, hn⟩
        rintro rfl
        exact hne (hd bl hp (List.mem_of_getElem? hop))
      · exact ⟨[], .refl _, by simp⟩
  | @edge bl bl' ids q hin hmem h ih =>
      by_cases hbl : bl' = q.1
      · have heq : (bl', 0) = q := Prod.ext hbl hq.symm
        exact ⟨[], .edge hin hmem (heq ▸ .refl _), by simp⟩
      · obtain ⟨ids', hf, hn⟩ := ih hmem hq hd (.inl hbl)
        exact ⟨ids', .edge hin hmem hf, hn⟩

theorem Flow.within_block {n m : Nat} (hm : m ≤ (data.block b).ops.length) (hn : n ≤ m) :
    Flow data (b, n) (((data.block b).ops.take m).drop n) (b, m) := by
  induction hk : m - n generalizing n with
  | zero =>
      obtain rfl : n = m := by omega
      have hnil : ((data.block b).ops.take n).drop n = [] := by simp
      rw [hnil]
      exact .refl _
  | succ k ih =>
      have hlt : n < (data.block b).ops.length := by omega
      have hcons : ((data.block b).ops.take m).drop n =
          (data.block b).ops[n] :: ((data.block b).ops.take m).drop (n + 1) := by
        rw [List.drop_eq_getElem_cons (by simp; omega)]
        simp
      rw [hcons]
      exact .op (List.getElem?_eq_getElem hlt) (ih (by omega) (by omega))

theorem Flow.trans {p q r : Nat × Nat} {ids ids' : List Nat} (h : Flow data p ids q) (h' : Flow data q ids' r) :
    Flow data p (ids ++ ids') r := by
  induction h with
  | refl => exact h'
  | op hop _ ih => exact .op hop (ih h')
  | edge hin hmem _ ih => exact .edge hin hmem (ih h')

theorem Ssa.def_before_use (hssa : Ssa data entry) (hdef : (data.vn vn).defOp = some d)
    (huse : use ∈ (data.vn vn).descend) (hm : (data.op use).code ≠ .multiequal) (hb : b ∈ data.blocks)
    (hd : (data.block b).ops[i]? = some d) (hu : (data.block b).ops[j]? = some use) : i < j := by
  by_contra hle
  have hused : UsedAt data vn use (b, j) := by
    rw [UsedAt, if_neg hm]
    exact ⟨(hssa.parent b hb use (List.mem_of_getElem? hu)).symm, hu⟩
  have hown : ∀ b' ∈ data.blocks, d ∈ (data.block b').ops → b' = b := fun b' hb' hd' => by
    rw [← hssa.parent b' hb' d hd', hssa.parent b hb d (List.mem_of_getElem? hd)]
  obtain ⟨ids, hreach⟩ := hssa.reachable b hb
  obtain ⟨ids', hfirst, hnot⟩ := hreach.first_visit hssa hssa.entry_mem rfl hown (by
    by_cases he : entry = b
    · exact .inr (by rw [he])
    · exact .inl he)
  have hj : j < (data.block b).ops.length := (List.getElem?_eq_some_iff.mp hu).1
  have hflow := hfirst.trans (Flow.within_block hj.le (Nat.zero_le j))
  rcases List.mem_append.mp (hssa.dominates vn d hdef use huse _ hused _ hflow) with hmem | hmem
  · exact hnot hmem
  · obtain ⟨k, hk⟩ := List.mem_iff_getElem?.mp (List.mem_of_mem_drop hmem)
    rw [List.getElem?_take] at hk
    split_ifs at hk with hkj
    have := hssa.position_unique hb hd hk
    omega

/-- Where the value of a varnode comes from: its block, the point its cover starts at,
and the number of operations of the block up to there. -/
structure Origin (data : Funcdata) (entry vn defBlock : Nat) (defPoint : CoverPoint) (first : Nat) : Prop where
  mem : defBlock ∈ data.blocks
  point : defPoint ≠ .begin
  cover : addDefPoint data vn = Cover.setBlock ⟨SortedMap.empty⟩ (data.block defBlock).index ⟨defPoint, defPoint⟩
  known : ∀ id, defPoint = .op id → ∃ b ∈ data.blocks, id ∈ (data.block b).ops
  behind : ∀ i x : Nat, (data.block defBlock).ops[i]? = some x → first ≤ i →
    getUIndex data defPoint ≤ getUIndex data (.op x)
  uses : ∀ use ∈ (data.vn vn).descend, (data.op use).code ≠ .multiequal →
    ∀ j : Nat, (data.block defBlock).ops[j]? = some use → first ≤ j
  last : ∀ i x : Nat, (data.block defBlock).ops[i]? = some x → i + 1 = first → (data.vn vn).defOp = some x
  entered : first = 0 → (data.block defBlock).ins = []
  inside : first ≤ (data.block defBlock).ops.length
  start : ∀ p, DefinedAt data entry vn p → p = (defBlock, first)
  own : ∀ d, (data.vn vn).defOp = some d → defPoint = .op d ∧ (data.op d).parent = defBlock

theorem exists_origin (hssa : Ssa data entry) (hdef : (data.vn vn).defOp ≠ none ∨ (data.vn vn).input = true) :
    ∃ defBlock defPoint first, Origin data entry vn defBlock defPoint first := by
  cases hd : (data.vn vn).defOp with
  | some d =>
      obtain ⟨b, hb, hmem⟩ := hssa.defs vn d hd
      have hparent := hssa.parent b hb d hmem
      obtain ⟨k, hk⟩ := List.mem_iff_getElem?.mp hmem
      have hlt : k < (data.block b).ops.length := (List.getElem?_eq_some_iff.mp hk).1
      refine ⟨b, .op d, k + 1, hb, by simp, ?_, ?_, ?_, ?_, ?_, by omega, by omega, ?_, ?_⟩
      · rw [addDefPoint, hd, ← hparent]
        rfl
      · rintro id h
        cases h
        exact ⟨b, hb, hmem⟩
      · intro i x hx hle
        exact hssa.uIndex_le hb hk hx (by omega)
      · intro use huse hm j hj
        exact hssa.def_before_use hd huse hm hb hk hj
      · intro i x hx hi
        obtain rfl : i = k := by omega
        rw [← hx, hk, hd]
      · intro p hp
        rw [DefinedAt, hd] at hp
        obtain ⟨hp₁, k', hp₂, hk'⟩ := hp
        rw [hparent] at hp₁
        rw [hp₁] at hk'
        rw [← hssa.position_unique hb hk hk'] at hp₂
        exact Prod.ext hp₁ hp₂
      · intro d' hd'
        rw [hd, Option.some.injEq] at hd'
        subst hd'
        exact ⟨rfl, hparent⟩
  | none =>
      have hin : (data.vn vn).input = true := by simpa [hd] using hdef
      refine ⟨entry, .input, 0, hssa.entry_mem, by simp, ?_, by simp, fun i x _ _ => Nat.zero_le _,
        fun _ _ _ _ _ => Nat.zero_le _, by omega, fun _ => hssa.entry_ins, Nat.zero_le _, ?_, by simp [hd]⟩
      · rw [addDefPoint, hd, hssa.entry_index, if_pos hin]
        rfl
      · intro p hp
        rw [DefinedAt, hd] at hp
        exact hp.2

/-- What `rebuild` leaves: every expanded block is closed and every use is covered. -/
structure Covered (data : Funcdata) (vn defBlock : Nat) (defPoint : CoverPoint) (c : Cover) : Prop where
  shape : c.Shape data defBlock defPoint
  closed : ∀ bl ∈ data.blocks, c.Expanded data defBlock bl → ∀ p ∈ (data.block bl).ins, c.DoneOut data p
  uses : ∀ use ∈ (data.vn vn).descend, c.UseDone data defBlock vn use

theorem Origin.shape {defBlock first : Nat} {defPoint : CoverPoint} (hssa : Ssa data entry)
    (ho : Origin data entry vn defBlock defPoint first) :
    (addDefPoint data vn).Shape data defBlock defPoint ∧
      ∀ bl ∈ data.blocks, ¬ (addDefPoint data vn).Expanded data defBlock bl := by
  have hself : (addDefPoint data vn).blk data defBlock = ⟨defPoint, defPoint⟩ := by rw [ho.cover, blk_setBlock_self]
  have hother : ∀ bl ∈ data.blocks, bl ≠ defBlock → (addDefPoint data vn).blk data bl = CoverBlock.new := by
    intro bl hbl hne
    rw [ho.cover, blk_setBlock_ne hssa ho.mem hbl hne]
    rfl
  refine ⟨⟨by rw [hself], fun bl hbl hne => by rw [hother bl hbl hne]; rfl, fun bl hbl id hid => ?_⟩, ?_⟩
  · by_cases hbd : bl = defBlock
    · subst hbd
      rw [hself] at hid
      exact ho.known id hid
    · rw [hother bl hbl hbd] at hid
      cases hid
  · rintro bl hbl ⟨hne, hempty, -⟩
    rw [hother bl hbl hne] at hempty
    cases hempty

/-- The call returns once no output of a use is implied. -/
theorem rebuild_covered {defBlock first fuel : Nat} {defPoint : CoverPoint} (hssa : Ssa data entry)
    (ho : Origin data entry vn defBlock defPoint first) (hf : 2 ≤ fuel)
    (himplied : ∀ use ∈ (data.vn vn).descend, ∀ out, (data.op use).out = some out → (data.vn out).implied = false) :
    ∃ c, rebuild data fuel vn = .ok c ∧ Covered data vn defBlock defPoint c := by
  obtain ⟨hshape, hexp⟩ := ho.shape hssa
  have hfold := foldlM_total (f := fun c op => addRefPoint data c op vn) (fun before c =>
      c.Shape data defBlock defPoint ∧ Grown data defBlock (addDefPoint data vn) c ∧
        ∀ use ∈ before, c.UseDone data defBlock vn use)
    (data.vn vn).descend (s := addDefPoint data vn) ?_ ⟨hshape, .refl _, by simp⟩
  · obtain ⟨c, hc, hs, hg, huses⟩ := hfold
    refine ⟨c, ?_, hs, fun bl hbl h => ?_, huses⟩
    · obtain ⟨n, rfl⟩ : ∃ n, fuel = n + 2 := ⟨fuel - 2, by omega⟩
      have hnone : (data.vn vn).descend.filterMap
          (fun op => (data.op op).out.filter fun out => (data.vn out).implied) = [] := by
        rw [List.filterMap_eq_nil_iff]
        intro op hop
        cases hout : (data.op op).out with
        | none => rfl
        | some out => simp [Option.filter, himplied op hop out hout]
      rw [rebuild, rebuildPath, hc, ok_bind, hnone]
      rfl
    · rcases hg.closed bl hbl h with h | h
      · exact absurd h (hexp bl hbl)
      · exact h
  · rintro before use after hsplit c ⟨hs, hg, huses⟩
    have hdescend : ∀ x, x ∈ before ++ [use] → (data.op x).parent ∈ data.blocks ∧
        x ∈ (data.block (data.op x).parent).ops := by
      intro x hx
      have hxd : x ∈ (data.vn vn).descend := by
        rw [hsplit]
        rcases List.mem_append.mp hx with hx | hx
        · exact List.mem_append_left _ hx
        · rw [List.mem_singleton.mp hx]
          simp
      obtain ⟨⟨b, hb, hmem⟩, -⟩ := (hssa.descend vn x).mp hxd
      rw [hssa.parent b hb x hmem]
      exact ⟨hb, hmem⟩
    obtain ⟨hbl, hmem⟩ := hdescend use (by simp)
    have huse : use ∈ (data.vn vn).descend := by simp [hsplit]
    obtain ⟨j, hj⟩ := List.mem_iff_getElem?.mp hmem
    obtain ⟨c', hc', hs', hg', hdone⟩ : ∃ c', addRefPoint data c use vn = .ok c' ∧ _ :=
      addRefPoint_spec hssa ho.mem ho.point hbl hmem hs (fun hm => hssa.uIndex_pos hbl hj hm) (fun hm hbd => by
        rw [hbd] at hj
        exact ho.behind j use hj (ho.uses use huse hm j hj))
    refine ⟨c', hc', hs', hg.trans hssa hg', fun x hx => ?_⟩
    rcases List.mem_append.mp hx with hxb | hxu
    · exact (huses x hxb).grown hssa (hdescend x hx).1 hg'
    · rw [List.mem_singleton.mp hxu]
      exact hdone

/-- A position up to which the block is covered, from the definition on. -/
def LiveTo (data : Funcdata) (defBlock first : Nat) (c : Cover) (p : Nat × Nat) : Prop :=
  (p.1 = defBlock → first ≤ p.2 ∧ ∀ j x : Nat, first ≤ j → j < p.2 → (data.block p.1).ops[j]? = some x →
    (c.blk data p.1).contain data (.op x) = true) ∧
  (p.1 ≠ defBlock → c.Expanded data defBlock p.1 ∧ ∀ j x : Nat, j < p.2 → (data.block p.1).ops[j]? = some x →
    (c.blk data p.1).contain data (.op x) = true)

section

variable {defBlock first : Nat} {defPoint : CoverPoint} {c : Cover} (hssa : Ssa data entry)
  (ho : Origin data entry vn defBlock defPoint first) (hc : Covered data vn defBlock defPoint c)

include hssa ho hc

theorem liveTo_end (hb : b ∈ data.blocks) (h : c.DoneOut data b) :
    LiveTo data defBlock first c (b, (data.block b).ops.length) := by
  obtain ⟨hne, hstop⟩ := h
  constructor
  · rintro rfl
    refine ⟨ho.inside, fun j x hj _ hx => contain_iff.mpr ⟨hne, ?_⟩⟩
    have hge := ho.behind j x hx hj
    have hlt := getUIndex_lt data (.op x)
    simp only at hstop ⊢
    rw [hc.shape.origin] at hstop ⊢
    simp only [Within]
    omega
  · intro hbd
    have hstart := hc.shape.others b hb hbd
    rw [hstart, getUIndex_begin] at hstop
    refine ⟨⟨hbd, hne, ?_⟩, fun j x _ _ => contain_iff.mpr ⟨hne, ?_⟩⟩
    · by_contra hm
      rw [Bool.not_eq_false] at hm
      have := stop_uIndex hssa hc.shape hb hm
      omega
    · have hlt := getUIndex_lt data (.op x)
      simp only [Within, hstart, getUIndex_begin]
      omega

theorem liveTo_use {q : Nat × Nat} (huse : use ∈ (data.vn vn).descend) (hq : UsedAt data vn use q) :
    q.1 ∈ data.blocks ∧ LiveTo data defBlock first c q := by
  obtain ⟨⟨b, hb, hmem⟩, -⟩ := (hssa.descend vn use).mp huse
  have hparent := hssa.parent b hb use hmem
  have hdone := hc.uses use huse
  rw [UsedAt] at hq
  rw [UseDone] at hdone
  split_ifs at hq hdone with hm
  · obtain ⟨slot, hslot, hin, hlen⟩ := hq
    have hpred := hssa.ins_mem b hb q.1 (hparent ▸ List.mem_of_getElem? hin)
    have hlive := liveTo_end hssa ho hc hpred (hdone slot hslot q.1 hin)
    exact ⟨hpred, by rwa [← hlen] at hlive⟩
  · obtain ⟨hq₁, hq₂⟩ := hq
    rw [hparent] at hq₁ hdone
    rw [hq₁] at hq₂ 
    obtain ⟨hcontain, hexp⟩ := hdone
    obtain ⟨hne, hw⟩ := contain_iff.mp hcontain
    simp only [Within] at hw
    refine ⟨hq₁ ▸ hb, fun hbd => ?_, fun hbd => ?_⟩
    · have hb' : b = defBlock := hq₁ ▸ hbd
      subst hb'
      rw [hq₁]
      refine ⟨ho.uses use huse hm q.2 hq₂, fun j x hj hjq hx => contain_iff.mpr ⟨hne, ?_⟩⟩
      have h₁ := ho.behind j x hx hj
      have h₂ := hssa.uIndex_le hb hx hq₂ hjq.le
      rw [hc.shape.origin] at hw ⊢
      simp only [Within]
      omega
    · rw [hq₁] at hbd ⊢
      refine ⟨hexp hbd, fun j x hjq hx => contain_iff.mpr ⟨hne, ?_⟩⟩
      have h₂ := hssa.uIndex_le hb hx hq₂ hjq.le
      rw [hc.shape.others b hb hbd, getUIndex_begin] at hw ⊢
      simp only [Within]
      omega

/-- Backwards along a path that does not pass the definition, every operation is
covered. -/
theorem flow_covered {p q : Nat × Nat} {ids : List Nat} (h : Flow data p ids q) (hp : p.1 ∈ data.blocks)
    (hq : LiveTo data defBlock first c q) (hnot : ∀ id ∈ ids, (data.vn vn).defOp ≠ some id) :
    LiveTo data defBlock first c p ∧
      ∀ id ∈ ids, (c.blk data (data.op id).parent).contain data (.op id) = true := by
  induction h with
  | refl => exact ⟨hq, by simp⟩
  | @op bl i id ids q hop h ih =>
      obtain ⟨⟨hdefb, hother⟩, hids⟩ := ih hp hq fun x hx => hnot x (List.mem_cons_of_mem _ hx)
      simp only at hdefb hother hp
      have hparent := hssa.parent bl hp id (List.mem_of_getElem? hop)
      have hfirst : bl = defBlock → first ≤ i := by
        rintro rfl
        by_contra hlt
        have := (hdefb rfl).1
        exact hnot id (List.mem_cons_self ..) (ho.last i id hop (by omega))
      refine ⟨⟨fun hbd => ⟨hfirst hbd, fun j x hj hji hx => (hdefb hbd).2 j x hj (by simp only at hji; omega) hx⟩,
        fun hbd => ⟨(hother hbd).1, fun j x hji hx => (hother hbd).2 j x (by simp only at hji; omega) hx⟩⟩, ?_⟩
      intro x hx
      rcases List.mem_cons.mp hx with rfl | hx
      · rw [hparent]
        by_cases hbd : bl = defBlock
        · exact (hdefb hbd).2 i x (hfirst hbd) (Nat.lt_succ_self i) hop
        · exact (hother hbd).2 i x (Nat.lt_succ_self i) hop
      · exact hids x hx
  | @edge bl bl' ids q hin hmem h ih =>
      obtain ⟨⟨hdefb, hother⟩, hids⟩ := ih hmem hq hnot
      simp only at hdefb hother hp
      have hbd : bl' ≠ defBlock := by
        rintro rfl
        have hz := (hdefb rfl).1
        rw [ho.entered (by omega)] at hin
        cases hin
      exact ⟨liveTo_end hssa ho hc hp (hc.closed bl' hmem (hother hbd).1 bl hin), hids⟩

end

theorem contain_of_blk {c : Cover} {id : Nat}
    (h : (c.blk data (data.op id).parent).contain data (.op id) = true) : c.contain data id 1 = true := by
  have hmem := SortedMap.lookup_eq_some.mpr (mem_entries_of_contain h)
  rw [Cover.contain, hmem]
  simp only [blk] at h
  simp [h]

/-- For a function in static single assignment form and a varnode whose uses have no
implied output, `rebuild` returns, and the cover holds the definition, the uses and every
operation on a path from the definition to a use that does not pass the definition
again. -/
theorem rebuild_covers_paths (hssa : Ssa data entry) {fuel : Nat} (hf : 2 ≤ fuel)
    (hdef : (data.vn vn).defOp ≠ none ∨ (data.vn vn).input = true)
    (himplied : ∀ use ∈ (data.vn vn).descend, ∀ out, (data.op use).out = some out → (data.vn out).implied = false) :
    ∃ c, rebuild data fuel vn = .ok c ∧ ∀ use ∈ (data.vn vn).descend, ∀ p q ids, DefinedAt data entry vn p →
      UsedAt data vn use q → Flow data p ids q → (∀ id ∈ ids, (data.vn vn).defOp ≠ some id) →
      (∀ id ∈ ids, c.contain data id 1 = true) ∧ (∀ d, (data.vn vn).defOp = some d → c.contain data d 1 = true) ∧
      ((data.op use).code ≠ .multiequal → c.contain data use 1 = true) := by
  obtain ⟨defBlock, defPoint, first, ho⟩ := exists_origin hssa hdef
  obtain ⟨c, hrun, hc⟩ := rebuild_covered hssa ho hf himplied
  refine ⟨c, hrun, fun use huse p q ids hp hq hflow hnot => ⟨fun id hid => ?_, fun d hd => ?_, fun hm => ?_⟩⟩
  · have hpb : p.1 ∈ data.blocks := by
      rw [ho.start p hp]
      exact ho.mem
    exact contain_of_blk ((flow_covered hssa ho hc hflow hpb (liveTo_use hssa ho hc huse hq).2 hnot).2 id hid)
  · obtain ⟨rfl, hparent⟩ := ho.own d hd
    refine contain_of_blk (contain_iff.mpr ⟨?_, ?_⟩)
    · rw [hparent, empty_eq_false, hc.shape.origin]
      exact fun h => ho.point h.1
    · rw [hparent, hc.shape.origin]
      simp only [Within]
      omega
  · have hdone := hc.uses use huse
    rw [UseDone, if_neg hm] at hdone
    exact contain_of_blk hdone.1

/-- A value from the entry that is read in a loop of one block. -/
def loopData : Funcdata where
  op id :=
    { code := .copy, marker := false, order := 16, parent := if id = 0 then 0 else 1
      inputs := if id = 1 then [0] else [], out := none, order_lt := by decide }
  vn v := ⟨0, if v = 0 then some 0 else none, false, false, if v = 0 then [1] else []⟩
  block b := if b = 0 then ⟨0, [], [0]⟩ else ⟨1, [0, 1], [1]⟩
  blocks := [0, 1]

theorem loopData_blocks : b ∈ loopData.blocks ↔ b = 0 ∨ b = 1 := by
  simp [loopData]

theorem loopData_ssa : Ssa loopData 0 where
  entry_mem := by simp [loopData]
  entry_index := rfl
  entry_ins := rfl
  index_inj := by
    intro b hb b' hb' h
    rcases loopData_blocks.mp hb with rfl | rfl <;> rcases loopData_blocks.mp hb' with rfl | rfl <;> revert h <;> decide
  ins_mem := by decide
  parent := by decide
  marker := by decide
  order_pos := by decide
  orders := by decide
  multiequals := by decide
  slots := by decide
  indirects := by
    intro b _ i id _ h
    simp [loopData] at h
  descend := by
    intro vn id
    simp only [loopData]
    by_cases hv : vn = 0 <;> by_cases hi : id = 1 <;> simp [hv, hi]
  defs := by
    intro vn d h
    by_cases hv : vn = 0
    · rw [hv] at h
      cases h
      exact ⟨0, by decide, by decide⟩
    · simp [loopData, hv] at h
  reachable := by
    intro b hb
    rcases loopData_blocks.mp hb with rfl | rfl
    · exact ⟨[], .refl _⟩
    · exact ⟨[0], .op rfl (.edge (by decide) (by decide) (.refl _))⟩
  dominates := by
    intro vn d hd use huse q hq ids hflow
    by_cases hv : vn = 0
    · subst hv
      cases hd
      obtain rfl : use = 1 := List.mem_singleton.mp huse
      cases hflow with
      | refl => exact absurd hq.1 (by decide)
      | op hop _ =>
          cases hop
          exact List.mem_cons_self ..
    · simp [loopData, hv] at hd

theorem rebuild_covers_paths_loop : ∃ c, rebuild loopData 2 0 = .ok c ∧
    Flow loopData (0, 1) [1, 1] (1, 0) ∧ c.contain loopData 1 1 = true := by
  have himplied : ∀ use ∈ (loopData.vn 0).descend, ∀ out, (loopData.op use).out = some out →
      (loopData.vn out).implied = false := fun _ _ _ h => by cases h
  obtain ⟨c, hrun, hc⟩ : ∃ c, rebuild loopData 2 0 = .ok c ∧ _ :=
    rebuild_covers_paths loopData_ssa (Nat.le_refl 2) (.inl (by decide)) himplied
  have hback : Flow loopData (1, 0) [1] (1, 0) := .op rfl (.edge (by decide) (by decide) (.refl _))
  have hflow : Flow loopData (0, 1) [1, 1] (1, 0) := .edge (by decide) (by decide) (hback.trans hback)
  refine ⟨c, hrun, hflow, ?_⟩
  exact (hc 1 (by decide) (0, 1) (1, 0) [1, 1] ⟨rfl, 0, rfl, rfl⟩ ⟨rfl, rfl⟩ hflow (by decide)).1 1 (by decide)

end GhidraDecompiler.LiveRange
