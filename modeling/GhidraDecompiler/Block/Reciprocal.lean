import GhidraDecompiler.Block.Edges
import Mathlib.Data.Set.Insert

namespace GhidraDecompiler.Block

open Fallible

/-- A slot of one of the edge lists of a block. -/
abbrev HalfEdge := Dir × BlockId × Nat

variable {R : Flags → Flags → Prop} {d d' : Blocks} {D : Set HalfEdge} {dir : Dir} {b c bl : BlockId}
  {i j slot : Nat} {e : BlockEdge}

/-- Every edge outside of the dangling slots `D` is stored at both ends, each
copy knows the slot of the other, and the two labels are related by `R`. -/
def Matched (R : Flags → Flags → Prop) (d : Blocks) (D : Set HalfEdge) : Prop :=
  ∀ dir b i e, edge? d dir b i = some e → (dir, b, i) ∉ D →
    (dir.op, e.point, e.reverseIndex) ∉ D ∧ ∃ e', edge? d dir.op e.point e.reverseIndex = some e' ∧
      e'.point = b ∧ e'.reverseIndex = i ∧ R e.label e'.label

/-- The targets of one of the edge lists, with their multiplicity. -/
def points (d : Blocks) (dir : Dir) (b : BlockId) : List BlockId := ((blk d b).edges dir).map BlockEdge.point

/-- Two states that differ in edge lists only. -/
structure SameCore (d d' : Blocks) : Prop where
  nextId : d'.nextId = d.nextId
  core : ∀ b, (d'.get? b).map FlowBlock.core = (d.get? b).map FlowBlock.core

namespace SameCore

theorem refl (d : Blocks) : SameCore d d := ⟨rfl, fun _ => rfl⟩

theorem trans {d₁ d₂ d₃ : Blocks} (h : SameCore d₁ d₂) (h' : SameCore d₂ d₃) : SameCore d₁ d₃ :=
  ⟨h'.nextId.trans h.nextId, fun b => (h'.core b).trans (h.core b)⟩

theorem live (h : SameCore d d') (b : BlockId) : d'.Live b ↔ d.Live b := by
  have := congrArg Option.isSome (h.core b)
  simp only [Option.isSome_map] at this
  simp [Arena.Live, this]

theorem blk_core (h : SameCore d d') (b : BlockId) : (blk d' b).core = (blk d b).core := by
  have := h.core b
  cases hd' : d'.get? b <;> cases hd : d.get? b <;> simp_all [blk]

theorem parent (h : SameCore d d') (b : BlockId) : (blk d' b).parent = (blk d b).parent := by
  simpa [FlowBlock.core] using congrArg FlowBlock.parent (h.blk_core b)

theorem flags (h : SameCore d d') (b : BlockId) : (blk d' b).flags = (blk d b).flags := by
  simpa [FlowBlock.core] using congrArg FlowBlock.flags (h.blk_core b)

theorem list (h : SameCore d d') (b : BlockId) : (blk d' b).list = (blk d b).list := by
  simpa [FlowBlock.core] using congrArg FlowBlock.list (h.blk_core b)

theorem update_setEdges (d : Blocks) (b : BlockId) (dir : Dir) (f : FlowBlock → List BlockEdge) :
    SameCore d (d.update b fun bl => bl.setEdges dir (f bl)) := by
  refine ⟨by simp, fun c => ?_⟩
  rw [Arena.get?_update]
  by_cases h : c = b
  · subst h
    cases d.get? c <;> simp
  · simp [h]

end SameCore

def setEdge (d : Blocks) (dir : Dir) (b : BlockId) (i : Nat) (e : BlockEdge) : Blocks :=
  d.update b fun bl => bl.setEdges dir ((bl.edges dir).set i e)

theorem edges_update_setEdges (hb : d.Live b) (dir : Dir) (f : FlowBlock → List BlockEdge) (dir' : Dir)
    (c : BlockId) : (blk (d.update b fun bl => bl.setEdges dir (f bl)) c).edges dir' =
      if dir' = dir ∧ c = b then f (blk d b) else (blk d c).edges dir' := by
  by_cases hc : c = b
  · subst hc
    by_cases hdir : dir' = dir <;> simp [hb, FlowBlock.edges_setEdges, hdir]
  · simp [blk_update_ne hc, hc]

theorem edge?_setEdge (h : edge? d dir b i = some e) (e' : BlockEdge) (dir' : Dir) (c : BlockId) (j : Nat) :
    edge? (setEdge d dir b i e') dir' c j =
      if dir' = dir ∧ c = b ∧ j = i then some e' else edge? d dir' c j := by
  have hi : i < ((blk d b).edges dir).length := (List.getElem?_eq_some_iff.mp h).1
  simp only [edge?, setEdge, edges_update_setEdges (live_of_edge? h)]
  by_cases hdc : dir' = dir ∧ c = b
  · obtain ⟨rfl, rfl⟩ := hdc
    by_cases hj : j = i
    · subst hj; simp [hi]
    · simp [hj, Ne.symm hj]
  · by_cases hdir : dir' = dir <;> simp_all

theorem edge?_setEdge_self (h : edge? d dir b i = some e) (e' : BlockEdge) :
    edge? (setEdge d dir b i e') dir b i = some e' := by simp [edge?_setEdge h]

theorem edge?_setEdge_ne (h : edge? d dir b i = some e) (e' : BlockEdge) {dir' : Dir}
    (hne : (dir', c, j) ≠ (dir, b, i)) : edge? (setEdge d dir b i e') dir' c j = edge? d dir' c j := by
  simp only [ne_eq, Prod.mk.injEq] at hne
  simp [edge?_setEdge h, hne]

theorem modifyEdge_eq (h : edge? d dir b i = some e) (f : BlockEdge → BlockEdge) :
    modifyEdge d dir b i f = .ok (setEdge d dir b i (f e)) := by
  simp [modifyEdge, get_of_live (live_of_edge? h), getIdx_eq h, Arena.modify_eq _ (live_of_edge? h), setEdge]

theorem points_setEdge (h : edge? d dir b i = some e) (e' : BlockEdge) (dir' : Dir) (c : BlockId) :
    points (setEdge d dir b i e') dir' c =
      if dir' = dir ∧ c = b then (points d dir b).set i e'.point else points d dir' c := by
  simp only [points, setEdge, edges_update_setEdges (live_of_edge? h)]
  split
  · rw [List.map_set]
  · rfl

theorem length_points_setEdge (h : edge? d dir b i = some e) (e' : BlockEdge) (dir' : Dir) (c : BlockId) :
    (points (setEdge d dir b i e') dir' c).length = (points d dir' c).length := by
  rw [points_setEdge h]
  split
  case isTrue hc => rw [hc.1, hc.2, List.length_set]
  case isFalse => rfl

/-- Changing a field other than the target leaves all targets as they were. -/
theorem points_setEdge_same (h : edge? d dir b i = some e) {e' : BlockEdge} (he : e'.point = e.point)
    (dir' : Dir) (c : BlockId) : points (setEdge d dir b i e') dir' c = points d dir' c := by
  rw [points_setEdge h]
  split
  case isTrue hc =>
    obtain ⟨rfl, rfl⟩ := hc
    refine List.ext_getElem? fun j => ?_
    have hp : (points d dir' c)[i]? = some e.point := by
      simpa [points, edge?] using congrArg (Option.map BlockEdge.point) h
    by_cases hj : i = j
    · subst hj
      rw [List.getElem?_set_self (List.getElem?_eq_some_iff.mp hp).1, he, hp]
    · rw [List.getElem?_set_ne hj]
  case isFalse => rfl

theorem sameCore_setEdge (d : Blocks) (dir : Dir) (b : BlockId) (i : Nat) (e : BlockEdge) :
    SameCore d (setEdge d dir b i e) := SameCore.update_setEdges d b dir _

@[simp] theorem live_setEdge (d : Blocks) (dir : Dir) (b : BlockId) (i : Nat) (e : BlockEdge) (c : BlockId) :
    (setEdge d dir b i e).Live c ↔ d.Live c := by simp [setEdge]

theorem edge?_eq_none_iff : edge? d dir b i = none ↔ (points d dir b).length ≤ i := by
  simp [edge?, points]

theorem exists_edge? (h : i < (points d dir b).length) : ∃ e, edge? d dir b i = some e := by
  have : i < ((blk d b).edges dir).length := by simpa [points] using h
  exact ⟨_, List.getElem?_eq_getElem this⟩

theorem lt_length_points (h : edge? d dir b i = some e) : i < (points d dir b).length := by
  simpa [points] using (List.getElem?_eq_some_iff.mp h).1

theorem points_getElem? (d : Blocks) (dir : Dir) (b : BlockId) (i : Nat) :
    (points d dir b)[i]? = (edge? d dir b i).map BlockEdge.point := by
  simp [points, edge?]

theorem eraseIdx_set_succ {α : Type} (l : List α) (i : Nat) (a : α) (h : l[i + 1]? = some a) :
    (l.set i a).eraseIdx (i + 1) = l.eraseIdx i := by
  induction l generalizing i with
  | nil => simp
  | cons x l ih =>
      cases i with
      | zero => cases l <;> simp_all
      | succ i => simpa using ih i (by simpa using h)

/-- The dangling slot moves up by one in a pass of the half delete loop. -/
theorem Matched.shift (hm : Matched R d (insert (dir, bl, slot) D)) (hD : ∀ j, (dir, bl, j) ∉ D)
    (hs : slot + 1 < (points d dir bl).length) :
    ∃ d', shiftEdge dir bl d slot = .ok d' ∧ Matched R d' (insert (dir, bl, slot + 1) D) ∧
      SameCore d d' ∧ (points d' dir bl).length = (points d dir bl).length ∧
      (points d' dir bl).eraseIdx (slot + 1) = (points d dir bl).eraseIdx slot ∧
      ∀ dir' c, ¬ (dir' = dir ∧ c = bl) → points d' dir' c = points d dir' c := by
  obtain ⟨e, he⟩ := exists_edge? hs
  obtain ⟨e₀, he₀⟩ := exists_edge? (Nat.lt_of_succ_lt hs)
  obtain ⟨hpD, f, hf, hfp, hfr, -⟩ := hm dir bl (slot + 1) e he (by simp [hD])
  obtain ⟨-, g, hg, -, -, hR⟩ := hm dir.op e.point e.reverseIndex f hf hpD
  rw [Dir.op_op, hfp, hfr, he, Option.some_inj] at hg
  subst hg
  have hlive := live_of_edge? he
  have hf₁ : edge? (setEdge d dir bl slot e) dir.op e.point e.reverseIndex = some f := by
    rw [edge?_setEdge_ne he₀ e (by simp), hf]
  have hrun : shiftEdge dir bl d slot = .ok (setEdge (setEdge d dir bl slot e) dir.op e.point e.reverseIndex
      { f with reverseIndex := f.reverseIndex - 1 }) := by
    simp [shiftEdge, get_of_live hlive, getIdx_eq (show ((blk d bl).edges dir)[slot + 1]? = some e from he),
      Arena.modify_eq _ hlive]
    exact modifyEdge_eq hf₁ _
  have hpts (dir' : Dir) (c : BlockId) : points (setEdge (setEdge d dir bl slot e) dir.op e.point e.reverseIndex
      { f with reverseIndex := f.reverseIndex - 1 }) dir' c = points (setEdge d dir bl slot e) dir' c :=
    points_setEdge_same hf₁ (by rfl) dir' c
  refine ⟨_, hrun, ?_, (sameCore_setEdge ..).trans (sameCore_setEdge ..), ?_, ?_, ?_⟩
  · intro dir' c j g hg hgD
    simp only [Set.mem_insert_iff, not_or] at hgD
    by_cases hA : (dir', c, j) = (dir.op, e.point, e.reverseIndex)
    · -- the far end of the moved edge: its partner is now in slot `slot`
      simp only [Prod.mk.injEq] at hA
      obtain ⟨rfl, rfl, rfl⟩ := hA
      rw [edge?_setEdge_self hf₁, Option.some_inj] at hg
      subst hg
      refine ⟨by simp [hfp, hfr, hD], e, ?_, rfl, rfl, hR⟩
      rw [edge?_setEdge_ne hf₁ _ (by simp), Dir.op_op, hfp, hfr, Nat.add_sub_cancel,
        edge?_setEdge_self he₀]
    rw [edge?_setEdge_ne hf₁ _ hA] at hg
    by_cases hB : (dir', c, j) = (dir, bl, slot)
    · simp only [Prod.mk.injEq] at hB
      obtain ⟨rfl, rfl, rfl⟩ := hB
      rw [edge?_setEdge_self he₀, Option.some_inj] at hg
      subst hg
      refine ⟨by simpa using fun h => hpD (by simp [h]), _, edge?_setEdge_self hf₁ _, hfp, by simp [hfr], ?_⟩
      obtain ⟨-, f', hf', -, -, hR'⟩ := hm _ _ _ _ he (by simp [hD])
      rw [hf, Option.some_inj] at hf'
      exact hf' ▸ hR'
    rw [edge?_setEdge_ne he₀ _ hB] at hg
    obtain ⟨hqD, g', hg', hgp, hgr, hRg⟩ := hm dir' c j g hg (by simpa [hgD] using hB)
    simp only [Set.mem_insert_iff, not_or] at hqD
    have h₁ : (dir'.op, g.point, g.reverseIndex) ≠ (dir, bl, slot + 1) := by
      intro h
      simp only [Prod.mk.injEq] at h
      rw [h.1, h.2.1, h.2.2, he, Option.some_inj] at hg'
      apply hA
      rw [← hgp, ← hgr, ← hg', ← h.1, Dir.op_op]
    have h₂ : (dir'.op, g.point, g.reverseIndex) ≠ (dir.op, e.point, e.reverseIndex) := by
      intro h
      simp only [Prod.mk.injEq] at h
      rw [h.1, h.2.1, h.2.2, hf, Option.some_inj] at hg'
      apply hgD.1
      rw [← hgp, ← hgr, ← hg', hfp, hfr, ← Dir.op_op dir', h.1, Dir.op_op]
    refine ⟨by simpa [hqD] using h₁, g', ?_, hgp, hgr, hRg⟩
    rw [edge?_setEdge_ne hf₁ _ h₂, edge?_setEdge_ne he₀ _ hqD.1, hg']
  · rw [hpts, points_setEdge he₀]; simp
  · rw [hpts, points_setEdge he₀]
    simp only [and_self, if_true]
    exact eraseIdx_set_succ _ _ _ (by simp [points_getElem?, he])
  · intro dir' c hc
    rw [hpts, points_setEdge he₀, if_neg hc]

theorem Matched.pop (hm : Matched R d (insert (dir, bl, slot) D)) (hD : ∀ j, (dir, bl, j) ∉ D)
    (hb : d.Live bl) (hs : (points d dir bl).length = slot + 1) :
    Matched R (d.update bl fun b => b.setEdges dir (b.edges dir).dropLast) D := by
  have hedge (dir' : Dir) (c : BlockId) (j : Nat) :
      edge? (d.update bl fun b => b.setEdges dir (b.edges dir).dropLast) dir' c j =
        if (dir', c, j) = (dir, bl, slot) then none else edge? d dir' c j := by
    have hlen : ((blk d bl).edges dir).length = slot + 1 := by simpa [points] using hs
    simp only [edge?, edges_update_setEdges hb, Prod.mk.injEq]
    by_cases hdc : dir' = dir ∧ c = bl
    · obtain ⟨rfl, rfl⟩ := hdc
      by_cases hj : j = slot
      · simp [hj, hlen]
      · by_cases hlt : j < slot
        · simp [hj, hlen, hlt]
        · rw [if_pos ⟨rfl, rfl⟩, if_neg (by simp [hj]), List.getElem?_eq_none (by simp; omega),
            List.getElem?_eq_none (by omega)]
    · rw [if_neg hdc, if_neg (by tauto)]
  intro dir' c j g hg hgD
  rw [hedge] at hg
  split at hg
  · simp at hg
  case isFalse hne =>
    obtain ⟨hq, g', hg', hrest⟩ := hm dir' c j g hg (by simpa [hgD] using hne)
    simp only [Set.mem_insert_iff, not_or] at hq
    exact ⟨hq.2, g', by rw [hedge, if_neg hq.1, hg'], hrest⟩

/-- Deleting a dangling slot renumbers the slots behind it, in the block and
in all blocks at the other ends, and changes nothing else. -/
theorem Matched.halfDelete (hm : Matched R d (insert (dir, bl, slot) D)) (hD : ∀ j, (dir, bl, j) ∉ D)
    (hs : slot < (points d dir bl).length) :
    ∃ d', blockHalfDeleteEdge dir d bl slot = .ok d' ∧ Matched R d' D ∧ SameCore d d' ∧
      ∀ dir' c, points d' dir' c =
        if dir' = dir ∧ c = bl then (points d dir' c).eraseIdx slot else points d dir' c := by
  have hlive : d.Live bl := live_of_edge? (exists_edge? hs).choose_spec
  have hlen : ((blk d bl).edges dir).length = (points d dir bl).length := by simp [points]
  let n := (points d dir bl).length - 1 - slot
  obtain ⟨s, hrun, hms, hcs, hls, hes, hos⟩ := foldlM_range'_total
    (f := shiftEdge dir bl) (s := d)
    (fun k s => Matched R s (insert (dir, bl, slot + k) D) ∧ SameCore d s ∧
      (points s dir bl).length = (points d dir bl).length ∧
      (points s dir bl).eraseIdx (slot + k) = (points d dir bl).eraseIdx slot ∧
      ∀ dir' c, ¬ (dir' = dir ∧ c = bl) → points s dir' c = points d dir' c)
    slot n
    (by
      rintro k hk s ⟨hms, hcs, hls, hes, hos⟩
      obtain ⟨s', hrun, hms', hcs', hls', hes', hos'⟩ := hms.shift hD (by omega)
      refine ⟨s', hrun, hms', hcs.trans hcs', hls'.trans hls, hes'.trans hes, ?_⟩
      intro dir' c hc
      rw [hos' dir' c hc, hos dir' c hc])
    ⟨hm, SameCore.refl d, rfl, rfl, fun _ _ _ => rfl⟩
  have hlast : slot + n + 1 = (points s dir bl).length := by omega
  have hslive : s.Live bl := (hcs.live bl).mpr hlive
  refine ⟨_, ?_, hms.pop hD hslive hlast.symm, hcs.trans (SameCore.update_setEdges ..), ?_⟩
  · simp only [blockHalfDeleteEdge, get_of_live hlive, ok_bind, hlen]
    rw [show (points d dir bl).length - 1 - slot = n from rfl, hrun, ok_bind, Arena.modify_eq _ hslive]
  · intro dir' c
    simp only [points, edges_update_setEdges hslive]
    split
    case isTrue hc =>
      obtain ⟨rfl, rfl⟩ := hc
      rw [List.map_dropLast]
      exact (List.eraseIdx_eq_dropLast hlast).symm.trans hes
    case isFalse hc => exact hos dir' c hc

/-- The two ends of one edge can be taken for dangling slots. -/
theorem Matched.expose (hm : Matched R d D) (he : edge? d dir b i = some e) (hD : (dir, b, i) ∉ D) :
    Matched R d (insert (dir, b, i) (insert (dir.op, e.point, e.reverseIndex) D)) := by
  obtain ⟨-, f, hf, hfp, hfr, -⟩ := hm dir b i e he hD
  intro dir' c j g hg hgD
  simp only [Set.mem_insert_iff, not_or] at hgD
  obtain ⟨hq, g', hg', hgp, hgr, hR⟩ := hm dir' c j g hg hgD.2.2
  refine ⟨?_, g', hg', hgp, hgr, hR⟩
  simp only [Set.mem_insert_iff, not_or]
  refine ⟨fun h => ?_, fun h => ?_, hq⟩ <;> simp only [Prod.mk.injEq] at h
  · rw [h.1, h.2.1, h.2.2, he, Option.some_inj] at hg'
    apply hgD.2.1
    rw [← hgp, ← hgr, ← hg', ← h.1, Dir.op_op]
  · rw [h.1, h.2.1, h.2.2, hf, Option.some_inj] at hg'
    apply hgD.1
    rw [← hgp, ← hgr, ← hg', hfp, hfr, ← Dir.op_op dir', h.1, Dir.op_op]

/-- A slot behind the end of its list is the other end of no edge. -/
theorem Matched.insert_none (hm : Matched R d D) {h : HalfEdge} (hn : edge? d h.1 h.2.1 h.2.2 = none) :
    Matched R d (insert h D) := by
  intro dir' c j g hg hgD
  simp only [Set.mem_insert_iff, not_or] at hgD
  obtain ⟨hq, g', hg', hrest⟩ := hm dir' c j g hg hgD.2
  refine ⟨?_, g', hg', hrest⟩
  simp only [Set.mem_insert_iff, not_or]
  refine ⟨?_, hq⟩
  rintro rfl
  simp [hg'] at hn

/-- Two dangling slots become the two ends of one edge. -/
theorem Matched.link {d₁ d₂ : Blocks} {b₁ b₂ : BlockId} {i₁ i₂ : Nat} (dir : Dir) (l₁ l₂ : Flags)
    (hm : Matched R d₁ (insert (dir, b₁, i₁) (insert (dir.op, b₂, i₂) D)))
    (h₁ : (dir, b₁, i₁) ∉ D) (h₂ : (dir.op, b₂, i₂) ∉ D) (hR₁ : R l₁ l₂) (hR₂ : R l₂ l₁)
    (hedge : ∀ dir' c j, edge? d₂ dir' c j = if (dir', c, j) = (dir, b₁, i₁) then some ⟨l₁, b₂, i₂⟩ else
      if (dir', c, j) = (dir.op, b₂, i₂) then some ⟨l₂, b₁, i₁⟩ else edge? d₁ dir' c j) :
    Matched R d₂ D := by
  have he₁ : edge? d₂ dir b₁ i₁ = some ⟨l₁, b₂, i₂⟩ := by simp [hedge]
  have he₂ : edge? d₂ dir.op b₂ i₂ = some ⟨l₂, b₁, i₁⟩ := by simp [hedge]
  intro dir' c j g hg hgD
  by_cases hc₁ : (dir', c, j) = (dir, b₁, i₁)
  · simp only [Prod.mk.injEq] at hc₁
    obtain ⟨rfl, rfl, rfl⟩ := hc₁
    rw [he₁, Option.some_inj] at hg
    subst hg
    exact ⟨h₂, _, he₂, rfl, rfl, hR₁⟩
  by_cases hc₂ : (dir', c, j) = (dir.op, b₂, i₂)
  · simp only [Prod.mk.injEq] at hc₂
    obtain ⟨rfl, rfl, rfl⟩ := hc₂
    rw [he₂, Option.some_inj] at hg
    subst hg
    rw [Dir.op_op]
    exact ⟨h₁, _, he₁, rfl, rfl, hR₂⟩
  rw [hedge, if_neg hc₁, if_neg hc₂] at hg
  obtain ⟨hq, g', hg', hrest⟩ := hm dir' c j g hg (by simp [hc₁, hc₂, hgD])
  simp only [Set.mem_insert_iff, not_or] at hq
  exact ⟨hq.2.2, g', by rw [hedge, if_neg hq.1, if_neg hq.2.1, hg'], hrest⟩

theorem edge?_pushEdge (hb : d.Live b) (e : BlockEdge) (dir' : Dir) (c : BlockId) (j : Nat) :
    edge? (d.update b fun bl => bl.setEdges dir (bl.edges dir ++ [e])) dir' c j =
      if (dir', c, j) = (dir, b, (points d dir b).length) then some e else edge? d dir' c j := by
  simp only [edge?, edges_update_setEdges hb, Prod.mk.injEq, points, List.length_map]
  by_cases hdc : dir' = dir ∧ c = b
  · obtain ⟨rfl, rfl⟩ := hdc
    by_cases hj : j = ((blk d c).edges dir').length
    · simp [hj]
    · by_cases hlt : j < ((blk d c).edges dir').length
      · simp [hj, List.getElem?_append_left hlt]
      · rw [if_pos ⟨rfl, rfl⟩, if_neg (by simp [hj]), List.getElem?_eq_none (by simp; omega),
          List.getElem?_eq_none (by omega)]
  · rw [if_neg hdc, if_neg (by tauto)]

theorem points_pushEdge (hb : d.Live b) (e : BlockEdge) (dir' : Dir) (c : BlockId) :
    points (d.update b fun bl => bl.setEdges dir (bl.edges dir ++ [e])) dir' c =
      if dir' = dir ∧ c = b then points d dir' c ++ [e.point] else points d dir' c := by
  simp only [points, edges_update_setEdges hb]
  split
  case isTrue hc => obtain ⟨rfl, rfl⟩ := hc; simp
  case isFalse => rfl

theorem edge?_length (d : Blocks) (dir : Dir) (b : BlockId) : edge? d dir b (points d dir b).length = none := by
  simp [edge?_eq_none_iff]

end GhidraDecompiler.Block
