import GhidraDecompiler.Block.FlowBlock
import GhidraDecompiler.Lib.ParentForest
import Mathlib.Tactic.IntervalCases

namespace GhidraDecompiler.Block

open Fallible Flow

/-- The climb of one block when the other one has left its tree. -/
def climbToMark (d : Blocks) (cur : Option BlockId) : Outcome (Pass (Option BlockId) (Option BlockId)) := do
  match cur with
  | none => pure (.leave none)
  | some block =>
      if (← d.get block).isMark then pure (.leave (some block)) else pure (.again (← d.get block).immedDom)

/-- Both blocks climb by one step. -/
def commonPass (s : Blocks × Option BlockId × Option BlockId) :
    Outcome (Pass (Blocks × Option BlockId × Option BlockId) (Blocks × Option BlockId)) := do
  let (d, b1, b2) := s
  match b2 with
  | none => pure (.leave (d, ← loop (climbToMark d) (d.nextId + 1) b1))
  | some second =>
      match b1 with
      | none => pure (.leave (d, ← loop (climbToMark d) (d.nextId + 1) (some second)))
      | some first =>
          if (← d.get first).isMark then pure (.leave (d, some first))
          else
            let d ← d.modify first FlowBlock.setMark
            if (← d.get second).isMark then pure (.leave (d, some second))
            else
              let d ← d.modify second FlowBlock.setMark
              pure (.again (d, (← d.get first).immedDom, (← d.get second).immedDom))

def clearPass (s : Blocks × Option BlockId) : Outcome (Pass (Blocks × Option BlockId) Blocks) := do
  let (d, cur) := s
  match cur with
  | none => pure (.leave d)
  | some block =>
      if (← d.get block).isMark then
        let d ← d.modify block FlowBlock.clearMark
        pure (.again (d, (← d.get block).immedDom))
      else pure (.leave d)

def blockFindCommonBlock (d : Blocks) (bl1 bl2 : BlockId) : Outcome (Blocks × Option BlockId) := do
  let (d, common) ← loop commonPass (d.nextId + 1) (d, some bl1, some bl2)
  let d ← loop clearPass (d.nextId + 1) (d, some bl1)
  let d ← loop clearPass (d.nextId + 1) (d, some bl2)
  pure (d, common)

/-- The first loop of `block_find_common_block_set`, up from the first block. -/
def markUpPass (s : Blocks × List BlockId × Option BlockId) :
    Outcome (Pass (Blocks × List BlockId × Option BlockId) (Blocks × List BlockId)) := do
  let (d, markedSet, cur) := s
  match cur with
  | none => pure (.leave (d, markedSet))
  | some block =>
      let d ← d.modify block FlowBlock.setMark
      pure (.again (d, markedSet ++ [block], (← d.get block).immedDom))

/-- The inner loop, up from another block to the first mark. -/
def markToMarkPass (s : Blocks × List BlockId × BlockId) :
    Outcome (Pass (Blocks × List BlockId × BlockId) (Blocks × List BlockId × BlockId)) := do
  let (d, markedSet, block) := s
  if (← d.get block).isMark then pure (.leave s)
  else
    let d ← d.modify block FlowBlock.setMark
    pure (.again (d, markedSet ++ [block], ← expect (← d.get block).immedDom))

/-- The body of the loop over the other blocks. The break at index 0 skips all of
the blocks that are left. -/
def setMember (s : Blocks × List BlockId × BlockId × Int) (member : BlockId) :
    Outcome (Blocks × List BlockId × BlockId × Int) := do
  let (d, markedSet, res, bestIndex) := s
  if bestIndex = 0 then pure s
  else
    let (d, markedSet, block) ← loop markToMarkPass (d.nextId + 1) (d, markedSet, member)
    let index := (← d.get block).index
    if index < bestIndex then pure (d, markedSet, block, index) else pure (d, markedSet, res, bestIndex)

def blockFindCommonBlockSet (d : Blocks) (blockSet : List BlockId) : Outcome (Blocks × Option BlockId) := do
  let res ← getIdx blockSet 0
  let bestIndex := (← d.get res).index
  let (d, markedSet) ← loop markUpPass (d.nextId + 1) (d, [], some res)
  let (d, markedSet, res, _) ← (blockSet.drop 1).foldlM setMember (d, markedSet, res, bestIndex)
  let d ← markedSet.foldlM (fun d block => d.modify block FlowBlock.clearMark) d
  pure (d, some res)

/-- The tree of the immediate dominators. -/
def domUp (d : Blocks) (b : BlockId) : Option BlockId := (blk d b).immedDom

/-- The immediate dominators of blocks are blocks, and form a forest. -/
structure DomForest (d : Blocks) : Prop where
  closed : ∀ b a, d.Live b → domUp d b = some a → d.Live a
  acyclic : Forest (domUp d)

/-- A dominator tree: one root with index 0, and indices that grow away from it. -/
structure DominatorTree (d : Blocks) (r : BlockId) : Prop extends DomForest d where
  live_root : d.Live r
  root : ∀ b, d.Live b → (domUp d b = none ↔ b = r)
  index_root : (blk d r).index = 0
  index_lt : ∀ b a, domUp d b = some a → (blk d a).index < (blk d b).index

def NoMarks (d : Blocks) : Prop := ∀ b, d.Live b → (blk d b).isMark = false

section HasMarks

open Classical

theorem clearMark_of_unmarked {b : FlowBlock} (h : b.isMark = false) : b.clearMark = b := by
  have hzero : b.flags &&& FlowBlock.fMark = 0#32 := by simpa [FlowBlock.isMark] using h
  rw [FlowBlock.clearMark, Flags.and_not_of_and_eq_zero hzero]

theorem clearMark_setMark (b : FlowBlock) : b.setMark.clearMark = b.clearMark := by
  have hself : FlowBlock.fMark &&& ~~~FlowBlock.fMark = 0#32 := by decide
  rw [FlowBlock.clearMark, FlowBlock.setMark, FlowBlock.clearMark, BitVec.and_or_distrib_right, hself, BitVec.or_zero]

/-- The blocks of `d`, none of which is marked, with the marks of a set. -/
structure HasMarks (d d' : Blocks) (M : BlockId → Prop) : Prop where
  unmarked : NoMarks d
  nextId : d'.nextId = d.nextId
  get? : ∀ b, d'.get? b = (d.get? b).map fun v => if M b then v.setMark else v

variable {d d' : Blocks} {M M' : BlockId → Prop} {b : BlockId}

/-- Equivalent conditions choose alike, however they are decided. -/
theorem ite_congr_iff {α : Type} {P Q : Prop} {_ : Decidable P} {_ : Decidable Q} {x y : α} (h : P ↔ Q) :
    (if P then x else y) = if Q then x else y := if_congr h rfl rfl

theorem HasMarks.none (h : NoMarks d) : HasMarks d d fun _ => False := ⟨h, rfl, fun b => by simp⟩

theorem HasMarks.congr (h : HasMarks d d' M) (hM : ∀ b, d.Live b → (M b ↔ M' b)) : HasMarks d d' M' := by
  refine ⟨h.unmarked, h.nextId, fun b => ?_⟩
  rw [h.get?]
  cases hv : d.get? b with
  | none => rfl
  | some v => exact congrArg some (ite_congr_iff (hM b (Arena.live_of_get? hv)))

/-- With no marks the blocks are the old ones. -/
theorem HasMarks.eq (h : HasMarks d d' M) (hM : ∀ b, d.Live b → ¬ M b) : d' = d := by
  refine Arena.ext_get? h.nextId fun b => ?_
  rw [h.get?]
  cases hv : d.get? b with
  | none => rfl
  | some v => simp only [Option.map_some, if_neg (hM b (Arena.live_of_get? hv))]

theorem HasMarks.live (h : HasMarks d d' M) : d'.Live b ↔ d.Live b := by simp [Arena.Live, h.get?]

theorem HasMarks.blk_eq (h : HasMarks d d' M) (hb : d.Live b) : blk d' b = if M b then (blk d b).setMark else blk d b := by
  obtain ⟨v, hv⟩ := Option.isSome_iff_exists.mp hb
  simp [blk, h.get?, hv]

theorem HasMarks.get_eq (h : HasMarks d d' M) (hb : d.Live b) : d'.get b = .ok (blk d' b) := get_of_live (h.live.mpr hb)

theorem HasMarks.isMark_iff (h : HasMarks d d' M) (hb : d.Live b) : (blk d' b).isMark = true ↔ M b := by
  rw [h.blk_eq hb]
  split
  · next hm => exact iff_of_true (FlowBlock.isMark_setMark _) hm
  · next hm => exact iff_of_false (by simp [h.unmarked b hb]) hm

theorem HasMarks.immedDom (h : HasMarks d d' M) (hb : d.Live b) : (blk d' b).immedDom = domUp d b := by
  rw [h.blk_eq hb]
  split <;> rfl

theorem HasMarks.index (h : HasMarks d d' M) (hb : d.Live b) : (blk d' b).index = (blk d b).index := by
  rw [h.blk_eq hb]
  split <;> rfl

theorem setMark_setMark (b : FlowBlock) : b.setMark.setMark = b.setMark := by
  rw [FlowBlock.setMark, FlowBlock.setMark, BitVec.or_assoc, BitVec.or_self]

theorem HasMarks.set (h : HasMarks d d' M) (hb : d.Live b) :
    ∃ d'', d'.modify b FlowBlock.setMark = .ok d'' ∧ HasMarks d d'' fun x => M x ∨ x = b := by
  refine ⟨_, Arena.modify_eq _ (h.live.mpr hb), h.unmarked, by rw [Arena.nextId_update, h.nextId], fun x => ?_⟩
  rw [Arena.get?_update]
  by_cases hx : x = b
  · subst hx
    rw [if_pos rfl, h.get?, Option.map_map]
    refine congrArg (fun f => (d.get? x).map f) (funext fun v => ?_)
    simp only [Function.comp, or_true, if_true]
    split
    · exact setMark_setMark v
    · rfl
  · rw [if_neg hx, h.get?]
    exact congrArg (fun f => (d.get? x).map f) (funext fun v => ite_congr_iff (by simp [hx]))

theorem HasMarks.clear (h : HasMarks d d' M) (hb : d.Live b) :
    ∃ d'', d'.modify b FlowBlock.clearMark = .ok d'' ∧ HasMarks d d'' fun x => M x ∧ x ≠ b := by
  refine ⟨_, Arena.modify_eq _ (h.live.mpr hb), h.unmarked, by rw [Arena.nextId_update, h.nextId], fun x => ?_⟩
  rw [Arena.get?_update]
  by_cases hx : x = b
  · subst hx
    obtain ⟨v, hv⟩ := Option.isSome_iff_exists.mp hb
    have hclear : v.clearMark = v := clearMark_of_unmarked (by simpa [blk, hv] using h.unmarked x hb)
    rw [if_pos rfl, h.get?, hv]
    simp only [Option.map_some, ne_eq, not_true, and_false, if_false]
    split
    · rw [clearMark_setMark, hclear]
    · rw [hclear]
  · rw [if_neg hx, h.get?]
    exact congrArg (fun f => (d.get? x).map f) (funext fun v => ite_congr_iff (by simp [hx]))

end HasMarks

section Climbs

variable {d d' : Blocks} {M : BlockId → Prop}

/-- All blocks of the arena, among which the climbs are bounded. -/
def allBlocks (d : Blocks) : Finset BlockId := Finset.range d.nextId

theorem mem_allBlocks {b : BlockId} (hb : d.Live b) : b ∈ allBlocks d := Finset.mem_range.mpr (Arena.lt_of_live hb)

theorem height_le_nextId (b : BlockId) : height (allBlocks d) (domUp d) b ≤ d.nextId := by
  simpa [allBlocks] using height_le (allBlocks d) (domUp d) b

/-- The height of a place in a climb. -/
noncomputable def placeHeight (d : Blocks) : Option BlockId → ℕ
  | none => 0
  | some b => height (allBlocks d) (domUp d) b

theorem placeHeight_le (o : Option BlockId) : placeHeight d o ≤ d.nextId := by
  cases o with
  | none => exact Nat.zero_le _
  | some b => exact height_le_nextId b

namespace DomForest

variable (hd : DomForest d)

include hd

theorem placeHeight_lt {b : BlockId} (hb : d.Live b) : placeHeight d (domUp d b) < placeHeight d (some b) := by
  cases ha : domUp d b with
  | none => exact height_pos (mem_allBlocks hb)
  | some a => exact height_lt hd.acyclic (mem_allBlocks hb) ha

theorem live_up {b x : BlockId} (hb : d.Live b) (h : Up (domUp d) b x) : d.Live x := by
  induction h with
  | refl => exact hb
  | tail _ hstep ih => exact hd.closed _ _ ih hstep

omit hd in
theorem not_below_self_at {b f : BlockId} : ¬ Below (domUp d) b (some f) f := fun h => h.2 f rfl .refl

/-- The climb to a mark finds the first one. -/
theorem climbToMark_spec (hm : HasMarks d d' M) {b : BlockId} (hb : d.Live b) :
    ∃ r, loop (climbToMark d') (d'.nextId + 1) (some b) = .ok r ∧
      (∀ c, r = some c → IsFirst (domUp d) M b c) ∧ (r = none → ∀ x, Up (domUp d) b x → ¬ M x) := by
  have hbody : ∀ o : Option BlockId, (∀ f, o = some f → Up (domUp d) b f) ∧
      (∀ x, Below (domUp d) b o x → ¬ M x) →
      (∃ r, climbToMark d' o = .ok (.leave r) ∧ (∀ c, r = some c → IsFirst (domUp d) M b c) ∧
        (r = none → ∀ x, Up (domUp d) b x → ¬ M x)) ∨
      ∃ o', climbToMark d' o = .ok (.again o') ∧
        ((∀ f, o' = some f → Up (domUp d) b f) ∧ ∀ x, Below (domUp d) b o' x → ¬ M x) ∧
        placeHeight d o' < placeHeight d o := by
    rintro o ⟨hup, hbelow⟩
    cases o with
    | none =>
        refine .inl ⟨none, rfl, by simp, fun _ x hx => hbelow x (below_none.mpr hx)⟩
    | some f =>
        have hbf := hup f rfl
        have hf := hd.live_up hb hbf
        by_cases hmark : M f
        · refine .inl ⟨some f, ?_, fun c hc => ?_, by simp⟩
          · simp [climbToMark, hm.get_eq hf, (hm.isMark_iff hf).mpr hmark]
          · obtain rfl := Option.some_inj.mp hc
            refine ⟨hbf, hmark, fun y hby hy => ?_⟩
            by_contra hnot
            exact hbelow y ⟨hby, fun f' hf' => Option.some_inj.mp hf' ▸ hnot⟩ hy
        · refine .inr ⟨domUp d f, ?_, ⟨fun a ha => hbf.tail ha, fun x hx => ?_⟩, hd.placeHeight_lt hf⟩
          · have hnot : (blk d' f).isMark = false := by
              rw [← Bool.not_eq_true, hm.isMark_iff hf]
              exact hmark
            simp [climbToMark, hm.get_eq hf, hnot, hm.immedDom hf]
          · rcases (below_step hd.acyclic hbf).mp hx with hx | rfl
            · exact hbelow x hx
            · exact hmark
  refine loop_total _ _ (placeHeight d) hbody ⟨fun f hf => ?_, fun x hx => absurd hx not_below_self⟩ ?_
  · obtain rfl := Option.some_inj.mp hf
    exact .refl
  · have := placeHeight_le (d := d) (some b)
    rw [hm.nextId]
    omega

/-- Clearing goes up through the marks. -/
theorem clearPass_spec (hm : HasMarks d d' M) {b : BlockId} (hb : d.Live b) :
    ∃ d'', loop clearPass (d'.nextId + 1) (d', some b) = .ok d'' ∧
      HasMarks d d'' fun x => M x ∧ ¬ Through (domUp d) M b x := by
  suffices h : ∀ n (d₁ : Blocks) (M₁ : BlockId → Prop) (f : BlockId), HasMarks d d₁ M₁ → d.Live f →
      placeHeight d (some f) ≤ n → ∀ k, n < k → ∃ d'', loop clearPass k (d₁, some f) = .ok d'' ∧
        HasMarks d d'' fun x => M₁ x ∧ ¬ Through (domUp d) M₁ f x by
    refine h _ d' M b hm hb le_rfl _ ?_
    have := placeHeight_le (d := d) (some b)
    rw [hm.nextId]
    omega
  intro n
  induction n with
  | zero =>
      intro d₁ M₁ f hm₁ hf hle
      have := hd.placeHeight_lt hf
      omega
  | succ n ih =>
      intro d₁ M₁ f hm₁ hf hle k hk
      obtain ⟨k, rfl⟩ : ∃ k', k = k' + 1 := ⟨k - 1, by omega⟩
      by_cases hmark : M₁ f
      · obtain ⟨d₂, hd₂, hm₂⟩ := hm₁.clear hf
        have hpass : clearPass (d₁, some f) = .ok (.again (d₂, domUp d f)) := by
          simp [clearPass, hm₁.get_eq hf, (hm₁.isMark_iff hf).mpr hmark, hd₂, hm₂.get_eq hf, hm₂.immedDom hf]
        have hlt := hd.placeHeight_lt hf
        cases ha : domUp d f with
        | none =>
            rw [ha] at hpass
            obtain ⟨k, rfl⟩ : ∃ k', k = k' + 1 := ⟨k - 1, by omega⟩
            refine ⟨d₂, ?_, hm₂.congr fun x _ => ?_⟩
            · rw [loop_succ_again hpass]
              exact loop_succ_leave rfl k
            · rw [through_of_root hmark ha]
        | some a =>
            rw [ha] at hpass hlt
            obtain ⟨d₃, hd₃, hm₃⟩ := ih d₂ _ a hm₂ (hd.closed f a hf ha) (by omega) k (by omega)
            refine ⟨d₃, by rw [loop_succ_again hpass, hd₃], hm₃.congr fun x _ => ?_⟩
            rw [through_cons hd.acyclic hmark ha]
            tauto
      · have hnot : (blk d₁ f).isMark = false := by
          rw [← Bool.not_eq_true, hm₁.isMark_iff hf]
          exact hmark
        refine ⟨d₁, loop_succ_leave (by simp [clearPass, hm₁.get_eq hf, hnot]) k, hm₁.congr fun x _ => ?_⟩
        simp [not_through hmark]

/-- What the climb in lockstep returns. -/
def IsCommon (d : Blocks) (b b' : BlockId) : Option BlockId → Prop
  | some c => IsMeet (domUp d) (fun p => p = b ∨ p = b') c
  | none => ∀ w, ¬ (Up (domUp d) b w ∧ Up (domUp d) b' w)

omit hd in
theorem IsCommon.symm {b b' : BlockId} {r : Option BlockId} (h : IsCommon d b b' r) : IsCommon d b' b r := by
  cases r with
  | none => exact fun w hw => h w hw.symm
  | some c => exact IsMeet.congr h fun p => or_comm

omit hd in
theorem isCommon_some {b b' c : BlockId} (hb : Up (domUp d) b c) (hb' : Up (domUp d) b' c)
    (h : ∀ w, Up (domUp d) b w → Up (domUp d) b' w → Up (domUp d) c w) : IsCommon d b b' (some c) := by
  refine ⟨?_, fun w hw => h w (hw b (.inl rfl)) (hw b' (.inr rfl))⟩
  rintro p (rfl | rfl)
  · exact hb
  · exact hb'

/-- One block climbs alone when the chain of the other one is marked as a whole. -/
theorem climb_isCommon {b b' f : BlockId} (hm : HasMarks d d' M) (hM : ∀ x, M x ↔ Below (domUp d) b (some f) x ∨ Up (domUp d) b' x)
    (hdisj : ∀ x, ¬ (Below (domUp d) b (some f) x ∧ Up (domUp d) b' x)) (hb : d.Live b) (hbf : Up (domUp d) b f) :
    ∃ r, loop (climbToMark d') (d'.nextId + 1) (some f) = .ok r ∧ IsCommon d b b' r := by
  obtain ⟨r, hr, hsome, hnone⟩ := hd.climbToMark_spec hm (hd.live_up hb hbf)
  have hup : ∀ w, Up (domUp d) b w → Up (domUp d) b' w → Up (domUp d) f w := by
    intro w hbw hbw'
    by_contra hnot
    exact hdisj w ⟨⟨hbw, fun f' hf' => Option.some_inj.mp hf' ▸ hnot⟩, hbw'⟩
  refine ⟨r, hr, ?_⟩
  cases r with
  | none => exact fun w hw => hnone rfl w (hup w hw.1 hw.2) ((hM w).mpr (.inr hw.2))
  | some c =>
      have hc := hsome c rfl
      have hbc' : Up (domUp d) b' c := by
        rcases (hM c).mp hc.mem with hbelow | hbc'
        · exact absurd hc.above (hbelow.2 f rfl)
        · exact hbc'
      exact isCommon_some (hbf.trans hc.above) hbc'
        fun w hbw hbw' => hc.first w (hup w hbw hbw') ((hM w).mpr (.inr hbw'))

omit hd in
/-- A place that the other climb has passed already is the nearest common ancestor. -/
theorem isCommon_of_below {b b' f : BlockId} {o : Option BlockId} (hbf : Up (domUp d) b f)
    (hf : Below (domUp d) b' o f) (ho : ∀ g, o = some g → Up (domUp d) b' g)
    (hdisj : ∀ x, ¬ (Below (domUp d) b (some f) x ∧ Below (domUp d) b' o x)) : IsCommon d b b' (some f) := by
  refine isCommon_some hbf hf.1 fun w hbw hbw' => ?_
  by_contra hnot
  refine hdisj w ⟨⟨hbw, fun f' hf' => Option.some_inj.mp hf' ▸ hnot⟩, hbw', fun g hg hgw => hnot ?_⟩
  rcases Up.total hf.1 (ho g hg) with h | h
  · exact h.trans hgw
  · exact absurd h (hf.2 g hg)

/-- The climb in lockstep: the marks are two parts of chains, and the result is the
nearest common ancestor. -/
theorem commonPass_spec (hu : NoMarks d) {bl1 bl2 : BlockId} (h1 : d.Live bl1) (h2 : d.Live bl2) :
    ∃ r, loop commonPass (d.nextId + 1) (d, some bl1, some bl2) = .ok r ∧
      IsCommon d bl1 bl2 r.2 ∧ ∃ o1 o2, HasMarks d r.1 fun x => Below (domUp d) bl1 o1 x ∨ Below (domUp d) bl2 o2 x := by
  let Inv : Blocks × Option BlockId × Option BlockId → Prop := fun s =>
    (∀ f, s.2.1 = some f → Up (domUp d) bl1 f) ∧ (∀ f, s.2.2 = some f → Up (domUp d) bl2 f) ∧
      (∀ x, ¬ (Below (domUp d) bl1 s.2.1 x ∧ Below (domUp d) bl2 s.2.2 x)) ∧
      HasMarks d s.1 fun x => Below (domUp d) bl1 s.2.1 x ∨ Below (domUp d) bl2 s.2.2 x
  refine loop_total Inv _ (fun s => placeHeight d s.2.1) ?_ ⟨?_, ?_, ?_, ?_⟩ (by
    have := placeHeight_le (d := d) (some bl1)
    exact Nat.lt_succ_of_le this)
  · rintro ⟨d', b1, b2⟩ ⟨hup1, hup2, hdisj, hm⟩
    simp only at hup1 hup2 hdisj hm
    cases b2 with
    | none =>
        have hm' := hm
        simp only [below_none] at hm' hdisj
        cases b1 with
        | none =>
            refine .inl ⟨(d', none), by simp [commonPass, climbToMark, loop], ?_, none, none, hm⟩
            exact fun w hw => hdisj w ⟨below_none.mpr hw.1, hw.2⟩
        | some f =>
            obtain ⟨r, hr, hcommon⟩ := hd.climb_isCommon hm' (fun x => Iff.rfl) hdisj h1 (hup1 f rfl)
            exact .inl ⟨(d', r), by simp [commonPass, hr], hcommon, some f, none, hm⟩
    | some second =>
        have hs := hd.live_up h2 (hup2 second rfl)
        cases b1 with
        | none =>
            have hm' : HasMarks d d' fun x => Below (domUp d) bl2 (some second) x ∨ Up (domUp d) bl1 x :=
              hm.congr fun x _ => by rw [below_none, or_comm]
            obtain ⟨r, hr, hcommon⟩ := hd.climb_isCommon hm' (fun x => Iff.rfl)
              (fun x hx => hdisj x ⟨below_none.mpr hx.2, hx.1⟩) h2 (hup2 second rfl)
            exact .inl ⟨(d', r), by simp [commonPass, hr], hcommon.symm, none, some second, hm⟩
        | some first =>
            have hf := hd.live_up h1 (hup1 first rfl)
            by_cases hmark : (blk d' first).isMark = true
            · have hbelow := ((hm.isMark_iff hf).mp hmark).resolve_left not_below_self_at
              refine .inl ⟨(d', some first), by simp [commonPass, hm.get_eq hf, hmark], ?_, some first, some second, hm⟩
              exact isCommon_of_below (hup1 first rfl) hbelow hup2 hdisj
            · have hnotf := mt (hm.isMark_iff hf).mpr hmark
              obtain ⟨d₁, hd₁, hm₁⟩ := hm.set hf
              have hm₁' : HasMarks d d₁ fun x =>
                  Below (domUp d) bl1 (domUp d first) x ∨ Below (domUp d) bl2 (some second) x := hm₁.congr fun x _ => by
                rw [below_step hd.acyclic (hup1 first rfl)]
                tauto
              have hdisj₁ : ∀ x, ¬ (Below (domUp d) bl1 (domUp d first) x ∧ Below (domUp d) bl2 (some second) x) := by
                rintro x ⟨hx1, hx2⟩
                rcases (below_step hd.acyclic (hup1 first rfl)).mp hx1 with hx | rfl
                · exact hdisj x ⟨hx, hx2⟩
                · exact hnotf (.inr hx2)
              have hup1' : ∀ a, domUp d first = some a → Up (domUp d) bl1 a := fun a ha => (hup1 first rfl).tail ha
              by_cases hmark2 : (blk d₁ second).isMark = true
              · have hbelow := ((hm₁'.isMark_iff hs).mp hmark2).resolve_right not_below_self_at
                refine .inl ⟨(d₁, some second), ?_, ?_, domUp d first, some second, hm₁'⟩
                · simp [commonPass, hm.get_eq hf, hmark, hd₁, hm₁.get_eq hs, hmark2]
                · exact (isCommon_of_below (hup2 second rfl) hbelow hup1' fun x hx => hdisj₁ x hx.symm).symm
              · have hnots := mt (hm₁'.isMark_iff hs).mpr hmark2
                obtain ⟨d₂, hd₂, hm₂⟩ := hm₁'.set hs
                refine .inr ⟨(d₂, domUp d first, domUp d second), ?_, ⟨hup1', fun a ha => (hup2 second rfl).tail ha, ?_, ?_⟩,
                  hd.placeHeight_lt hf⟩
                · simp [commonPass, hm.get_eq hf, hmark, hd₁, hm₁.get_eq hs, hmark2, hd₂, hm₂.get_eq hf, hm₂.get_eq hs,
                    hm₂.immedDom hf, hm₂.immedDom hs]
                · rintro x ⟨hx1, hx2⟩
                  rcases (below_step hd.acyclic (hup2 second rfl)).mp hx2 with hx | rfl
                  · exact hdisj₁ x ⟨hx1, hx⟩
                  · exact hnots (.inl hx1)
                · refine hm₂.congr fun x _ => ?_
                  rw [below_step hd.acyclic (hup2 second rfl), or_assoc]
  · rintro f hf
    obtain rfl := Option.some_inj.mp hf
    exact .refl
  · rintro f hf
    obtain rfl := Option.some_inj.mp hf
    exact .refl
  · exact fun x hx => not_below_self hx.1
  · exact (HasMarks.none hu).congr fun x _ => by simp [not_below_self]

/-- The nearest common dominator of two blocks, with the blocks left as they were. -/
theorem findCommonBlock_spec (hu : NoMarks d) {bl1 bl2 : BlockId} (h1 : d.Live bl1) (h2 : d.Live bl2) :
    ∃ common, blockFindCommonBlock d bl1 bl2 = .ok (d, common) ∧ IsCommon d bl1 bl2 common := by
  obtain ⟨⟨d₁, common⟩, hr, hcommon, o1, o2, hm⟩ := hd.commonPass_spec hu h1 h2
  obtain ⟨d₂, hd₂, hm₂⟩ := hd.clearPass_spec hm h1
  obtain ⟨d₃, hd₃, hm₃⟩ := hd.clearPass_spec hm₂ h2
  obtain rfl : d₃ = d := by
    refine hm₃.eq fun x _ hx => ?_
    rcases through_cover (fun x => Iff.rfl) hx.1.1 with h | h
    · exact hx.1.2 h
    · exact hx.2 h
  refine ⟨common, ?_, hcommon⟩
  simp [blockFindCommonBlock, hr, hd₂, hd₃]

end DomForest

/-- The marks of a set, with a list of the blocks to clear. -/
structure Listed (d d' : Blocks) (M : BlockId → Prop) (markedSet : List BlockId) : Prop where
  marks : HasMarks d d' M
  mem : ∀ x, M x → x ∈ markedSet
  live : ∀ x ∈ markedSet, d.Live x

theorem Listed.congr {M' : BlockId → Prop} {markedSet : List BlockId} (h : Listed d d' M markedSet)
    (hM : ∀ b, M b ↔ M' b) : Listed d d' M' markedSet :=
  ⟨h.marks.congr fun b _ => hM b, fun x hx => h.mem x ((hM x).mpr hx), h.live⟩

theorem Listed.set {markedSet : List BlockId} (h : Listed d d' M markedSet) {b : BlockId} (hb : d.Live b) :
    ∃ d'', d'.modify b FlowBlock.setMark = .ok d'' ∧ Listed d d'' (fun x => M x ∨ x = b) (markedSet ++ [b]) := by
  obtain ⟨d'', hd'', hm⟩ := h.marks.set hb
  refine ⟨d'', hd'', hm, fun x hx => ?_, fun x hx => ?_⟩
  · rcases hx with hx | rfl
    · exact List.mem_append_left _ (h.mem x hx)
    · exact List.mem_append_right _ (List.mem_singleton_self x)
  · rcases List.mem_append.mp hx with hx | hx
    · exact h.live x hx
    · rwa [List.mem_singleton.mp hx]

/-- The last loop clears what is listed. -/
theorem Listed.clearAll {markedSet : List BlockId} (h : Listed d d' M markedSet) :
    markedSet.foldlM (fun d block => d.modify block FlowBlock.clearMark) d' = .ok d := by
  obtain ⟨d₁, hd₁, hm₁⟩ := foldlM_total (f := fun d block => d.modify block FlowBlock.clearMark)
    (fun before d₁ => HasMarks d d₁ fun x => M x ∧ x ∉ before) markedSet
    (fun before b after hl d₁ hm₁ => by
      obtain ⟨d₂, hd₂, hm₂⟩ := hm₁.clear (h.live b (by simp [hl]))
      refine ⟨d₂, hd₂, hm₂.congr fun x _ => ?_⟩
      rw [List.mem_append, List.mem_singleton]
      tauto)
    (h.marks.congr fun x _ => by simp)
  rw [hd₁, hm₁.eq fun x _ hx => hx.2 (h.mem x hx.1)]

namespace DomForest

variable (hd : DomForest d)

include hd

theorem markUpPass_spec (hu : NoMarks d) {b : BlockId} (hb : d.Live b) :
    ∃ d₁ markedSet, loop markUpPass (d.nextId + 1) (d, [], some b) = .ok (d₁, markedSet) ∧
      Listed d d₁ (Up (domUp d) b) markedSet := by
  let Inv : Blocks × List BlockId × Option BlockId → Prop := fun s =>
    (∀ f, s.2.2 = some f → Up (domUp d) b f) ∧ Listed d s.1 (Below (domUp d) b s.2.2) s.2.1
  have hloop := loop_total Inv (fun r => Listed d r.1 (Up (domUp d) b) r.2) (fun s => placeHeight d s.2.2) (f := markUpPass)
    (fun s hs => by
      obtain ⟨d', markedSet, o⟩ := s
      obtain ⟨hup, hl⟩ := hs
      simp only at hup hl
      cases o with
      | none => exact .inl ⟨(d', markedSet), rfl, hl.congr fun x => below_none⟩
      | some f =>
          have hf := hd.live_up hb (hup f rfl)
          obtain ⟨d'', hd'', hl''⟩ := hl.set hf
          refine .inr ⟨(d'', markedSet ++ [f], domUp d f), ?_, ⟨fun a ha => (hup f rfl).tail ha, ?_⟩, hd.placeHeight_lt hf⟩
          · simp [markUpPass, hd'', hl''.marks.get_eq hf, hl''.marks.immedDom hf]
          · exact hl''.congr fun x => (below_step hd.acyclic (hup f rfl)).symm)
    (k := d.nextId + 1) (s := (d, [], some b))
    ⟨fun f hf => by obtain rfl := Option.some_inj.mp hf; exact .refl,
      (HasMarks.none hu).congr fun x _ => by simp [not_below_self], fun x hx => absurd hx not_below_self, by simp⟩
    (Nat.lt_succ_of_le (placeHeight_le (some b)))
  obtain ⟨⟨d₁, markedSet⟩, hr, hl⟩ := hloop
  exact ⟨d₁, markedSet, hr, hl⟩

/-- The climb from another block marks its chain up to the first mark, when a mark is
above it at all. -/
theorem markToMarkPass_spec {markedSet : List BlockId} (hl : Listed d d' M markedSet)
    (hclosed : ∀ x y, M x → Up (domUp d) x y → M y) {b r : BlockId} (hb : d.Live b) (hbr : Up (domUp d) b r) (hr : M r) :
    ∃ d₁ markedSet₁ c, loop markToMarkPass (d'.nextId + 1) (d', markedSet, b) = .ok (d₁, markedSet₁, c) ∧
      IsFirst (domUp d) M b c ∧ Listed d d₁ (fun x => M x ∨ Up (domUp d) b x) markedSet₁ := by
  let Inv : Blocks × List BlockId × BlockId → Prop := fun s =>
    Up (domUp d) b s.2.2 ∧ (∀ x, Below (domUp d) b (some s.2.2) x → ¬ M x) ∧
      Listed d s.1 (fun x => M x ∨ Below (domUp d) b (some s.2.2) x) s.2.1
  have hloop := loop_total Inv
    (fun t => IsFirst (domUp d) M b t.2.2 ∧ Listed d t.1 (fun x => M x ∨ Up (domUp d) b x) t.2.1)
    (fun s => placeHeight d (some s.2.2)) (f := markToMarkPass)
    (fun s hs => by
      obtain ⟨d₁, marked, f⟩ := s
      obtain ⟨hbf, hbelow, hl₁⟩ := hs
      simp only at hbf hbelow hl₁
      have hf := hd.live_up hb hbf
      have hiff : (blk d₁ f).isMark = true ↔ M f := by
        rw [hl₁.marks.isMark_iff hf]
        exact or_iff_left not_below_self_at
      have hup : ∀ x, Up (domUp d) b x → ¬ Up (domUp d) f x → Below (domUp d) b (some f) x :=
        fun x hbx hnot => ⟨hbx, fun f' hf' => Option.some_inj.mp hf' ▸ hnot⟩
      by_cases hmark : M f
      · refine .inl ⟨(d₁, marked, f), by simp [markToMarkPass, hl₁.marks.get_eq hf, hiff.mpr hmark], ?_, ?_⟩
        · refine ⟨hbf, hmark, fun y hby hy => ?_⟩
          by_contra hnot
          exact hbelow y (hup y hby hnot) hy
        · refine hl₁.congr fun x => ⟨Or.imp_right And.left, ?_⟩
          rintro (hx | hx)
          · exact .inl hx
          · by_cases hfx : Up (domUp d) f x
            · exact .inl (hclosed f x hmark hfx)
            · exact .inr (hup x hx hfx)
      · have hnot : (blk d₁ f).isMark = false := by
          rw [← Bool.not_eq_true, hiff]
          exact hmark
        obtain ⟨d₂, hd₂, hl₂⟩ := hl₁.set hf
        -- the mark at `r` is still ahead, so the block has a parent
        have hfr : Up (domUp d) f r := by
          by_contra hnotr
          exact hbelow r (hup r hbr hnotr) hr
        obtain rfl | ⟨a, ha, -⟩ := hfr.eq_or
        · exact absurd hr hmark
        · have hlt := hd.placeHeight_lt hf
          rw [ha] at hlt
          refine .inr ⟨(d₂, marked ++ [f], a), ?_, ⟨hbf.tail ha, fun x hx => ?_, hl₂.congr fun x => ?_⟩, hlt⟩
          · simp [markToMarkPass, hl₁.marks.get_eq hf, hnot, hd₂, hl₂.marks.get_eq hf, hl₂.marks.immedDom hf, ha]
          · rw [← ha] at hx
            rcases (below_step hd.acyclic hbf).mp hx with hx | rfl
            · exact hbelow x hx
            · exact hmark
          · rw [← ha, below_step hd.acyclic hbf, or_assoc])
    (k := d'.nextId + 1) (s := (d', markedSet, b))
    ⟨.refl, fun x hx => absurd hx not_below_self, hl.congr fun x => by simp [not_below_self]⟩
    (by
      have := placeHeight_le (d := d) (some b)
      rw [hl.marks.nextId]
      exact Nat.lt_succ_of_le this)
  obtain ⟨⟨d₁, marked, c⟩, hres, hfirst, hl₁⟩ := hloop
  exact ⟨d₁, marked, c, hres, hfirst, hl₁⟩

end DomForest

/-- The state of the loop over the set: the nearest common ancestor so far, and the
marks on the chains of all blocks so far, if the root has not been found yet. -/
structure SetInv (d : Blocks) (before : List BlockId) (s : Blocks × List BlockId × BlockId × Int) : Prop where
  live : d.Live s.2.2.1
  meet : IsMeet (domUp d) (· ∈ before) s.2.2.1
  index : s.2.2.2 = (blk d s.2.2.1).index
  listed : ∃ M, Listed d s.1 M s.2.1 ∧ (s.2.2.2 ≠ 0 → ∀ x, M x ↔ ∃ p ∈ before, Up (domUp d) p x)

namespace DominatorTree

variable {r : BlockId} (ht : DominatorTree d r)

include ht

theorem index_up {b x : BlockId} (h : Up (domUp d) b x) : b = x ∨ (blk d x).index < (blk d b).index := by
  induction h with
  | refl => exact .inl rfl
  | tail _ hstep ih =>
      have hlt := ht.index_lt _ _ hstep
      rcases ih with rfl | ih
      · exact .inr hlt
      · exact .inr (hlt.trans ih)

/-- The root is above every block. -/
theorem up_root {b : BlockId} (hb : d.Live b) : Up (domUp d) b r := by
  generalize hn : height (allBlocks d) (domUp d) b = n
  induction n using Nat.strong_induction_on generalizing b with
  | _ n ih =>
      cases ha : domUp d b with
      | none =>
          rw [(ht.root b hb).mp ha]
          exact .refl
      | some a =>
          refine .cons ha (ih _ ?_ (ht.closed b a hb ha) rfl)
          rw [← hn]
          exact height_lt ht.acyclic (mem_allBlocks hb) ha

theorem setMember_spec {before : List BlockId} {s : Blocks × List BlockId × BlockId × Int} (hs : SetInv d before s)
    (hne : before ≠ []) {member : BlockId} (hlive : d.Live member) :
    ∃ s', setMember s member = .ok s' ∧ SetInv d (before ++ [member]) s' := by
  obtain ⟨d', markedSet, res, bestIndex⟩ := s
  obtain ⟨hres, hmeet, hindex, M, hl, hM⟩ := hs
  simp only at hres hmeet hindex hl hM
  have hcongr : ∀ q, (q ∈ before ∨ q = member) ↔ q ∈ before ++ [member] := by
    intro q
    rw [List.mem_append, List.mem_singleton]
  by_cases hzero : bestIndex = 0
  · -- only the root has the index 0, and it is above the other blocks as well
    have hroot : res = r := by
      rcases ht.index_up (ht.up_root hres) with heq | hlt
      · exact heq
      · have := ht.index_root
        omega
    refine ⟨_, by rw [setMember]; exact if_pos hzero, hres, ?_, hindex, M, hl, fun h => absurd hzero h⟩
    refine ⟨fun p hp => ?_, fun w hw => hmeet.nearest w fun p hp => hw p (List.mem_append_left _ hp)⟩
    rcases (hcongr p).mpr hp with hp | rfl
    · exact hmeet.above p hp
    · simp only [hroot]
      exact ht.up_root hlive
  · have hM := hM hzero
    obtain ⟨p₀, hp₀⟩ := List.exists_mem_of_ne_nil before hne
    have hMr : M r := (hM r).mpr ⟨p₀, hp₀, (hmeet.above p₀ hp₀).trans (ht.up_root hres)⟩
    have hclosed : ∀ x y, M x → Up (domUp d) x y → M y := by
      intro x y hx hxy
      obtain ⟨p, hp, hpx⟩ := (hM x).mp hx
      exact (hM y).mpr ⟨p, hp, hpx.trans hxy⟩
    obtain ⟨d₁, markedSet₁, c, hloop, hfirst, hl₁⟩ :=
      ht.toDomForest.markToMarkPass_spec hl hclosed hlive (ht.up_root hlive) hMr
    have hc := ht.toDomForest.live_up hlive hfirst.above
    have hfirst' : IsFirst (domUp d) (fun y => ∃ p, p ∈ before ∧ Up (domUp d) p y) member c :=
      ⟨hfirst.above, (hM c).mp hfirst.mem, fun y hy hmem => hfirst.first y hy ((hM y).mpr hmem)⟩
    have hlisted : ∃ M', Listed d d₁ M' markedSet₁ ∧ ∀ x, M' x ↔ ∃ p ∈ before ++ [member], Up (domUp d) p x := by
      refine ⟨_, hl₁, fun x => ?_⟩
      rw [hM x]
      simp only [← hcongr, or_and_right, exists_or, exists_eq_left]
    obtain ⟨M', hl', hM'⟩ := hlisted
    have hstep : setMember (d', markedSet, res, bestIndex) member = .ok
        (if (blk d c).index < bestIndex then (d₁, markedSet₁, c, (blk d c).index) else (d₁, markedSet₁, res, bestIndex)) := by
      simp only [setMember, if_neg hzero, hloop, ok_bind, hl₁.marks.get_eq hc, hl₁.marks.index hc]
      split <;> rfl
    rw [hstep, hindex]
    rcases hmeet.insert hfirst' with ⟨hup, hnew⟩ | ⟨hup, hnew⟩
    · have hnot : ¬ (blk d c).index < (blk d res).index := by
        rcases ht.index_up hup with heq | hlt
        · rw [heq]
          exact lt_irrefl _
        · omega
      rw [if_neg hnot]
      exact ⟨_, rfl, hres, hnew.congr hcongr, rfl, M', hl', fun _ => hM'⟩
    · rcases ht.index_up hup with heq | hlt
      · subst heq
        rw [if_neg (lt_irrefl _)]
        exact ⟨_, rfl, hres, hnew.congr hcongr, rfl, M', hl', fun _ => hM'⟩
      · rw [if_pos hlt]
        exact ⟨_, rfl, hc, hnew.congr hcongr, rfl, M', hl', fun _ => hM'⟩

/-- The nearest common dominator of a set of blocks. -/
theorem findCommonBlockSet_spec (hu : NoMarks d) {blockSet : List BlockId} (hne : blockSet ≠ [])
    (hlive : ∀ b ∈ blockSet, d.Live b) :
    ∃ c, blockFindCommonBlockSet d blockSet = .ok (d, some c) ∧ IsMeet (domUp d) (· ∈ blockSet) c := by
  obtain ⟨b, rest, rfl⟩ := List.exists_cons_of_ne_nil hne
  have hb := hlive b List.mem_cons_self
  obtain ⟨d₁, marked, hloop, hl⟩ := ht.toDomForest.markUpPass_spec hu hb
  have hinit : SetInv d [b] (d₁, marked, b, (blk d b).index) := by
    refine ⟨hb, ⟨fun p hp => ?_, fun w hw => hw b (List.mem_singleton_self b)⟩, rfl, _, hl, fun _ x => ?_⟩
    · rw [List.mem_singleton.mp hp]
      exact .refl
    · simp
  obtain ⟨⟨d₂, marked₂, res, best⟩, hfold, hinv⟩ := foldlM_total (f := setMember)
    (fun before s => SetInv d ([b] ++ before) s) rest
    (fun before m after hrest s hs => by
      have hm : d.Live m := hlive m (by simp [hrest])
      obtain ⟨s', hs', hinv'⟩ := ht.setMember_spec hs (by simp) hm
      exact ⟨s', hs', by rwa [← List.append_assoc]⟩)
    hinit
  obtain ⟨-, hmeet, -, M, hl₂, -⟩ := hinv
  refine ⟨res, ?_, by simpa using hmeet⟩
  simp [blockFindCommonBlockSet, getIdx, get_of_live hb, hloop, hfold, hl₂.clearAll]

end DominatorTree

end Climbs

/-- Indices that grow away from the roots leave no room for a cycle. -/
theorem forest_of_index_lt {d : Blocks} (h : ∀ b a, domUp d b = some a → (blk d a).index < (blk d b).index) :
    Forest (domUp d) := by
  have hle : ∀ {x y}, Up (domUp d) x y → (blk d y).index ≤ (blk d x).index := by
    intro x y hxy
    induction hxy with
    | refl => exact le_rfl
    | tail _ hstep ih => exact (h _ _ hstep).le.trans ih
  intro b a ha hup
  have := h b a ha
  have := hle hup
  omega

/-- The root 0 above 1 and 2, and 1 above 3 and 4. -/
def twoLevels : Blocks :=
  let node := fun (i : Int) (dom : Option BlockId) => some { FlowBlock.new .plain with index := i, immedDom := dom }
  ⟨[node 0 none, node 1 (some 0), node 2 (some 0), node 3 (some 1), node 4 (some 1)]⟩

theorem twoLevels_domUp {b a : BlockId} (h : domUp twoLevels b = some a) :
    (b = 1 ∧ a = 0) ∨ (b = 2 ∧ a = 0) ∨ (b = 3 ∧ a = 1) ∨ (b = 4 ∧ a = 1) := by
  rcases b with _ | _ | _ | _ | _ | n <;>
    simp_all [domUp, blk, Arena.get?, twoLevels, FlowBlock.new, eq_comm, show (default : FlowBlock).immedDom = none from rfl]

theorem twoLevels_live {b : BlockId} (h : twoLevels.Live b) : b < 5 := Arena.lt_of_live h

theorem twoLevels_tree : DominatorTree twoLevels 0 := by
  have hlt : ∀ b a, domUp twoLevels b = some a → (blk twoLevels a).index < (blk twoLevels b).index := by
    intro b a ha
    obtain ⟨rfl, rfl⟩ | ⟨rfl, rfl⟩ | ⟨rfl, rfl⟩ | ⟨rfl, rfl⟩ := twoLevels_domUp ha <;> decide
  refine { closed := fun b a _ ha => ?_, acyclic := forest_of_index_lt hlt, live_root := by decide,
           root := fun b hb => ?_, index_root := by decide, index_lt := hlt }
  · obtain ⟨-, rfl⟩ | ⟨-, rfl⟩ | ⟨-, rfl⟩ | ⟨-, rfl⟩ := twoLevels_domUp ha <;> decide
  · have := twoLevels_live hb
    interval_cases b <;> decide

theorem twoLevels_noMarks : NoMarks twoLevels := by
  intro b hb
  have := twoLevels_live hb
  interval_cases b <;> decide

end GhidraDecompiler.Block
