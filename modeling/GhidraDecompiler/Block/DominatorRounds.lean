import GhidraDecompiler.Block.Dominator
import Mathlib.Algebra.BigOperators.Group.List.Basic
import Mathlib.Algebra.Order.BigOperators.Group.List
import Mathlib.Algebra.Order.Group.Nat
import Mathlib.Algebra.GroupWithZero.Nat

namespace GhidraDecompiler.Block

open Fallible Flow

variable {d d' : Blocks} {list : List BlockId} {r top : BlockId} {o : Fingers}

/-- The two states differ at most in the immediate dominators of some blocks. -/
structure DomOnly (list : List BlockId) (d d' : Blocks) : Prop where
  nextId : d'.nextId = d.nextId
  same : ∀ b, (d'.get? b).map (setImmedDom none) = (d.get? b).map (setImmedDom none)
  outside : ∀ b, b ∉ list → d'.get? b = d.get? b

namespace DomOnly

theorem refl (list : List BlockId) (d : Blocks) : DomOnly list d d := ⟨rfl, fun _ => rfl, fun _ _ => rfl⟩

theorem trans {d₁ d₂ d₃ : Blocks} (h : DomOnly list d₁ d₂) (h' : DomOnly list d₂ d₃) : DomOnly list d₁ d₃ :=
  ⟨h'.nextId.trans h.nextId, fun b => (h'.same b).trans (h.same b), fun b hb => (h'.outside b hb).trans (h.outside b hb)⟩

theorem mono {list' : List BlockId} (h : DomOnly list d d') (hsub : list ⊆ list') : DomOnly list' d d' :=
  ⟨h.nextId, h.same, fun b hb => h.outside b fun hm => hb (hsub hm)⟩

theorem live (h : DomOnly list d d') (b : BlockId) : d'.Live b ↔ d.Live b := by
  have := congrArg Option.isSome (h.same b)
  simpa [Arena.Live] using this

theorem blk_eq (h : DomOnly list d d') (b : BlockId) : blk d' b = setImmedDom (blk d' b).immedDom (blk d b) := by
  have hs := h.same b
  cases hd : d.get? b with
  | none =>
      cases hd' : d'.get? b with
      | none => simp [blk, hd, hd', setImmedDom]
      | some v => simp [hd, hd'] at hs
  | some w =>
      cases hd' : d'.get? b with
      | none => simp [hd, hd'] at hs
      | some v =>
          simp only [hd, hd', Option.map_some, Option.some_inj] at hs
          have := congrArg (setImmedDom v.immedDom) hs
          simp only [blk, hd, hd', Option.getD_some]
          exact this

theorem edges (h : DomOnly list d d') (b : BlockId) (dir : Dir) : (blk d' b).edges dir = (blk d b).edges dir := by
  rw [h.blk_eq b]
  cases dir <;> rfl

theorem points (h : DomOnly list d d') (dir : Dir) (b : BlockId) : points d' dir b = points d dir b := by
  simp only [Block.points, h.edges]

theorem index (h : DomOnly list d d') (b : BlockId) : (blk d' b).index = (blk d b).index := by
  rw [h.blk_eq b]
  rfl

theorem list_eq (h : DomOnly list d d') (b : BlockId) : (blk d' b).list = (blk d b).list := by
  rw [h.blk_eq b]
  rfl

theorem update {b : BlockId} (hb : b ∈ list) (d : Blocks) (dom : Option BlockId) :
    DomOnly list d (d.update b (setImmedDom dom)) := by
  refine ⟨Arena.nextId_update .., fun c => ?_, fun c hc => ?_⟩
  · rw [Arena.get?_update]
    split
    next heq => subst heq; cases d.get? c <;> rfl
    next => rfl
  · rw [Arena.get?_update, if_neg fun heq : c = b => hc (heq ▸ hb)]

theorem placed (h : DomOnly (top :: list) d d') (hp : Placed d list r top o) : Placed d' list r top o :=
  ⟨hp.head, hp.nodup, fun b hb => (h.live b).mpr (hp.live b hb), fun i b hb => (h.index b).trans (hp.index i b hb),
    (h.live top).mpr hp.top_live, (h.index top).trans hp.top_index, hp.top_eq, hp.numnodes, hp.postorder⟩

end DomOnly

/-- What visits do to a state: a block directly below `top` stays there, and no
block is put below a virtual root. -/
structure Moved (list : List BlockId) (top : BlockId) (d d' : Blocks) : Prop extends DomOnly list d d' where
  keep : ∀ b, (blk d b).immedDom = some top → (blk d' b).immedDom = some top
  new : top ∉ list → ∀ b, (blk d' b).immedDom = some top → (blk d b).immedDom = some top

namespace Moved

theorem refl (list : List BlockId) (top : BlockId) (d : Blocks) : Moved list top d d :=
  ⟨.refl list d, fun _ h => h, fun _ _ h => h⟩

theorem trans {d₁ d₂ d₃ : Blocks} (h : Moved list top d₁ d₂) (h' : Moved list top d₂ d₃) : Moved list top d₁ d₃ :=
  ⟨h.toDomOnly.trans h'.toDomOnly, fun b hb => h'.keep b (h.keep b hb), fun ht b hb => h.new ht b (h'.new ht b hb)⟩

end Moved

/-- The invariant of the rounds: a tree that the sweep over the edges `E` has
built so far. A block that is directly below the root is not visited again,
and for every other one `E` holds its in edges. -/
structure Growing (E : BlockId → BlockId → Prop) (list : List BlockId) (r top : BlockId) (o : Fingers) (i : ℕ)
    (d : Blocks) : Prop where
  placed : Placed d list r top o
  ordered : Ordered E r (· ∈ list) list.idxOf
  sweep : Sweep E r (· ∈ list) list.idxOf i (domParent d list r top)
  root : (blk d r).immedDom = some top
  preds : ∀ b ∈ list, b ≠ r → (blk d b).immedDom ≠ some top → ∀ a, E a b ↔ a ∈ points d .into b

namespace Growing

variable {E : BlockId → BlockId → Prop} {i : ℕ}

theorem climbable (h : Growing E list r top o i d) : Climbable list r (domParent d list r top) := by
  refine ⟨h.sweep.lt, fun b hb => ?_⟩
  rcases h.sweep.up_iff.mp hb with rfl | ⟨a, ha⟩
  · exact h.placed.root_mem
  · exact h.sweep.node b a ha

theorem isSome_iff (h : Growing E list r top o i d) {b : BlockId} (hb : b ∈ list) :
    (blk d b).immedDom.isSome ↔ Up (domParent d list r top) b r := by
  rw [h.sweep.up_iff]
  by_cases hbr : b = r
  · subst hbr
    simp [h.root]
  · rw [domParent, if_pos ⟨hb, hbr⟩, Option.isSome_iff_exists]
    simp only [hbr, false_or, Option.map_eq_some_iff]
    constructor
    · rintro ⟨a, ha⟩
      exact ⟨_, a, ha, rfl⟩
    · rintro ⟨_, a, ha, -⟩
      exact ⟨a, ha⟩

/-- The first loop over the in edges finds the first block in the tree. -/
theorem candidate_spec (h : Growing E list r top o i d) {edges : List BlockEdge} (hmem : ∀ e ∈ edges, e.point ∈ list)
    (hsome : ∃ e ∈ edges, Up (domParent d list r top) e.point r) (newIdom : Option BlockId) :
    ∃ before e after, edges = before ++ e :: after ∧ Fingers.candidate d edges newIdom = .ok (some e.point, after) ∧
      Up (domParent d list r top) e.point r ∧ ∀ x ∈ before, ¬ Up (domParent d list r top) x.point r := by
  induction edges generalizing newIdom with
  | nil => simp at hsome
  | cons e edges ih =>
      have hel := hmem e (by simp)
      by_cases hup : Up (domParent d list r top) e.point r
      · refine ⟨[], e, edges, rfl, ?_, hup, by simp⟩
        simp [Fingers.candidate, get_of_live (h.placed.live _ hel), (h.isSome_iff hel).mpr hup]
      · obtain ⟨x, hx, hxup⟩ := hsome
        have hx' : x ∈ edges := (List.mem_cons.mp hx).resolve_left fun heq => hup (heq ▸ hxup)
        obtain ⟨before, y, after, rfl, hrun, hy, hbefore⟩ :=
          ih (fun x hx => hmem x (by simp [hx])) ⟨x, hx', hxup⟩ (some e.point)
        have hnone : (blk d e.point).immedDom.isSome = false := by
          rw [← Bool.not_eq_true, h.isSome_iff hel]
          exact hup
        refine ⟨e :: before, y, after, rfl, ?_, hy, List.forall_mem_cons.mpr ⟨hup, hbefore⟩⟩
        simp [Fingers.candidate, get_of_live (h.placed.live _ hel), hnone, hrun]

/-- The second loop over the in edges: the candidate is at all times the
nearest common ancestor of the blocks seen so far that are in the tree. -/
theorem refine_spec (h : Growing E list r top o i d) (edges : List BlockEdge) (hmem : ∀ e ∈ edges, e.point ∈ list)
    {ps : BlockId → Prop} {z : BlockId} (hz : Up (domParent d list r top) z r)
    (hmeet : IsMeet (domParent d list r top) ps z) :
    ∃ z', edges.foldlM (o.refine d) (some z) = .ok (some z') ∧ Up (domParent d list r top) z' r ∧
      IsMeet (domParent d list r top)
        (fun p => ps p ∨ (∃ e ∈ edges, e.point = p) ∧ Up (domParent d list r top) p r) z' := by
  induction edges generalizing ps z with
  | nil => exact ⟨z, rfl, hz, by simpa using hmeet⟩
  | cons e edges ih =>
      have hel := hmem e (by simp)
      have hmem' : ∀ x ∈ edges, x.point ∈ list := fun x hx => hmem x (by simp [hx])
      by_cases hup : Up (domParent d list r top) e.point r
      · obtain ⟨z₁, hloop, hz₁⟩ := level_spec h.placed h.climbable hup hz
        have hz₁r : Up (domParent d list r top) z₁ r := hz₁.nearest r fun p hp => hp.elim (· ▸ hup) (· ▸ hz)
        have hstep : o.refine d (some z) e = .ok (some z₁) := by
          simp [Fingers.refine, get_of_live (h.placed.live _ hel), (h.isSome_iff hel).mpr hup, h.placed.ofBlock_eq hel,
            h.placed.ofBlock_eq (h.climbable.mem z hz), hloop, h.placed.getAt_finger (h.climbable.mem z₁ hz₁r)]
        have hmeet₁ : IsMeet (domParent d list r top) (fun p => ps p ∨ p = e.point) z₁ := by
          refine ⟨fun p hp => ?_, fun w hw => hz₁.nearest w fun p hp => ?_⟩
          · rcases hp with hp | rfl
            · exact (hmeet.above p hp).trans (hz₁.above z (.inr rfl))
            · exact hz₁.above _ (.inl rfl)
          · rcases hp with rfl | rfl
            · exact hw _ (.inr rfl)
            · exact hmeet.nearest w fun q hq => hw q (.inl hq)
        obtain ⟨z', hrun, hz', hm'⟩ := ih hmem' hz₁r hmeet₁
        refine ⟨z', by rw [List.foldlM_cons, hstep, ok_bind, hrun], hz', hm'.congr fun p => ?_⟩
        simp only [List.mem_cons, exists_eq_or_imp]
        constructor
        · rintro ((hp | rfl) | ⟨hp, hpr⟩)
          · exact .inl hp
          · exact .inr ⟨.inl rfl, hup⟩
          · exact .inr ⟨.inr hp, hpr⟩
        · rintro (hp | ⟨rfl | hp, hpr⟩)
          · exact .inl (.inl hp)
          · exact .inl (.inr rfl)
          · exact .inr ⟨hp, hpr⟩
      · have hnone : (blk d e.point).immedDom.isSome = false := by
          rw [← Bool.not_eq_true, h.isSome_iff hel]
          exact hup
        have hstep : o.refine d (some z) e = .ok (some z) := by
          simp [Fingers.refine, get_of_live (h.placed.live _ hel), hnone]
        obtain ⟨z', hrun, hz', hm'⟩ := ih hmem' hz hmeet
        refine ⟨z', by rw [List.foldlM_cons, hstep, ok_bind, hrun], hz', hm'.congr fun p => ?_⟩
        simp only [List.mem_cons, exists_eq_or_imp]
        refine or_congr_right (and_congr_left fun hpr => ⟨.inr, fun hp => hp.resolve_left ?_⟩)
        rintro rfl
        exact hup hpr

/-- The sum of the indices of the parents; a block outside of the tree counts
as if it were below the last block. -/
def weight (d : Blocks) (list : List BlockId) (r top : BlockId) : ℕ :=
  (list.map fun b => ((domParent d list r top b).map list.idxOf).getD list.length).sum

theorem weight_lt {c z : BlockId} (hc : c ∈ list)
    (hpar : domParent d' list r top = Function.update (domParent d list r top) c (some z))
    (hlt : list.idxOf z < ((domParent d list r top c).map list.idxOf).getD list.length) :
    weight d' list r top < weight d list r top := by
  refine List.sum_lt_sum _ _ (fun b _ => ?_) ⟨c, hc, by simpa [hpar] using hlt⟩
  by_cases hbc : b = c
  · subst hbc
    simpa [hpar] using hlt.le
  · rw [hpar, Function.update_of_ne hbc]

theorem domParent_update {c z : BlockId} (hp : Placed d list r top o) (hc : c ∈ list) (hcr : c ≠ r) (hz : z ∈ list) :
    domParent (d.update c (setImmedDom (some z))) list r top =
      Function.update (domParent d list r top) c (some z) := by
  ext1 b
  by_cases hbc : b = c
  · subst hbc
    rw [Function.update_self, domParent, if_pos ⟨hc, hcr⟩, blk_update_self (hp.live b hc)]
    simp only [setImmedDom, Option.map_some, Option.some_inj]
    split
    next heq => exact (hp.top_eq.resolve_right fun hn => hn (heq ▸ hz)) ▸ heq.symm
    next => rfl
  · rw [Function.update_of_ne hbc, domParent, domParent, blk_update_ne hbc]

/-- One visit: either it changes nothing, and the block has the place that its
predecessors give it, or the block moves up. -/
theorem visit_spec (changed : Bool) (newIdom : Option BlockId) {c : BlockId} (hc : c ∈ list) (hcr : c ≠ r)
    (h : Growing E list r top o (list.idxOf c) d) :
    ∃ d' changed' newIdom', o.visit top (d, changed, newIdom) c = .ok (d', changed', newIdom') ∧
      Growing E list r top o (list.idxOf c + 1) d' ∧ Moved list top d d' ∧
      (d' = d ∧ changed' = changed ∧
          (∃ a, domParent d list r top c = some a ∧
            IsMeet (domParent d list r top) (fun p => E p c ∧ Up (domParent d list r top) p r) a) ∨
        changed' = true ∧ weight d' list r top < weight d list r top) := by
  have hlive := h.placed.live c hc
  by_cases hskip : (blk d c).immedDom = some top
  · have hpar : domParent d list r top c = some r := by
      rw [domParent, if_pos ⟨hc, hcr⟩, hskip, Option.map_some, if_pos rfl]
    refine ⟨d, changed, newIdom, by simp [Fingers.visit, get_of_live hlive, hskip],
      ⟨h.placed, h.ordered, h.sweep.skip h.ordered hc hpar, h.root, h.preds⟩, .refl list top d,
      .inl ⟨rfl, rfl, r, hpar, h.sweep.isMeet_root hpar⟩⟩
  · have hpreds := h.preds c hc hcr hskip
    have hmem' : ∀ e ∈ (blk d c).intothis, e.point ∈ list := by
      intro e he
      have hep : e.point ∈ points d .into c := List.mem_map_of_mem he
      exact (h.ordered.closed _ _ ((hpreds _).mpr hep)).1
    obtain ⟨p, hpc, hlt⟩ := h.ordered.forward c hc hcr
    have hpup := h.sweep.done p (h.ordered.closed p c hpc).1 hlt
    obtain ⟨e, he, rfl⟩ := List.mem_map.mp ((hpreds p).mp hpc)
    obtain ⟨before, x, after, hsplit, hrun₁, hx, hbefore⟩ := h.candidate_spec hmem' ⟨e, he, hpup⟩ newIdom
    have hmeet₀ : IsMeet (domParent d list r top) (fun p => p = x.point) x.point :=
      ⟨fun p hp => hp ▸ .refl, fun w hw => hw _ rfl⟩
    obtain ⟨z, hrun₂, hz, hmeet⟩ := h.refine_spec after
      (fun y hy => hmem' y (by simp [hsplit, hy])) hx hmeet₀
    have hmeet' : IsMeet (domParent d list r top) (fun p => E p c ∧ Up (domParent d list r top) p r) z := by
      refine hmeet.congr fun p => ?_
      rw [hpreds p]
      simp only [points, FlowBlock.edges, List.mem_map, hsplit, List.mem_append, List.mem_cons]
      constructor
      · rintro (rfl | ⟨⟨y, hy, rfl⟩, hp⟩)
        · exact ⟨⟨x, .inr (.inl rfl), rfl⟩, hx⟩
        · exact ⟨⟨y, .inr (.inr hy), rfl⟩, hp⟩
      · rintro ⟨⟨y, hy | rfl | hy, rfl⟩, hp⟩
        · exact absurd hp (hbefore y hy)
        · exact .inl rfl
        · exact .inr ⟨⟨y, hy, rfl⟩, hp⟩
    have hv : Visit E r (· ∈ list) list.idxOf (domParent d list r top) c z :=
      ⟨h.ordered, h.sweep, hc, hcr, hmeet'⟩
    have hzl := h.climbable.mem z hz
    by_cases hsame : (blk d c).immedDom = some z
    · have hzt : z ≠ top := by
        rintro rfl
        exact hskip hsame
      have hpar : domParent d list r top c = some z := by
        rw [domParent, if_pos ⟨hc, hcr⟩, hsame, Option.map_some, if_neg hzt]
      refine ⟨d, changed, some z, by simp [Fingers.visit, get_of_live hlive, hrun₁, hrun₂, hsame, hzt],
        ⟨h.placed, h.ordered, ?_, h.root, h.preds⟩, .refl list top d, .inl ⟨rfl, rfl, z, hpar, hmeet'⟩⟩
      have hnext := hv.next
      rwa [← hpar, Function.update_eq_self] at hnext
    · have hpar := domParent_update h.placed hc hcr hzl
      have honly : DomOnly list d (d.update c (setImmedDom (some z))) := .update hc d _
      have hmoved : Moved list top d (d.update c (setImmedDom (some z))) := by
        refine ⟨honly, fun b hb => ?_, fun ht b hb => ?_⟩
        · rwa [blk_update_ne (by rintro rfl; exact hskip hb)]
        · by_cases hbc : b = c
          · subst hbc
            rw [blk_update_self hlive, setImmedDom, Option.some_inj] at hb
            exact absurd (hb ▸ hzl) ht
          · rwa [blk_update_ne hbc] at hb
      refine ⟨_, true, some z, ?_, ⟨(honly.mono (List.subset_cons_self _ _)).placed h.placed, h.ordered,
        hpar ▸ hv.next, ?_, ?_⟩, hmoved, .inr ⟨rfl, weight_lt hc hpar ?_⟩⟩
      · simp [Fingers.visit, get_of_live hlive, hskip, hrun₁, hrun₂, hsame, Arena.modify_eq _ hlive]
      · rw [blk_update_ne (Ne.symm hcr)]
        exact h.root
      · intro b hb hbr hbt a
        rw [honly.points]
        by_cases hbc : b = c
        · exact hbc ▸ hpreds a
        · rw [blk_update_ne hbc] at hbt
          exact h.preds b hb hbr hbt a
      · cases hold : domParent d list r top c with
        | none => exact List.idxOf_lt_length_of_mem hzl
        | some y =>
            have hup := hv.up_meet hold
            rw [Option.map_some, Option.getD_some]
            refine lt_of_le_of_ne (hup.idx_le h.sweep.lt) fun heq => ?_
            obtain rfl := (List.idxOf_inj hzl).mp heq
            rw [domParent, if_pos ⟨hc, hcr⟩, Option.map_eq_some_iff] at hold
            obtain ⟨dom, hdom, hdz⟩ := hold
            rw [if_neg (by rintro rfl; exact hskip hdom)] at hdz
            exact hsame (hdz ▸ hdom)

/-- What a round that has changed nothing so far knows of the visited blocks. -/
def Settled (E : BlockId → BlockId → Prop) (list : List BlockId) (r top : BlockId) (d : Blocks) (b : BlockId) : Prop :=
  ∃ a, domParent d list r top b = some a ∧
    IsMeet (domParent d list r top) (fun p => E p b ∧ Up (domParent d list r top) p r) a

/-- The visits of a round, in the order of the list. -/
theorem visits_spec {l : List BlockId} (hlist : list = r :: l) {d₀ : Blocks} (h : Growing E list r top o 1 d₀)
    (newIdom : Option BlockId) :
    ∃ d changed newIdom', l.foldlM (o.visit top) (d₀, false, newIdom) = .ok (d, changed, newIdom') ∧
      Growing E list r top o list.length d ∧ Moved list top d₀ d ∧
      (changed = false ∧ d = d₀ ∧ (∀ b ∈ l, Settled E list r top d b) ∨
        changed = true ∧ weight d list r top < weight d₀ list r top) := by
  have hnd := h.placed.nodup
  have hidx {before after : List BlockId} {c : BlockId} (hl : l = before ++ c :: after) :
      list.idxOf c = before.length + 1 := by
    have hget : list[before.length + 1]? = some c := by simp [hlist, hl]
    obtain ⟨hlt, hget⟩ := List.getElem?_eq_some_iff.mp hget
    rw [← hget, hnd.idxOf_getElem]
  obtain ⟨⟨d, changed, n⟩, hrun, hinv⟩ := foldlM_total (f := o.visit top)
    (fun before s => Growing E list r top o (before.length + 1) s.1 ∧ Moved list top d₀ s.1 ∧
      (s.2.1 = false ∧ s.1 = d₀ ∧ (∀ b ∈ before, Settled E list r top s.1 b) ∨
        s.2.1 = true ∧ weight s.1 list r top < weight d₀ list r top)) l
    (fun before c after hl s hs => by
      obtain ⟨d, changed, n⟩ := s
      obtain ⟨hg, honly, hcase⟩ := hs
      have hc : c ∈ list := by simp [hlist, hl]
      have hcr : c ≠ r := by
        rintro rfl
        rw [hlist, List.nodup_cons] at hnd
        exact hnd.1 (by simp [hl])
      have hi := hidx hl
      obtain ⟨d', changed', n', hrun, hg', honly', hcase'⟩ := visit_spec changed n hc hcr (hi ▸ hg)
      refine ⟨_, hrun, by simpa [hi] using hg', honly.trans honly', ?_⟩
      rcases hcase' with ⟨rfl, rfl, hset⟩ | ⟨rfl, hlt⟩
      · refine hcase.imp_left fun ⟨hch, hd, hall⟩ => ⟨hch, hd, fun b hb => ?_⟩
        rcases List.mem_append.mp hb with hb | hb
        · exact hall b hb
        · exact List.mem_singleton.mp hb ▸ hset
      · refine .inr ⟨rfl, ?_⟩
        rcases hcase with ⟨-, rfl, -⟩ | ⟨-, hlt'⟩
        · exact hlt
        · exact hlt.trans hlt')
    (s := (d₀, false, newIdom)) ⟨h, .refl list top d₀, .inl ⟨rfl, rfl, by simp⟩⟩
  refine ⟨d, changed, n, hrun, ?_, hinv.2⟩
  rw [hlist, List.length_cons]
  exact hlist ▸ hinv.1

theorem weight_le (h : Growing E list r top o i d) : weight d list r top ≤ list.length * list.length := by
  have hle : ∀ x ∈ list.map (fun b => ((domParent d list r top b).map list.idxOf).getD list.length), x ≤ list.length := by
    intro x hx
    obtain ⟨b, -, rfl⟩ := List.mem_map.mp hx
    cases hb : domParent d list r top b with
    | none => rfl
    | some a => exact List.idxOf_le_length
  simpa [weight] using List.sum_le_card_nsmul _ _ hle

/-- One round of the outer loop. In the presence of a virtual root it begins
with the first block, which is passed over. -/
theorem round_spec {l : List BlockId} (hlist : list = r :: l)
    (hpost : o.postorder.dropLast.reverse = l ∨ o.postorder.dropLast.reverse = r :: l) {d₀ : Blocks}
    (h : Growing E list r top o 1 d₀) (newIdom : Option BlockId) :
    ∃ d, Moved list top d₀ d ∧ Growing E list r top o list.length d ∧
      (o.round top (d₀, newIdom) = .ok (.leave d) ∧ (∀ b ∈ l, Settled E list r top d b) ∨
        ∃ newIdom', o.round top (d₀, newIdom) = .ok (.again (d, newIdom')) ∧
          weight d list r top < weight d₀ list r top) := by
  obtain ⟨d, changed, n, hrun, hg, honly, hcase⟩ := visits_spec hlist h newIdom
  have hrun' : o.postorder.dropLast.reverse.foldlM (o.visit top) (d₀, false, newIdom) = .ok (d, changed, n) := by
    rcases hpost with hpost | hpost
    · rw [hpost, hrun]
    · have hfirst : o.visit top (d₀, false, newIdom) r = .ok (d₀, false, newIdom) := by
        simp [Fingers.visit, get_of_live (h.placed.live r h.placed.root_mem), h.root]
      rw [hpost, List.foldlM_cons, hfirst, ok_bind, hrun]
  refine ⟨d, honly, hg, ?_⟩
  rcases hcase with ⟨rfl, -, hset⟩ | ⟨rfl, hlt⟩
  · exact .inl ⟨by simp [Fingers.round, hrun'], hset⟩
  · exact .inr ⟨n, by simp [Fingers.round, hrun'], hlt⟩

theorem restart (h : Growing E list r top o list.length d) (j : ℕ) (hj : j ≤ list.length) : Growing E list r top o j d :=
  ⟨h.placed, h.ordered, h.sweep.restart (fun _ hb => List.idxOf_lt_length_of_mem hb) hj, h.root, h.preds⟩

/-- The run lemma: the rounds come to an end, with the immediate dominators in
the graph of the edges `E`. -/
theorem rounds_spec {l : List BlockId} (hlist : list = r :: l)
    (hpost : o.postorder.dropLast.reverse = l ∨ o.postorder.dropLast.reverse = r :: l) {d₀ : Blocks}
    (h : Growing E list r top o 1 d₀) :
    ∃ d, loop (o.round top) (list.length * (list.length + 1) + 2) (d₀, none) = .ok d ∧ Moved list top d₀ d ∧
      (blk d r).immedDom = some top ∧
      ∀ b ∈ l, ∃ a, domParent d list r top b = some a ∧ IsIdom E r a b := by
  obtain ⟨d, hrun, honly, hg, hset⟩ := loop_total (f := o.round top)
    (fun s => Growing E list r top o 1 s.1 ∧ Moved list top d₀ s.1)
    (fun d => Moved list top d₀ d ∧ Growing E list r top o list.length d ∧ ∀ b ∈ l, Settled E list r top d b)
    (fun s => weight s.1 list r top)
    (fun s hs => by
      obtain ⟨d, honly, hg, hcase⟩ := round_spec hlist hpost hs.1 s.2
      rcases hcase with ⟨hrun, hset⟩ | ⟨n, hrun, hlt⟩
      · exact .inl ⟨d, hrun, hs.2.trans honly, hg, hset⟩
      · exact .inr ⟨_, hrun, ⟨hg.restart 1 (by simp [hlist]), hs.2.trans honly⟩, hlt⟩)
    (s := (d₀, none)) (k := list.length * (list.length + 1) + 2) ⟨h, .refl list top d₀⟩ (by
      have := h.weight_le
      show weight d₀ list r top < _
      rw [Nat.mul_succ]
      omega)
  refine ⟨d, hrun, honly, hg.root, fun b hb => ?_⟩
  obtain ⟨a, ha, -⟩ := hset b hb
  refine ⟨a, ha, hg.sweep.isIdom hg.ordered (fun _ hb => List.idxOf_lt_length_of_mem hb) (fun b hb hbr => ?_) ha⟩
  exact hset b ((List.mem_cons.mp (hlist ▸ hb)).resolve_left hbr)

end Growing

end GhidraDecompiler.Block
