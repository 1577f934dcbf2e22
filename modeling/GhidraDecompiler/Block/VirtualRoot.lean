import GhidraDecompiler.Block.DominatorRounds

namespace GhidraDecompiler.Block

open Fallible Flow

variable {d s : Blocks} {vr root : BlockId} {roots : List BlockId}

/-- A block with its immediate dominator left out. -/
abbrev bare (d : Blocks) (b : BlockId) : FlowBlock := setImmedDom none (blk d b)

/-- The state `d` with a virtual root above some blocks, up to the immediate
dominators. -/
structure WithRoot (d : Blocks) (vr : BlockId) (roots : List BlockId) (s : Blocks) : Prop where
  fresh : vr = d.nextId
  live : ∀ b, s.Live b ↔ d.Live b ∨ b = vr
  roots_live : ∀ b ∈ roots, d.Live b
  root : bare s vr =
    { FlowBlock.new .plain with outofthis := roots.map fun b => ⟨0#32, b, (blk d b).intothis.length⟩ }
  entered : ∀ b ∈ roots, ∃ k, bare s b = (bare d b).setEdges .into ((blk d b).intothis ++ [⟨0#32, vr, k⟩])
  same : ∀ b, b ≠ vr → b ∉ roots → bare s b = bare d b

theorem setImmedDom_setEdges (dom : Option BlockId) (b : FlowBlock) (dir : Dir) (l : List BlockEdge) :
    setImmedDom dom (b.setEdges dir l) = (setImmedDom dom b).setEdges dir l := by
  cases dir <;> rfl

theorem edges_bare (s : Blocks) (b : BlockId) (dir : Dir) : (bare s b).edges dir = (blk s b).edges dir := by
  cases dir <;> rfl

theorem immedDom_setEdges (b : FlowBlock) (dir : Dir) (l : List BlockEdge) :
    (b.setEdges dir l).immedDom = b.immedDom := by
  cases dir <;> rfl

/-- A half edge in the last slot is deleted without moving another one. -/
theorem blockHalfDeleteEdge_last {dir : Dir} {bl : BlockId} {slot : Nat} (hl : s.Live bl)
    (hslot : ((blk s bl).edges dir).length = slot + 1) :
    blockHalfDeleteEdge dir s bl slot = .ok (s.update bl fun b => b.setEdges dir (b.edges dir).dropLast) := by
  simp [blockHalfDeleteEdge, get_of_live hl, hslot, Arena.modify_eq _ hl]

/-- The effect of an assignment to one edge list of a block. -/
theorem bare_update_setEdges {b : BlockId} (hb : s.Live b) (dir : Dir) (f : FlowBlock → List BlockEdge) (c : BlockId) :
    bare (s.update b fun x => x.setEdges dir (f x)) c =
      if c = b then (bare s b).setEdges dir (f (blk s b)) else bare s c := by
  by_cases hc : c = b
  · subst hc
    rw [bare, blk_update_self hb, setImmedDom_setEdges, if_pos rfl]
  · rw [bare, blk_update_ne hc, if_neg hc]

theorem immedDom_update_setEdges {b : BlockId} (hb : s.Live b) (dir : Dir) (f : FlowBlock → List BlockEdge)
    (c : BlockId) : (blk (s.update b fun x => x.setEdges dir (f x)) c).immedDom = (blk s c).immedDom := by
  rw [blk_update hb]
  split
  next hc => rw [immedDom_setEdges, hc]
  next => rfl

namespace WithRoot

theorem live_root (h : WithRoot d vr roots s) : s.Live vr := (h.live vr).mpr (.inr rfl)

theorem outofthis (h : WithRoot d vr roots s) :
    (blk s vr).outofthis = roots.map fun b => ⟨0#32, b, (blk d b).intothis.length⟩ :=
  show (bare s vr).outofthis = _ by rw [h.root]

theorem intothis_root (h : WithRoot d vr roots s) : (blk s vr).intothis = [] :=
  show (bare s vr).intothis = _ by rw [h.root]; rfl

theorem index_root (h : WithRoot d vr roots s) : (blk s vr).index = 0 :=
  show (bare s vr).index = _ by rw [h.root]; rfl

theorem ne_of_live (h : WithRoot d vr roots s) {b : BlockId} (hb : d.Live b) : b ≠ vr := by
  rintro rfl
  have := Arena.lt_of_live hb
  rw [h.fresh] at this
  omega

theorem index_eq (h : WithRoot d vr roots s) {b : BlockId} (hb : d.Live b) : (blk s b).index = (blk d b).index := by
  show (bare s b).index = (bare d b).index
  by_cases hr : b ∈ roots
  · obtain ⟨k, hk⟩ := h.entered b hr
    rw [hk]
    rfl
  · rw [h.same b (h.ne_of_live hb) hr]

theorem edges_eq (h : WithRoot d vr roots s) {b : BlockId} (hb : d.Live b) (hr : b ∉ roots) (dir : Dir) :
    (blk s b).edges dir = (blk d b).edges dir := by
  rw [← edges_bare, h.same b (h.ne_of_live hb) hr, edges_bare]

/-- The state directly after the allocation. -/
theorem alloc (d : Blocks) : WithRoot d d.nextId [] (d.alloc (FlowBlock.new .plain)).1 := by
  have hget := Arena.get?_alloc d (FlowBlock.new .plain)
  refine ⟨rfl, fun b => ?_, by simp, ?_, by simp, fun b hb _ => ?_⟩
  · simp only [Arena.Live, hget]
    split
    next hb => simp [hb]
    next hb => simp [hb]
  · rw [bare, blk, hget, if_pos rfl]
    rfl
  · simp [bare, blk, hget, hb]

/-- One more block below the virtual root. -/
theorem addInEdge (h : WithRoot d vr roots s) (hb : d.Live root) (hr : root ∉ roots) :
    ∃ s', blockAddInEdge s root vr 0 = .ok s' ∧ WithRoot d vr (roots ++ [root]) s' ∧
      ∀ b, (blk s' b).immedDom = (blk s b).immedDom := by
  have hne := h.ne_of_live hb
  have hlive : s.Live root := (h.live root).mpr (.inl hb)
  have hlive' : (s.update root fun b => b.setEdges .into
      (b.edges .into ++ [⟨0#32, vr, (blk s vr).outofthis.length⟩])).Live vr := by simpa using h.live_root
  have hlen : (blk s root).intothis = (blk d root).intothis := h.edges_eq hb hr .into
  have hrun : blockAddInEdge s root vr 0 = .ok ((s.update root fun b => b.setEdges .into
      (b.edges .into ++ [⟨0#32, vr, (blk s vr).outofthis.length⟩])).update vr fun b => b.setEdges .outof
      (b.edges .outof ++ [⟨0#32, root, (blk s root).intothis.length⟩])) := by
    simp only [blockAddInEdge, get_of_live h.live_root, get_of_live hlive, ok_bind, pushEdge, Arena.modify_eq _ hlive]
    exact Arena.modify_eq _ hlive'
  refine ⟨_, hrun, ⟨h.fresh, fun b => ?_, fun b hb' => ?_, ?_, fun b hb' => ?_, fun b hbv hbr => ?_⟩, fun b => ?_⟩
  · simp [h.live]
  · rcases List.mem_append.mp hb' with hb' | hb'
    · exact h.roots_live b hb'
    · exact List.mem_singleton.mp hb' ▸ hb
  · rw [bare_update_setEdges hlive', if_pos rfl, bare_update_setEdges hlive, if_neg (Ne.symm hne), h.root,
      blk_update_ne (Ne.symm hne)]
    simp [FlowBlock.setEdges, FlowBlock.edges, h.outofthis, hlen]
  · rw [bare_update_setEdges hlive']
    rcases List.mem_append.mp hb' with hbr | hb'
    · rw [if_neg (h.ne_of_live (h.roots_live b hbr)), bare_update_setEdges hlive, if_neg (by rintro rfl; exact hr hbr)]
      exact h.entered b hbr
    · obtain rfl := List.mem_singleton.mp hb'
      refine ⟨(blk s vr).outofthis.length, ?_⟩
      rw [if_neg hne, bare_update_setEdges hlive, if_pos rfl, h.same b hne hr, FlowBlock.edges, hlen]
  · rw [bare_update_setEdges hlive', if_neg hbv, bare_update_setEdges hlive, if_neg (by rintro rfl; simp at hbr)]
    exact h.same b hbv fun hm => hbr (by simp [hm])
  · rw [immedDom_update_setEdges hlive', immedDom_update_setEdges hlive]

/-- The last block below the virtual root is released: both halves of the edge
are the last ones of their lists. -/
theorem removeOutEdge (h : WithRoot d vr (roots ++ [root]) s) (hr : root ∉ roots) :
    ∃ s', blockRemoveOutEdge s vr roots.length = .ok s' ∧ WithRoot d vr roots s' ∧
      ∀ b, (blk s' b).immedDom = (blk s b).immedDom := by
  have hb : d.Live root := h.roots_live root (by simp)
  have hne := h.ne_of_live hb
  obtain ⟨k, hk⟩ := h.entered root (by simp)
  have hinto : (blk s root).edges .into = (blk d root).intothis ++ [⟨0#32, vr, k⟩] := by
    rw [← edges_bare, hk, FlowBlock.edges_setEdges_self]
  have hlive : s.Live root := (h.live root).mpr (.inl hb)
  have hlive' : (s.update vr fun b => b.setEdges .outof (b.edges .outof).dropLast).Live root := by simpa using hlive
  have hrun : blockRemoveOutEdge s vr roots.length = .ok ((s.update vr fun b =>
      b.setEdges .outof (b.edges .outof).dropLast).update root fun b => b.setEdges .into (b.edges .into).dropLast) := by
    have hget : getIdx ((blk s vr).edges .outof) roots.length = .ok ⟨0#32, root, (blk d root).intothis.length⟩ := by
      rw [FlowBlock.edges, h.outofthis]
      exact getIdx_eq (by simp)
    rw [blockRemoveOutEdge, blockRemoveDirEdge, get_of_live h.live_root, ok_bind, hget, ok_bind,
      blockHalfDeleteEdge_last h.live_root (by simp [FlowBlock.edges, h.outofthis]), ok_bind, Dir.op_outof]
    refine blockHalfDeleteEdge_last hlive' ?_
    rw [blk_update_ne hne, hinto]
    simp
  refine ⟨_, hrun, ⟨h.fresh, fun b => ?_, fun b hb' => h.roots_live b (by simp [hb']), ?_, fun b hb' => ?_, fun b hbv hbr => ?_⟩,
    fun b => ?_⟩
  · simp [h.live]
  · rw [bare_update_setEdges hlive', if_neg (Ne.symm hne), bare_update_setEdges h.live_root, if_pos rfl, h.root]
    simp [FlowBlock.setEdges, FlowBlock.edges, h.outofthis]
  · rw [bare_update_setEdges hlive', if_neg (by rintro rfl; exact hr hb'), bare_update_setEdges h.live_root,
      if_neg (h.ne_of_live (h.roots_live b (by simp [hb'])))]
    exact h.entered b (by simp [hb'])
  · rw [bare_update_setEdges hlive']
    by_cases hbroot : b = root
    · subst hbroot
      rw [if_pos rfl, bare_update_setEdges h.live_root, if_neg hbv, blk_update_ne hbv, hinto, hk]
      simp [FlowBlock.setEdges, setImmedDom]
    · rw [if_neg hbroot, bare_update_setEdges h.live_root, if_neg hbv]
      exact h.same b hbv (by simp [hbr, hbroot])
  · rw [immedDom_update_setEdges hlive', immedDom_update_setEdges h.live_root]

theorem of_domOnly (h : WithRoot d vr roots s) {l : List BlockId} {s' : Blocks} (honly : DomOnly l s s') :
    WithRoot d vr roots s' := by
  have hbare (b : BlockId) : bare s' b = bare s b := by
    rw [bare, honly.blk_eq b]
    rfl
  refine ⟨h.fresh, fun b => (honly.live b).trans (h.live b), h.roots_live, (hbare vr).trans h.root, fun b hb => ?_,
    fun b hb hr => (hbare b).trans (h.same b hb hr)⟩
  rw [hbare]
  exact h.entered b hb

end WithRoot

theorem blockCreateVirtualRoot_spec {rootlist : List BlockId} (hnd : rootlist.Nodup) (hlive : ∀ b ∈ rootlist, d.Live b) :
    ∃ s, blockCreateVirtualRoot d rootlist = .ok (s, d.nextId) ∧ WithRoot d d.nextId rootlist s ∧
      ∀ b, (blk s b).immedDom = (blk d b).immedDom := by
  obtain ⟨s, hrun, hroot, hdom⟩ := foldlM_total (f := fun d' root => blockAddInEdge d' root d.nextId 0)
    (fun before s => WithRoot d d.nextId before s ∧ ∀ b, (blk s b).immedDom = (blk d b).immedDom) rootlist
    (fun before root after hl s hs => by
      have hr : root ∉ before := by
        rw [hl, List.nodup_append] at hnd
        exact fun hm => hnd.2.2 root hm root (by simp) rfl
      obtain ⟨s', hrun, hroot, hdom⟩ := hs.1.addInEdge (hlive root (by simp [hl])) hr
      exact ⟨s', hrun, hroot, fun b => (hdom b).trans (hs.2 b)⟩)
    (s := (d.alloc (FlowBlock.new .plain)).1) ⟨.alloc d, fun b => by
      by_cases hb : b = d.nextId
      · subst hb
        simp [blk, Arena.get?_alloc, Arena.get?_nextId]
        rfl
      · simp [blk, Arena.get?_alloc, hb]⟩
  refine ⟨s, ?_, hroot, hdom⟩
  simp only [blockCreateVirtualRoot]
  rw [show (d.alloc (FlowBlock.new .plain)).2 = d.nextId from rfl, hrun, ok_bind]
  rfl

theorem releaseBlocks_spec (vr : BlockId) (list : List BlockId) (hlive : ∀ b ∈ list, s.Live b) :
    ∃ s', list.foldlM (releaseBlock vr) s = .ok s' ∧ DomOnly list s s' ∧
      ∀ b, (blk s' b).immedDom = if b ∈ list ∧ (blk s b).immedDom = some vr then none else (blk s b).immedDom := by
  refine foldlM_total (f := releaseBlock vr)
    (fun before (s' : Blocks) => DomOnly list s s' ∧ ∀ b, (blk s' b).immedDom =
      if b ∈ before ∧ (blk s b).immedDom = some vr then none else (blk s b).immedDom) list ?_ ⟨.refl list s, by simp⟩
  intro before c after hl s' hs
  have hc : c ∈ list := by simp [hl]
  have hlive' : s'.Live c := (hs.1.live c).mpr (hlive c hc)
  have hdom := hs.2
  by_cases hv : (blk s' c).immedDom = some vr
  · refine ⟨_, by simp [releaseBlock, get_of_live hlive', hv, Arena.modify_eq _ hlive'],
      hs.1.trans (.update hc s' none), fun b => ?_⟩
    by_cases hbc : b = c
    · subst hbc
      have hold : (blk s b).immedDom = some vr := by
        by_contra hne
        rw [hdom b, if_neg fun hand => hne hand.2] at hv
        exact hne hv
      rw [blk_update_self hlive', setImmedDom, if_pos ⟨by simp, hold⟩]
    · rw [blk_update_ne hbc, hdom b]
      simp [hbc]
  · refine ⟨s', by simp [releaseBlock, get_of_live hlive', hv], hs.1, fun b => ?_⟩
    rw [hdom b]
    by_cases hbc : b = c
    · subst hbc
      by_cases hand : b ∈ before ∧ (blk s b).immedDom = some vr
      · rw [if_pos hand, if_pos ⟨by simp, hand.2⟩]
      · rw [hdom b, if_neg hand] at hv
        rw [if_neg hand, if_neg fun h => hv h.2]
    · simp [hbc]

theorem releasePasses_spec {rootlist : List BlockId} (hnd : rootlist.Nodup) (h : WithRoot d vr rootlist s) :
    ∃ s', loop (releasePass vr) ((blk s vr).outofthis.length + 1) s = .ok s' ∧ WithRoot d vr [] s' ∧
      ∀ b, (blk s' b).immedDom = (blk s b).immedDom := by
  let Inv : Blocks → Prop := fun s' => ∃ roots, roots.Nodup ∧ WithRoot d vr roots s' ∧
    ∀ b, (blk s' b).immedDom = (blk s b).immedDom
  refine loop_total (f := releasePass vr) Inv _ (fun s' => (blk s' vr).outofthis.length) (fun s' hs => ?_)
    ⟨rootlist, hnd, h, fun _ => rfl⟩ (Nat.lt_succ_self _)
  obtain ⟨roots, hnd, hroot, hdom⟩ := hs
  rcases List.eq_nil_or_concat roots with rfl | ⟨roots, root, rfl⟩
  · refine .inl ⟨s', ?_, hroot, hdom⟩
    simp [releasePass, get_of_live hroot.live_root, hroot.outofthis]
  · rw [List.concat_eq_append] at hnd hroot
    have hlen : (blk s' vr).outofthis.length = roots.length + 1 := by simp [hroot.outofthis]
    have hr : root ∉ roots := by
      rw [List.nodup_append] at hnd
      exact fun hm => hnd.2.2 root hm root (by simp) rfl
    obtain ⟨t, hrun, hroot', hdom'⟩ := hroot.removeOutEdge hr
    refine .inr ⟨t, ?_, ⟨roots, hnd.of_append_left, hroot', fun b => (hdom' b).trans (hdom b)⟩, ?_⟩
    · simp [releasePass, get_of_live hroot.live_root, hlen, hrun]
    · rw [hlen, hroot'.outofthis, List.length_map]
      exact Nat.lt_succ_self _

/-- Taking the virtual root out again gives back the state before it came, up
to the immediate dominators. -/
theorem dismissVirtualRoot_spec {list rootlist : List BlockId} (hnd : rootlist.Nodup) (h : WithRoot d vr rootlist s)
    (hlive : ∀ b ∈ list, d.Live b) :
    ∃ s', dismissVirtualRoot s list vr = .ok s' ∧ (∀ b, s'.Live b ↔ d.Live b) ∧ (∀ b, bare s' b = bare d b) ∧
      ∀ b, d.Live b → (blk s' b).immedDom =
        if b ∈ list ∧ (blk s b).immedDom = some vr then none else (blk s b).immedDom := by
  obtain ⟨s₁, hrun₁, honly, hdom₁⟩ := releaseBlocks_spec vr list.reverse (s := s)
    (fun b hb => (h.live b).mpr (.inl (hlive b (List.mem_reverse.mp hb))))
  have h₁ := h.of_domOnly honly
  obtain ⟨s₂, hrun₂, h₂, hdom₂⟩ := releasePasses_spec hnd h₁
  have hget := Arena.get?_erase s₂ vr
  have hblk {b : BlockId} (hb : b ≠ vr) : blk (s₂.erase vr) b = blk s₂ b := by simp [blk, hget, hb]
  have hdead : ¬ d.Live vr := fun hl => h.ne_of_live hl rfl
  refine ⟨s₂.erase vr, ?_, fun b => ?_, fun b => ?_, fun b hb => ?_⟩
  · simp [dismissVirtualRoot, hrun₁, get_of_live h₁.live_root, hrun₂, Arena.remove, h₂.live_root]
  · by_cases hb : b = vr
    · subst hb
      simp [Arena.Live, hget] at hdead ⊢
      exact hdead
    · have hlive₂ := h₂.live b
      simp only [hb, or_false] at hlive₂
      rw [← hlive₂]
      simp [Arena.Live, hget, hb]
  · by_cases hb : b = vr
    · subst hb
      rw [bare, bare, blk_of_not_live hdead, blk, hget, if_pos rfl]
      rfl
    · rw [bare, hblk hb]
      exact h₂.same b hb (by simp)
  · rw [hblk (h.ne_of_live hb), hdom₂, hdom₁]
    simp

end GhidraDecompiler.Block
