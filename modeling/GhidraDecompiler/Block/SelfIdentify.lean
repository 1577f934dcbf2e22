import GhidraDecompiler.Block.EdgeDedup

namespace GhidraDecompiler.Block

open Fallible FlowBlock

variable {R : Flags → Flags → Prop} {d d' : Blocks} {dir : Dir} {b graph mybl : BlockId}

/-- Two states with the same blocks, the same hierarchy and the same marks. -/
structure SameShape (d d' : Blocks) : Prop where
  nextId : d'.nextId = d.nextId
  live : ∀ b, d'.Live b ↔ d.Live b
  parent : ∀ b, (blk d' b).parent = (blk d b).parent
  list : ∀ b, (blk d' b).list = (blk d b).list
  marks : ∀ b, (blk d' b).flags &&& (fMark ||| fMark2) = (blk d b).flags &&& (fMark ||| fMark2)

namespace SameShape

theorem refl (d : Blocks) : SameShape d d := ⟨rfl, fun _ => .rfl, fun _ => rfl, fun _ => rfl, fun _ => rfl⟩

theorem trans {d₁ d₂ d₃ : Blocks} (h : SameShape d₁ d₂) (h' : SameShape d₂ d₃) : SameShape d₁ d₃ where
  nextId := h'.nextId.trans h.nextId
  live b := (h'.live b).trans (h.live b)
  parent b := (h'.parent b).trans (h.parent b)
  list b := (h'.list b).trans (h.list b)
  marks b := (h'.marks b).trans (h.marks b)

theorem unmarked (h : SameShape d d') (hu : Unmarked d) : Unmarked d' := fun b => (h.marks b).trans (hu b)

end SameShape

theorem SameCore.shape (h : SameCore d d') : SameShape d d' :=
  ⟨h.nextId, h.live, h.parent, h.list, fun b => by rw [h.flags]⟩

/-- A change of flags other than the marks. -/
theorem sameShape_update_flags {f : Flags → Flags}
    (hf : ∀ x, f x &&& (fMark ||| fMark2) = x &&& (fMark ||| fMark2)) (d : Blocks) (b : BlockId) :
    SameShape d (d.update b fun x => { x with flags := f x.flags }) := by
  have hblk (c : BlockId) : blk (d.update b fun x => { x with flags := f x.flags }) c = blk d c ∨
      blk (d.update b fun x => { x with flags := f x.flags }) c = { blk d c with flags := f (blk d c).flags } := by
    by_cases hb : d.Live b
    · by_cases hc : c = b
      · subst hc; exact .inr (blk_update_self hb _)
      · exact .inl (blk_update_ne hc _)
    · have hn : d.get? b = none := by simpa [Arena.Live] using hb
      by_cases hc : c = b
      · subst hc; left; simp [blk, Arena.get?_update, hn]
      · exact .inl (blk_update_ne hc _)
  refine ⟨by simp, fun c => by simp, fun c => ?_, fun c => ?_, fun c => ?_⟩ <;>
    rcases hblk c with h | h <;> simp [h, hf]

/-- Edges at the component `mybl`, seen from the block at the other end. Those
of blocks outside of the graph are moved to the graph. -/
def absorb (parent : BlockId → Option BlockId) (graph mybl : BlockId) (p : BlockId × BlockId) : BlockId × BlockId :=
  if p.2 = mybl ∧ parent p.1 ≠ some graph then (p.1, graph) else p

theorem absorb_redirect (parent : BlockId → Option BlockId) {other : BlockId} (ho : parent other ≠ some graph)
    (hne : mybl ≠ graph) (p : BlockId × BlockId) :
    absorb parent graph mybl (redirect other mybl graph p) = absorb parent graph mybl p := by
  unfold redirect
  split
  case isTrue h => subst h; simp [absorb, ho, Ne.symm hne]
  case isFalse => rfl

structure IdentifyInv (R : Flags → Flags → Prop) (dir : Dir) (graph mybl : BlockId) (d₀ : Blocks)
    (slot : Nat) (d : Blocks) : Prop where
  matched : Matched R d ∅
  shape : SameShape d₀ d
  inside : ∀ o ∈ (points d dir mybl).take slot, (blk d₀ o).parent = some graph
  moved : (pairs dir.op d).map (absorb (fun b => (blk d₀ b).parent) graph mybl) =
    (pairs dir.op d₀).map (absorb (fun b => (blk d₀ b).parent) graph mybl)

theorem IdentifyInv.switch (hR : ∀ l, R l l) {d₀ s : Blocks} {slot : Nat} {o : BlockId}
    (h : IdentifyInv R dir graph mybl d₀ slot s) (hg : d₀.Live graph) (hne : mybl ≠ graph)
    (hget : (points s dir mybl)[slot]? = some o) (hlo : s.Live o) (ho : (blk d₀ o).parent ≠ some graph) :
    ∃ s', switchDirEdge dir.op s o mybl graph = .ok s' ∧ IdentifyInv R dir graph mybl d₀ slot s' ∧
      (points s' dir mybl).length < (points s dir mybl).length := by
  obtain ⟨s', hs', hms', hcs', hps', hfs'⟩ := switchDirEdge_spec hR h.matched dir.op mybl hlo
    ((h.shape.live graph).mpr hg)
  rw [Dir.op_op] at hfs'
  -- no edge from `o` is left, so the filtered list is the whole list
  have hgone : o ∉ points s' dir mybl := by
    rw [← List.count_eq_zero, ← Dir.op_op dir, hms'.count_points, hps', if_pos rfl, List.count_eq_zero]
    simp only [List.mem_map, not_exists, not_and]
    intro x _
    split
    · exact Ne.symm hne
    · assumption
  have hlist : points s' dir mybl = (points s dir mybl).filter (· ≠ o) := by
    rw [← hfs' mybl hne, List.filter_eq_self.mpr]
    intro x hx
    simpa using fun he : x = o => hgone (he ▸ hx)
  obtain ⟨hlt, hgo⟩ := List.getElem?_eq_some_iff.mp hget
  refine ⟨s', hs', ⟨hms', h.shape.trans hcs'.shape, ?_, ?_⟩, ?_⟩
  · intro x hx
    refine h.inside x ?_
    have hfront : ((points s dir mybl).take slot).filter (· ≠ o) = (points s dir mybl).take slot := by
      rw [List.filter_eq_self]
      intro y hy
      simpa using fun he : y = o => ho (he ▸ h.inside y hy)
    rw [hlist, ← List.take_append_drop slot (points s dir mybl), List.filter_append, hfront,
      List.take_append_of_le_length (by simp; omega)] at hx
    exact List.mem_of_mem_take hx
  · rw [pairs_switchDirEdge hcs' hps', Multiset.map_map, ← h.moved]
    exact Multiset.map_congr rfl fun p _ => absorb_redirect _ ho hne p
  · rw [hlist, ← List.countP_eq_length_filter, List.countP_lt_length_iff]
    exact ⟨o, hgo ▸ List.getElem_mem hlt, by simp⟩

theorem identifyLoop_spec (hR : ∀ l, R l l) (hm : Matched R d ∅) (hg : d.Live graph) (hb : d.Live mybl)
    (hne : mybl ≠ graph) (dir : Dir) :
    ∃ d', loop (identifyPass dir graph mybl) (((blk d mybl).edges dir).length + 1) (0, d) = .ok d' ∧
      Matched R d' ∅ ∧ SameShape d d' ∧
      pairs dir.op d' = (pairs dir.op d).map (absorb (fun b => (blk d b).parent) graph mybl) := by
  have hsize (s : Blocks) : ((blk s mybl).edges dir).length = (points s dir mybl).length := by simp [points]
  obtain ⟨d', hrun, slot, hinv, hend⟩ := loop_total (f := identifyPass dir graph mybl) (s := (0, d))
    (fun s => IdentifyInv R dir graph mybl d s.1 s.2)
    (fun d' => ∃ slot, IdentifyInv R dir graph mybl d slot d' ∧ (points d' dir mybl).length ≤ slot)
    (fun s => (points s.2 dir mybl).length - s.1)
    (by
      rintro ⟨slot, s⟩ hinv
      change IdentifyInv R dir graph mybl d slot s at hinv
      have hlive := (hinv.shape.live mybl).mpr hb
      by_cases hs : slot < (points s dir mybl).length
      · obtain ⟨e, he⟩ := exists_edge? hs
        obtain ⟨-, f, hf, -⟩ := hinv.matched _ _ _ _ he (by simp)
        have hlo := live_of_edge? hf
        have hgo : getIdx ((blk s mybl).edges dir) slot = .ok e := getIdx_eq he
        have hget : (points s dir mybl)[slot]? = some e.point := by rw [points_getElem?, he, Option.map_some]
        have hlt : slot < ((blk s mybl).edges dir).length := by rwa [hsize]
        by_cases hp : (blk s e.point).parent = some graph
        · refine .inr ⟨(slot + 1, s), ?_, ⟨hinv.matched, hinv.shape, ?_, hinv.moved⟩,
            Nat.sub_lt_sub_left hs (Nat.lt_succ_self slot)⟩
          · simp [identifyPass, get_of_live hlive, hlt, hgo, get_of_live hlo, hp]
          · intro o ho
            rw [List.take_add_one, hget, Option.toList_some, List.mem_append, List.mem_singleton] at ho
            rcases ho with ho | rfl
            · exact hinv.inside o ho
            · rwa [← hinv.shape.parent]
        · obtain ⟨s', hs', hinv', hv⟩ := hinv.switch hR hg hne hget hlo (by rwa [← hinv.shape.parent])
          have hlive' := (hinv'.shape.live mybl).mpr hb
          have hg' := (hinv'.shape.live graph).mpr hg
          -- the walk over out edges may also raise the switch flag of the graph
          let s'' := s'.update graph (setFlag fSwitchOut)
          have hedge := edge?_update_of_edges (f := setFlag fSwitchOut) (fun x dir => by cases dir <;> rfl) s' graph
          have hinv'' : IdentifyInv R dir graph mybl d slot s'' := by
            refine ⟨hinv'.matched.congr hedge, hinv'.shape.trans (sameShape_update_flags (f := (· ||| fSwitchOut))
              (fun x => Flags.set_and_of_disjoint (by decide)) s' graph), ?_, ?_⟩
            · rw [points_congr hedge]
              exact hinv'.inside
            · rw [pairs_congr (points_congr hedge dir.op)]
              exact hinv'.moved
          have hv'' : (points s'' dir mybl).length = (points s' dir mybl).length := by rw [points_congr hedge]
          have hstep : ∃ t, identifyPass dir graph mybl (slot, s) = .ok (.again (slot, t)) ∧ (t = s' ∨ t = s'') := by
            simp only [identifyPass, get_of_live hlive, ok_bind, hlt, if_true, hgo, get_of_live hlo, hp, if_false,
              hs']
            cases dir with
            | into => exact ⟨s', rfl, .inl rfl⟩
            | outof =>
                simp only [get_of_live hlive', ok_bind]
                split
                · exact ⟨s'', by simp [Arena.modify_eq _ hg', s''], .inr rfl⟩
                · exact ⟨s', rfl, .inl rfl⟩
          obtain ⟨t, ht, rfl | rfl⟩ := hstep
          · exact .inr ⟨_, ht, hinv', by change (points t dir mybl).length - slot < (points s dir mybl).length - slot; omega⟩
          · exact .inr ⟨_, ht, hinv'', by
              change (points s'' dir mybl).length - slot < (points s dir mybl).length - slot; omega⟩
      · refine .inl ⟨s, ?_, slot, hinv, Nat.le_of_not_lt hs⟩
        have hlt : ¬ slot < ((blk s mybl).edges dir).length := by rwa [hsize]
        simp [identifyPass, get_of_live hlive, hlt])
    (k := ((blk d mybl).edges dir).length + 1)
    ⟨hm, SameShape.refl d, by simp, rfl⟩ (by simp [hsize])
  refine ⟨d', hrun, hinv.matched, hinv.shape, ?_⟩
  rw [← hinv.moved, Multiset.map_congr rfl (g := id), Multiset.map_id]
  rintro ⟨o, x⟩ hp
  simp only [absorb, id]
  rw [if_neg]
  rintro ⟨rfl, hpar⟩
  refine hpar (hinv.inside o ?_)
  rw [List.take_of_length_le hend, ← List.one_le_count_iff, ← Dir.op_op dir, hinv.matched.count_points,
    ← count_pairs, Multiset.one_le_count_iff_mem]
  exact hp

/-- The effect of the identification of a graph with its components on one
edge: edges that cross the boundary end at the graph itself. -/
def identify (parent : BlockId → Option BlockId) (graph : BlockId) (list : List BlockId)
    (p : BlockId × BlockId) : BlockId × BlockId :=
  if p.2 ∈ list ∧ parent p.1 ≠ some graph then (p.1, graph)
  else if p.1 ∈ list ∧ parent p.2 ≠ some graph then (graph, p.2)
  else p

theorem identify_append (parent : BlockId → Option BlockId) {list : List BlockId} {m : BlockId}
    (hlist : ∀ x ∈ list, parent x = some graph) (hm : parent m = some graph) (hne : m ≠ graph)
    (p : BlockId × BlockId) :
    (absorb parent graph m (absorb parent graph m (identify parent graph list p)).swap).swap =
      identify parent graph (list ++ [m]) p := by
  obtain ⟨s, t⟩ := p
  simp only [identify, List.mem_append, List.mem_singleton]
  by_cases h₁ : t ∈ list ∧ parent s ≠ some graph
  · have hs : s ≠ m := fun h => h₁.2 (h ▸ hm)
    simp [absorb, h₁, hs, Ne.symm hne]
  · by_cases h₂ : s ∈ list ∧ parent t ≠ some graph
    · have ht : t ≠ m := fun h => h₂.2 (h ▸ hm)
      simp [absorb, h₂, ht, hlist s h₂.1, Ne.symm hne]
    · by_cases ht : t = m
      · subst ht
        by_cases hs : parent s = some graph
        · simp [absorb, hs, hm]
        · have hsm : s ≠ t := fun h => hs (h ▸ hm)
          have htl : t ∉ list := fun h => h₁ ⟨h, hs⟩
          simp [absorb, htl, hs, hm, hsm]
      · by_cases hs : s = m
        · subst hs
          by_cases hp : parent t = some graph
          · simp [absorb, hm, hp, ht]
          · have hsl : s ∉ list := fun h => h₂ ⟨h, hp⟩
            simp [absorb, hm, hp, ht, hsl]
        · simp [absorb, h₁, h₂, ht, hs]

/-- A graph block can be identified with its components when these are blocks
of their own that name the graph as their parent. -/
structure Components (d : Blocks) (graph : BlockId) : Prop where
  live : d.Live graph
  members : ∀ m ∈ (blk d graph).list, d.Live m ∧ m ≠ graph ∧ (blk d m).parent = some graph

theorem blockSelfIdentify_spec (hR : ∀ a b, R a b) (hm : Matched R d ∅) (hu : Unmarked d)
    (hg : Components d graph) :
    ∃ d', blockSelfIdentify d graph = .ok d' ∧ Matched R d' ∅ ∧ SameShape d d' ∧
      if (blk d graph).list = [] then d' = d else DedupedAt graph
        ((pairs .outof d).map (identify (fun b => (blk d b).parent) graph (blk d graph).list)) (pairs .outof d') := by
  by_cases hnil : (blk d graph).list = []
  · exact ⟨d, by simp [blockSelfIdentify, get_of_live hg.live, hnil], hm, SameShape.refl d, by simp [hnil]⟩
  have hR' : ∀ l, R l l := fun l => hR l l
  obtain ⟨s, hrun, hms, hss, hps⟩ := foldlM_total
    (f := fun (d : Blocks) mybl => do
      let d ← loop (identifyPass .into graph mybl) ((← d.get mybl).intothis.length + 1) (0, d)
      loop (identifyPass .outof graph mybl) ((← d.get mybl).outofthis.length + 1) (0, d))
    (s := d)
    (fun done s => Matched R s ∅ ∧ SameShape d s ∧
      pairs .outof s = (pairs .outof d).map (identify (fun b => (blk d b).parent) graph done))
    (blk d graph).list
    (by
      rintro done m rest heq s ⟨hms, hss, hps⟩
      obtain ⟨hlm, hne, hpm⟩ := hg.members m (by simp [heq])
      have hdone (x : BlockId) (hx : x ∈ done) : (blk d x).parent = some graph :=
        (hg.members x (by simp [heq, hx])).2.2
      have hls := (hss.live m).mpr hlm
      obtain ⟨s₁, h₁, hms₁, hss₁, hps₁⟩ := identifyLoop_spec hR' hms ((hss.live graph).mpr hg.live) hls hne .into
      have hls₁ := (hss₁.live m).mpr hls
      obtain ⟨s₂, h₂, hms₂, hss₂, hps₂⟩ := identifyLoop_spec hR' hms₁
        ((hss₁.live graph).mpr ((hss.live graph).mpr hg.live)) hls₁ hne .outof
      refine ⟨s₂, ?_, hms₂, (hss.trans hss₁).trans hss₂, ?_⟩
      · simp only [FlowBlock.edges] at h₁ h₂
        simp only [get_of_live hls, ok_bind, h₁, get_of_live hls₁, h₂]
      · simp only [Dir.op_into, Dir.op_outof] at hps₁ hps₂
        have hswap₁ : pairs .into s₁ = (pairs .outof s₁).map Prod.swap := hms₁.pairs_op .outof
        have hswap₂ : pairs .outof s₂ = (pairs .into s₂).map Prod.swap := hms₂.pairs_op .into
        rw [hswap₂, hps₂, hswap₁, hps₁, hps]
        simp only [Multiset.map_map, Function.comp_def, hss.parent, hss₁.parent]
        exact Multiset.map_congr rfl fun p _ => identify_append _ hdone hpm hne p)
    ⟨hm, SameShape.refl d, by
      rw [Multiset.map_congr rfl (g := id) fun p _ => by simp [identify], Multiset.map_id]⟩
  obtain ⟨d', hd', hm', hc', hp'⟩ := blockDedup_spec hR hms ((hss.live graph).mpr hg.live) (hss.unmarked hu)
  refine ⟨d', ?_, hm', hss.trans hc'.shape, ?_⟩
  · simp only [blockSelfIdentify, get_of_live hg.live, ok_bind, hnil, if_false]
    rw [hrun, ok_bind, hd']
  · rw [if_neg hnil, ← hps]
    exact hp'

end GhidraDecompiler.Block
