import GhidraDecompiler.Block.SelfIdentify

namespace GhidraDecompiler.Block

open Fallible FlowBlock

variable {d d' : Blocks} {b : BlockId}

/-- The operations that change the edges of a graph. -/
inductive EdgeOp
  | addInEdge (bl source : BlockId) (lab : Flags)
  | removeInEdge (bl : BlockId) (slot : Nat)
  | removeOutEdge (bl : BlockId) (slot : Nat)
  | replaceInEdge (bl : BlockId) (num : Nat) (source : BlockId)
  | replaceOutEdge (bl : BlockId) (num : Nat) (source : BlockId)
  | replaceEdgesThru (bl : BlockId) (input out : Nat)
  | swapEdges (bl : BlockId)
  | dedup (bl : BlockId)
  | moveOutEdge (blold : BlockId) (slot : Nat) (blnew : BlockId)
  | switchEdge (input outbefore outafter : BlockId)
  | removeFromFlow (bl : BlockId)
  | selfIdentify (graph : BlockId)

namespace EdgeOp

def run (d : Blocks) : EdgeOp → Outcome Blocks
  | addInEdge bl source lab => blockAddInEdge d bl source lab
  | removeInEdge bl slot => blockRemoveInEdge d bl slot
  | removeOutEdge bl slot => blockRemoveOutEdge d bl slot
  | replaceInEdge bl num source => blockReplaceInEdge d bl num source
  | replaceOutEdge bl num source => blockReplaceOutEdge d bl num source
  | replaceEdgesThru bl input out => blockReplaceEdgesThru d bl input out
  | swapEdges bl => blockSwapEdges d bl
  | dedup bl => blockDedup d bl
  | moveOutEdge blold slot blnew => blockMoveOutEdge d blold slot blnew
  | switchEdge input outbefore outafter => blockSwitchEdge d input outbefore outafter
  | removeFromFlow bl => blockRemoveFromFlow d bl
  | selfIdentify graph => blockSelfIdentify d graph

/-- The blocks exist and the slots are in range. Only a block without a self
loop is taken out of the flow. -/
def Admissible (d : Blocks) : EdgeOp → Prop
  | addInEdge bl source _ => d.Live bl ∧ d.Live source
  | removeInEdge bl slot => slot < (blk d bl).intothis.length
  | removeOutEdge bl slot => slot < (blk d bl).outofthis.length
  | replaceInEdge bl num source => num < (blk d bl).intothis.length ∧ d.Live source
  | replaceOutEdge bl num source => num < (blk d bl).outofthis.length ∧ d.Live source
  | replaceEdgesThru bl input out => input < (blk d bl).intothis.length ∧ out < (blk d bl).outofthis.length
  | swapEdges bl => 2 ≤ (blk d bl).outofthis.length
  | dedup bl => d.Live bl
  | moveOutEdge blold slot blnew => slot < (blk d blold).outofthis.length ∧ d.Live blnew
  | switchEdge input _ outafter => d.Live input ∧ d.Live outafter
  | removeFromFlow bl => d.Live bl ∧ bl ∉ points d .outof bl
  | selfIdentify graph => Components d graph

/-- What an operation does to the multiset of all (source, target) pairs. An
edge that an argument addresses by its slot is named through the block found
in that slot before the call. -/
def Effect (d d' : Blocks) : EdgeOp → Prop
  | addInEdge bl source _ => pairs .outof d' = (source, bl) ::ₘ pairs .outof d
  | removeInEdge bl slot => ∃ s, (points d .into bl)[slot]? = some s ∧
      pairs .outof d = (s, bl) ::ₘ pairs .outof d'
  | removeOutEdge bl slot => ∃ t, (points d .outof bl)[slot]? = some t ∧
      pairs .outof d = (bl, t) ::ₘ pairs .outof d'
  | replaceInEdge bl num source => ∃ s, (points d .into bl)[num]? = some s ∧
      (s, bl) ::ₘ pairs .outof d' = (source, bl) ::ₘ pairs .outof d
  | replaceOutEdge bl num source => ∃ t, (points d .outof bl)[num]? = some t ∧
      (bl, t) ::ₘ pairs .outof d' = (bl, source) ::ₘ pairs .outof d
  | replaceEdgesThru bl input out => ∃ s t, (points d .into bl)[input]? = some s ∧
      (points d .outof bl)[out]? = some t ∧
      (s, t) ::ₘ pairs .outof d = (s, bl) ::ₘ (bl, t) ::ₘ pairs .outof d'
  | swapEdges bl => ∃ s t rest, points d .outof bl = s :: t :: rest ∧ points d' .outof bl = t :: s :: rest ∧
      pairs .outof d' = pairs .outof d
  | dedup bl => DedupedAt bl (pairs .outof d) (pairs .outof d')
  | moveOutEdge blold slot blnew => ∃ t, (points d .outof blold)[slot]? = some t ∧
      (blold, t) ::ₘ pairs .outof d' = (blnew, t) ::ₘ pairs .outof d
  | switchEdge input outbefore outafter =>
      pairs .outof d' = (pairs .outof d).map (redirect input outbefore outafter)
  | removeFromFlow bl => pairs .outof d' = bypass d bl
  | selfIdentify graph => if (blk d graph).list = [] then d' = d else DedupedAt graph
      ((pairs .outof d).map (identify (fun b => (blk d b).parent) graph (blk d graph).list)) (pairs .outof d')

end EdgeOp

/-- The states that the edge operations can build from blocks without edges. -/
inductive Reachable : Blocks → Prop
  | start (d : Blocks) (hedges : ∀ b dir, (blk d b).edges dir = []) (hmarks : Unmarked d) : Reachable d
  | step (op : EdgeOp) (d d' : Blocks) (h : Reachable d) (hop : op.Admissible d) (hrun : op.run d = .ok d') :
      Reachable d'

/-- Reciprocity alone, without a condition on labels. -/
abbrev Reciprocal (d : Blocks) : Prop := Matched (fun _ _ => True) d ∅

theorem pairs_set_into {bl s t : BlockId} (hm : Reciprocal d) (hm' : Reciprocal d')
    (h : (bl, s) ::ₘ pairs .into d' = (bl, t) ::ₘ pairs .into d) :
    (s, bl) ::ₘ pairs .outof d' = (t, bl) ::ₘ pairs .outof d := by
  have hswap := congrArg (Multiset.map Prod.swap) h
  rw [Multiset.map_cons, Multiset.map_cons] at hswap
  rw [show pairs .outof d' = _ from hm'.pairs_op .into, show pairs .outof d = _ from hm.pairs_op .into]
  exact hswap

theorem exists_edge_of_lt (dir : Dir) {i : Nat} (h : i < ((blk d b).edges dir).length) :
    ∃ e, edge? d dir b i = some e ∧ (points d dir b)[i]? = some e.point := by
  obtain ⟨e, he⟩ : ∃ e, edge? d dir b i = some e := ⟨_, List.getElem?_eq_getElem h⟩
  exact ⟨e, he, by rw [points_getElem?, he, Option.map_some]⟩

theorem swapEdges_step (hm : Reciprocal d) {bl : BlockId} (h : 2 ≤ (blk d bl).outofthis.length) :
    ∃ d', blockSwapEdges d bl = .ok d' ∧ Reciprocal d' ∧ SameShape d d' ∧ (EdgeOp.swapEdges bl).Effect d d' := by
  obtain ⟨second, h₀, hp₀⟩ := exists_edge_of_lt .outof (d := d) (b := bl) (i := 0)
    (by simp only [FlowBlock.edges]; omega)
  obtain ⟨first, h₁, hp₁⟩ := exists_edge_of_lt .outof (d := d) (b := bl) (i := 1)
    (by simp only [FlowBlock.edges]; omega)
  obtain ⟨d₁, hrun, hm₁, hc₁, hi₁, ho₁⟩ := blockSwapEdges_spec hm h₀ h₁
  have hedge := edge?_update_of_edges (f := fun b : FlowBlock => { b with flags := b.flags ^^^ fFlipPath })
    (fun x dir => by cases dir <;> rfl) d₁ bl
  have hflip : SameShape d₁ (d₁.update bl fun b => { b with flags := b.flags ^^^ fFlipPath }) :=
    sameShape_update_flags (f := (· ^^^ fFlipPath))
      (fun _ => Flags.xor_and_of_disjoint (by decide)) d₁ bl
  have hlist : ∃ s t rest, points d .outof bl = s :: t :: rest := by
    rcases hp : points d .outof bl with _ | ⟨s, _ | ⟨t, rest⟩⟩
    · simp [hp] at hp₀
    · simp [hp] at hp₁
    · exact ⟨s, t, rest, rfl⟩
  obtain ⟨s, t, rest, hl⟩ := hlist
  simp only [hl, List.getElem?_cons_zero, List.getElem?_cons_succ, Option.some_inj] at hp₀ hp₁
  have hm₂ := hm₁.congr hedge
  refine ⟨_, hrun, hm₂, hc₁.shape.trans hflip, s, t, rest, hl, ?_, ?_⟩
  · rw [points_congr hedge, ho₁, if_pos rfl, hl]
    simp [hp₀, hp₁]
  · rw [show pairs .outof d = _ from hm.pairs_op .into, show pairs .outof _ = _ from hm₂.pairs_op .into,
      pairs_congr (d := d) fun c => by rw [points_congr hedge, hi₁]]

/-- The step lemma: in a reciprocal state every admissible operation returns,
keeps the state reciprocal and has the effect that its arguments address. -/
theorem EdgeOp.run_spec (hm : Reciprocal d) (hu : Unmarked d) (op : EdgeOp) (hop : op.Admissible d) :
    ∃ d', op.run d = .ok d' ∧ Reciprocal d' ∧ Unmarked d' ∧ op.Effect d d' := by
  have hR : ∀ _ : Flags, True := fun _ => trivial
  have hRR : ∀ _ _ : Flags, True := fun _ _ => trivial
  cases op with
  | addInEdge bl source lab =>
      obtain ⟨d', hrun, hm', hc', -, hout⟩ := blockAddInEdge_spec hR hm hop.1 hop.2 lab
      exact ⟨d', hrun, hm', hu.of_core hc', pairs_append hout⟩
  | removeInEdge bl slot =>
      obtain ⟨e, he, hget⟩ := exists_edge_of_lt .into hop
      obtain ⟨d', hrun, hm', hc', hin, -⟩ := blockRemoveDirEdge_spec hm he
      refine ⟨d', hrun, hm', hu.of_core hc', e.point, hget, ?_⟩
      have hswap := congrArg (Multiset.map Prod.swap) (pairs_erase hget hin)
      rw [Multiset.map_cons] at hswap
      rw [show pairs .outof d' = _ from hm'.pairs_op .into, show pairs .outof d = _ from hm.pairs_op .into]
      exact hswap
  | removeOutEdge bl slot =>
      obtain ⟨e, he, hget⟩ := exists_edge_of_lt .outof hop
      obtain ⟨d', hrun, hm', hc', hout, -⟩ := blockRemoveDirEdge_spec hm he
      exact ⟨d', hrun, hm', hu.of_core hc', e.point, hget, pairs_erase hget hout⟩
  | replaceInEdge bl num source =>
      obtain ⟨e, he, hget⟩ := exists_edge_of_lt .into hop.1
      obtain ⟨d', hrun, hm', hc', hin, -⟩ := blockReplaceDirEdge_spec hR hm he hop.2
      exact ⟨d', hrun, hm', hu.of_core hc', e.point, hget, pairs_set_into hm hm' (pairs_set hget hin)⟩
  | replaceOutEdge bl num source =>
      obtain ⟨e, he, hget⟩ := exists_edge_of_lt .outof hop.1
      obtain ⟨d', hrun, hm', hc', hout, -⟩ := blockReplaceDirEdge_spec hR hm he hop.2
      exact ⟨d', hrun, hm', hu.of_core hc', e.point, hget, pairs_set hget hout⟩
  | replaceEdgesThru bl input out =>
      obtain ⟨e, he, hget⟩ := exists_edge_of_lt .into hop.1
      obtain ⟨g, hg, hget'⟩ := exists_edge_of_lt .outof hop.2
      obtain ⟨-, e', he', -⟩ := hm _ _ _ _ he (by simp)
      obtain ⟨-, g', hg', -⟩ := hm _ _ _ _ hg (by simp)
      obtain ⟨d', hrun, hm', hc', hp⟩ := blockReplaceEdgesThru_spec hm he hg he' hg' trivial trivial
      exact ⟨d', hrun, hm', hu.of_core hc', e.point, g.point, hget, hget', hp⟩
  | swapEdges bl =>
      obtain ⟨d', hrun, hm', hs', heff⟩ := swapEdges_step hm hop
      exact ⟨d', hrun, hm', hs'.unmarked hu, heff⟩
  | dedup bl =>
      obtain ⟨d', hrun, hm', hc', hp⟩ := blockDedup_spec hRR hm hop hu
      exact ⟨d', hrun, hm', hu.of_core hc', hp⟩
  | moveOutEdge blold slot blnew =>
      obtain ⟨e, he, hget⟩ := exists_edge_of_lt .outof hop.1
      obtain ⟨-, f, hf, hfp, hfr, -⟩ := hm _ _ _ _ he (by simp)
      obtain ⟨d', hrun, hm', hc', hin, -⟩ := blockReplaceDirEdge_spec hR hm hf hop.2
      have hfget : (points d .into e.point)[e.reverseIndex]? = some blold := by
        rw [points_getElem?, ← Dir.op_outof, hf, Option.map_some, hfp]
      refine ⟨d', ?_, hm', hu.of_core hc', e.point, hget, pairs_set_into hm hm' (pairs_set hfget hin)⟩
      have he' : (blk d blold).outofthis[slot]? = some e := he
      simp only [run, blockMoveOutEdge, get_of_live (live_of_edge? he), ok_bind, getIdx_eq he']
      exact hrun
  | switchEdge input outbefore outafter =>
      obtain ⟨d', hrun, hm', hc', hout, -⟩ := switchDirEdge_spec hR hm _ _ hop.1 hop.2
      exact ⟨d', hrun, hm', hu.of_core hc', pairs_switchDirEdge hc' hout⟩
  | removeFromFlow bl =>
      obtain ⟨d', hrun, hm', hc', hp⟩ := blockRemoveFromFlow_spec hR hm hop.1 hop.2
      exact ⟨d', hrun, hm', hu.of_core hc', hp⟩
  | selfIdentify graph =>
      obtain ⟨d', hrun, hm', hs', hp⟩ := blockSelfIdentify_spec hRR hm hu hop
      exact ⟨d', hrun, hm', hs'.unmarked hu, hp⟩

theorem Reachable.reciprocal (h : Reachable d) : Reciprocal d ∧ Unmarked d := by
  induction h with
  | start d hedges hmarks =>
      refine ⟨fun dir b i e he => ?_, hmarks⟩
      simp [edge?, hedges] at he
  | step op d d' _ hop hrun ih =>
      obtain ⟨t, ht, hm', hu', -⟩ := op.run_spec ih.1 ih.2 hop
      rw [hrun, Except.ok.injEq] at ht
      exact ht ▸ ⟨hm', hu'⟩

theorem forM_eq_ok_iff {α : Type} {f : α → Outcome Unit} {l : List α} :
    l.forM f = .ok () ↔ ∀ a ∈ l, f a = .ok () := by
  induction l with
  | nil => exact ⟨by simp, fun _ => rfl⟩
  | cons a l ih =>
      show (f a >>= fun _ => l.forM f) = .ok () ↔ _
      rw [bind_eq_ok, List.forall_mem_cons, ← ih]
      exact ⟨fun ⟨_, ha, hl⟩ => ⟨ha, hl⟩, fun ⟨ha, hl⟩ => ⟨(), ha, hl⟩⟩

/-- The check of one edge list accepts exactly the blocks whose edges are
matched at the other end. -/
theorem checkEdgeList_eq_ok_iff (hb : d.Live b) (dir : Dir) (short edge index : String) :
    checkEdgeList dir d b short edge index = .ok () ↔ ∀ i e, edge? d dir b i = some e →
      ∃ e', edge? d dir.op e.point e.reverseIndex = some e' ∧ e'.point = b ∧ e'.reverseIndex = i := by
  simp only [checkEdgeList, get_of_live hb, ok_bind, forM_eq_ok_iff]
  constructor
  · intro hall i e he
    have hcheck := hall (e, i) (List.mem_zipIdx_iff_getElem?.mpr he)
    obtain ⟨target, hget, hcheck⟩ := bind_eq_ok.mp hcheck
    have hlive : d.Live e.point := by
      by_contra hdead
      simp [Arena.Live] at hdead
      simp [Arena.get, hdead] at hget
    rw [get_of_live hlive, Except.ok.injEq] at hget
    subst hget
    cases hf : edge? d dir.op e.point e.reverseIndex with
    | none =>
        have hle : ((blk d e.point).edges dir.op).length ≤ e.reverseIndex := List.getElem?_eq_none_iff.mp hf
        simp [hle] at hcheck
    | some f =>
        have hlt : ¬ ((blk d e.point).edges dir.op).length ≤ e.reverseIndex :=
          Nat.not_le_of_lt (List.getElem?_eq_some_iff.mp hf).1
        refine ⟨f, rfl, ?_⟩
        simp only [hlt, if_false, getIdx_eq (show ((blk d e.point).edges dir.op)[e.reverseIndex]? = some f from hf),
          pure_eq_ok, ok_bind] at hcheck
        by_cases hp : f.point = b
        · by_cases hr : f.reverseIndex = i
          · exact ⟨hp, hr⟩
          · simp [hp, hr] at hcheck
        · simp [hp] at hcheck
  · rintro hall ⟨e, slot⟩ hmem
    obtain ⟨f, hf, hfp, hfr⟩ := hall slot e (List.mem_zipIdx_iff_getElem?.mp hmem)
    have hlt : ¬ ((blk d e.point).edges dir.op).length ≤ e.reverseIndex :=
      Nat.not_le_of_lt (List.getElem?_eq_some_iff.mp hf).1
    simp [get_of_live (live_of_edge? hf), hlt,
      getIdx_eq (show ((blk d e.point).edges dir.op)[e.reverseIndex]? = some f from hf), hfp, hfr]

/-- The check of the program accepts all blocks of a state exactly when the
state is reciprocal. -/
theorem reciprocal_iff_checkEdges : Reciprocal d ↔ ∀ b, d.Live b → blockCheckEdges d b = .ok () := by
  constructor
  · intro hm b hb
    have hboth (dir : Dir) (i : Nat) (e : BlockEdge) (he : edge? d dir b i = some e) :
        ∃ e', edge? d dir.op e.point e.reverseIndex = some e' ∧ e'.point = b ∧ e'.reverseIndex = i := by
      obtain ⟨-, e', he', hp, hr, -⟩ := hm dir b i e he (by simp)
      exact ⟨e', he', hp, hr⟩
    simp only [blockCheckEdges, (checkEdgeList_eq_ok_iff hb _ _ _ _).mpr (hboth _), ok_bind]
  · intro hall dir b i e he _
    obtain ⟨_, hinto, houtof⟩ := bind_eq_ok.mp (hall b (live_of_edge? he))
    have hdir : ∃ e', edge? d dir.op e.point e.reverseIndex = some e' ∧ e'.point = b ∧ e'.reverseIndex = i := by
      cases dir with
      | into => exact (checkEdgeList_eq_ok_iff (live_of_edge? he) _ _ _ _).mp hinto i e he
      | outof => exact (checkEdgeList_eq_ok_iff (live_of_edge? he) _ _ _ _).mp houtof i e he
    obtain ⟨e', he', hp, hr⟩ := hdir
    exact ⟨by simp, e', he', hp, hr, trivial⟩

/-- Two fresh blocks. -/
def twoBlocks : Blocks := ⟨[some (FlowBlock.new .plain), some (FlowBlock.new .plain)]⟩

theorem reachable_twoBlocks : Reachable twoBlocks := by
  have hblk (b : BlockId) : blk twoBlocks b = FlowBlock.new .plain := by
    match b with
    | 0 => rfl
    | 1 => rfl
    | b + 2 => rfl
  refine .start twoBlocks (fun b dir => ?_) fun b => ?_
  · rw [hblk]; cases dir <;> rfl
  · rw [hblk]; decide

end GhidraDecompiler.Block
