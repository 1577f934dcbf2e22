import GhidraDecompiler.Block.Irreducible
import Mathlib.Algebra.GroupWithZero.Nat

namespace GhidraDecompiler.Block

open Fallible Flow FlowBlock Relation

variable {d₀ d d' d'' : Blocks} {graph b bl : BlockId} {list path popped : List BlockId} {state : List Nat}

/-- Two states that differ at most in the scratch flags of the blocks and in
loop labels that were added. -/
structure MoreLoops (d d' : Blocks) : Prop where
  nextId : d'.nextId = d.nextId
  live : ∀ b, d'.Live b ↔ d.Live b
  list : ∀ b, (blk d' b).list = (blk d b).list
  edges : ∀ dir b i, edge? d' dir b i = edge? d dir b i ∨
    edge? d' dir b i = (edge? d dir b i).map (relabel (· ||| fLoopEdge))

namespace MoreLoops

theorem refl (d : Blocks) : MoreLoops d d := ⟨rfl, fun _ => Iff.rfl, fun _ => rfl, fun _ _ _ => .inl rfl⟩

theorem trans (h : MoreLoops d d') (h' : MoreLoops d' d'') : MoreLoops d d'' := by
  refine ⟨h'.nextId.trans h.nextId, fun b => (h'.live b).trans (h.live b), fun b => (h'.list b).trans (h.list b),
    fun dir b i => ?_⟩
  have hidem : relabel (· ||| fLoopEdge) ∘ relabel (· ||| fLoopEdge) = relabel (· ||| fLoopEdge) := by
    funext e
    simp [relabel, BitVec.or_assoc]
  rcases h'.edges dir b i with h₂ | h₂ <;> rcases h.edges dir b i with h₁ | h₁
  · exact .inl (h₂.trans h₁)
  · exact .inr (h₂.trans h₁)
  · exact .inr (by rw [h₂, h₁])
  · exact .inr (by rw [h₂, h₁, Option.map_map, hidem])

theorem edge?_eq (h : MoreLoops d d') {dir : Dir} {i : Nat} {e : BlockEdge} (he : edge? d' dir b i = some e) :
    ∃ f, edge? d dir b i = some f ∧ (e = f ∨ e = relabel (· ||| fLoopEdge) f) := by
  rcases h.edges dir b i with heq | heq
  · exact ⟨e, heq.symm.trans he, .inl rfl⟩
  · rw [heq, Option.map_eq_some_iff] at he
    obtain ⟨f, hf, rfl⟩ := he
    exact ⟨f, hf, .inr rfl⟩

theorem points (h : MoreLoops d d') (dir : Dir) (b : BlockId) : points d' dir b = points d dir b := by
  refine List.ext_getElem? fun i => ?_
  rw [points_getElem?, points_getElem?]
  rcases h.edges dir b i with heq | heq
  · rw [heq]
  · rw [heq, Option.map_map]
    rfl

theorem reciprocal (h : MoreLoops d d') (hr : Reciprocal d) : Reciprocal d' := by
  have hsame : SameEdges d d' := by
    intro dir b i
    rcases h.edges dir b i with heq | heq
    · rw [heq]
    · rw [heq, Option.map_map]
      congr 1
      funext e
      simp [strip, relabel, Flags.set_and_of_disjoint (show fLoopEdge &&& ~~~spanFlags = 0#32 by decide)]
  exact hsame.reciprocal hr

theorem update (hb : d.Live bl) (f : Flags → Flags) :
    MoreLoops d (d.update bl fun x => { x with flags := f x.flags }) := by
  refine ⟨by simp, by simp, fun c => ?_, fun dir c i => .inl (edge?_update hb (fun x dir => by cases dir <;> rfl) dir c i)⟩
  rw [blk_update hb]
  split
  next heq => rw [heq]
  next => rfl

/-- Two states whose labels agree except for the loop label. -/
theorem and_flag (h : MoreLoops d d') {dir : Dir} {i : Nat} {e : BlockEdge} (he : edge? d' dir b i = some e) :
    ∃ f, edge? d dir b i = some f ∧ e.point = f.point ∧ e.reverseIndex = f.reverseIndex ∧
      ∀ fl, (fLoopEdge &&& fl = 0#32 → e.label &&& fl = f.label &&& fl) ∧
        (e.label &&& fl = 0#32 → f.label &&& fl = 0#32) := by
  obtain ⟨f, hf, rfl | rfl⟩ := h.edge?_eq he
  · exact ⟨e, hf, rfl, rfl, fun fl => ⟨fun _ => rfl, id⟩⟩
  · refine ⟨f, hf, rfl, rfl, fun fl => ⟨fun hfl => Flags.set_and_of_disjoint hfl, fun hz => ?_⟩⟩
    rw [relabel, BitVec.and_or_distrib_right, BitVec.or_eq_zero_iff] at hz
    exact hz.1

end MoreLoops

/-- The search in `block_calc_loop`: the blocks of its path and those that it
has left carry the mark. -/
structure Walking (d₀ : Blocks) (list : List BlockId) (d : Blocks) (path popped : List BlockId) (state : List Nat) :
    Prop where
  more : MoreLoops d₀ d
  slots : List.Forall₂ (fun b k => k ≤ (points d₀ .outof b).length) path state
  nodup : (path ++ popped).Nodup
  sub : path ++ popped ⊆ list
  marked : ∀ b ∈ path ++ popped, (blk d b).flags &&& fMark ≠ 0#32

/-- The number of passes so far. -/
def walked (d₀ : Blocks) (popped : List BlockId) (state : List Nat) : Nat :=
  (popped.map fun b => (points d₀ .outof b).length + 1).sum + state.sum

theorem sum_slots_le {outs : BlockId → Nat} (h : List.Forall₂ (fun b k => k ≤ outs b) path state) :
    state.sum + path.length ≤ (path.map fun b => outs b + 1).sum := by
  induction h with
  | nil => simp
  | cons hk _ ih =>
      simp only [List.sum_cons, List.length_cons, List.map_cons]
      omega

theorem Walking.walked_le (h : Walking d₀ list d path popped state) :
    walked d₀ popped state + path.length ≤ (list.map fun b => (points d₀ .outof b).length + 1).sum := by
  have hpath := sum_slots_le h.slots
  obtain ⟨l, hl, hsub⟩ := h.nodup.subperm h.sub
  have hsum := (hsub.map fun b => (points d₀ .outof b).length + 1).sum_le_sum fun _ _ => Nat.zero_le _
  rw [(hl.map _).sum_eq, List.map_append, List.sum_append] at hsum
  rw [walked]
  omega

section Pass

variable (hg : FlowGraph d₀ graph)

include hg

theorem Walking.pass {bl : BlockId} {rest : List BlockId}
    (h : Walking d₀ (blk d₀ graph).list d (bl :: rest) popped state) :
    ∃ d' path' popped' state', calcLoopPass (d, bl :: rest, state) = .ok (.again (d', path', state')) ∧
      Walking d₀ (blk d₀ graph).list d' path' popped' state' ∧
      walked d₀ popped' state' = walked d₀ popped state + 1 := by
  obtain ⟨slot, slots, rfl⟩ : ∃ slot slots, state = slot :: slots := by
    cases h.slots with
    | cons => exact ⟨_, _, rfl⟩
  obtain ⟨hslot, hslots⟩ := List.forall₂_cons.mp h.slots
  have hbl : bl ∈ (blk d₀ graph).list := h.sub (by simp)
  have hlive (c : BlockId) (hc : c ∈ (blk d₀ graph).list) : d.Live c := (h.more.live c).mpr (hg.list_live c hc)
  have hlen : (blk d bl).outofthis.length = (points d₀ .outof bl).length := by
    rw [← h.more.points, points, List.length_map, FlowBlock.edges]
  have hwalked : walked d₀ popped ((slot + 1) :: slots) = walked d₀ popped (slot :: slots) + 1 := by
    simp only [walked, List.sum_cons]
    omega
  by_cases hend : slot ≥ (blk d bl).outofthis.length
  · have heq : slot = (points d₀ .outof bl).length := by omega
    refine ⟨d.update bl (clearFlag fMark2), rest, bl :: popped, slots, ?_, ⟨h.more.trans (.update (hlive bl hbl) (· &&& ~~~fMark2)), hslots,
      (List.perm_middle.nodup_iff).mpr h.nodup, fun c hc => h.sub (List.perm_middle.subset hc), fun c hc => ?_⟩, ?_⟩
    · simp only [calcLoopPass, List.head?_cons, expect_some, ok_bind, get_of_live (hlive bl hbl), if_pos hend,
        Arena.modify_eq _ (hlive bl hbl), List.tail_cons, pure_eq_ok]
    · have hc' := h.marked c (List.perm_middle.subset hc)
      rw [blk_update (hlive bl hbl)]
      split
      next hcb =>
        subst hcb
        rwa [clearFlag, Flags.clear_and_of_disjoint (by decide)]
      next => exact hc'
    · simp only [walked, List.map_cons, List.sum_cons, heq]
      omega
  · have hlt : slot < (points d₀ .outof bl).length := by omega
    obtain ⟨e, he⟩ : ∃ e, edge? d .outof bl slot = some e := exists_edge? (by rwa [h.more.points])
    have hget : getIdx (blk d bl).outofthis slot = .ok e := getIdx_eq he
    have hnext : e.point ∈ (blk d₀ graph).list := by
      refine hg.inside bl hbl .outof (List.mem_of_getElem? (i := slot) ?_)
      rw [← h.more.points, points_getElem?, he, Option.map_some]
    have hslots' : List.Forall₂ (fun b k => k ≤ (points d₀ .outof b).length) (bl :: rest) ((slot + 1) :: slots) :=
      .cons hlt hslots
    have hrun : calcLoopPass (d, bl :: rest, slot :: slots) =
        if e.label &&& fLoopEdge ≠ 0#32 then .ok (.again (d, bl :: rest, (slot + 1) :: slots))
        else if (blk d e.point).flags &&& fMark2 ≠ 0#32 then
          (do pure (.again (← blockAddLoopEdge d bl slot, bl :: rest, (slot + 1) :: slots)))
        else if (blk d e.point).flags &&& fMark = 0#32 then
          .ok (.again (d.update e.point (setFlag (fMark ||| fMark2)), e.point :: bl :: rest, 0 :: (slot + 1) :: slots))
        else .ok (.again (d, bl :: rest, (slot + 1) :: slots)) := by
      simp only [calcLoopPass, List.head?_cons, expect_some, ok_bind, get_of_live (hlive bl hbl), if_neg hend, hget,
        List.tail_cons, get_of_live (hlive _ hnext), Arena.modify_eq _ (hlive _ hnext), pure_eq_ok]
    rw [hrun]
    have hkeep : Walking d₀ (blk d₀ graph).list d (bl :: rest) popped ((slot + 1) :: slots) :=
      ⟨h.more, hslots', h.nodup, h.sub, h.marked⟩
    split
    · exact ⟨d, bl :: rest, popped, _, rfl, hkeep, hwalked⟩
    split
    · obtain ⟨d', hrun', hcore, hedge⟩ := relabelOutEdge_spec (h.more.reciprocal hg.reciprocal) he (· ||| fLoopEdge)
      have hmore : MoreLoops d d' := by
        refine ⟨hcore.nextId, hcore.live, hcore.list, fun dir c i => ?_⟩
        rw [hedge]
        cases hf : edge? d dir c i with
        | none => exact .inl rfl
        | some f =>
            by_cases ho : origin dir c i f = (bl, slot)
            · exact .inr (by simp [ho])
            · exact .inl (by simp [ho])
      refine ⟨d', bl :: rest, popped, _, ?_, ⟨h.more.trans hmore, hslots', h.nodup, h.sub, fun c hc => ?_⟩, hwalked⟩
      · rw [blockAddLoopEdge, blockSetOutEdgeFlag_eq, hrun', ok_bind, pure_eq_ok]
      · rw [hcore.flags c]
        exact h.marked c hc
    split
    next hfresh =>
      have hnew : e.point ∉ bl :: rest ++ popped := fun hmem => h.marked _ hmem hfresh
      refine ⟨_, e.point :: bl :: rest, popped, _, rfl, ⟨h.more.trans (.update (hlive _ hnext) (· ||| (fMark ||| fMark2))),
        .cons (Nat.zero_le _) hslots',
        List.nodup_cons.mpr ⟨hnew, h.nodup⟩, List.cons_subset.mpr ⟨hnext, h.sub⟩, fun c hc => ?_⟩, ?_⟩
      · rw [blk_update (hlive _ hnext)]
        split
        next => exact Flags.set_and_ne_zero (by decide)
        next hne => exact h.marked c ((List.mem_cons.mp hc).resolve_left hne)
      · rw [← hwalked, walked, walked, List.sum_cons, Nat.zero_add]
    next => exact ⟨d, bl :: rest, popped, _, rfl, hkeep, hwalked⟩

theorem blockCalcLoop_spec (hmore : MoreLoops d₀ d) : ∃ d', blockCalcLoop d graph = .ok d' ∧ MoreLoops d₀ d' := by
  have hgl : d.Live graph := (hmore.live graph).mpr hg.live
  have hlist : (blk d graph).list = (blk d₀ graph).list := hmore.list graph
  cases hl : (blk d₀ graph).list with
  | nil => exact ⟨d, by simp only [blockCalcLoop, get_of_live hgl, ok_bind, hlist, hl, pure_eq_ok], hmore⟩
  | cons first rest =>
      have hfirst : d.Live first := (hmore.live first).mpr (hg.list_live first (by simp [hl]))
      let d₁ := d.update first (setFlag (fMark ||| fMark2))
      let total := ((blk d₀ graph).list.map fun b => (points d₀ .outof b).length + 1).sum
      have hmore₁ : MoreLoops d₀ d₁ := hmore.trans (.update hfirst (· ||| (fMark ||| fMark2)))
      have hfuel : walkFuel d₁ (first :: rest) = total + 1 := by
        have hlen (b : BlockId) : (blk d₁ b).outofthis.length = (points d₀ .outof b).length := by
          rw [← hmore₁.points, points, List.length_map, FlowBlock.edges]
        simp only [walkFuel, total, hl, hlen]
      have hstart : Walking d₀ (blk d₀ graph).list d₁ [first] [] [0] := by
        refine ⟨hmore₁, .cons (Nat.zero_le _) .nil, by simp, by simp [hl], fun b hb => ?_⟩
        obtain rfl : b = first := by simpa using hb
        rw [blk_update_self hfirst]
        exact Flags.set_and_ne_zero (by decide)
      let Inv : Nat → Blocks × List BlockId × List Nat → Prop := fun n x => ∃ popped,
        Walking d₀ (blk d₀ graph).list x.1 x.2.1 popped x.2.2 ∧ n + walked d₀ popped x.2.2 = total
      have hbody (n : Nat) (x : Blocks × List BlockId × List Nat) (hi : Inv n x) :
          (∃ r, calcLoopPass x = .ok (.leave r) ∧ MoreLoops d₀ r) ∨
            ∃ x' m, calcLoopPass x = .ok (.again x') ∧ m < n ∧ Inv m x' := by
        obtain ⟨d', path, state⟩ := x
        obtain ⟨popped, hw, hn⟩ := hi
        dsimp only at hw hn
        cases path with
        | nil => exact .inl ⟨d', by simp [calcLoopPass], hw.more⟩
        | cons bl rest' =>
            have hle : walked d₀ popped state + (rest'.length + 1) ≤ total := hw.walked_le
            obtain ⟨d'', path', popped', state', hrun, hw', hwalked⟩ := hw.pass hg
            exact .inr ⟨(d'', path', state'), n - 1, hrun, by omega, popped', hw', by dsimp only; omega⟩
      obtain ⟨d₂, hrun₂, hmore₂⟩ := loop_bounded Inv (MoreLoops d₀) hbody (s := (d₁, [first], [0])) (k := total + 1)
        (n := total) ⟨[], hstart, by simp [walked]⟩ (Nat.lt_succ_self _)
      obtain ⟨d₃, hrun₃, hnext₃, hlive₃, hblk₃⟩ := modifyAll_spec (d := d₂) (l := first :: rest)
        (fun _ => clearFlag (fMark ||| fMark2)) (fun _ x => by simp [clearFlag, BitVec.and_assoc])
        fun b hb => (hmore₂.live b).mpr (hg.list_live b (hl ▸ hb))
      refine ⟨d₃, ?_, hmore₂.trans ⟨hnext₃, hlive₃, fun b => ?_, fun dir b i => .inl ?_⟩⟩
      · simp only [blockCalcLoop, get_of_live hgl, ok_bind, hlist, hl, Arena.modify_eq _ hfirst]
        rw [hfuel, hrun₂, ok_bind, hrun₃]
      · rw [hblk₃]
        split <;> rfl
      · rw [edge?, hblk₃, edge?]
        split
        next => cases dir <;> rfl
        next => rfl

end Pass

section Structure

variable {s : Search BlockId} {cm : BlockId → BlockId} {irr : BlockId → Nat → Prop} {M : Set BlockId} {d₁ d₂ : Blocks}
  {rootlist : List BlockId}

theorem Looping.flowGraph (h : Looping d₀ (blk d₀ graph).list s d cm irr) (hg : FlowGraph d₀ graph) : FlowGraph d graph := by
  have hlist : (blk d graph).list = (blk d₀ graph).list := by
    simpa [loopFrame, frame, core] using congrArg FlowBlock.list (h.blocks graph)
  refine ⟨(h.live graph).mpr hg.live, h.edges.reciprocal hg.reciprocal, hlist ▸ hg.nodup, fun b hb => ?_, fun b hb dir => ?_⟩
  · exact (h.live b).mpr (hg.list_live b (hlist ▸ hb))
  · rw [h.edges.points, hlist]
    exact hg.inside b (hlist ▸ hb) dir

/-- One pass of the loop of `block_structure_loops` is enough. -/
theorem Spanned.structureLoops (hs : Spanned d₀ graph d₁ s rootlist)
    (hrun : blockFindSpanningTree d graph [] [] = .ok (d₁, s.pre, rootlist)) (hmarks : Marks (blk d₀ graph).list M [] d₁)
    (P : List BlockId → (BlockId → BlockId) → (BlockId → Nat → Prop) → Prop) (hstart : P [] id fun _ _ => False)
    (hstep : ∀ before x after, s.pre.reverse = before ++ x :: after → ∀ U cm cm' irr irr', s.Nested (s.visit x + 1) cm →
      s.Collapse (points d₀ .outof) x M U cm cm' irr irr' → P before cm irr → P (before ++ [x]) cm' irr') :
    ∃ d₂ d' cm irr, Looping d₀ (blk d₀ graph).list s d₂ cm irr ∧ P s.pre.reverse cm irr ∧ MoreLoops d₂ d' ∧
      ∀ n, blockStructureLoops (n + 1) d graph [] = .ok (d', rootlist) := by
  obtain ⟨st, cm, irr, hheads, hl, -, hneed, hP⟩ := visitHeads_spec hs P hstart hstep hmarks 0
  have hpass : structurePass graph (d, [], [], 0) = .ok (.leave (st.d, rootlist, st.irreduciblecount)) := by
    simp only [structurePass, hrun, ok_bind, blockFindIrreducible, hheads, pure_eq_ok, hneed]
    rfl
  obtain ⟨d', hcalc, hmore⟩ := blockCalcLoop_spec (hl.flowGraph hs.flow) (MoreLoops.refl st.d)
  by_cases hpos : st.irreduciblecount > 0
  · refine ⟨st.d, d', cm, irr, hl, hP, hmore, fun n => ?_⟩
    rw [blockStructureLoops, loop_succ_leave hpass n, ok_bind]
    simp only [if_pos hpos, hcalc, ok_bind, pure_eq_ok]
  · refine ⟨st.d, st.d, cm, irr, hl, hP, .refl st.d, fun n => ?_⟩
    rw [blockStructureLoops, loop_succ_leave hpass n, ok_bind]
    simp only [if_neg hpos, pure_eq_ok]

theorem blockStructureLoops_nil (hg : d.Live graph) (hnil : (blk d graph).list = []) (n : Nat) :
    blockStructureLoops (n + 1) d graph [] = .ok (d, []) := by
  have hpass : structurePass graph (d, [], [], 0) = .ok (.leave (d, [], 0)) := by
    simp only [structurePass, blockFindSpanningTree, get_of_live hg, ok_bind, hnil, if_true, pure_eq_ok,
      blockFindIrreducible, List.reverse_nil, List.foldlM_nil]
    rfl
  rw [blockStructureLoops, loop_succ_leave hpass n]
  rfl

/-- On every graph `block_find_irreducible` leaves the tree edges alone and does
not ask for another spanning tree, so that one pass is enough. -/
theorem structure_loops_ends (d : Blocks) (graph : BlockId) (hg : FlowGraph d graph) :
    (∀ d₁ preorder rootlist, blockFindSpanningTree d graph [] [] = .ok (d₁, preorder, rootlist) → ∀ count,
      ∃ d₂ count', blockFindIrreducible d₁ preorder count = .ok (d₂, count', false) ∧
        ∀ b ∈ (blk d graph).list, ∀ dir i e, edge? d₂ dir b i = some e → e.label &&& fTreeEdge ≠ 0#32 →
          e.label &&& fIrreducible = 0#32) ∧
    ∀ n, ∃ d' rootlist, blockStructureLoops (n + 1) d graph [] = .ok (d', rootlist) := by
  by_cases hne : (blk d graph).list = []
  · refine ⟨fun d₁ preorder rootlist hrun count => ?_, fun n => ⟨d, [], blockStructureLoops_nil hg.live hne n⟩⟩
    simp only [blockFindSpanningTree, get_of_live hg.live, ok_bind, if_pos hne, pure_eq_ok, Except.ok.injEq,
      Prod.mk.injEq] at hrun
    obtain ⟨rfl, rfl, rfl⟩ := hrun
    exact ⟨d, count, rfl, by simp [hne]⟩
  · obtain ⟨d₁, s, rootlist, hrun, hperm, hs, -, -⟩ := blockFindSpanningTree_spec hg hne
    have hlist := list_withList hg.live s.post.reverse
    have hmarks : Marks (blk (withList d graph s.post.reverse) graph).list Set.univ [] d₁ := ⟨by simp, by simp⟩
    let P : List BlockId → (BlockId → BlockId) → (BlockId → Nat → Prop) → Prop :=
      fun _ _ irr => ∀ z i, irr z i → s.cls z i ≠ some .tree
    have hstep (before : List BlockId) (x : BlockId) (after : List BlockId) (hx : s.pre.reverse = before ++ x :: after)
        (U : Set BlockId) (cm cm' : BlockId → BlockId) (irr irr' : BlockId → Nat → Prop)
        (hn : s.Nested (s.visit x + 1) cm)
        (hc : s.Collapse (points (withList d graph s.post.reverse) .outof) x Set.univ U cm cm' irr irr')
        (hP : P before cm irr) : P (before ++ [x]) cm' irr' :=
      hc.not_tree hs.inv hn (List.mem_reverse.mp (hx ▸ by simp)) hs.source hP
    refine ⟨fun d₁' preorder rootlist' hrun' count => ?_, fun n => ?_⟩
    · obtain ⟨rfl, rfl, rfl⟩ : d₁ = d₁' ∧ s.pre = preorder ∧ rootlist = rootlist' := by simpa [hrun] using hrun'
      obtain ⟨st, cm, irr, hheads, hl, -, hneed, hP⟩ := visitHeads_spec hs P (by simp [P]) hstep hmarks count
      refine ⟨st.d, st.irreduciblecount, ?_, fun b hb dir i e he htree => ?_⟩
      · simp only [blockFindIrreducible, hheads, ok_bind, pure_eq_ok, hneed]
      · have hb' : b ∈ (blk (withList d graph s.post.reverse) graph).list := by rwa [hlist, hperm.mem_iff]
        by_contra hirr
        refine hP _ _ ((hl.labels b hb' dir i e he).2.mp hirr) (eq_tree_of_and ?_)
        rwa [hl.and_flag hb' he fTreeEdge (by decide)] at htree
    · obtain ⟨-, d', -, -, -, -, -, hloops⟩ := hs.structureLoops hrun hmarks P (by simp [P]) hstep
      exact ⟨d', rootlist, hloops n⟩

theorem structure_loops_ends_cycle :
    (∃ d₁ preorder rootlist, blockFindSpanningTree cycle 0 [] [] = .ok (d₁, preorder, rootlist) ∧
      ∃ d₂ count', blockFindIrreducible d₁ preorder 0 = .ok (d₂, count', false)) ∧
    ∃ d' rootlist, blockStructureLoops 1 cycle 0 [] = .ok (d', rootlist) := by
  obtain ⟨hfind, hloops⟩ := structure_loops_ends cycle 0 flowGraph_cycle
  obtain ⟨d₁, s, rootlist, hrun, -⟩ := blockFindSpanningTree_spec flowGraph_cycle (by decide)
  obtain ⟨d₂, count', hirr, -⟩ := hfind d₁ s.pre rootlist hrun 0
  exact ⟨⟨d₁, s.pre, rootlist, hrun, d₂, count', hirr⟩, hloops 0⟩

/-- There is an edge with one of the labels. -/
def EdgeWith (d : Blocks) (fl : Flags) (a b : BlockId) : Prop :=
  ∃ i e, edge? d .outof a i = some e ∧ e.point = b ∧ e.label &&& fl ≠ 0#32

def EdgeWithout (d : Blocks) (fl : Flags) (a b : BlockId) : Prop :=
  ∃ i e, edge? d .outof a i = some e ∧ e.point = b ∧ e.label &&& fl = 0#32

theorem edgeWith_iff {fl : Flags} {a b : BlockId} {Q : Nat → Prop}
    (h : ∀ i e, edge? d .outof a i = some e → (e.label &&& fl ≠ 0#32 ↔ Q i)) :
    EdgeWith d fl a b ↔ ∃ i, Q i ∧ (points d .outof a)[i]? = some b := by
  constructor
  · rintro ⟨i, e, he, rfl, hfl⟩
    exact ⟨i, (h i e he).mp hfl, by rw [points_getElem?, he, Option.map_some]⟩
  · rintro ⟨i, hQ, hb⟩
    rw [points_getElem?, Option.map_eq_some_iff] at hb
    obtain ⟨e, he, rfl⟩ := hb
    exact ⟨i, e, he, rfl, (h i e he).mpr hQ⟩

theorem MoreLoops.edgeWith_iff (h : MoreLoops d d') {fl : Flags} (hfl : fLoopEdge &&& fl = 0#32) {a b : BlockId} :
    EdgeWith d' fl a b ↔ EdgeWith d fl a b := by
  have hiff (i : Nat) (e : BlockEdge) (he : edge? d' .outof a i = some e) : e.label &&& fl ≠ 0#32 ↔
      ∃ f, edge? d .outof a i = some f ∧ f.label &&& fl ≠ 0#32 := by
    obtain ⟨f, hf, -, -, hflag⟩ := h.and_flag he
    simp [hf, (hflag fl).1 hfl]
  rw [Block.edgeWith_iff hiff, h.points]
  refine (Block.edgeWith_iff fun i e he => ?_).symm
  simp [he]

/-- Edges without the loop label decrease the position among the finished
blocks. -/
theorem Looping.finished_first (h : Looping d₀ (blk d₀ graph).list s d₂ cm irr) (hs : Spanned d₀ graph d₁ s rootlist)
    (hmore : MoreLoops d₂ d') {a b : BlockId} (ha : a ∈ (blk d₀ graph).list) (hab : EdgeWithout d' fLoopEdge a b) :
    b ∈ (blk d₀ graph).list ∧ s.post.idxOf b < s.post.idxOf a := by
  obtain ⟨i, e, he, rfl, hloop⟩ := hab
  obtain ⟨f, hf, hp, -, hflag⟩ := hmore.and_flag he
  have hsucc : (points d₀ .outof a)[i]? = some e.point := by
    rw [← h.edges.points, points_getElem?, hf, Option.map_some, hp]
  have hb := hs.flow.inside a ha .outof (List.mem_of_getElem? hsucc)
  refine ⟨hb, hs.inv.finished_first (hs.mem_post.mpr ha) hsucc (fun hback => ?_) (hs.mem_post.mpr hb)⟩
  have hzero := (hflag fLoopEdge).2 hloop
  rw [h.and_flag ha hf fLoopEdge (by decide), origin, hback] at hzero
  exact absurd hzero (by decide)

/-- What the loops look like in a graph that is entered from `r` only. -/
def Reducible (succ : BlockId → List BlockId) (s : Search BlockId) (r : BlockId) (before : List BlockId)
    (cm : BlockId → BlockId) (irr : BlockId → Nat → Prop) : Prop :=
  (∀ z i, irr z i → ∃ m ∈ s.pre, (succ z)[i]? = some m) ∧
  ((∀ z i, ¬ irr z i) → s.Dominated succ r cm ∧ ∀ x ∈ before, ∀ y i, s.cls y i = some .back → (succ y)[i]? = some x →
    Dominates (fun v w => w ∈ succ v) r x y) ∧
  ((∀ x y i, s.cls y i = some .back → (succ y)[i]? = some x → Dominates (fun v w => w ∈ succ v) r x y) →
    (∀ z i, ¬ irr z i) ∧ s.Dominated succ r cm)

theorem Reducible.step {succ : BlockId → List BlockId} {r x : BlockId} {before : List BlockId} {U : Set BlockId}
    {cm' : BlockId → BlockId} {irr' : BlockId → Nat → Prop} (h : Reducible succ s r before cm irr) (hr : s.Single succ r)
    (hx : x ∈ s.pre) (hn : s.Nested (s.visit x + 1) cm) (hc : s.Collapse succ x ∅ U cm cm' irr irr') :
    Reducible succ s r (before ++ [x]) cm' irr' := by
  refine ⟨fun z i hz => ?_, fun hirr => ?_, fun hback => ?_⟩
  · rcases hc.marks z i hz with hz | ⟨m, hm, hzm, -⟩
    · exact h.1 z i hz
    · exact ⟨m, ((hc.sound m hm).inside hr.inv hn hx hr.source).1, hzm⟩
  · obtain ⟨hD, hback⟩ := h.2.1 fun z i hz => hirr z i (hc.mono z i hz)
    obtain ⟨hD', hback'⟩ := hc.reducible hr hn hD hx rfl hirr
    refine ⟨hD', fun x' hx' => ?_⟩
    rcases List.mem_append.mp hx' with hx' | hx'
    · exact hback x' hx'
    · exact List.mem_singleton.mp hx' ▸ hback'
  · obtain ⟨hirr, hD⟩ := h.2.2 hback
    exact hc.unmarked hr hn hD hx hirr fun y i => hback x y i

/-- The first block is the entry of a graph that it spans. -/
theorem isEntry_of_head (hg : FlowGraph d graph) {r : BlockId} (hhead : (blk d graph).list.head? = some r)
    (hr : Spans d (blk d graph).list [r]) : IsEntry d (blk d graph).list r := by
  by_cases hsource : points d .into r = []
  · refine .inl ?_
    obtain ⟨rest, hlist⟩ : ∃ rest, (blk d graph).list = r :: rest := ⟨_, (List.head?_eq_some_iff.mp hhead).choose_spec⟩
    have hnodup := hg.nodup
    rw [hlist, List.nodup_cons] at hnodup
    rw [hlist, List.filter_cons_of_pos (by simpa using hsource), List.filter_eq_nil_iff.mpr fun b hb hin => ?_]
    obtain ⟨r', hr', hrb⟩ := hr b (by simp [hlist, hb])
    obtain rfl := List.mem_singleton.mp hr'
    exact hnodup.1 (eq_of_reach_source hg.reciprocal (by simpa using hin) hrb ▸ hb)
  · refine .inr ⟨List.filter_eq_nil_iff.mpr fun b hb hin => ?_, hhead⟩
    obtain ⟨r', hr', hrb⟩ := hr b hb
    obtain rfl := List.mem_singleton.mp hr'
    rw [← eq_of_reach_source hg.reciprocal (by simpa using hin) hrb] at hin
    exact hsource (by simpa using hin)

/-- In a graph that is entered from `r` only, the edges are irreducible exactly
when a loop can be entered past its head, and the loop edges cut all cycles. -/
theorem loops_marked_exactly (d : Blocks) (graph r : BlockId) (hg : FlowGraph d graph)
    (hr : Spans d (blk d graph).list [r])
    (hroot : (blk d graph).list.head? = some r ∨ ∀ r', Spans d (blk d graph).list [r'] → r' = r)
    (hmark : ∀ b ∈ (blk d graph).list, (blk d b).isMark = false) :
    ∃ d' rootlist, (∀ n, blockStructureLoops (n + 1) d graph [] = .ok (d', rootlist)) ∧
      (∀ dir b, points d' dir b = points d dir b) ∧
      ((∀ a ∈ (blk d graph).list, ∀ b, ¬ EdgeWith d' fIrreducible a b) ↔
        ∀ a ∈ (blk d graph).list, ∀ b, EdgeWith d' fBackEdge a b → Dominates (Edge d) r b a) ∧
      ∀ a ∈ (blk d graph).list, ¬ TransGen (EdgeWithout d' fLoopEdge) a a := by
  by_cases hne : (blk d graph).list = []
  · refine ⟨d, [], fun n => blockStructureLoops_nil hg.live hne n, fun _ _ => rfl, ?_, ?_⟩ <;> simp [hne]
  obtain ⟨d₁, s, rootlist, hrun, hperm, hs, hentry, hsingle⟩ := blockFindSpanningTree_spec hg hne
  obtain ⟨d₀, hd₀⟩ : ∃ d₀, withList d graph s.post.reverse = d₀ := ⟨_, rfl⟩
  have hpoints (dir : Dir) : points d₀ dir = points d dir := by
    funext b
    rw [← hd₀, points_withList hg.live]
  have hmem (b : BlockId) : b ∈ (blk d₀ graph).list ↔ b ∈ (blk d graph).list := by
    rw [← hd₀, list_withList hg.live, hperm.mem_iff]
  rw [hd₀] at hs
  have hcover : s.Covered (points d₀ .outof) {b | b ∈ [r]} := by
    rcases hroot with hhead | hunique
    · exact hentry r (isEntry_of_head hg hhead hr) hr ▸ hs.covered
    · obtain ⟨r', hr', hcover⟩ := hsingle r hr
      exact hpoints .outof ▸ hunique r' hr' ▸ hcover
  have hrl : r ∈ s.pre := by
    obtain ⟨b, hb⟩ := List.exists_mem_of_ne_nil _ hne
    obtain ⟨r', hr', hrb⟩ := hr b hb
    exact (hs.mem r).mpr ((hmem r).mpr (hg.mem_of_reach hb (List.mem_singleton.mp hr' ▸ hrb)))
  have htree : s.Single (points d₀ .outof) r := by
    refine ⟨hs.inv, hrl, fun b hb => ?_, hs.source⟩
    obtain ⟨r', hr', hrb⟩ := hcover.exists_root hs.inv hb
    exact List.mem_singleton.mp hr' ▸ hrb
  have hmarks : Marks (blk d₀ graph).list ∅ [] d₁ := by
    refine ⟨by simp, fun b hb hb' => ?_⟩
    have hflags : (blk d₁ b).flags = (blk d b).flags := by
      rw [hs.shows.frame.flags b, ← hd₀, withList, blk_update hg.live]
      split
      next heq => rw [heq]
      next => rfl
    rw [isMark, hflags, ← isMark, hmark b ((hmem b).mp hb)] at hb'
    simp at hb'
  obtain ⟨d₂, d', cm, irr, hl, ⟨hreal, hno, hall⟩, hmore, hloops⟩ := hs.structureLoops hrun hmarks
    (Reducible (points d₀ .outof) s r)
    ⟨by simp, fun _ => ⟨fun b _ => dominates_refl b, by simp⟩, fun _ => ⟨by simp, fun b _ => dominates_refl b⟩⟩
    (fun before x after hx U cm cm' irr irr' hn hc hP => hP.step htree (List.mem_reverse.mp (hx ▸ by simp)) hn hc)
  have hirr {a b : BlockId} (ha : a ∈ (blk d₀ graph).list) : EdgeWith d' fIrreducible a b ↔
      ∃ i, irr a i ∧ (points d₀ .outof a)[i]? = some b := by
    rw [hmore.edgeWith_iff (by decide), edgeWith_iff (Q := irr a) fun i e he => (hl.labels a ha .outof i e he).2,
      hl.edges.points]
  have hback {a b : BlockId} (ha : a ∈ (blk d₀ graph).list) : EdgeWith d' fBackEdge a b ↔
      ∃ i, s.cls a i = some .back ∧ (points d₀ .outof a)[i]? = some b := by
    rw [hmore.edgeWith_iff (by decide), edgeWith_iff fun i e he => ?_, hl.edges.points]
    rw [hl.and_flag ha he fBackEdge (by decide), origin]
    exact ⟨eq_back_of_and, fun hcls => hcls ▸ by decide⟩
  have hdom : Dominates (Edge d) r = Dominates (fun v w => w ∈ points d₀ .outof v) r := by
    rw [hpoints]
    rfl
  refine ⟨d', rootlist, hloops, fun dir b => ?_, ⟨fun hnone a ha b hab => ?_, fun hdoms a ha b hab => ?_⟩,
    fun a ha hcycle => ?_⟩
  · rw [hmore.points, hl.edges.points, hpoints]
  · have hnone' (z : BlockId) (i : Nat) : ¬ irr z i := by
      intro hz
      obtain ⟨m, hm, hzm⟩ := hreal z i hz
      have hzl := (hs.mem z).mp (hs.source z m hm (List.mem_of_getElem? hzm))
      exact hnone z ((hmem z).mp hzl) m ((hirr hzl).mpr ⟨i, hz, hzm⟩)
    obtain ⟨i, hcls, hb⟩ := (hback ((hmem a).mpr ha)).mp hab
    have hbl := hs.flow.inside a ((hmem a).mpr ha) .outof (List.mem_of_getElem? hb)
    rw [hdom]
    exact (hno hnone').2 b (List.mem_reverse.mpr ((hs.mem b).mpr hbl)) a i hcls hb
  · obtain ⟨i, hi, -⟩ := (hirr ((hmem a).mpr ha)).mp hab
    refine (hall fun x y j hcls hy => ?_).1 a i hi
    have hyl := (hs.mem y).mp (hs.inv.inside_of_back hcls hy).1
    rw [← hdom]
    exact hdoms y ((hmem y).mp hyl) x ((hback hyl).mpr ⟨j, hcls, hy⟩)
  · have hlt (b : BlockId) (hab : TransGen (EdgeWithout d' fLoopEdge) a b) :
        b ∈ (blk d₀ graph).list ∧ s.post.idxOf b < s.post.idxOf a := by
      induction hab with
      | single hab => exact hl.finished_first hs hmore ((hmem a).mpr ha) hab
      | tail _ hbc ih =>
          obtain ⟨hc, hlt⟩ := hl.finished_first hs hmore ih.1 hbc
          exact ⟨hc, hlt.trans ih.2⟩
    exact absurd (hlt a hcycle).2 (lt_irrefl _)

theorem loops_marked_exactly_cycle : ∃ d' rootlist, blockStructureLoops 1 cycle 0 [] = .ok (d', rootlist) ∧
    ((∀ a ∈ [1, 2], ∀ b, ¬ EdgeWith d' fIrreducible a b) ↔
      ∀ a ∈ [1, 2], ∀ b, EdgeWith d' fBackEdge a b → Dominates (Edge cycle) 1 b a) ∧
    ∀ a ∈ [1, 2], ¬ TransGen (EdgeWithout d' fLoopEdge) a a := by
  have hr : Spans cycle [1, 2] [1] := by
    have hedge : Edge cycle 1 2 := show 2 ∈ points cycle .outof 1 by decide
    intro b hb
    rcases List.mem_pair.mp hb with rfl | rfl
    · exact ⟨1, by simp, .refl⟩
    · exact ⟨1, by simp, .single hedge⟩
  obtain ⟨d', rootlist, hloops, -, hiff, hcut⟩ := loops_marked_exactly cycle 0 1 flowGraph_cycle hr (.inl rfl) (by decide)
  exact ⟨d', rootlist, hloops 0, hiff, hcut⟩

end Structure

end GhidraDecompiler.Block
