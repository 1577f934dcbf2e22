import GhidraDecompiler.Block.ForwardDominator
import GhidraDecompiler.Block.SpanningForest

namespace GhidraDecompiler.Block

open Fallible Flow

variable {d₀ d d' : Blocks} {graph r a b : BlockId} {list rootlist : List BlockId} {s : Search BlockId}

/-- The graph with a virtual root above all roots; the virtual root is `none`. -/
inductive ExtendedEdge (d : Blocks) (rootlist : List BlockId) : Option BlockId → Option BlockId → Prop
  | root {b : BlockId} (hb : b ∈ rootlist) : ExtendedEdge d rootlist none (some b)
  | edge {a b : BlockId} (hab : Edge d a b) : ExtendedEdge d rootlist (some a) (some b)

/-- The first block of the list was finished last, so it is a root. -/
theorem Spanned.head_mem_roots (h : Spanned d₀ graph d s rootlist) (hr : (blk d₀ graph).list.head? = some r) :
    r ∈ rootlist := by
  have hrl : r ∈ (blk d₀ graph).list := List.mem_of_mem_head? hr
  refine (h.covered r ((h.mem r).mpr hrl)).resolve_right ?_
  rintro ⟨v, i, hi, hvr⟩
  obtain ⟨hv, -, -⟩ := h.inv.fits_tree ⟨i, hi, hvr⟩
  have hvp := h.mem_post.mpr ((h.mem v).mp hv)
  have hlt := h.inv.finished_first hvp hvr (by simp [hi]) (h.mem_post.mpr hrl)
  have hlast : s.post.idxOf r = s.post.length - 1 := by
    rw [h.list, List.head?_reverse, List.getLast?_eq_getElem?] at hr
    obtain ⟨hlen, hget⟩ := List.getElem?_eq_some_iff.mp hr
    rw [← hget, h.inv.post_nodup.idxOf_getElem]
  have := List.idxOf_lt_length_of_mem hvp
  omega

/-- The dominator computation can start from what the search leaves. -/
theorem Spanned.domInput (h : Spanned d₀ graph d s rootlist) (hr : (blk d₀ graph).list.head? = some r) :
    DomInput d (blk d graph).list rootlist r := by
  have hg := h.flow.of_sameFrame h.shows.frame
  have hlist := h.list_eq
  have hidx {b : BlockId} (hb : b ∈ (blk d graph).list) : ((blk d graph).list.idxOf b : Int) = (blk d b).index :=
    (h.indexed _ b (Placed.getElem?_idxOf hb)).symm
  refine ⟨hg.reciprocal, hlist ▸ hr, hg.nodup, hg.inside, hg.list_live, h.indexed, h.roots_nodup, hlist ▸ h.roots_sub,
    h.head_mem_roots hr, fun b hb hbr => ?_⟩
  have hrl : r ∈ (blk d graph).list := hlist ▸ List.mem_of_mem_head? hr
  by_cases hroot : b ∈ rootlist
  · refine ⟨r, ⟨hb, .inr ⟨rfl, hroot, hbr⟩⟩, ?_⟩
    have hzero : (blk d graph).list.idxOf r = 0 := by
      obtain ⟨l, hl⟩ := List.head?_eq_some_iff.mp hr
      simp [hlist, hl]
    have hne : (blk d graph).list.idxOf b ≠ 0 := fun h0 => hbr ((List.idxOf_inj hb).mp (h0.trans hzero.symm))
    omega
  · obtain ⟨v, i, hi, hvb⟩ := (h.covered b ((h.mem b).mpr (hlist ▸ hb))).resolve_left hroot
    have hv : v ∈ (blk d₀ graph).list := (h.mem v).mp (h.inv.fits_tree ⟨i, hi, hvb⟩).1
    have hvin : v ∈ points d .into b := by
      rw [h.shows.frame.points]
      exact h.flow.reciprocal.mem_points_op.mp (List.mem_of_getElem? hvb)
    refine ⟨v, ⟨hb, .inl hvin⟩, ?_⟩
    rw [← h.shows.frame.points, points_getElem?, Option.map_eq_some_iff] at hvb
    obtain ⟨e, he, rfl⟩ := hvb
    have hlabel := h.shows.labels v hv .outof i e he
    rw [origin, hi] at hlabel
    have hlt := h.index_lt hv he (by rw [and_flag_of_span hlabel (by decide)]; decide)
    rw [← hidx (hlist ▸ hv), ← hidx hb] at hlt
    omega

section Compare

variable (hin : DomInput d list rootlist r)

include hin

/-- A path in the graph that the computation goes by contains one from the
virtual root, since an edge from the first block to a root can be cut off. -/
theorem DomInput.trace_extended {l : List BlockId} (h : Trace (RootedEdge d list rootlist r) r l) :
    ∃ m, Trace (ExtendedEdge d rootlist) none m ∧ m.head? = l.head?.map some ∧ ∀ x, some x ∈ m → x ∈ l := by
  induction h with
  | start => exact ⟨[some r, none], .step .start (.root hin.root_mem), rfl, by simp⟩
  | step h hbc ih =>
      obtain ⟨m, hm, hhead, hsub⟩ := ih
      rcases hbc.2 with hbc | ⟨rfl, hc, -⟩
      · match m, hhead with
        | x :: m, hhead =>
            obtain rfl : x = some _ := by simpa using hhead
            refine ⟨_, .step hm (.edge (hin.reciprocal.mem_points_op.mpr hbc)), rfl, fun y hy => ?_⟩
            rcases List.mem_cons.mp hy with heq | hy
            · exact List.mem_cons.mpr (.inl (Option.some_inj.mp heq))
            · exact List.mem_cons_of_mem _ (hsub y hy)
      · exact ⟨[some _, none], .step .start (.root hc), rfl, by simp⟩

/-- The other way round, the first block takes the place of the virtual root. -/
theorem DomInput.trace_rooted {m : List (Option BlockId)} (h : Trace (ExtendedEdge d rootlist) none m) {b : BlockId}
    (hb : m.head? = some (some b)) :
    ∃ l, Trace (RootedEdge d list rootlist r) r (b :: l) ∧ ∀ x ∈ b :: l, x = r ∨ some x ∈ m := by
  induction h generalizing b with
  | start => simp at hb
  | step h hbc ih =>
      cases hbc with
      | @root c hc =>
          obtain rfl : c = b := by simpa using hb
          by_cases hbr : c = r
          · exact ⟨[], hbr ▸ .start, by simp⟩
          · exact ⟨[r], .step .start ⟨hin.roots_mem hc, .inr ⟨rfl, hc, hbr⟩⟩, by simp⟩
      | edge hac =>
          obtain rfl : _ = b := by simpa using hb
          obtain ⟨l, hl, hsub⟩ := ih rfl
          have ha := hin.ordered.node_of_reaches ⟨l, hl⟩
          refine ⟨_, .step hl ⟨hin.inside _ ha .outof hac, .inl (hin.reciprocal.mem_points_op.mp hac)⟩, fun x hx => ?_⟩
          rcases List.mem_cons.mp hx with rfl | hx
          · exact .inr (List.mem_cons_self ..)
          · exact (hsub x hx).imp_right (List.mem_cons_of_mem _)

theorem DomInput.reaches_extended (hb : b ∈ list) : Reaches (ExtendedEdge d rootlist) none (some b) := by
  obtain ⟨l, hl⟩ := hin.ordered.reaches hb
  obtain ⟨m, hm, hhead, -⟩ := hin.trace_extended hl
  match m, hhead with
  | x :: m, hhead =>
      obtain rfl : x = some b := by simpa using hhead
      exact ⟨m, hm⟩

theorem DomInput.dominates_rooted (h : Dominates (ExtendedEdge d rootlist) none (some a) (some b)) :
    Dominates (RootedEdge d list rootlist r) r a b := by
  intro l hl
  obtain ⟨m, hm, hhead, hsub⟩ := hin.trace_extended hl
  exact hsub a (h.mem_of_head? hm hhead)

theorem DomInput.dominates_extended (h : Dominates (RootedEdge d list rootlist r) r a b) (hne : a ≠ r) :
    Dominates (ExtendedEdge d rootlist) none (some a) (some b) := by
  intro m hm
  obtain ⟨l, hl, hsub⟩ := hin.trace_rooted hm rfl
  exact (hsub a (h l hl)).resolve_left hne

/-- A block with an immediate dominator other than the virtual root has the same
one in both graphs. -/
theorem DomInput.isIdom_rooted (h : IsIdom (ExtendedEdge d rootlist) none (some a) (some b)) :
    IsIdom (RootedEdge d list rootlist r) r a b := by
  refine ⟨fun heq => h.ne (congrArg some heq), hin.dominates_rooted h.dominates, fun c hcb hc => ?_⟩
  by_cases hcr : c = r
  · exact hcr ▸ entry_dominates a
  · exact hin.dominates_rooted (h.nearest (some c) (by simpa using hcb) (hin.dominates_extended hc hcr))

omit hin in
theorem isIdom_root (hb : b ∈ rootlist) : IsIdom (ExtendedEdge d rootlist) none none (some b) := by
  refine ⟨by simp, entry_dominates _, fun c hcb hc => ?_⟩
  have hmem := hc [none] (.step .start (.root hb))
  obtain rfl : c = none := by simpa [hcb] using hmem
  exact dominates_refl none

end Compare

/-- With several roots, the computation ends, and it is exact if and only if
every block that is not a root has a dominator other than itself and the virtual
root. -/
theorem dominators_exact_iff (d₀ d : Blocks) (graph : BlockId) (preorder rootlist : List BlockId)
    (hg : FlowGraph d₀ graph) (hrun : blockFindSpanningTree d₀ graph [] [] = .ok (d, preorder, rootlist))
    (hroots : 2 ≤ rootlist.length) :
    (∃ d', blockCalcForwardDominator d graph rootlist = .ok d' ∧
      ∀ b ∈ (blk d graph).list, IsIdom (ExtendedEdge d rootlist) none (blk d' b).immedDom (some b)) ↔
    ∀ b ∈ (blk d graph).list, b ∉ rootlist → ∃ a, a ≠ b ∧ Dominates (ExtendedEdge d rootlist) none (some a) (some b) := by
  have hne : (blk d₀ graph).list ≠ [] := by
    intro hnil
    simp only [blockFindSpanningTree, get_of_live hg.live, ok_bind, if_pos hnil, pure_eq_ok, Except.ok.injEq,
      Prod.mk.injEq] at hrun
    simp [← hrun.2.2] at hroots
  obtain ⟨d', s, rootlist', hrun', hperm, h, -⟩ := blockFindSpanningTree_spec hg hne
  obtain ⟨rfl, rfl, rfl⟩ : d' = d ∧ s.pre = preorder ∧ rootlist' = rootlist := by
    rw [hrun'] at hrun
    simpa using hrun
  have hlist : (blk d' graph).list ≠ [] := by
    rw [h.list_eq, list_withList hg.live]
    exact fun hnil => hne (hnil ▸ hperm).nil_eq.symm
  obtain ⟨r, hr⟩ : ∃ r, (blk d' graph).list.head? = some r := ⟨_, List.head?_eq_some_head hlist⟩
  have hin := h.domInput (h.list_eq ▸ hr)
  obtain ⟨d₁, hdom, hres⟩ := hin.calcForwardDominator_spec ((h.shows.frame.live graph).mpr h.flow.live)
  constructor
  · rintro ⟨d₂, hdom₂, hexact⟩ b hb hbr
    obtain rfl : d₁ = d₂ := by simpa [hdom] using hdom₂
    obtain ⟨a, ha, -⟩ := hres.idom b hb hbr
    have hidom := hexact b hb
    rw [ha] at hidom
    exact ⟨a, fun heq => hidom.ne (congrArg some heq), hidom.dominates⟩
  · intro hcond
    refine ⟨d₁, hdom, fun b hb => ?_⟩
    by_cases hbr : b ∈ rootlist'
    · rw [hres.root b hbr]
      exact isIdom_root hbr
    · obtain ⟨a, ha, hia⟩ := hres.idom b hb hbr
      obtain ⟨c, hc⟩ := exists_isIdom (hin.reaches_extended hb) (by simp)
      -- the immediate dominator is not the virtual root, which only itself dominates
      obtain ⟨x, hxb, hx⟩ := hcond b hb hbr
      have hxc := hc.nearest (some x) (by simpa using hxb) hx
      cases c with
      | none => exact absurd hxc.eq_entry (by simp)
      | some c =>
          obtain rfl := hia.unique (hin.isIdom_rooted hc) (hin.ordered.reaches hb)
          exact ha ▸ hc

/-- Two roots; the second block is below the first one. -/
def apartRoots : Blocks := ⟨[
  some { FlowBlock.newGraphKind .graph with list := [1, 2, 3] },
  some { FlowBlock.new .plain with outofthis := [⟨0, 2, 0⟩] },
  some { FlowBlock.new .plain with intothis := [⟨0, 1, 0⟩] },
  some (FlowBlock.new .plain)]⟩

def apartRootsSpanned : Blocks := ⟨[
  some { FlowBlock.newGraphKind .graph with list := [1, 2, 3] },
  some { FlowBlock.new .plain with
    outofthis := [⟨FlowBlock.fTreeEdge, 2, 0⟩], copymap := some 1, visitcount := 1, numdesc := 2 },
  some { FlowBlock.new .plain with
    intothis := [⟨FlowBlock.fTreeEdge, 1, 0⟩], copymap := some 2, index := 1, visitcount := 2, numdesc := 1 },
  some { FlowBlock.new .plain with copymap := some 3, index := 2, numdesc := 1 }]⟩

theorem dominators_exact_iff_apartRoots : ∃ d', blockCalcForwardDominator apartRootsSpanned 0 [1, 3] = .ok d' ∧
    ∀ b ∈ [1, 2, 3], IsIdom (ExtendedEdge apartRootsSpanned [1, 3]) none (blk d' b).immedDom (some b) := by
  refine (dominators_exact_iff apartRoots apartRootsSpanned 0 [3, 1, 2] [1, 3]
    (.of_check (by decide) (by decide) (by decide) (by decide)) (by decide +kernel) (by decide)).mpr fun b hb hbr => ?_
  obtain rfl : b = 2 := by
    have hb : b = 1 ∨ b = 2 ∨ b = 3 := by simpa using (show b ∈ [1, 2, 3] from hb)
    rcases hb with rfl | rfl | rfl
    · exact absurd (by decide) hbr
    · rfl
    · exact absurd (by decide) hbr
  refine ⟨1, by decide, fun m hm => ?_⟩
  cases hm with
  | step hl hstep =>
      cases hstep with
      | root h => exact absurd h hbr
      | @edge a _ ha =>
          have hinto : a ∈ points apartRootsSpanned .into 2 := by
            have hg : FlowGraph apartRootsSpanned 0 := .of_check (by decide) (by decide) (by decide) (by decide)
            exact hg.reciprocal.mem_points_op.mp ha
          obtain rfl : a = 1 := List.mem_singleton.mp hinto
          simp

/-- Two roots with an edge to the third block each. -/
def twoRoots : Blocks := ⟨[
  some { FlowBlock.newGraphKind .graph with list := [1, 2, 3] },
  some { FlowBlock.new .plain with outofthis := [⟨0, 3, 0⟩] },
  some { FlowBlock.new .plain with outofthis := [⟨0, 3, 1⟩] },
  some { FlowBlock.new .plain with intothis := [⟨0, 1, 0⟩, ⟨0, 2, 0⟩] }]⟩

def twoRootsSpanned : Blocks := ⟨[
  some { FlowBlock.newGraphKind .graph with list := [1, 2, 3] },
  some { FlowBlock.new .plain with
    outofthis := [⟨FlowBlock.fCrossEdge, 3, 0⟩], copymap := some 1, visitcount := 2, numdesc := 1 },
  some { FlowBlock.new .plain with
    outofthis := [⟨FlowBlock.fTreeEdge, 3, 1⟩], copymap := some 2, index := 1, numdesc := 2 },
  some { FlowBlock.new .plain with
    intothis := [⟨FlowBlock.fCrossEdge, 1, 0⟩, ⟨FlowBlock.fTreeEdge, 2, 0⟩], copymap := some 3, index := 2,
    visitcount := 1, numdesc := 1 }]⟩

/-- The third block is given the first one as its immediate dominator, although
it can be reached through the second root alone. -/
theorem dominators_wrong_twoRoots : FlowGraph twoRoots 0 ∧
    blockFindSpanningTree twoRoots 0 [] [] = .ok (twoRootsSpanned, [2, 3, 1], [1, 2]) ∧
    ¬ ∃ d', blockCalcForwardDominator twoRootsSpanned 0 [1, 2] = .ok d' ∧
      ∀ b ∈ [1, 2, 3], IsIdom (ExtendedEdge twoRootsSpanned [1, 2]) none (blk d' b).immedDom (some b) := by
  refine ⟨.of_check (by decide) (by decide) (by decide) (by decide), by decide +kernel, ?_⟩
  rintro ⟨d', hrun, hexact⟩
  have hdom : (blk d' 3).immedDom = some 1 := by
    have hsome : (blockCalcForwardDominator twoRootsSpanned 0 [1, 2]).map (fun d => (blk d 3).immedDom) = .ok (some 1) := by
      decide +kernel
    rw [hrun] at hsome
    simpa [Except.map] using hsome
  have hidom := hexact 3 (by simp)
  rw [hdom] at hidom
  have hedge : Edge twoRootsSpanned 2 3 := by simp [Edge, points, blk, twoRootsSpanned, Arena.get?, FlowBlock.edges]
  have hmem := hidom.dominates [some 2, none] (.step (.step .start (.root (by simp))) (.edge hedge))
  simp at hmem

end GhidraDecompiler.Block
