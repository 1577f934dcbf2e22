import GhidraDecompiler.Block.EdgeRewrites

namespace GhidraDecompiler.Block

open Fallible

variable {R : Flags → Flags → Prop} {d d' : Blocks} {dir : Dir} {b c bl : BlockId} {i j slot : Nat}
  {e : BlockEdge}

theorem Matched.not_mem_pairs_of_points (hm : Matched R d ∅) (h : points d .into bl = []) (b : BlockId) :
    (b, bl) ∉ pairs .outof d := by
  rw [← Multiset.count_eq_zero, count_pairs, ← hm.count_points .outof b bl, Dir.op_outof, h]
  rfl

/-- Every edge into `bl` is moved to `t`. -/
def retarget (bl t : BlockId) (p : BlockId × BlockId) : BlockId × BlockId := if p.2 = bl then (p.1, t) else p

theorem map_retarget_of_points (hm : Matched R d ∅) (h : points d .into bl = []) (t : BlockId) :
    (pairs .outof d).map (retarget bl t) = pairs .outof d := by
  rw [Multiset.map_congr rfl (g := id) fun p hp => ?_, Multiset.map_id]
  have hne : p.2 ≠ bl := fun he => hm.not_mem_pairs_of_points h p.1 (by rwa [← he])
  simp [retarget, hne]

theorem redirectLoop_spec (hR : ∀ l, R l l) (hm : Matched R d ∅) (bbout : BlockId) (hb : d.Live bl)
    (ho : d.Live bbout) (hne : bbout ≠ bl) (hself : bl ∉ points d .outof bl) :
    ∃ d', loop (redirectPass bl bbout) ((points d .into bl).length + 1) d = .ok d' ∧ Matched R d' ∅ ∧
      SameCore d d' ∧ points d' .into bl = [] ∧ points d' .outof bl = points d .outof bl ∧
      pairs .outof d' = (pairs .outof d).map (retarget bl bbout) := by
  obtain ⟨d', hrun, hm', hc', ho', hp', hi'⟩ := loop_total (f := redirectPass bl bbout) (s := d)
    (fun s => Matched R s ∅ ∧ SameCore d s ∧ points s .outof bl = points d .outof bl ∧
      (pairs .outof s).map (retarget bl bbout) = (pairs .outof d).map (retarget bl bbout))
    (fun s => Matched R s ∅ ∧ SameCore d s ∧ points s .outof bl = points d .outof bl ∧
      (pairs .outof s).map (retarget bl bbout) = (pairs .outof d).map (retarget bl bbout) ∧
      points s .into bl = [])
    (fun s => (points s .into bl).length)
    (by
      rintro s ⟨hms, hcs, hos, hps⟩
      have hlive := (hcs.live bl).mpr hb
      cases hin : (blk s bl).intothis with
      | nil =>
          exact .inl ⟨s, by simp [redirectPass, get_of_live hlive, hin], hms, hcs, hos, hps, by
            simp [points, FlowBlock.edges, hin]⟩
      | cons edge rest =>
          have he : edge? s .into bl 0 = some edge := by simp [edge?, FlowBlock.edges, hin]
          obtain ⟨-, f, hf, hfp, hfr, -⟩ := hms _ _ _ _ he (by simp)
          rw [Dir.op_into] at hf
          obtain ⟨s', hs', hms', hcs', hout, hinto⟩ := blockReplaceDirEdge_spec hR hms hf ((hcs.live bbout).mpr ho)
          simp only [Dir.op_outof] at hinto
          have hnself : edge.point ≠ bl := by
            intro heq
            have hmem : bl ∈ points s .into bl := by
              refine List.mem_of_getElem? (i := 0) ?_
              rw [points_getElem?, he, Option.map_some, heq]
            rw [← List.one_le_count_iff, ← Dir.op_outof, hms.count_points, hos, List.one_le_count_iff] at hmem
            exact hself hmem
          refine .inr ⟨s', ?_, ⟨hms', hcs.trans hcs', ?_, ?_⟩, ?_⟩
          · simp only [redirectPass, get_of_live hlive, ok_bind, hin]
            rw [blockReplaceOutEdge, hs']
            rfl
          · rw [hout, if_neg (Ne.symm hnself), hos]
          · have hset := pairs_set (d := s) (p := bl) (q := bbout)
              (i := edge.reverseIndex) (by rw [points_getElem?, hf, Option.map_some, hfp]) hout
            have hmap := congrArg (Multiset.map (retarget bl bbout)) hset
            simp only [Multiset.map_cons, retarget, if_true, hne, if_false] at hmap
            rw [Multiset.cons_inj_right] at hmap
            exact hmap.trans hps
          · rw [hinto, hfp, if_pos rfl, if_neg (Ne.symm hne), List.append_nil, hfr,
              List.length_eraseIdx_of_lt (lt_length_points he)]
            have := lt_length_points he
            omega)
    ⟨hm, SameCore.refl d, rfl, rfl⟩ (Nat.lt_succ_self _)
  exact ⟨d', hrun, hm', hc', hi', ho', by rw [← hp', map_retarget_of_points hm' hi']⟩

/-- What is left of the edges when a block is taken out of the flow: the
edges into it run to the target of its last out edge, and its out edges are
gone. A block without out edges stays in place. -/
def bypass (d : Blocks) (bl : BlockId) : Multiset (BlockId × BlockId) :=
  match (points d .outof bl).getLast? with
  | none => pairs .outof d
  | some t => ((pairs .outof d).filter fun p => p.1 ≠ bl).map (retarget bl t)

theorem filter_map_retarget (m : Multiset (BlockId × BlockId)) (bl t : BlockId) :
    (m.map (retarget bl t)).filter (fun p => p.1 ≠ bl) = (m.filter fun p => p.1 ≠ bl).map (retarget bl t) := by
  rw [Multiset.filter_map]
  congr 1
  refine Multiset.filter_congr fun p _ => ?_
  simp only [Function.comp_apply, retarget]
  split <;> rfl

theorem removeFromFlowPass_spec (hR : ∀ l, R l l) (hm : Matched R d ∅) (hb : d.Live bl)
    (hself : bl ∉ points d .outof bl) {front : List BlockId} {t : BlockId}
    (hout : points d .outof bl = front ++ [t]) :
    ∃ d', removeFromFlowPass bl d = .ok (.again d') ∧ Matched R d' ∅ ∧ SameCore d d' ∧
      points d' .into bl = [] ∧ points d' .outof bl = front ∧
      (pairs .outof d').filter (fun p => p.1 ≠ bl) =
        ((pairs .outof d).filter fun p => p.1 ≠ bl).map (retarget bl t) := by
  have hlen : (blk d bl).outofthis.length = front.length + 1 := by
    simpa [points, FlowBlock.edges] using congrArg List.length hout
  have hget : (points d .outof bl)[front.length]? = some t := by simp [hout]
  obtain ⟨e, he⟩ : ∃ e, edge? d .outof bl front.length = some e :=
    exists_edge? (List.getElem?_eq_some_iff.mp hget).1
  obtain rfl : e.point = t := by simpa [points_getElem?, he] using hget
  obtain ⟨-, f, hf, -⟩ := hm _ _ _ _ he (by simp)
  have hne : e.point ≠ bl := fun h => hself (by rw [hout, ← h]; simp)
  obtain ⟨d₁, h₁, hm₁, hc₁, ho₁, -⟩ := blockRemoveDirEdge_spec hm he
  have hout₁ : points d₁ .outof bl = front := by
    rw [ho₁, if_pos rfl, hout, List.eraseIdx_append_of_length_le (Nat.le_refl _)]
    simp
  obtain ⟨d₂, h₂, hm₂, hc₂, hi₂, ho₂, hp₂⟩ := redirectLoop_spec hR hm₁ e.point
    ((hc₁.live bl).mpr hb) ((hc₁.live _).mpr (live_of_edge? hf)) hne
    (by rw [hout₁]; exact fun h => hself (by rw [hout]; exact List.mem_append_left _ h))
  refine ⟨d₂, ?_, hm₂, hc₁.trans hc₂, hi₂, ho₂.trans hout₁, ?_⟩
  · have he' : (blk d bl).outofthis[front.length]? = some e := he
    have hfuel : (points d₁ .into bl).length = (blk d₁ bl).intothis.length := by simp [points, FlowBlock.edges]
    rw [hfuel] at h₂
    simp only [removeFromFlowPass, get_of_live hb, ok_bind, hlen, Nat.zero_lt_succ,
      if_true, Nat.add_sub_cancel, getIdx_eq he']
    rw [blockRemoveOutEdge, h₁, ok_bind, get_of_live ((hc₁.live bl).mpr hb), ok_bind, h₂]
    rfl
  · have hrem := pairs_erase (d := d) (p := e.point) hget (show ∀ c, points d₁ .outof c = _ by simpa using ho₁)
    rw [hp₂, filter_map_retarget, hrem]
    simp

theorem blockRemoveFromFlow_spec (hR : ∀ l, R l l) (hm : Matched R d ∅) (hb : d.Live bl)
    (hself : bl ∉ points d .outof bl) :
    ∃ d', blockRemoveFromFlow d bl = .ok d' ∧ Matched R d' ∅ ∧ SameCore d d' ∧
      pairs .outof d' = bypass d bl := by
  have hrun : blockRemoveFromFlow d bl = loop (removeFromFlowPass bl) ((points d .outof bl).length + 1) d := by
    simp [blockRemoveFromFlow, get_of_live hb, points, FlowBlock.edges]
  rw [hrun]
  refine loop_total (f := removeFromFlowPass bl) (s := d)
    (fun s => Matched R s ∅ ∧ SameCore d s ∧ bl ∉ points s .outof bl ∧
      (s = d ∨ points s .into bl = [] ∧ (pairs .outof s).filter (fun p => p.1 ≠ bl) = bypass d bl))
    (fun s => Matched R s ∅ ∧ SameCore d s ∧ pairs .outof s = bypass d bl)
    (fun s => (points s .outof bl).length) ?_ ⟨hm, SameCore.refl d, hself, .inl rfl⟩ (Nat.lt_succ_self _)
  rintro s ⟨hms, hcs, hss, hs⟩
  have hlive := (hcs.live bl).mpr hb
  rcases List.eq_nil_or_concat (points s .outof bl) with hnil | ⟨front, t, hout⟩
  · have hsize : (blk s bl).outofthis = [] := by simpa [points, FlowBlock.edges] using hnil
    refine .inl ⟨s, by simp [removeFromFlowPass, get_of_live hlive, hsize], hms, hcs, ?_⟩
    rcases hs with rfl | ⟨-, hp⟩
    · simp [bypass, hnil]
    · rw [← hp, Multiset.filter_eq_self.mpr]
      rintro ⟨a, x⟩ hmem rfl
      rw [mem_pairs, hnil] at hmem
      simp at hmem
  · rw [List.concat_eq_append] at hout
    obtain ⟨s', hs', hms', hcs', hi', ho', hp'⟩ := removeFromFlowPass_spec hR hms hlive hss hout
    refine .inr ⟨s', hs', ⟨hms', hcs.trans hcs', ?_, .inr ⟨hi', ?_⟩⟩, by simp [ho', hout]⟩
    · rw [ho']
      exact fun h => hss (by rw [hout]; exact List.mem_append_left _ h)
    · rcases hs with rfl | ⟨hin, hp⟩
      · rw [hp', bypass, hout, List.getLast?_append]
        rfl
      · -- all edges into the block are gone since the first pass
        rw [hp', ← filter_map_retarget, map_retarget_of_points hms hin, hp]

end GhidraDecompiler.Block
