import GhidraDecompiler.Block.EdgeSpecs

namespace GhidraDecompiler.Block

open Fallible

variable {R : Flags → Flags → Prop} {d d' : Blocks} {D : Set HalfEdge} {dir : Dir} {b c bl : BlockId}
  {i j slot : Nat} {e : BlockEdge}

theorem Matched.congr (hm : Matched R d D) (h : ∀ dir c j, edge? d' dir c j = edge? d dir c j) :
    Matched R d' D := by
  intro dir' c j g hg hgD
  rw [h] at hg
  obtain ⟨hq, g', hg', hrest⟩ := hm dir' c j g hg hgD
  exact ⟨hq, g', by rw [h, hg'], hrest⟩

theorem points_congr (h : ∀ dir c j, edge? d' dir c j = edge? d dir c j) (dir : Dir) (c : BlockId) :
    points d' dir c = points d dir c := by
  refine List.ext_getElem? fun j => ?_
  rw [points_getElem?, points_getElem?, h]

/-- An update that leaves the edge lists of the block alone. -/
theorem edge?_update_of_edges {f : FlowBlock → FlowBlock} (hf : ∀ x dir, (f x).edges dir = x.edges dir)
    (d : Blocks) (b : BlockId) (dir : Dir) (c : BlockId) (j : Nat) :
    edge? (d.update b f) dir c j = edge? d dir c j := by
  by_cases hb : d.Live b
  · by_cases hc : c = b
    · subst hc; simp [edge?, hb, hf]
    · simp [edge?, blk_update_ne hc]
  · have hn : d.get? b = none := by simpa [Arena.Live] using hb
    by_cases hc : c = b
    · subst hc; simp [edge?, blk, Arena.get?_update, hn]
    · simp [edge?, blk_update_ne hc]

/-- The edge that runs into slot `input` and the edge that runs out of slot
`out` become one edge past the block. The two may be the same self loop. -/
theorem blockReplaceEdgesThru_spec (hm : Matched R d ∅) {input out : Nat} {inedge outedge f g : BlockEdge}
    (hin : edge? d .into bl input = some inedge) (hout : edge? d .outof bl out = some outedge)
    (hf : edge? d .outof inedge.point inedge.reverseIndex = some f)
    (hg : edge? d .into outedge.point outedge.reverseIndex = some g)
    (hR₁ : R f.label g.label) (hR₂ : R g.label f.label) :
    ∃ d', blockReplaceEdgesThru d bl input out = .ok d' ∧ Matched R d' ∅ ∧ SameCore d d' ∧
      (inedge.point, outedge.point) ::ₘ pairs .outof d =
        (inedge.point, bl) ::ₘ (bl, outedge.point) ::ₘ pairs .outof d' := by
  obtain ⟨-, f', hf', hfp, hfr, -⟩ := hm _ _ _ _ hin (by simp)
  obtain ⟨-, g', hg', hgp, hgr, -⟩ := hm _ _ _ _ hout (by simp)
  rw [show Dir.op .into = .outof from rfl, hf, Option.some_inj] at hf'
  rw [show Dir.op .outof = .into from rfl, hg, Option.some_inj] at hg'
  subst hf' hg'
  let e₁ : BlockEdge := { f with point := outedge.point, reverseIndex := outedge.reverseIndex }
  let e₂ : BlockEdge := { g with point := inedge.point, reverseIndex := inedge.reverseIndex }
  let d₁ := setEdge d .outof inedge.point inedge.reverseIndex e₁
  let d₂ := setEdge d₁ .into outedge.point outedge.reverseIndex e₂
  have hg₁ : edge? d₁ .into outedge.point outedge.reverseIndex = some g := by
    rw [edge?_setEdge_ne hf _ (by simp), hg]
  have hedge (dir' : Dir) (c : BlockId) (j : Nat) : edge? d₂ dir' c j =
      if (dir', c, j) = (.outof, inedge.point, inedge.reverseIndex) then some e₁ else
        if (dir', c, j) = (.into, outedge.point, outedge.reverseIndex) then some e₂ else edge? d dir' c j := by
    by_cases h : (dir', c, j) = (.into, outedge.point, outedge.reverseIndex)
    · simp only [Prod.mk.injEq] at h
      rw [h.1, h.2.1, h.2.2, edge?_setEdge_self hg₁]
      simp
    · rw [edge?_setEdge_ne hg₁ _ h, if_neg h, edge?_setEdge hf]
      simp
  have hm₂ : Matched R d₂ (insert (.into, bl, input) {(.outof, bl, out)}) := by
    by_cases hsame : (inedge.point, inedge.reverseIndex) = (bl, out)
    · -- both arguments name one self loop, and the two assignments change nothing
      simp only [Prod.mk.injEq] at hsame
      rw [hsame.1, hsame.2, hout, Option.some_inj] at hf
      subst hf
      rw [hfp, hfr, hin, Option.some_inj] at hg
      subst hg
      have hx := hm.expose hin (by simp)
      rw [hsame.1, hsame.2] at hx
      refine Matched.congr (by simpa using hx) fun dir' c j => ?_
      rw [hedge]
      split
      case isTrue h =>
        simp only [Prod.mk.injEq] at h
        rw [h.1, h.2.1, h.2.2, hsame.1, hsame.2, hout]
      case isFalse =>
        split
        case isTrue h =>
          simp only [Prod.mk.injEq] at h
          rw [h.1, h.2.1, h.2.2, hfp, hfr, hin]
        case isFalse => rfl
    · have hne : ((.outof, bl, out) : HalfEdge) ≠ (.outof, inedge.point, inedge.reverseIndex) := by
        intro h
        simp only [Prod.mk.injEq, true_and] at h
        exact hsame (by rw [h.1, h.2])
      have hne' : ((.into, outedge.point, outedge.reverseIndex) : HalfEdge) ≠ (.into, bl, input) := by
        intro h
        simp only [Prod.mk.injEq, true_and] at h
        rw [h.1, h.2, hin, Option.some_inj] at hg
        exact hsame (by rw [hg, hgp, hgr])
      have hx := hm.expose hin (by simp)
      have hy := hx.expose hout (by simpa using hne)
      have hset : insert (.outof, bl, out) (insert (.into, outedge.point, outedge.reverseIndex)
          (insert (.into, bl, input) (insert (.outof, inedge.point, inedge.reverseIndex) ∅))) =
          insert (.outof, inedge.point, inedge.reverseIndex) (insert (.into, outedge.point, outedge.reverseIndex)
            (insert (.into, bl, input) {(.outof, bl, out)} : Set HalfEdge)) := by
        ext h
        simp only [Set.mem_insert_iff, Set.mem_singleton_iff, Set.mem_empty_iff_false, or_false]
        tauto
      simp only [Dir.op_into, Dir.op_outof, hset] at hy
      refine Matched.link .outof f.label g.label hy ?_ ?_ hR₁ hR₂ hedge
      · simpa using hne.symm
      · simpa using hne'
  have hp₁ := points_setEdge hf e₁
  have hp₂ : ∀ c, points d₂ .outof c = points d₁ .outof c := fun c => by
    rw [points_setEdge hg₁]; simp
  have hlen (dir' : Dir) (c : BlockId) : (points d₂ dir' c).length = (points d dir' c).length := by
    rw [length_points_setEdge hg₁, length_points_setEdge hf]
  obtain ⟨d₃, h₃, hm₃, hc₃, hp₃⟩ := hm₂.halfDelete (by simp) (by rw [hlen]; exact lt_length_points hin)
  obtain ⟨d₄, h₄, hm₄, hc₄, hp₄⟩ := Matched.halfDelete (D := ∅) (by simpa using hm₃) (by simp)
    (by rw [hp₃]; simpa [hlen] using lt_length_points hout)
  refine ⟨d₄, ?_, hm₄, ((sameCore_setEdge ..).trans (sameCore_setEdge ..)).trans (hc₃.trans hc₄), ?_⟩
  · have hin' : (blk d bl).intothis[input]? = some inedge := hin
    have hout' : (blk d bl).outofthis[out]? = some outedge := hout
    simp only [blockReplaceEdgesThru, get_of_live (live_of_edge? hin), ok_bind, getIdx_eq hin',
      getIdx_eq hout', modifyEdge_eq hf]
    rw [modifyEdge_eq hg₁, ok_bind, blockHalfDeleteInEdge, h₃, ok_bind, blockHalfDeleteOutEdge, h₄]
  · have hset : (inedge.point, bl) ::ₘ pairs .outof d₂ = (inedge.point, outedge.point) ::ₘ pairs .outof d :=
      pairs_set (i := inedge.reverseIndex) (by simp [points_getElem?, hf, hfp]) fun c => by
        rw [hp₂, hp₁]
        by_cases hc : c = inedge.point <;> simp [hc, e₁]
    have hlast : edge? d₂ .outof bl out = some (if (bl, out) = (inedge.point, inedge.reverseIndex) then e₁ else outedge) := by
      rw [hedge]
      by_cases h : (bl, out) = (inedge.point, inedge.reverseIndex)
      · simp only [Prod.mk.injEq] at h
        simp [h]
      · simp only [Prod.mk.injEq] at h
        simp [h, hout]
    have hdel : pairs .outof d₂ = (bl, outedge.point) ::ₘ pairs .outof d₄ :=
      pairs_erase (i := out) (by rw [points_getElem?, hlast]; split <;> rfl) fun c => by
        rw [hp₄, hp₃]
        simp
    rw [← hset, hdel]

/-- The two out edges trade places. The path flag of the block is flipped, and
the core of no other block changes. -/
theorem blockSwapEdges_spec (hm : Matched R d ∅) {first second : BlockEdge}
    (h₀ : edge? d .outof bl 0 = some second) (h₁ : edge? d .outof bl 1 = some first) :
    ∃ d₁, blockSwapEdges d bl =
        .ok (d₁.update bl fun b => { b with flags := b.flags ^^^ FlowBlock.fFlipPath }) ∧
      Matched R d₁ ∅ ∧ SameCore d d₁ ∧ (∀ c, points d₁ .into c = points d .into c) ∧
      ∀ c, points d₁ .outof c =
        if c = bl then ((points d .outof c).set 0 first.point).set 1 second.point else points d .outof c := by
  obtain ⟨-, f, hf, hfp, hfr, hRf⟩ := hm _ _ _ _ h₁ (by simp)
  obtain ⟨-, s, hs, hsp, hsr, hRs⟩ := hm _ _ _ _ h₀ (by simp)
  obtain ⟨-, f', hf', -, -, hRf'⟩ := hm _ _ _ _ hf (by simp)
  obtain ⟨-, s', hs', -, -, hRs'⟩ := hm _ _ _ _ hs (by simp)
  rw [Dir.op_op, hfp, hfr, h₁, Option.some_inj] at hf'
  rw [Dir.op_op, hsp, hsr, h₀, Option.some_inj] at hs'
  subst hf' hs'
  simp only [Dir.op_outof] at hf hs
  have hb := live_of_edge? h₀
  -- the slots at the targets belong to different edges
  have hne : ((.into, first.point, first.reverseIndex) : HalfEdge) ≠ (.into, second.point, second.reverseIndex) := by
    intro h
    simp only [Prod.mk.injEq, true_and] at h
    rw [h.1, h.2, hs, Option.some_inj] at hf
    rw [hf] at hsr
    omega
  let dₐ := setEdge d .outof bl 0 first
  have hₐ : edge? dₐ .outof bl 1 = some first := by rw [edge?_setEdge_ne h₀ _ (by simp), h₁]
  let d_b := setEdge dₐ .outof bl 1 second
  have hedge_b (c : BlockId) (j : Nat) : edge? d_b .into c j = edge? d .into c j := by
    rw [edge?_setEdge_ne hₐ _ (by simp), edge?_setEdge_ne h₀ _ (by simp)]
  have hf_b : edge? d_b .into first.point first.reverseIndex = some f := by rw [hedge_b, hf]
  let d_c := setEdge d_b .into first.point first.reverseIndex { f with reverseIndex := 0 }
  have hs_c : edge? d_c .into second.point second.reverseIndex = some s := by
    rw [edge?_setEdge_ne hf_b _ hne.symm, hedge_b, hs]
  let d_d := setEdge d_c .into second.point second.reverseIndex { s with reverseIndex := 1 }
  have hm' : Matched R d (insert (.outof, bl, 0) (insert (.into, first.point, first.reverseIndex)
      (insert (.outof, bl, 1) (insert (.into, second.point, second.reverseIndex) ∅)))) := by
    have hx := (hm.expose h₀ (by simp)).expose h₁ (by simp)
    have hset : (insert (.outof, bl, 1) (insert (.into, first.point, first.reverseIndex)
        (insert (.outof, bl, 0) (insert (.into, second.point, second.reverseIndex) ∅))) : Set HalfEdge) =
        insert (.outof, bl, 0) (insert (.into, first.point, first.reverseIndex)
          (insert (.outof, bl, 1) (insert (.into, second.point, second.reverseIndex) ∅))) := by
      ext h
      simp only [Set.mem_insert_iff, Set.mem_empty_iff_false, or_false]
      tauto
    rwa [← hset]
  have hrun : blockSwapEdges d bl =
      .ok (d_d.update bl fun b => { b with flags := b.flags ^^^ FlowBlock.fFlipPath }) := by
    have h₀' : (blk d bl).outofthis[0]? = some second := h₀
    have h₁' : (blk d bl).outofthis[1]? = some first := h₁
    have hswap : d.update bl (fun b => { b with outofthis := (b.outofthis.set 0 first).set 1 second }) = d_b := by
      refine Arena.ext_get? (by simp [d_b, dₐ, setEdge]) fun c => ?_
      simp only [d_b, dₐ, setEdge, Arena.get?_update]
      by_cases hc : c = bl
      · subst hc
        cases d.get? c <;> simp [FlowBlock.setEdges, FlowBlock.edges]
      · simp [hc]
    simp only [blockSwapEdges, get_of_live hb, ok_bind, getIdx_eq h₀', getIdx_eq h₁', Arena.modify_eq _ hb, hswap,
      modifyEdge_eq hf_b]
    rw [modifyEdge_eq hs_c, ok_bind, Arena.modify_eq _ (by simpa [d_c, d_b, dₐ] using hb)]
  have hlink : Matched R (setEdge dₐ .into first.point first.reverseIndex { f with reverseIndex := 0 })
      (insert (.outof, bl, 1) (insert (.into, second.point, second.reverseIndex) ∅)) := by
    refine Matched.link .outof first.label f.label hm' (by simp) (by simpa using hne) hRf hRf' ?_
    intro dir' c j
    have hfₐ : edge? dₐ .into first.point first.reverseIndex = some f := by
      rw [edge?_setEdge_ne h₀ _ (by simp), hf]
    rw [edge?_setEdge hfₐ, edge?_setEdge h₀, ← hfp]
    by_cases hx : (dir', c, j) = (.outof, f.point, 0)
    · simp only [Prod.mk.injEq] at hx
      simp [hx]
    · simp only [Prod.mk.injEq] at hx
      simp [hx]
  refine ⟨d_d, hrun, ?_, ?_, ?_, ?_⟩
  · refine Matched.link .outof second.label s.label hlink (by simp) (by simp) hRs hRs' ?_
    intro dir' c j
    have hfₐ : edge? dₐ .into first.point first.reverseIndex = some f := by
      rw [edge?_setEdge_ne h₀ _ (by simp), hf]
    rw [edge?_setEdge hs_c, edge?_setEdge hf_b, edge?_setEdge hₐ, edge?_setEdge hfₐ]
    by_cases hx : (dir', c, j) = (.outof, bl, 1)
    · simp only [Prod.mk.injEq] at hx
      simp [hx]
    · simp only [Prod.mk.injEq] at hx
      simp [hx, hsp]
  · exact ((sameCore_setEdge ..).trans (sameCore_setEdge ..)).trans
      ((sameCore_setEdge ..).trans (sameCore_setEdge ..))
  · intro c
    rw [points_setEdge_same hs_c (by rfl), points_setEdge_same hf_b (by rfl), points_setEdge hₐ, if_neg (by simp),
      points_setEdge h₀, if_neg (by simp)]
  · intro c
    rw [points_setEdge_same hs_c (by rfl), points_setEdge_same hf_b (by rfl), points_setEdge hₐ, points_setEdge h₀,
      points_setEdge h₀]
    by_cases hc : c = bl <;> simp [hc]

/-- The redirection of every edge between two blocks. -/
def redirect (input before after : BlockId) (p : BlockId × BlockId) : BlockId × BlockId :=
  if p = (input, before) then (input, after) else p

theorem pairs_map_of_points {f : BlockId → BlockId → BlockId}
    (h : ∀ b, points d' dir b = (points d dir b).map (f b)) (hn : d'.nextId = d.nextId) :
    pairs dir d' = (pairs dir d).map fun p => (p.1, f p.1 p.2) := by
  let φ : BlockId × BlockId → BlockId × BlockId := fun p => (p.1, f p.1 p.2)
  have hsum : (pairs dir d).map φ = ∑ b ∈ Finset.range d.nextId,
      ((points d dir b : Multiset BlockId).map (Prod.mk b)).map φ := map_sum (Multiset.mapAddMonoidHom φ) _ _
  rw [hsum, pairs, hn]
  refine Finset.sum_congr rfl fun b _ => ?_
  simp [h, φ, Function.comp_def]

theorem eraseIdx_filter_ne {l : List BlockId} {i : Nat} {x : BlockId} (h : l[i]? = some x) :
    (l.eraseIdx i).filter (· ≠ x) = l.filter (· ≠ x) := by
  induction l generalizing i with
  | nil => simp
  | cons a l ih =>
      cases i with
      | zero =>
          simp only [List.getElem?_cons_zero, Option.some_inj] at h
          simp [h]
      | succ i =>
          simp only [List.getElem?_cons_succ] at h
          simp only [List.eraseIdx_cons_succ, List.filter_cons, ih h]

/-- After the scan, all edges from `input` to `before` run to `after`. At the
other end they are gone from the list of `before`, and the order of the edges
of other blocks in that list is kept. -/
theorem switchDirEdge_spec (hR : ∀ l, R l l) (hm : Matched R d ∅) {input after : BlockId}
    (dir : Dir) (before : BlockId) (hi : d.Live input) (ha : d.Live after) :
    ∃ d', switchDirEdge dir d input before after = .ok d' ∧ Matched R d' ∅ ∧ SameCore d d' ∧
      (∀ c, points d' dir c =
        if c = input then (points d dir c).map (fun x => if x = before then after else x) else points d dir c) ∧
      ∀ c, c ≠ after → (points d' dir.op c).filter (· ≠ input) = (points d dir.op c).filter (· ≠ input) := by
  let f : BlockId → BlockId := fun x => if x = before then after else x
  let l := points d dir input
  have hlen : ((blk d input).edges dir).length = l.length := by simp [l, points]
  obtain ⟨s, hrun, hms, hcs, ⟨P, Q, hl, hP, hps⟩, hos, hfs⟩ := foldlM_range'_total
    (f := fun (d : Blocks) slot => do
      let edge ← getIdx ((← d.get input).edges dir) slot
      if edge.point = before then blockReplaceDirEdge dir d input slot after else pure d)
    (s := d)
    (fun k s => Matched R s ∅ ∧ SameCore d s ∧
      (∃ P Q, l = P ++ Q ∧ P.length = k ∧ points s dir input = P.map f ++ Q) ∧
      (∀ c, c ≠ input → points s dir c = points d dir c) ∧
      ∀ c, c ≠ after → (points s dir.op c).filter (· ≠ input) = (points d dir.op c).filter (· ≠ input))
    0 l.length
    (by
      rintro k hk s ⟨hms, hcs, ⟨P, Q, hl, hP, hps⟩, hos, hfs⟩
      obtain ⟨x, Q, rfl⟩ : ∃ x Q', Q = x :: Q' := by
        cases Q with
        | nil => simp [hl] at hk; omega
        | cons x Q => exact ⟨x, Q, rfl⟩
      have hget : (points s dir input)[k]? = some x := by
        rw [hps, List.getElem?_append_right (by simp [hP])]
        simp [hP]
      obtain ⟨e, he⟩ : ∃ e, edge? s dir input k = some e := exists_edge? (List.getElem?_eq_some_iff.mp hget).1
      obtain rfl : e.point = x := by simpa [points_getElem?, he] using hget
      have hgo : getIdx ((blk s input).edges dir) k = .ok e := getIdx_eq he
      have hlive := (hcs.live input).mpr hi
      rw [Nat.zero_add]
      by_cases hb : e.point = before
      · obtain ⟨s', hs', hms', hcs', hps', hos'⟩ := blockReplaceDirEdge_spec hR hms he ((hcs.live after).mpr ha)
        refine ⟨s', ?_, hms', hcs.trans hcs', ⟨P ++ [e.point], Q, by simp [hl], by simp [hP], ?_⟩, ?_, ?_⟩
        · simp [get_of_live hlive, hgo, hb, hs']
        · rw [hps', if_pos rfl, hps, ← hP, List.set_append_right _ _ (by simp)]
          simp [f, hb]
        · intro c hc
          rw [hps', if_neg hc, hos c hc]
        · intro c hc
          rw [hos', if_neg hc, List.append_nil, ← hfs c hc]
          split
          case isTrue h =>
            subst h
            obtain ⟨-, g, hg, hgp, -⟩ := hms _ _ _ _ he (by simp)
            exact eraseIdx_filter_ne (by simp [points_getElem?, hg, hgp])
          case isFalse => rfl
      · refine ⟨s, ?_, hms, hcs, ⟨P ++ [e.point], Q, by simp [hl], by simp [hP], ?_⟩, hos, hfs⟩
        · simp [get_of_live hlive, hgo, hb]
        · rw [hps]
          simp [f, hb])
    ⟨hm, SameCore.refl d, ⟨[], l, rfl, rfl, rfl⟩, fun _ _ => rfl, fun _ _ => rfl⟩
  obtain rfl : Q = [] := by
    have := congrArg List.length hl
    simp only [List.length_append] at this
    exact List.length_eq_zero_iff.mp (by omega)
  refine ⟨s, ?_, hms, hcs, ?_, hfs⟩
  · simp only [switchDirEdge, get_of_live hi, ok_bind, hlen, List.range_eq_range']
    exact hrun
  · intro c
    split
    case isTrue h =>
      subst h
      rw [hps, show points d dir c = l from rfl, hl]
      simp [f]
    case isFalse h => exact hos c h

theorem pairs_switchDirEdge {input before after : BlockId} (hc : SameCore d d')
    (h : ∀ c, points d' dir c =
      if c = input then (points d dir c).map (fun x => if x = before then after else x) else points d dir c) :
    pairs dir d' = (pairs dir d).map (redirect input before after) := by
  have hp := pairs_map_of_points (f := fun b x => if b = input then (if x = before then after else x) else x)
    (fun b => by rw [h]; by_cases hb : b = input <;> simp [hb]) hc.nextId
  rw [hp]
  refine Multiset.map_congr rfl fun ⟨b, x⟩ _ => ?_
  simp only [redirect, Prod.mk.injEq]
  by_cases hb : b = input <;> by_cases hx : x = before <;> simp [hb, hx]

end GhidraDecompiler.Block
