import GhidraDecompiler.Block.EdgeScans
import GhidraDecompiler.Lib.Flags

namespace GhidraDecompiler.Block

open Fallible FlowBlock

variable {R : Flags → Flags → Prop} {d d' : Blocks} {D : Set HalfEdge} {dir : Dir} {b c bl dup : BlockId}
  {i j slot : Nat} {e : BlockEdge}

/-- Labels play no part in the matching when all labels are related. -/
theorem Matched.relabel (hR : ∀ a b, R a b) (hm : Matched R d D) {e' : BlockEdge}
    (he : edge? d dir b i = some e) (hp : e'.point = e.point) (hr : e'.reverseIndex = e.reverseIndex) :
    Matched R (setEdge d dir b i e') D := by
  have hends (dir' : Dir) (c : BlockId) (j : Nat) (g : BlockEdge) (hg : edge? (setEdge d dir b i e') dir' c j = some g) :
      ∃ g₀, edge? d dir' c j = some g₀ ∧ g₀.point = g.point ∧ g₀.reverseIndex = g.reverseIndex := by
    rw [edge?_setEdge he] at hg
    split at hg
    case isTrue h =>
      rw [Option.some_inj] at hg
      rw [h.1, h.2.1, h.2.2]
      exact ⟨e, he, by rw [← hg, hp], by rw [← hg, hr]⟩
    case isFalse => exact ⟨g, hg, rfl, rfl⟩
  have hends' (dir' : Dir) (c : BlockId) (j : Nat) (g : BlockEdge) (hg : edge? d dir' c j = some g) :
      ∃ g₁, edge? (setEdge d dir b i e') dir' c j = some g₁ ∧ g₁.point = g.point ∧
        g₁.reverseIndex = g.reverseIndex := by
    rw [edge?_setEdge he]
    split
    case isTrue h =>
      rw [h.1, h.2.1, h.2.2, he, Option.some_inj] at hg
      exact ⟨e', rfl, by rw [hp, hg], by rw [hr, hg]⟩
    case isFalse => exact ⟨g, hg, rfl, rfl⟩
  intro dir' c j g hg hgD
  obtain ⟨g₀, hg₀, hp₀, hr₀⟩ := hends dir' c j g hg
  obtain ⟨hq, f, hf, hfp, hfr, -⟩ := hm dir' c j g₀ hg₀ hgD
  rw [hp₀, hr₀] at hq hf
  obtain ⟨f₁, hf₁, hp₁, hr₁⟩ := hends' _ _ _ f hf
  exact ⟨hq, f₁, hf₁, hp₁.trans hfp, hr₁.trans hfr, hR _ _⟩

/-- What the scan for edges to `dup` keeps true: in front of the scan there is
at most one such edge, and the other edges are all still there. -/
structure ScanInv (R : Flags → Flags → Prop) (dir : Dir) (bl dup : BlockId) (d₀ : Blocks)
    (slot : Nat) (indval : Option Nat) (d : Blocks) : Prop where
  matched : Matched R d ∅
  core : SameCore d₀ d
  other : ∀ c, c ≠ bl → points d dir c = points d₀ dir c
  rest : (points d dir bl).filter (· ≠ dup) = (points d₀ dir bl).filter (· ≠ dup)
  size : slot ≤ (points d dir bl).length
  front : ((points d dir bl).take slot).count dup = if indval.isSome then 1 else 0
  first : ∀ k, indval = some k → k < slot
  total : min 1 ((points d dir bl).count dup) = min 1 ((points d₀ dir bl).count dup)

theorem ScanInv.pass (hR : ∀ a b, R a b) {d₀ s : Blocks} {indval : Option Nat}
    (h : ScanInv R dir bl dup d₀ slot indval s) (hb : d₀.Live bl) (hs : slot < (points s dir bl).length) :
    ∃ slot' indval' s', eliminatePass dir bl dup (slot, indval, s) = .ok (.again (slot', indval', s')) ∧
      ScanInv R dir bl dup d₀ slot' indval' s' ∧
      (points s' dir bl).length - slot' < (points s dir bl).length - slot := by
  have hlive := (h.core.live bl).mpr hb
  obtain ⟨e, he⟩ := exists_edge? hs
  have hlen : slot < ((blk s bl).edges dir).length := by simpa [points] using hs
  have hgo : getIdx ((blk s bl).edges dir) slot = .ok e := getIdx_eq he
  have hget : (points s dir bl)[slot]? = some e.point := by rw [points_getElem?, he, Option.map_some]
  have htake : (points s dir bl).take (slot + 1) = (points s dir bl).take slot ++ [e.point] := by
    rw [List.take_add_one, hget, Option.toList_some]
  by_cases hdup : e.point = dup
  · cases hind : indval with
    | none =>
        refine ⟨slot + 1, some slot, s, ?_, ?_, by omega⟩
        · simp [eliminatePass, get_of_live hlive, hlen, hgo, hdup]
        · refine ⟨h.matched, h.core, h.other, h.rest, hs, ?_, by simp, h.total⟩
          rw [htake, List.count_append, h.front, hind, hdup]
          simp
    | some k =>
        have hk := h.first k hind
        obtain ⟨e₀, he₀⟩ : ∃ e₀, edge? s dir bl k = some e₀ := exists_edge? (by omega)
        let e₁ : BlockEdge := { e₀ with label := e₀.label ||| e.label }
        have he₁ : edge? (setEdge s dir bl k e₁) dir bl slot = some e := by
          rw [edge?_setEdge_ne he₀ _ (by simp; omega), he]
        have hpts := points_setEdge_same he₀ (show e₁.point = _ from rfl)
        obtain ⟨s', hrun, hms', hcs', hps', -⟩ := blockRemoveDirEdge_spec (h.matched.relabel hR he₀ (show e₁.point = _ from rfl) rfl) he₁
        have hps : points s' dir bl = (points s dir bl).eraseIdx slot := by rw [hps', if_pos rfl, hpts]
        have hlen' : (points s' dir bl).length = (points s dir bl).length - 1 := by
          rw [hps, List.length_eraseIdx_of_lt hs]
        have htake' : (points s' dir bl).take slot = (points s dir bl).take slot := by
          rw [hps, List.take_eraseIdx_eq_take_of_le _ _ _ (Nat.le_refl slot)]
        refine ⟨slot, some k, s', ?_, ?_, by omega⟩
        · have hdel : (do
              let d ← blockHalfDeleteEdge dir (setEdge s dir bl k e₁) bl slot
              blockHalfDeleteEdge dir.op d e.point e.reverseIndex) = .ok s' := by
            have hl₁ : (setEdge s dir bl k e₁).Live bl := by simpa using hlive
            simpa [blockRemoveDirEdge, get_of_live hl₁,
              getIdx_eq (show ((blk (setEdge s dir bl k e₁) bl).edges dir)[slot]? = some e from he₁)] using hrun
          rw [hdup] at hdel
          obtain ⟨t, ht, ht'⟩ := bind_eq_ok.mp hdel
          simp [eliminatePass, get_of_live hlive, hlen, hgo, hdup, modifyEdge_eq he₀,
            show setEdge s dir bl k { e₀ with label := e₀.label ||| e.label } = setEdge s dir bl k e₁ from rfl, ht, ht']
        · refine ⟨hms', h.core.trans ((sameCore_setEdge ..).trans hcs'), ?_, ?_, by omega, ?_, by simpa using hk, ?_⟩
          · intro c hc
            rw [hps', if_neg hc, hpts, h.other c hc]
          · rw [hps, eraseIdx_filter_ne (hdup ▸ hget), h.rest]
          · rw [htake', h.front, hind]
          · have hone : 1 ≤ (points s' dir bl).count dup := by
              have hf := h.front
              rw [hind, Option.isSome_some, if_pos rfl, ← htake'] at hf
              exact hf ▸ (List.take_sublist slot _).count_le dup
            have hmore : 1 ≤ (points s dir bl).count dup :=
              hone.trans (hps ▸ (List.eraseIdx_sublist _ _).count_le dup)
            rw [← h.total]
            omega
  · refine ⟨slot + 1, indval, s, ?_, ?_, by omega⟩
    · simp [eliminatePass, get_of_live hlive, hlen, hgo, hdup]
    · refine ⟨h.matched, h.core, h.other, h.rest, hs, ?_, fun k hk => (h.first k hk).trans (Nat.lt_succ_self _), h.total⟩
      rw [htake, List.count_append, h.front]
      simp [hdup]

/-- All edges to `dup` but the first are removed. -/
theorem blockEliminateDups_spec (hR : ∀ a b, R a b) (hm : Matched R d ∅) (hb : d.Live bl) (dir : Dir)
    (dup : BlockId) : ∃ d', blockEliminateDups dir d bl dup = .ok d' ∧ Matched R d' ∅ ∧ SameCore d d' ∧
      ∀ c x, (points d' dir c).count x =
        if c = bl ∧ x = dup then min 1 ((points d dir c).count x) else (points d dir c).count x := by
  obtain ⟨d', hrun, slot, indval, hinv, hend⟩ := loop_total (f := eliminatePass dir bl dup) (s := (0, none, d))
    (fun s => ScanInv R dir bl dup d s.1 s.2.1 s.2.2)
    (fun d' => ∃ slot indval, ScanInv R dir bl dup d slot indval d' ∧ (points d' dir bl).length ≤ slot)
    (fun s => (points s.2.2 dir bl).length - s.1)
    (by
      rintro ⟨slot, indval, s⟩ hinv
      by_cases hs : slot < (points s dir bl).length
      · obtain ⟨slot', indval', s', hrun, hinv', hv⟩ := hinv.pass hR hb hs
        exact .inr ⟨_, hrun, hinv', hv⟩
      · refine .inl ⟨s, ?_, slot, indval, hinv, Nat.le_of_not_lt hs⟩
        have hlen : ¬ slot < ((blk s bl).edges dir).length := by simpa [points] using hs
        simp [eliminatePass, get_of_live ((hinv.core.live bl).mpr hb), hlen])
    (k := (points d dir bl).length + 1)
    ⟨hm, SameCore.refl d, fun _ _ => rfl, rfl, Nat.zero_le _, by simp, by simp, rfl⟩ (by simp)
  refine ⟨d', ?_, hinv.matched, hinv.core, ?_⟩
  · simp only [blockEliminateDups, get_of_live hb, ok_bind]
    rw [← hrun]
    simp [points]
  · intro c x
    by_cases hc : c = bl
    · subst hc
      by_cases hx : x = dup
      · subst hx
        have hall := hinv.front
        rw [List.take_of_length_le hend] at hall
        have htot := hinv.total
        rw [if_pos ⟨rfl, rfl⟩, ← htot, hall]
        split <;> rfl
      · have hf := congrArg (List.count x) hinv.rest
        rw [List.count_filter (by simpa using hx), List.count_filter (by simpa using hx)] at hf
        simp [hf, hx]
    · simp [hinv.other c hc, hc]

/-- The two mark bits are scratch: they are clear whenever no operation is
running. -/
def Unmarked (d : Blocks) : Prop := ∀ b, (blk d b).flags &&& (fMark ||| fMark2) = 0#32

/-- The marks of a block that was met a number of times. -/
def markMask : Nat → Flags
  | 0 => 0#32
  | 1 => fMark
  | _ + 2 => fMark ||| fMark2

theorem Unmarked.get? (h : Unmarked d) {x : FlowBlock} (hx : d.get? b = some x) :
    x.flags &&& (fMark ||| fMark2) = 0#32 := by
  simpa [blk, hx] using h b

theorem clearFlag_setFlag_markMask {x : FlowBlock} (hx : x.flags &&& (fMark ||| fMark2) = 0#32) (n : Nat) :
    clearFlag (fMark ||| fMark2) (setFlag (markMask n) x) = x := by
  have hmask : markMask n &&& ~~~(fMark ||| fMark2) = 0#32 := by
    match n with
    | 0 => decide
    | 1 => decide
    | n + 2 => exact (by decide : (fMark ||| fMark2) &&& ~~~(fMark ||| fMark2) = 0#32)
  simp only [clearFlag, setFlag, BitVec.and_or_distrib_right, hmask, BitVec.or_zero,
    Flags.and_not_of_and_eq_zero hx]

@[simp] theorem setFlag_zero (x : FlowBlock) : setFlag 0#32 x = x := by simp [setFlag]

/-- Blocks met once carry the first mark, blocks met again carry both and are
on the list. -/
structure DupsInv (d : Blocks) (seen : List BlockEdge) (s : Blocks × List BlockId) : Prop where
  nextId : s.1.nextId = d.nextId
  marks : ∀ b, s.1.get? b = (d.get? b).map (setFlag (markMask ((seen.map BlockEdge.point).count b)))
  nodup : s.2.Nodup
  mem : ∀ x, x ∈ s.2 ↔ 2 ≤ (seen.map BlockEdge.point).count x

theorem findDupsStep_spec (hu : Unmarked d) {seen : List BlockEdge} {s : Blocks × List BlockId}
    (h : DupsInv d seen s) (hl : d.Live e.point) :
    ∃ s', findDupsStep s e = .ok s' ∧ DupsInv d (seen ++ [e]) s' := by
  obtain ⟨x, hx⟩ := Option.isSome_iff_exists.mp hl
  have hflag (m : Flags) (hm : m &&& (fMark ||| fMark2) = m) (n : Nat) :
      (setFlag (markMask n) x).flags &&& m = markMask n &&& m := by
    have hz : x.flags &&& m = 0#32 := by
      rw [← hm, BitVec.and_comm m, ← BitVec.and_assoc, hu.get? hx]
      exact BitVec.zero_and
    simp [setFlag, BitVec.and_or_distrib_right, hz]
  have hcount (b : BlockId) : ((seen ++ [e]).map BlockEdge.point).count b =
      (seen.map BlockEdge.point).count b + if e.point = b then 1 else 0 := by
    simp [List.count_append, List.count_singleton]
  generalize hn : (seen.map BlockEdge.point).count e.point = n at *
  have hs := h.marks e.point
  rw [hn, hx, Option.map_some] at hs
  have hget : s.1.get e.point = .ok (setFlag (markMask n) x) := Arena.get_eq hs
  have hlive := Arena.live_of_get? hs
  -- marking the block again gives the mask for one visit more
  have hstep (m : Flags) (hm : markMask n ||| m = markMask (n + 1)) (b : BlockId) :
      (s.1.update e.point (setFlag m)).get? b =
        (d.get? b).map (setFlag (markMask (((seen ++ [e]).map BlockEdge.point).count b))) := by
    rw [Arena.get?_update, hcount]
    by_cases hb : b = e.point
    · subst hb
      rw [if_pos rfl, hs, hx, hn, if_pos rfl, ← hm]
      simp [setFlag, BitVec.or_assoc]
    · simp [hb, Ne.symm hb, h.marks]
  match n with
  | 0 =>
      refine ⟨(s.1.update e.point (setFlag fMark), s.2), ?_, by simpa using h.nextId, hstep fMark (by decide), h.nodup, ?_⟩
      · have h2 : (setFlag (markMask 0) x).flags &&& fMark2 = 0#32 := by rw [hflag fMark2 (by decide)]; decide
        have h1 : (setFlag (markMask 0) x).flags &&& fMark = 0#32 := by rw [hflag fMark (by decide)]; decide
        simp only [findDupsStep, hget, ok_bind, h1, h2, ne_eq, not_true, if_false, Arena.modify_eq _ hlive]
        rfl
      · intro y
        rw [h.mem, hcount]
        by_cases hy : e.point = y
        · subst hy; simp [hn]
        · simp [hy]
  | 1 =>
      refine ⟨(s.1.update e.point (setFlag fMark2), s.2 ++ [e.point]), ?_, by simpa using h.nextId,
        hstep fMark2 (by decide), ?_, ?_⟩
      · have h2 : (setFlag (markMask 1) x).flags &&& fMark2 = 0#32 := by rw [hflag fMark2 (by decide)]; decide
        have h1 : (setFlag (markMask 1) x).flags &&& fMark ≠ 0#32 := by rw [hflag fMark (by decide)]; decide
        simp only [findDupsStep, hget, ok_bind, h1, h2, ne_eq, not_true, not_false_eq_true, if_false, if_true,
          Arena.modify_eq _ hlive]
        rfl
      · rw [List.nodup_append]
        refine ⟨h.nodup, List.nodup_singleton _, ?_⟩
        rintro a ha b hb rfl
        rw [List.mem_singleton] at hb
        rw [hb, h.mem, hn] at ha
        omega
      · intro y
        rw [List.mem_append, List.mem_singleton, h.mem, hcount]
        by_cases hy : e.point = y
        · subst hy; simp [hn]
        · simp [hy, Ne.symm hy]
  | n + 2 =>
      refine ⟨s, ?_, h.nextId, ?_, h.nodup, ?_⟩
      · have h2 : (setFlag (markMask (n + 2)) x).flags &&& fMark2 ≠ 0#32 := by
          rw [hflag fMark2 (by decide)]
          exact (by decide : (fMark ||| fMark2) &&& fMark2 ≠ 0#32)
        simp only [findDupsStep, hget, ok_bind, h2, ne_eq, not_false_eq_true, if_true]
        rfl
      · intro b
        rw [h.marks, hcount]
        by_cases hb : e.point = b
        · subst hb; simp [hn, markMask]
        · simp [hb]
      · intro y
        rw [h.mem, hcount]
        by_cases hy : e.point = y
        · subst hy; simp [hn]
        · simp [hy]

/-- The search leaves the blocks as they were and lists every target that
occurs more than once, each once. -/
theorem blockFindDups_spec (hu : Unmarked d) (reference : List BlockEdge) (hl : ∀ e ∈ reference, d.Live e.point) :
    ∃ dups, blockFindDups d reference [] = .ok (d, dups) ∧ dups.Nodup ∧
      ∀ x, x ∈ dups ↔ 2 ≤ (reference.map BlockEdge.point).count x := by
  obtain ⟨⟨s, dups⟩, hrun, hs⟩ := foldlM_total (f := findDupsStep) (s := (d, [])) (DupsInv d) reference
    (fun seen e after heq s hs => findDupsStep_spec hu hs (hl e (by simp [heq])))
    ⟨rfl, fun b => by cases d.get? b <;> simp [markMask], List.nodup_nil, by simp⟩
  have hslive (e : BlockEdge) (he : e ∈ reference) : s.Live e.point := by
    have := hs.marks e.point
    obtain ⟨x, hx⟩ := Option.isSome_iff_exists.mp (hl e he)
    exact Arena.live_of_get? (by rw [this, hx]; rfl)
  obtain ⟨t, ht, htn, hts⟩ := foldlM_total
    (f := fun (d : Blocks) edge => d.modify edge.point (clearFlag (fMark ||| fMark2))) (s := s)
    (fun seen t => t.nextId = d.nextId ∧ ∀ b, t.get? b =
      if b ∈ seen.map BlockEdge.point then d.get? b else s.get? b) reference
    (by
      rintro seen e after heq t ⟨htn, hts⟩
      have he : e ∈ reference := by simp [heq]
      obtain ⟨x, hx⟩ := Option.isSome_iff_exists.mp (hl e he)
      have htl : t.Live e.point := by
        rw [Arena.Live, hts]
        split
        · exact hl e he
        · exact hslive e he
      refine ⟨_, Arena.modify_eq _ htl, by simpa using htn, fun b => ?_⟩
      rw [Arena.get?_update]
      simp only [List.map_append, List.map_singleton, List.mem_append, List.mem_singleton]
      by_cases hb : b = e.point
      · subst hb
        have hxu := hu.get? hx
        have hclear := clearFlag_setFlag_markMask hxu
        rw [if_pos rfl, if_pos (.inr rfl), hts, hs.marks, hx]
        have h0 := hclear 0
        rw [markMask, setFlag_zero] at h0
        split <;> simp [hclear, h0]
      · simp [hb, hts])
    ⟨hs.nextId, by simp⟩
  have hback : t = d := by
    refine Arena.ext_get? htn fun b => ?_
    rw [hts]
    split
    · rfl
    case isFalse hb =>
      rw [hs.marks, List.count_eq_zero.mpr hb, markMask]
      cases d.get? b <;> simp
  exact ⟨dups, by simp [blockFindDups, hrun, ht, hback], hs.nodup, hs.mem⟩

/-- One of the two halves of the deduplication: every target is left at most
once in one of the edge lists of the block. -/
theorem dedupDir_spec (hR : ∀ a b, R a b) (hm : Matched R d ∅) (hb : d.Live bl) (hu : Unmarked d) (dir : Dir) :
    ∃ d', (do
        let (d, duplist) ← blockFindDups d ((blk d bl).edges dir) []
        duplist.foldlM (fun d dup => blockEliminateDups dir d bl dup) d) = .ok d' ∧
      Matched R d' ∅ ∧ SameCore d d' ∧
      ∀ c x, (points d' dir c).count x =
        if c = bl then min 1 ((points d dir c).count x) else (points d dir c).count x := by
  have hl (e : BlockEdge) (he : e ∈ (blk d bl).edges dir) : d.Live e.point := by
    obtain ⟨i, hi⟩ := List.getElem?_of_mem he
    obtain ⟨-, f, hf, -⟩ := hm dir bl i e hi (by simp)
    exact live_of_edge? hf
  obtain ⟨dups, hfind, hnd, hmem⟩ := blockFindDups_spec hu _ hl
  obtain ⟨d', hrun, hm', hc', hcount⟩ := foldlM_total
    (f := fun (d : Blocks) dup => blockEliminateDups dir d bl dup) (s := d)
    (fun done s => Matched R s ∅ ∧ SameCore d s ∧ ∀ c x, (points s dir c).count x =
      if c = bl ∧ x ∈ done then min 1 ((points d dir c).count x) else (points d dir c).count x) dups
    (by
      rintro done dup rest heq s ⟨hms, hcs, hps⟩
      obtain ⟨s', hs', hms', hcs', hps'⟩ := blockEliminateDups_spec hR hms ((hcs.live bl).mpr hb) dir dup
      refine ⟨s', hs', hms', hcs.trans hcs', fun c x => ?_⟩
      rw [hps', hps]
      simp only [List.mem_append, List.mem_singleton]
      by_cases hc : c = bl
      · by_cases hx : x = dup <;> by_cases hd : x ∈ done <;> simp [hc, hx, hd] <;> simp_all
      · simp [hc])
    ⟨hm, SameCore.refl d, by simp⟩
  refine ⟨d', by simp [hfind, hrun], hm', hc', fun c x => ?_⟩
  rw [hcount]
  by_cases hc : c = bl
  · subst hc
    by_cases hx : x ∈ dups
    · simp [hx]
    · have hlt : ¬ 2 ≤ (points d dir c).count x := fun h => hx ((hmem x).mpr h)
      simp [hx]
      omega
  · simp [hc]

/-- The deduplicated edges: parallel edges at `bl` are merged, and all other
edges are as they were. -/
def DedupedAt (bl : BlockId) (m m' : Multiset (BlockId × BlockId)) : Prop :=
  ∀ p, m'.count p = if p.1 = bl ∨ p.2 = bl then min 1 (m.count p) else m.count p

theorem Unmarked.of_core (hu : Unmarked d) (hc : SameCore d d') : Unmarked d' := fun b => by
  rw [hc.flags]; exact hu b

theorem blockDedup_spec (hR : ∀ a b, R a b) (hm : Matched R d ∅) (hb : d.Live bl) (hu : Unmarked d) :
    ∃ d', blockDedup d bl = .ok d' ∧ Matched R d' ∅ ∧ SameCore d d' ∧
      DedupedAt bl (pairs .outof d) (pairs .outof d') := by
  obtain ⟨d₁, h₁, hm₁, hc₁, hp₁⟩ := dedupDir_spec hR hm hb hu .into
  have hb₁ := (hc₁.live bl).mpr hb
  obtain ⟨d₂, h₂, hm₂, hc₂, hp₂⟩ := dedupDir_spec hR hm₁ hb₁ (hu.of_core hc₁) .outof
  refine ⟨d₂, ?_, hm₂, hc₁.trans hc₂, ?_⟩
  · obtain ⟨⟨s, dups⟩, hf, he⟩ := bind_eq_ok.mp h₁
    obtain ⟨⟨s', dups'⟩, hf', he'⟩ := bind_eq_ok.mp h₂
    simp only [FlowBlock.edges] at hf hf'
    simp only [blockDedup, get_of_live hb, ok_bind, hf, blockEliminateInDups, blockEliminateOutDups]
    simp only at he he'
    rw [he, ok_bind, get_of_live hb₁, ok_bind, hf', ok_bind, he']
  · rintro ⟨a, x⟩
    rw [count_pairs, count_pairs, hp₂, ← hm₁.count_points .outof a x, Dir.op_outof, hp₁,
      ← hm.count_points .outof a x, Dir.op_outof]
    by_cases ha : a = bl <;> by_cases hx : x = bl <;> simp [ha, hx]

end GhidraDecompiler.Block
