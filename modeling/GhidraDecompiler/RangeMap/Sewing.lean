import GhidraDecompiler.RangeMap.InsertExact

namespace GhidraDecompiler.RangeMap

open Fallible RangeLine RangeSubsort LawfulRangeLine

section Loops

variable {L S : Type} [LinearOrder L] [RangeLine L] {line start : L}

/-- The part with its start moved. -/
def extend (start : L) (e : AddrRange L S) : AddrRange L S := { e with first := start }

theorem zipRemove_loop {before gone after : List (AddrRange L S)} {fuel : Nat} (hgone : ∀ x ∈ gone, x.last = line)
    (hafter : ∀ x ∈ after, x.last ≠ line) (hfuel : gone.length < fuel) :
    loop (zipRemove line before.length) fuel (before ++ (gone ++ after)) = .ok (before ++ after) := by
  induction gone generalizing fuel with
  | nil =>
      obtain ⟨fuel, rfl⟩ := Nat.exists_eq_add_of_lt hfuel
      refine loop_succ_leave ?_ _
      cases after with
      | nil => simp [zipRemove]
      | cons d after =>
          have hread : getIdx (before ++ d :: after) before.length = .ok d := getIdx_at rfl rfl
          simp [zipRemove, hread, hafter d (by simp)]
  | cons g gone ih =>
      obtain ⟨fuel, rfl⟩ : ∃ k, fuel = k + 1 := ⟨fuel - 1, by omega⟩
      have hread : getIdx (before ++ (g :: gone ++ after)) before.length = .ok g := getIdx_at rfl rfl
      have herase : (before ++ (g :: gone ++ after)).eraseIdx before.length = before ++ (gone ++ after) := by
        rw [List.eraseIdx_append_of_length_le le_rfl, Nat.sub_self]
        rfl
      have hpass : zipRemove line before.length (before ++ (g :: gone ++ after)) = .ok (.again (before ++ (gone ++ after))) := by
        simp only [zipRemove, hread, ok_bind, hgone g (by simp), if_true, herase]
        simp
      rw [loop_succ_again hpass]
      exact ih (fun x hx => hgone x (by simp [hx])) (by simpa using hfuel)

theorem zipExtend_loop {before moved after : List (AddrRange L S)} {fuel : Nat} (hmoved : ∀ x ∈ moved, x.first = line)
    (hafter : ∀ x ∈ after, x.first ≠ line) (hfuel : moved.length < fuel) :
    loop (zipExtend line start) fuel (before ++ (moved ++ after), before.length) =
      .ok (before ++ (moved.map (extend start) ++ after)) := by
  induction moved generalizing before fuel with
  | nil =>
      obtain ⟨fuel, rfl⟩ := Nat.exists_eq_add_of_lt hfuel
      refine loop_succ_leave ?_ _
      cases after with
      | nil => simp [zipExtend]
      | cons d after =>
          have hread : getIdx (before ++ d :: after) before.length = .ok d := getIdx_at rfl rfl
          simp [zipExtend, hread, hafter d (by simp)]
  | cons g moved ih =>
      obtain ⟨fuel, rfl⟩ : ∃ k, fuel = k + 1 := ⟨fuel - 1, by omega⟩
      have hread : getIdx (before ++ (g :: moved ++ after)) before.length = .ok g := getIdx_at rfl rfl
      have hset : setIdx (before ++ (g :: moved ++ after)) before.length (extend start g) =
          .ok (before ++ extend start g :: (moved ++ after)) := setIdx_at _ rfl rfl
      have htree : before ++ extend start g :: (moved ++ after) = before ++ [extend start g] ++ (moved ++ after) := by simp
      rw [htree] at hset
      have hne : before.length ≠ (before ++ (g :: moved ++ after)).length := by simp
      have hpass : zipExtend line start (before ++ (g :: moved ++ after), before.length) =
          .ok (.again (before ++ [extend start g] ++ (moved ++ after), (before ++ [extend start g]).length)) := by
        rw [extend] at hset
        simp only [zipExtend, if_pos hne, hread, ok_bind, hmoved g (by simp), if_true, hset, pure_eq_ok]
        simp [extend]
      rw [loop_succ_again hpass, ih (fun x hx => hmoved x (by simp [hx])) (by simpa using hfuel)]
      simp

end Loops

variable {L S : Type} [LinearOrder L] [LinearOrder S] [RangeLine L] [LawfulRangeLine L] [RangeSubsort S]
  {tree tree' : List (AddrRange L S)} {line : L}

/-- The tree without the parts that end at the line, the parts behind them extended to
their start. -/
structure Sewn (line : L) (tree tree' : List (AddrRange L S)) : Prop where
  grid : Grid tree'
  cover_iff : ∀ v p, 0 < cover tree' v p ↔ 0 < cover tree v p
  origin : ∀ x ∈ tree', x ∈ tree ∨ ∃ y ∈ tree, y.first = plusOne line ∧ ∃ start, start ≤ line ∧ x = extend start y

/-- The records whose parts end at the line are those whose parts start behind it. -/
def Continued (line : L) (tree : List (AddrRange L S)) : Prop :=
  ∀ v, (∃ x ∈ tree, x.last = line ∧ x.value = v) ↔ ∃ y ∈ tree, y.first = plusOne line ∧ y.value = v

omit [RangeLine L] [RangeSubsort S] [LawfulRangeLine L] in
theorem samePlace_of_last {e f : AddrRange L S} (ha : Apart e f) (he : e.first ≤ e.last) (hf : f.first ≤ f.last)
    (hl : e.last = f.last) : SamePlace e f := by
  rcases ha with hsame | hlt | hlt
  · exact hsame
  · exact absurd (hlt.trans_le hf) (by rw [hl]; exact lt_irrefl _)
  · exact absurd (hlt.trans_le he) (by rw [hl]; exact lt_irrefl _)

omit [RangeSubsort S] in
theorem sewn_of_mem (h : Grid tree) (hstep : ∀ p, plusOne line ≤ p ↔ line < p) (hb : block (plusOne line) = block line)
    (hvals : Continued line tree) {g : AddrRange L S} (hg : g ∈ tree) (hgl : g.last = line) (hs : Sorted tree')
    (hmem : ∀ x, x ∈ tree' ↔ x ∈ tree ∧ x.last ≠ line ∧ x.first ≠ plusOne line ∨
      ∃ y ∈ tree, y.first = plusOne line ∧ x = extend g.first y) : Sewn line tree tree' := by
  have hgo := h.ordered g hg
  rw [hgl] at hgo
  have hgb := h.oneBlock g hg
  rw [hgl] at hgb
  have hnext : line < plusOne line := (hstep _).1 le_rfl
  have hplace {x : AddrRange L S} (hx : x ∈ tree) (hl : x.last = line) : x.first = g.first :=
    (samePlace_of_last (h.apart x hx g hg) (h.ordered x hx) (h.ordered g hg) (hl.trans hgl.symm)).1
  have hlong {y : AddrRange L S} (hy : y ∈ tree) (hf : y.first = plusOne line) : line < y.last :=
    (hf ▸ hnext).trans_le (h.ordered y hy)
  -- what lies apart from both joined stretches lies apart from the joined one
  have hapart {x y : AddrRange L S} (hx : x ∈ tree) (hxl : x.last ≠ line) (hxf : x.first ≠ plusOne line) (hy : y ∈ tree)
      (hf : y.first = plusOne line) : Apart x (extend g.first y) := by
    rcases h.apart x hx g hg with ⟨-, hl⟩ | hlt | hlt
    · exact absurd (hl.trans hgl) hxl
    · exact .inr (.inl hlt)
    · rcases h.apart x hx y hy with ⟨hf', -⟩ | hlt' | hlt'
      · exact absurd (hf'.trans hf) hxf
      · rw [hf] at hlt'
        exact absurd ((hgl ▸ hlt).trans_le (h.ordered x hx)) (mt (hstep x.last).2 (not_le.2 hlt'))
      · exact .inr (.inr hlt')
  refine ⟨⟨hs, fun x hx => ?_, fun x hx => ?_, fun x hx y hy => ?_⟩, fun v p => ?_, fun x hx => ?_⟩
  · rcases (hmem x).1 hx with ⟨hx, -⟩ | ⟨y, hy, hf, rfl⟩
    · exact h.ordered x hx
    · exact (hgo.trans_lt (hlong hy hf)).le
  · rcases (hmem x).1 hx with ⟨hx, -⟩ | ⟨y, hy, hf, rfl⟩
    · exact h.oneBlock x hx
    · exact hgb.trans (hb.symm.trans (hf ▸ h.oneBlock y hy))
  · rcases (hmem x).1 hx with ⟨hx', hxl, hxf⟩ | ⟨x', hx', hxf, rfl⟩
    · rcases (hmem y).1 hy with ⟨hy', -⟩ | ⟨y', hy', hyf, rfl⟩
      · exact h.apart x hx' y hy'
      · exact hapart hx' hxl hxf hy' hyf
    · rcases (hmem y).1 hy with ⟨hy', hyl, hyf⟩ | ⟨y', hy', hyf, rfl⟩
      · exact (hapart hy' hyl hyf hx' hxf).symm
      · rcases h.apart x' hx' y' hy' with ⟨-, hl⟩ | hlt | hlt
        · exact .inl ⟨rfl, hl⟩
        · exact absurd (h.ordered x' hx') (not_le.2 (hxf.trans hyf.symm ▸ hlt))
        · exact absurd (h.ordered y' hy') (not_le.2 (hyf.trans hxf.symm ▸ hlt))
  · rw [cover_pos, cover_pos]
    constructor
    · rintro ⟨x, hx, rfl, hxp, hpx⟩
      rcases (hmem x).1 hx with ⟨hx, -⟩ | ⟨y, hy, hf, rfl⟩
      · exact ⟨x, hx, rfl, hxp, hpx⟩
      · by_cases hp : p ≤ line
        · obtain ⟨z, hz, hzl, hzv⟩ := (hvals y.value).2 ⟨y, hy, hf, rfl⟩
          exact ⟨z, hz, hzv, (hplace hz hzl).le.trans hxp, hp.trans hzl.ge⟩
        · exact ⟨y, hy, rfl, hf.le.trans ((hstep p).2 (not_le.1 hp)), hpx⟩
    · rintro ⟨x, hx, rfl, hxp, hpx⟩
      by_cases hl : x.last = line
      · obtain ⟨y, hy, hf, hv⟩ := (hvals x.value).1 ⟨x, hx, hl, rfl⟩
        exact ⟨extend g.first y, (hmem _).2 (.inr ⟨y, hy, hf, rfl⟩), hv, (hplace hx hl).ge.trans hxp,
          (hpx.trans_eq hl).trans (hlong hy hf).le⟩
      · by_cases hf : x.first = plusOne line
        · exact ⟨extend g.first x, (hmem _).2 (.inr ⟨x, hx, hf, rfl⟩), rfl,
            hgo.trans ((hnext.trans_eq hf.symm).trans_le hxp).le, hpx⟩
        · exact ⟨x, (hmem x).2 (.inl ⟨hx, hl, hf⟩), rfl, hxp, hpx⟩
  · rcases (hmem x).1 hx with ⟨hx, -⟩ | ⟨y, hy, hf, rfl⟩
    · exact .inl hx
    · exact .inr ⟨y, hy, hf, g.first, hgo, rfl⟩

theorem zip_spec (h : Grid tree) (hlow : ∀ e ∈ tree, fromBool false ≤ e.subsort)
    (hstep : ∀ p, plusOne line ≤ p ↔ line < p) (hb : block (plusOne line) = block line)
    (hne : ∃ x ∈ tree, x.last = line) (hvals : Continued line tree) :
    ∃ tree', zip tree line (lowerBound tree line (fromBool false)) = .ok tree' ∧ Sewn line tree tree' := by
  obtain ⟨before, rest, rfl, hlen, hbefore, hrest⟩ := h.sorted.lowerBound_split line (fromBool false)
  have hlast : ∀ x ∈ before, x.last < line := by
    intro x hx
    rcases Prod.Lex.toLex_lt_toLex.1 (hbefore x hx) with hlt | ⟨-, hlt⟩
    · exact hlt
    · exact absurd hlt (not_lt.2 (hlow x (by simp [hx])))
  have hge : ∀ x ∈ rest, line ≤ x.last := by
    intro x hx
    rcases Prod.Lex.toLex_le_toLex.1 (hrest x hx) with hlt | ⟨heq, -⟩
    · exact hlt.le
    · exact heq.le
  obtain ⟨gone, after, rfl, -, hgone, hafter⟩ := Sorted.split_last (List.pairwise_append.1 h.sorted).2.1 line
  have hgone' : ∀ x ∈ gone, x.last = line := fun x hx => le_antisymm (hgone x hx) (hge x (by simp [hx]))
  have hmem {x : AddrRange L S} (hx : x ∈ before ++ (gone ++ after)) (hl : x.last = line) : x ∈ gone := by
    rcases List.mem_append.1 hx with hx | hx
    · exact absurd hl (hlast x hx).ne
    · exact (List.mem_append.1 hx).resolve_right fun hx => (hafter x hx).ne' hl
  obtain ⟨g, hg, hgl⟩ := hne
  have hgmem := hmem hg hgl
  have hstart : ∀ x ∈ gone, x.first = g.first := by
    intro x hx
    have hxm : x ∈ before ++ (gone ++ after) := by simp [hx]
    rcases h.apart g hg x hxm with ⟨hf, -⟩ | hlt | hlt
    · exact hf.symm
    · exact absurd (hlt.trans_le (h.ordered x hxm)) (by rw [hgl, hgone' x hx]; exact lt_irrefl _)
    · exact absurd (hlt.trans_le (h.ordered g hg)) (by rw [hgl, hgone' x hx]; exact lt_irrefl _)
  -- the parts that start right behind the line come next
  have hmono : after.Pairwise fun x y => decide (y.first = plusOne line) = true → decide (x.first = plusOne line) = true := by
    have hpair := (List.pairwise_append.1 (List.pairwise_append.1 h.pairwise).2.1).2.1
    refine hpair.imp_of_mem fun {x y} hx _ hxy hy => decide_eq_true ?_
    have hy' := of_decide_eq_true hy
    rcases hxy with ⟨hf, -⟩ | hlt
    · exact hf.trans hy'
    · exact absurd ((hstep x.last).2 (hafter x hx)) (not_le.2 (hy' ▸ hlt))
  obtain ⟨moved, last, rfl, hmoved, hkept⟩ : ∃ moved last, after = moved ++ last ∧
      (∀ x ∈ moved, x.first = plusOne line) ∧ ∀ x ∈ last, x.first ≠ plusOne line := by
    refine ⟨_, _, (List.takeWhile_append_dropWhile (p := fun x => x.first = plusOne line)).symm, fun x hx => ?_, fun x hx => ?_⟩
    · have hp := List.mem_takeWhile_imp hx
      exact of_decide_eq_true hp
    · exact of_decide_eq_false (dropWhile_not hmono x hx)
  refine ⟨before ++ (moved.map (extend g.first) ++ last), ?_, ?_⟩
  · obtain ⟨g', gone', rfl⟩ := List.exists_cons_of_ne_nil (List.ne_nil_of_mem hgmem)
    have hread : getIdx (before ++ (g' :: gone' ++ (moved ++ last))) before.length = .ok g' := getIdx_at rfl rfl
    rw [← hlen, zip, hread, ok_bind]
    simp only
    rw [zipRemove_loop hgone' (fun x hx => (hafter x hx).ne') (by simp; omega), ok_bind, hstart g' (by simp),
      zipExtend_loop hmoved hkept (by simp; omega)]
  · refine sewn_of_mem h hstep hb hvals hg hgl ?_ fun x => ?_
    · have hkeys : (before ++ (moved ++ last)).map key = (before ++ (moved.map (extend g.first) ++ last)).map key := by
        simp only [List.map_append, List.map_map]
        rfl
      have hsub : Sorted (before ++ (moved ++ last)) :=
        h.sorted.sublist ((List.sublist_append_right gone (moved ++ last)).append_left before)
      rw [Sorted, ← List.pairwise_map (R := (· ≤ ·)), ← hkeys]
      exact List.pairwise_map.2 hsub
    · have hfront : ∀ x ∈ before, x.last ≠ line ∧ x.first ≠ plusOne line := fun x hx =>
        ⟨(hlast x hx).ne, fun hf => absurd ((h.ordered x (by simp [hx])).trans_lt (hlast x hx))
          (hf ▸ not_lt.2 ((hstep _).1 le_rfl).le)⟩
      simp only [List.mem_append, List.mem_map]
      constructor
      · rintro (hx | ⟨y, hy, rfl⟩ | hx)
        · exact .inl ⟨.inl hx, hfront x hx⟩
        · exact .inr ⟨y, .inr (.inr (.inl hy)), hmoved y hy, rfl⟩
        · exact .inl ⟨.inr (.inr (.inr hx)), (hafter x (by simp [hx])).ne', hkept x hx⟩
      · rintro (⟨hx | hx | hx | hx, hxl, hxf⟩ | ⟨y, hy | hy | hy | hy, hyf, rfl⟩)
        · exact .inl hx
        · exact absurd (hgone' x hx) hxl
        · exact absurd (hmoved x hx) hxf
        · exact .inr (.inr hx)
        · exact absurd hyf (hfront y hy).2
        · have hyo := h.ordered y (by simp [hy])
          rw [hgone' y hy, hyf] at hyo
          exact absurd ((hstep _).1 le_rfl) (not_lt.2 hyo)
        · exact .inr (.inl ⟨y, hy, rfl⟩)
        · exact absurd hyf (hkept y hy)

end GhidraDecompiler.RangeMap
