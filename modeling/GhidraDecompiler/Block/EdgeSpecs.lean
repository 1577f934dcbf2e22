import GhidraDecompiler.Block.Reciprocal
import Mathlib.Data.Multiset.MapFold
import Mathlib.Algebra.BigOperators.Group.Finset.Piecewise
import Mathlib.Data.Finset.Card

namespace GhidraDecompiler.Block

open Fallible

variable {R : Flags → Flags → Prop} {d d' : Blocks} {dir : Dir} {b c bl source : BlockId}
  {i j slot num : Nat} {e : BlockEdge}

/-- All edges seen from one end, as pairs of the block that stores the edge
and the block at its other end. Parallel edges are counted. -/
def pairs (dir : Dir) (d : Blocks) : Multiset (BlockId × BlockId) :=
  ∑ b ∈ Finset.range d.nextId, (points d dir b : Multiset BlockId).map (Prod.mk b)

theorem points_of_not_live (h : ¬ d.Live b) (dir : Dir) : points d dir b = [] := by
  simp [points, blk_of_not_live h]

theorem count_pairs (dir : Dir) (d : Blocks) (b c : BlockId) :
    (pairs dir d).count (b, c) = (points d dir b).count c := by
  have hmap (a : BlockId) : ((points d dir a : Multiset BlockId).map (Prod.mk a)).count (b, c) =
      if b = a then (points d dir b).count c else 0 := by
    split
    case isTrue h =>
      subst h
      rw [Multiset.count_map_eq_count' _ _ (Prod.mk_right_injective b), Multiset.coe_count]
    case isFalse h => exact Multiset.count_eq_zero.mpr (by simp [Ne.symm h])
  rw [pairs, Multiset.count_sum']
  simp only [hmap, Finset.sum_ite_eq, Finset.mem_range]
  by_cases hb : d.Live b
  · simp [Arena.lt_of_live hb]
  · simp [points_of_not_live hb]

theorem mem_pairs : (b, c) ∈ pairs dir d ↔ c ∈ points d dir b := by
  rw [← Multiset.one_le_count_iff_mem, count_pairs, ← List.one_le_count_iff]

theorem count_eq_card_slots (l : List BlockId) (a : BlockId) :
    l.count a = ((Finset.range l.length).filter fun i => l[i]? = some a).card := by
  induction l using List.reverseRecOn with
  | nil => simp
  | append_singleton l x ih =>
      have hfront : (Finset.range l.length).filter (fun i => (l ++ [x])[i]? = some a) =
          (Finset.range l.length).filter fun i => l[i]? = some a := by
        apply Finset.filter_congr
        intro i hi
        rw [List.getElem?_append_left (Finset.mem_range.mp hi)]
      rw [List.length_append, List.length_singleton, Finset.range_add_one, Finset.filter_insert, hfront,
        List.count_append, ih]
      by_cases hx : x = a
      · simp [hx]
      · simp [hx]

/-- Between two blocks, as many edges are stored at one end as at the other. -/
theorem Matched.count_points (hm : Matched R d ∅) (dir : Dir) (b c : BlockId) :
    (points d dir.op c).count b = (points d dir b).count c := by
  have hedge {dir' : Dir} {a a' : BlockId} {k : Nat} :
      k ∈ (Finset.range (points d dir' a).length).filter (fun i => (points d dir' a)[i]? = some a') ↔
        ∃ e, edge? d dir' a k = some e ∧ e.point = a' := by
    simp only [Finset.mem_filter, Finset.mem_range, points_getElem?, Option.map_eq_some_iff]
    exact ⟨fun h => h.2, fun ⟨e, he, hp⟩ => ⟨lt_length_points he, e, he, hp⟩⟩
  rw [count_eq_card_slots, count_eq_card_slots]
  refine Finset.card_bij' (fun i _ => ((edge? d dir.op c i).map BlockEdge.reverseIndex).getD 0)
    (fun i _ => ((edge? d dir b i).map BlockEdge.reverseIndex).getD 0) ?_ ?_ ?_ ?_
  · intro i hi
    obtain ⟨e, he, rfl⟩ := hedge.mp hi
    obtain ⟨-, f, hf, hfp, -⟩ := hm _ _ _ _ he (by simp)
    rw [Dir.op_op] at hf
    exact hedge.mpr ⟨f, by simpa [he] using hf, hfp⟩
  · intro i hi
    obtain ⟨e, he, rfl⟩ := hedge.mp hi
    obtain ⟨-, f, hf, hfp, -⟩ := hm _ _ _ _ he (by simp)
    exact hedge.mpr ⟨f, by simpa [he] using hf, hfp⟩
  · intro i hi
    obtain ⟨e, he, rfl⟩ := hedge.mp hi
    obtain ⟨-, f, hf, -, hfr, -⟩ := hm _ _ _ _ he (by simp)
    rw [Dir.op_op] at hf
    simp [he, hf, hfr]
  · intro i hi
    obtain ⟨e, he, rfl⟩ := hedge.mp hi
    obtain ⟨-, f, hf, -, hfr, -⟩ := hm _ _ _ _ he (by simp)
    simp [he, hf, hfr]

theorem Matched.mem_points_op (hm : Matched R d ∅) : c ∈ points d dir b ↔ b ∈ points d dir.op c := by
  rw [← List.count_pos_iff, ← hm.count_points, List.count_pos_iff]

theorem Matched.pairs_op (hm : Matched R d ∅) (dir : Dir) : pairs dir.op d = (pairs dir d).map Prod.swap := by
  refine Multiset.ext.mpr fun ⟨c, b⟩ => ?_
  rw [show (c, b) = Prod.swap (b, c) from rfl, Multiset.count_map_eq_count' _ _ Prod.swap_injective,
    Prod.swap_prod_mk, count_pairs, count_pairs, hm.count_points]

/-- Only the list of `b` changes, where the target `p` is taken out. -/
theorem pairs_erase {p : BlockId} (hp : (points d dir b)[i]? = some p)
    (h : ∀ c, points d' dir c = if c = b then (points d dir c).eraseIdx i else points d dir c) :
    pairs dir d = (b, p) ::ₘ pairs dir d' := by
  refine Multiset.ext.mpr fun ⟨c, x⟩ => ?_
  rw [Multiset.count_cons, count_pairs, count_pairs, h]
  by_cases hc : c = b
  · subst hc
    obtain ⟨hi, hget⟩ := List.getElem?_eq_some_iff.mp hp
    rw [← (List.getElem_cons_eraseIdx_perm hi).count_eq, hget, List.count_cons]
    by_cases hx : p = x
    · simp [hx]
    · simp [hx, Ne.symm hx]
  · simp [hc]

theorem pairs_set {p q : BlockId} (hp : (points d dir b)[i]? = some p)
    (h : ∀ c, points d' dir c = if c = b then (points d dir c).set i q else points d dir c) :
    (b, p) ::ₘ pairs dir d' = (b, q) ::ₘ pairs dir d := by
  refine Multiset.ext.mpr fun ⟨c, x⟩ => ?_
  rw [Multiset.count_cons, Multiset.count_cons, count_pairs, count_pairs, h]
  by_cases hc : c = b
  · subst hc
    obtain ⟨hi, hget⟩ := List.getElem?_eq_some_iff.mp hp
    rw [← (List.getElem_cons_eraseIdx_perm hi).count_eq, hget, if_pos rfl,
      (List.set_perm_cons_eraseIdx hi q).count_eq, List.count_cons, List.count_cons]
    have hpair (y : BlockId) : (if (c, x) = (c, y) then 1 else 0) = if y == x then 1 else 0 := by
      by_cases hy : y = x
      · simp [hy]
      · simp [hy, Ne.symm hy]
    rw [hpair, hpair]
    omega
  · simp [hc]

theorem pairs_append {q : BlockId}
    (h : ∀ c, points d' dir c = if c = b then points d dir c ++ [q] else points d dir c) :
    pairs dir d' = (b, q) ::ₘ pairs dir d := by
  refine Multiset.ext.mpr fun ⟨c, x⟩ => ?_
  rw [Multiset.count_cons, count_pairs, count_pairs, h]
  by_cases hc : c = b
  · subst hc
    rw [if_pos rfl, List.count_append, List.count_singleton]
    by_cases hx : q = x
    · simp [hx]
    · simp [hx, Ne.symm hx]
  · simp [hc]

theorem pairs_congr (h : ∀ c, points d' dir c = points d dir c) : pairs dir d' = pairs dir d := by
  refine Multiset.ext.mpr fun ⟨c, x⟩ => ?_
  rw [count_pairs, count_pairs, h]

theorem blockAddInEdge_spec (hR : ∀ l, R l l) (hm : Matched R d ∅) (hb : d.Live bl) (hs : d.Live source)
    (lab : Flags) : ∃ d', blockAddInEdge d bl source lab = .ok d' ∧ Matched R d' ∅ ∧ SameCore d d' ∧
      (∀ c, points d' .into c = if c = bl then points d .into c ++ [source] else points d .into c) ∧
      ∀ c, points d' .outof c = if c = source then points d .outof c ++ [bl] else points d .outof c := by
  let d₁ := d.update bl fun b => b.setEdges .into (b.edges .into ++ [⟨lab, source, (points d .outof source).length⟩])
  let d₂ := d₁.update source fun b => b.setEdges .outof (b.edges .outof ++ [⟨lab, bl, (points d .into bl).length⟩])
  have hs₁ : d₁.Live source := by simpa [d₁] using hs
  have hlen₁ : (points d₁ .outof source).length = (points d .outof source).length := by
    simp [d₁, points_pushEdge hb]
  have hrun : blockAddInEdge d bl source lab = .ok d₂ := by
    simp [blockAddInEdge, get_of_live hb, get_of_live hs, pushEdge, Arena.modify_eq _ hb, d₂, d₁, points,
      FlowBlock.edges, Arena.modify_eq _ ((Arena.live_update ..).mpr hs)]
  refine ⟨d₂, hrun, ?_, (SameCore.update_setEdges ..).trans (SameCore.update_setEdges ..), ?_, ?_⟩
  · have hm' := (hm.insert_none (h := (.outof, source, (points d .outof source).length)) (edge?_length ..)).insert_none
      (h := (.into, bl, (points d .into bl).length)) (edge?_length ..)
    refine Matched.link .into lab lab hm' (by simp) (by simp) (hR lab) (hR lab) ?_
    intro dir' c j
    rw [edge?_pushEdge hs₁, hlen₁, edge?_pushEdge hb]
    by_cases h : (dir', c, j) = (.into, bl, (points d .into bl).length)
    · simp only [Prod.mk.injEq] at h
      simp [h]
    · simp [h, Dir.op]
  · intro c
    rw [points_pushEdge hs₁, points_pushEdge hb]
    simp
  · intro c
    rw [points_pushEdge hs₁, points_pushEdge hb]
    simp

theorem blockRemoveDirEdge_spec (hm : Matched R d ∅) (he : edge? d dir bl slot = some e) :
    ∃ d', blockRemoveDirEdge dir d bl slot = .ok d' ∧ Matched R d' ∅ ∧ SameCore d d' ∧
      (∀ c, points d' dir c = if c = bl then (points d dir c).eraseIdx slot else points d dir c) ∧
      ∀ c, points d' dir.op c =
        if c = e.point then (points d dir.op c).eraseIdx e.reverseIndex else points d dir.op c := by
  obtain ⟨-, f, hf, -⟩ := hm dir bl slot e he (by simp)
  obtain ⟨d₁, h₁, hm₁, hc₁, hp₁⟩ := (hm.expose he (by simp)).halfDelete
    (by simp) (lt_length_points he)
  have hlt : e.reverseIndex < (points d₁ dir.op e.point).length := by
    rw [hp₁]; simpa using lt_length_points hf
  obtain ⟨d₂, h₂, hm₂, hc₂, hp₂⟩ := hm₁.halfDelete (by simp) hlt
  refine ⟨d₂, ?_, hm₂, hc₁.trans hc₂, ?_, ?_⟩
  · simp [blockRemoveDirEdge, get_of_live (live_of_edge? he),
      getIdx_eq (show ((blk d bl).edges dir)[slot]? = some e from he), h₁, h₂]
  · intro c
    rw [hp₂, hp₁]
    simp
  · intro c
    rw [hp₂, hp₁]
    simp

theorem blockReplaceDirEdge_spec (hR : ∀ l, R l l) (hm : Matched R d ∅) (he : edge? d dir bl num = some e)
    (hs : d.Live source) :
    ∃ d', blockReplaceDirEdge dir d bl num source = .ok d' ∧ Matched R d' ∅ ∧ SameCore d d' ∧
      (∀ c, points d' dir c = if c = bl then (points d dir c).set num source else points d dir c) ∧
      ∀ c, points d' dir.op c =
        (if c = e.point then (points d dir.op c).eraseIdx e.reverseIndex else points d dir.op c) ++
          if c = source then [bl] else [] := by
  obtain ⟨-, f, hf, -⟩ := hm dir bl num e he (by simp)
  have hx : Matched R d (insert (dir.op, e.point, e.reverseIndex) {(dir, bl, num)}) := by
    rw [Set.pair_comm]
    simpa using hm.expose he (by simp)
  obtain ⟨d₁, h₁, hm₁, hc₁, hp₁⟩ := hx.halfDelete (by simp) (lt_length_points hf)
  have hs₁ : d₁.Live source := (hc₁.live source).mpr hs
  obtain ⟨e₁, he₁⟩ : ∃ e₁, edge? d₁ dir bl num = some e₁ :=
    exists_edge? (by rw [hp₁]; simpa using lt_length_points he)
  have hb₁ := live_of_edge? he₁
  let n := (points d₁ dir.op source).length
  let d₂ := setEdge d₁ dir bl num { e₁ with point := source, reverseIndex := n }
  let d₃ := d₂.update source fun b => b.setEdges dir.op (b.edges dir.op ++ [⟨e₁.label, bl, num⟩])
  have hs₂ : d₂.Live source := by simpa [d₂] using hs₁
  have hp₂ (c : BlockId) : points d₂ dir.op c = points d₁ dir.op c := by
    rw [points_setEdge he₁]; simp
  refine ⟨d₃, ?_, ?_, (hc₁.trans (sameCore_setEdge ..)).trans (SameCore.update_setEdges ..), ?_, ?_⟩
  · simp [blockReplaceDirEdge, get_of_live (live_of_edge? he), get_of_live hb₁, get_of_live hs₁,
      getIdx_eq (show ((blk d bl).edges dir)[num]? = some e from he),
      getIdx_eq (show ((blk d₁ bl).edges dir)[num]? = some e₁ from he₁), h₁, modifyEdge_eq he₁,
      pushEdge, d₃, d₂, n, points, Arena.modify_eq _ ((live_setEdge ..).mpr hs₁)]
  · have hm' : Matched R d₁ (insert (dir, bl, num) (insert (dir.op, source, n) ∅)) := by
      rw [Set.insert_comm]
      simpa using hm₁.insert_none (h := (dir.op, source, n)) (edge?_length ..)
    refine Matched.link _ e₁.label e₁.label hm' (by simp) (by simp) (hR _) (hR _) ?_
    intro dir' c j
    rw [edge?_pushEdge hs₂, hp₂, edge?_setEdge he₁]
    by_cases h : (dir', c, j) = (dir, bl, num)
    · simp only [Prod.mk.injEq] at h
      simp [h]
    · have h' := h
      simp only [Prod.mk.injEq] at h'
      simp [h', n]
  · intro c
    rw [points_pushEdge hs₂, points_setEdge he₁, hp₁, hp₁]
    by_cases hc : c = bl <;> simp [hc]
  · intro c
    rw [points_pushEdge hs₂, hp₂, hp₁]
    by_cases hc : c = source <;> simp [hc]

end GhidraDecompiler.Block
