import GhidraDecompiler.RangeMap.InsertExact

namespace GhidraDecompiler.RangeMap

open Fallible RangeLine RangeSubsort RangeRecord LawfulRangeLine

section Tree

variable {L S : Type} [LinearOrder L] {tree : List (AddrRange L S)} {v : Nat} {p : L}

/-- When no point is held twice by the parts of a record, two parts that hold a point
are parts of different records. -/
theorem pairwise_of_cover_le_one (h : ∀ v p, cover tree v p ≤ 1) :
    tree.Pairwise fun e f => ∀ p, contains p e = true → contains p f = true → e.value ≠ f.value := by
  refine List.pairwise_iff_forall_sublist.2 fun {e f} hsub p he hf hv => ?_
  have htwo : cover [e, f] f.value p ≤ cover tree f.value p := hsub.countP_le
  have hholds : cover [e, f] f.value p = 2 := by
    rw [contains_iff] at he hf
    simp [cover, holds, hv, he, hf]
  have hone := h f.value p
  omega

theorem values_nodup (h : ∀ v p, cover tree v p ≤ 1) (p : L) :
    ((tree.filter (contains p)).map AddrRange.value).Nodup := by
  refine List.pairwise_map.2 ?_
  refine ((pairwise_of_cover_le_one h).filter (contains p)).imp_of_mem fun he hf hef => ?_
  exact hef p (List.mem_filter.1 he).2 (List.mem_filter.1 hf).2

theorem parts_nodup (h : ∀ v p, cover tree v p ≤ 1) (ho : ∀ e ∈ tree, e.first ≤ e.last) :
    (tree.map fun e => (e.first, e.last, e.value)).Nodup := by
  refine List.pairwise_map.2 ((pairwise_of_cover_le_one h).imp_of_mem fun {e f} he hf hef heq => ?_)
  obtain ⟨hfirst, hlast, hvalue⟩ := by simpa using heq
  have hle := ho e he
  exact hef e.first (contains_iff.2 ⟨le_rfl, hle⟩) (contains_iff.2 ⟨hfirst ▸ le_rfl, hlast ▸ hle⟩) hvalue

end Tree

variable {R L S Init : Type} [LinearOrder L] [LinearOrder S] [RangeLine L] [LawfulRangeLine L] [RangeSubsort S]
  [RangeRecord R L S Init] {m : RangeMap R L S}

/-- A range that may be inserted: it lies in one block, its subsort is not below the
lower end, and no part of the tree ends where it does. -/
structure Insertable (m : RangeMap R L S) (data : Init) (first second : L) : Prop where
  ordered : first ≤ second
  oneBlock : block first = block second
  subsort : fromBool false ≤ getSubsort (newRecord (R := R) data first second)
  noEnd : ∀ e ∈ m.tree, e.last ≠ second

/-- The maps that runs of such insertions reach. -/
inductive Inserts : RangeMap R L S → Prop
  | new : Inserts RangeMap.new
  | insert {m m' : RangeMap R L S} {data : Init} {first second : L} {id : Nat} (h : Inserts m)
      (hins : Insertable m data first second) (hrun : m.insert data first second = .ok (m', id)) : Inserts m'

/-- Every part is the only one of its record at its points. -/
structure Single (m : RangeMap R L S) : Prop where
  refinement : CommonRefinement m
  low : ∀ e ∈ m.tree, fromBool false ≤ e.subsort
  cover_le : ∀ v p, cover m.tree v p ≤ 1

theorem Single.insert [LawfulRangeRecord R L S Init] (h : Single m) {data : Init} {first second : L}
    (hins : Insertable m data first second) : ∃ m' id, m.insert data first second = .ok (m', id) ∧ Single m' := by
  obtain ⟨m', hrun, hrec, hinserted⟩ := insert_spec h.refinement h.low data hins.ordered hins.oneBlock
  refine ⟨m', _, hrun, h.refinement.insert hrec hinserted, fun e he => ?_, fun v p => ?_⟩
  · rcases hinserted.label e he with ⟨-, hs, -⟩ | ⟨y, hy, -, hs, -⟩
    · exact hs ▸ hins.subsort
    · exact hs ▸ h.low y hy
  · obtain ⟨again, bound, hagain, -, hcover⟩ := hinserted.cover_eq
    have hno : again = false := by
      refine Bool.eq_false_iff.2 fun htrue => ?_
      obtain ⟨y, hy, hlast⟩ := hagain htrue
      exact hins.noEnd y hy hlast
    subst hno
    simp only [hcover, Bool.false_eq_true, false_and, if_false, Nat.add_zero]
    by_cases hv : v = m.records.nextId
    · subst hv
      rw [h.refinement.cover_nextId, Nat.zero_add]
      split_ifs <;> omega
    · simp only [hv, false_and, if_false, Nat.add_zero]
      exact h.cover_le v p

theorem Inserts.single [LawfulRangeRecord R L S Init] (h : Inserts m) : Single m := by
  induction h with
  | new => exact ⟨.new, by simp [RangeMap.new], by simp [RangeMap.new, cover]⟩
  | insert _ hins hrun ih =>
      obtain ⟨m'', id', hrun', hsingle⟩ := ih.insert hins
      rw [hrun', Except.ok.injEq, Prod.mk.injEq] at hrun
      exact hrun.1 ▸ hsingle

/-- While no part ends where a new range does, insertions return, no part is there
twice, and each record that holds a point is found once. -/
theorem inserts_no_duplicates [LawfulRangeRecord R L S Init] (h : Inserts m) :
    (∀ (data : Init) (first second : L), Insertable m data first second →
      ∃ m' id, m.insert data first second = .ok (m', id)) ∧
    (m.tree.map fun e => (e.first, e.last, e.value)).Nodup ∧
      ((∀ e ∈ m.tree, e.subsort ≤ fromBool true) → ∀ p, ∃ bounds, m.find p = .ok bounds ∧
        ((slice m.tree bounds).map AddrRange.value).Nodup ∧ ∀ v, v ∈ (slice m.tree bounds).map AddrRange.value ↔
          ∃ r, m.records.get? v = some r ∧ getFirst r ≤ p ∧ p ≤ getLast r) := by
  have hs := h.single
  refine ⟨fun data first second hins => ?_, parts_nodup hs.cover_le hs.refinement.grid.ordered, fun hhigh p => ?_⟩
  · obtain ⟨m', id, hrun, -⟩ := hs.insert hins
    exact ⟨m', id, hrun⟩
  obtain ⟨bounds, hfind, hslice⟩ := find_spec hs.refinement.grid (fun e he => ⟨hs.low e he, hhigh e he⟩) p
  refine ⟨bounds, hfind, ?_, fun v => ?_⟩
  · rw [hslice]
    exact values_nodup hs.cover_le p
  · rw [hslice]
    exact hs.refinement.mem_values p v

/-- Two symbols of which the second starts inside of the first. -/
def overlapping : EntryMap where
  tree := [⟨10, 14, 10, 19, toLex (0, 1), 0⟩, ⟨15, 19, 10, 19, toLex (0, 1), 0⟩, ⟨15, 19, 15, 24, toLex (0, 2), 1⟩,
    ⟨20, 24, 15, 24, toLex (0, 2), 1⟩]
  records := ⟨[some ⟨10, 19, 1, toLex (0, 1)⟩, some ⟨15, 24, 2, toLex (0, 2)⟩]⟩
  record := [0, 1]

theorem overlapping_inserts : Inserts overlapping := by
  have hfirst : Insertable (RangeMap.new : EntryMap) (⟨1, toLex (0, 1)⟩ : SymbolRangeInit) 10 19 :=
    ⟨by decide, rfl, by decide, by simp [RangeMap.new]⟩
  have hsecond : Insertable (⟨[⟨10, 19, 10, 19, toLex (0, 1), 0⟩], ⟨[some ⟨10, 19, 1, toLex (0, 1)⟩]⟩, [0]⟩ : EntryMap)
      (⟨2, toLex (0, 2)⟩ : SymbolRangeInit) 15 24 :=
    ⟨by decide, rfl, by decide, by decide⟩
  exact (Inserts.new.insert hfirst rfl).insert hsecond rfl

theorem inserts_no_duplicates_overlapping :
    (overlapping.tree.map fun e => (e.first, e.last, e.value)).Nodup :=
  (inserts_no_duplicates overlapping_inserts).2.1

/-- A symbol in the place of another one gets its part twice. -/
theorem insert_again_duplicates :
    ∃ m m' : EntryMap, (RangeMap.new : EntryMap).insert ⟨1, toLex (0, 1)⟩ 10 19 = .ok (m, 0) ∧
      m.insert ⟨2, toLex (0, 2)⟩ 10 19 = .ok (m', 1) ∧
      m'.tree.map (fun e => (e.first, e.last, e.value)) = [(10, 19, 0), (10, 19, 1), (10, 19, 1)] :=
  ⟨_, _, rfl, rfl, rfl⟩

end GhidraDecompiler.RangeMap
