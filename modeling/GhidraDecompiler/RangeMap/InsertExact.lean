import GhidraDecompiler.RangeMap.Filling

namespace GhidraDecompiler

/-- A new record keeps the range that it is made for. -/
class LawfulRangeRecord (R : Type) (L S Init : outParam Type) [RangeRecord R L S Init] : Prop where
  getFirst_newRecord : ∀ (data : Init) (first last : L), RangeRecord.getFirst (RangeRecord.newRecord (R := R) data first last) = first
  getLast_newRecord : ∀ (data : Init) (first last : L), RangeRecord.getLast (RangeRecord.newRecord (R := R) data first last) = last

namespace RangeMap

open Fallible RangeLine RangeSubsort RangeRecord LawfulRangeLine LawfulRangeRecord

section Find

variable {L S : Type} [LinearOrder L]

/-- The part holds the point. -/
def contains (p : L) (e : AddrRange L S) : Bool := e.first ≤ p ∧ p ≤ e.last

theorem contains_iff {p : L} {e : AddrRange L S} : contains p e = true ↔ e.first ≤ p ∧ p ≤ e.last := by
  simp [contains]

/-- The parts from one index up to another one. -/
def slice (tree : List (AddrRange L S)) (bounds : Nat × Nat) : List (AddrRange L S) :=
  (tree.take bounds.2).drop bounds.1

theorem slice_eq (before mid after : List (AddrRange L S)) :
    slice (before ++ mid ++ after) (before.length, (before ++ mid).length) = mid := by
  rw [slice, List.take_left, List.drop_left]

variable [LinearOrder S] [RangeSubsort S] [RangeLine L] [LawfulRangeLine L]

/-- A call of `find` gives the bounds of the parts that hold the point. -/
theorem find_spec {R : Type} {m : RangeMap R L S} (h : Grid m.tree) (hsub : ∀ e ∈ m.tree, Within e.subsort) (p : L) :
    ∃ bounds, m.find p = .ok bounds ∧ slice m.tree bounds = m.tree.filter (contains p) := by
  obtain ⟨before, after, htree, hlen, hbefore, hafter⟩ := h.sorted.lowerBound_split p (fromBool false)
  rw [htree] at h hsub
  have hlast : ∀ x ∈ before, x.last < p := by
    intro x hx
    rcases Prod.Lex.toLex_lt_toLex.1 (hbefore x hx) with hlt | ⟨-, hlt⟩
    · exact hlt
    · exact absurd hlt (not_lt.2 (hsub x (by simp [hx])).1)
  have hnone : before.filter (contains p) = [] :=
    List.filter_eq_nil_iff.2 fun x hx => by
      simpa [contains] using fun _ => hlast x hx
  simp only [find, htree] at hlen ⊢
  rw [← hlen, List.filter_append, hnone, List.nil_append]
  cases after with
  | nil => exact ⟨_, by rw [if_pos (by simp)]; rfl, by simp [slice]⟩
  | cons e after =>
      have hread : getIdx (before ++ e :: after) before.length = .ok e := getIdx_at rfl rfl
      have hne : ¬ before.length = (before ++ e :: after).length := by simp
      have hle : p ≤ e.last := by
        rcases Prod.Lex.toLex_le_toLex.1 (hafter e (by simp)) with hlt | ⟨heq, -⟩
        · exact hlt.le
        · exact heq.le
      rw [if_neg hne, hread, ok_bind]
      by_cases hlt : p < e.first
      · refine ⟨_, by rw [if_pos hlt]; rfl, ?_⟩
        rw [List.filter_eq_nil_iff.2 fun x hx => ?_]
        · simp [slice]
        · have hx' : p < x.first := by
            rcases List.mem_cons.1 hx with rfl | hx
            · exact hlt
            · rcases h.after hx with ⟨hf, -⟩ | hlt'
              · exact hf ▸ hlt
              · exact hle.trans_lt hlt'
          simp [contains, hx']
      · rw [if_neg hlt]
        obtain ⟨front, back, hsplit, hlen', hfront, hback⟩ := h.sorted.upperBound_split e.last (fromBool true)
        obtain ⟨mid, rfl, hmid⟩ : ∃ mid, front = before ++ mid ∧ e :: after = mid ++ back := by
          rcases List.append_eq_append_iff.1 hsplit with ⟨mid, hmid⟩ | ⟨mid, rfl, rfl⟩
          · exact ⟨mid, hmid⟩
          · have hkey := hback e (by simp)
            exact absurd (key_le_of_subsort_le rfl (hsub e (by simp)).2) (not_le.2 hkey)
        have hplace : ∀ x ∈ mid ++ back, SamePlace e x ∨ e.last < x.first := by
          intro x hx
          rcases List.mem_cons.1 (hmid ▸ hx) with rfl | hx
          · exact .inl ⟨rfl, rfl⟩
          · exact h.after hx
        have hin : ∀ x ∈ mid, contains p x = true := by
          intro x hx
          have hxl : x.last ≤ e.last := last_le_of_key_le (f := { e with subsort := fromBool true })
            (hfront x (by simp [hx]))
          rcases hplace x (by simp [hx]) with ⟨hf, hl⟩ | hlt'
          · exact contains_iff.2 ⟨hf ▸ not_lt.1 hlt, hl ▸ hle⟩
          · exact absurd (hlt'.trans_le (h.ordered x (by rw [hmid]; simp [hx]))) (not_lt.2 hxl)
        have hout : ∀ x ∈ back, ¬ contains p x = true := by
          intro x hx hc
          have hkey := hback x hx
          rcases hplace x (by simp [hx]) with ⟨-, hl⟩ | hlt'
          · exact absurd (key_le_of_subsort_le hl.symm (hsub x (by rw [hmid]; simp [hx])).2) (not_le.2 hkey)
          · exact absurd (contains_iff.1 hc).1 (not_le.2 (hle.trans_lt hlt'))
        refine ⟨_, rfl, ?_⟩
        rw [← hlen', hmid, List.filter_append, List.filter_eq_self.2 hin, List.filter_eq_nil_iff.2 hout,
          List.append_nil, ← List.append_assoc, slice_eq]

end Find

variable {R L S Init : Type} [LinearOrder L] [LinearOrder S] [RangeLine L] [LawfulRangeLine L] [RangeSubsort S]
  [RangeRecord R L S Init] {m m' : RangeMap R L S}

/-- The parts of all records make up a grid, and those of a record hold the points of
its range. -/
structure CommonRefinement (m : RangeMap R L S) : Prop where
  grid : Grid m.tree
  live : ∀ e ∈ m.tree, m.records.Live e.value
  exact : ∀ id r, m.records.get? id = some r → ∀ p, 0 < cover m.tree id p ↔ getFirst r ≤ p ∧ p ≤ getLast r

theorem CommonRefinement.new : CommonRefinement (new : RangeMap R L S) :=
  ⟨.nil, by simp [RangeMap.new], by simp [RangeMap.new, Arena.get?]⟩

theorem CommonRefinement.cover_nextId (h : CommonRefinement m) (p : L) : cover m.tree m.records.nextId p = 0 := by
  refine Nat.eq_zero_of_not_pos fun hpos => ?_
  obtain ⟨e, he, hv, -⟩ := cover_pos.1 hpos
  exact absurd (Arena.lt_of_live (h.live e he)) (by rw [hv]; exact Nat.lt_irrefl _)

/-- The parts that hold a point are those of the records that hold it. -/
theorem CommonRefinement.mem_values (h : CommonRefinement m) (p : L) (v : Nat) :
    v ∈ (m.tree.filter (contains p)).map AddrRange.value ↔
      ∃ r, m.records.get? v = some r ∧ getFirst r ≤ p ∧ p ≤ getLast r := by
  have hmem : v ∈ (m.tree.filter (contains p)).map AddrRange.value ↔ 0 < cover m.tree v p := by
    simp only [List.mem_map, List.mem_filter, contains_iff, cover_pos]
    exact exists_congr fun e => by tauto
  rw [hmem]
  constructor
  · intro hpos
    obtain ⟨e, he, rfl, -⟩ := cover_pos.1 hpos
    obtain ⟨r, hr⟩ := Option.isSome_iff_exists.1 (h.live e he)
    exact ⟨r, hr, (h.exact _ r hr p).1 hpos⟩
  · rintro ⟨r, hr, hp⟩
    exact (h.exact v r hr p).2 hp

theorem insert_spec (h : CommonRefinement m) (hlow : ∀ e ∈ m.tree, fromBool false ≤ e.subsort) (data : Init)
    {first second : L} (hle : first ≤ second) (hb : block first = block second) :
    ∃ m', m.insert data first second = .ok (m', m.records.nextId) ∧
      m'.records = (m.records.alloc (newRecord data first second)).1 ∧
      Inserted m.tree ⟨second, second, first, second, getSubsort (newRecord (R := R) data first second), m.records.nextId⟩
        first second m'.tree := by
  obtain ⟨tree, low, hstart, hsorted, hfill⟩ := fill_spec h.grid hlow hle hb
  obtain ⟨st, hloop, hbound, tree', pos, hplain, hins⟩ := hfill
    ⟨second, second, first, second, getSubsort (newRecord (R := R) data first second), m.records.nextId⟩
  have hget : (m.records.alloc (newRecord data first second)).1.get m.records.nextId = .ok (newRecord data first second) :=
    Arena.get_eq (by rw [Arena.get?_alloc, if_pos rfl])
  have hid : (m.records.alloc (newRecord data first second)).2 = m.records.nextId := rfl
  rw [insert, hstart, ok_bind]
  simp only [hid, hget, ok_bind, hloop]
  by_cases hend : lowerBound tree second (getSubsort (newRecord (R := R) data first second)) = tree.length
  · simp only [if_pos hend, pure_eq_ok, ok_bind, if_pos hbound, hplain]
    exact ⟨_, rfl, rfl, hins⟩
  · have hlt : lowerBound tree second (getSubsort (newRecord (R := R) data first second)) < tree.length :=
      lt_of_le_of_ne (List.takeWhile_prefix _).length_le hend
    simp only [if_neg hend, getIdx_eq (List.getElem?_eq_getElem hlt), pure_eq_ok, ok_bind, if_pos hbound, hplain]
    exact ⟨_, rfl, rfl, hins⟩

/-- The effect of an insertion on a map. -/
theorem CommonRefinement.insert [LawfulRangeRecord R L S Init] (h : CommonRefinement m) {data : Init} {first second : L}
    (hrec : m'.records = (m.records.alloc (newRecord data first second)).1)
    (hins : Inserted m.tree
      ⟨second, second, first, second, getSubsort (newRecord (R := R) data first second), m.records.nextId⟩ first second m'.tree) :
    CommonRefinement m' := by
  obtain ⟨again, bound, -, hbound, hcover⟩ := hins.cover_eq
  dsimp only at hcover
  refine ⟨hins.grid, fun x hx => ?_, fun id r hr p => ?_⟩
  · rw [hrec, Arena.Live, Arena.get?_alloc]
    rcases hins.label x hx with ⟨hv, -⟩ | ⟨y, hy, hv, -⟩
    · rw [if_pos hv]
      rfl
    · rw [hv, if_neg (Nat.ne_of_lt (Arena.lt_of_live (h.live y hy)))]
      exact h.live y hy
  · rw [hrec, Arena.get?_alloc] at hr
    by_cases hid : id = m.records.nextId
    · subst hid
      rw [if_pos rfl, Option.some.injEq] at hr
      rw [hcover, h.cover_nextId, ← hr, LawfulRangeRecord.getFirst_newRecord, LawfulRangeRecord.getLast_newRecord]
      by_cases hp : first ≤ p ∧ p ≤ second
      · rw [if_pos ⟨rfl, hp⟩]
        exact iff_of_true (by omega) hp
      · have hrest : ¬ (bound ≤ p ∧ p ≤ second) := fun hp' => hp ⟨hbound.trans hp'.1, hp'.2⟩
        simp [hp, hrest]
    · rw [if_neg hid] at hr
      rw [hcover, ← h.exact id r hr p]
      simp [hid]

end RangeMap

/-- The subsort of a symbol: the space and the offset at which its use starts. -/
def EntrySubsort : Type := Int ×ₗ U64

instance : LinearOrder EntrySubsort := inferInstanceAs (LinearOrder (Int ×ₗ U64))

instance : RangeSubsort EntrySubsort where
  fromBool val := if val then toLex (0xffff, 0) else toLex (0, 0)

structure SymbolRangeInit where
  entry : Nat
  subsort : EntrySubsort

structure SymbolRange where
  first : U64
  last : U64
  entry : Nat
  subsort : EntrySubsort

instance : RangeRecord SymbolRange U64 EntrySubsort SymbolRangeInit where
  newRecord init first last := ⟨first, last, init.entry, init.subsort⟩
  getFirst r := r.first
  getLast r := r.last
  getSubsort r := r.subsort

instance : LawfulRangeRecord SymbolRange U64 EntrySubsort SymbolRangeInit := ⟨fun _ _ _ => rfl, fun _ _ _ => rfl⟩

abbrev EntryMap := RangeMap SymbolRange U64 EntrySubsort

namespace RangeMap

open Fallible

end RangeMap

end GhidraDecompiler
