import Mathlib.Order.Basic
import Mathlib.Data.List.Basic
import Mathlib.Data.List.Sort

namespace GhidraDecompiler

/-- An ordered map, as the list of its entries in the order of their keys. -/
structure SortedMap (K V : Type) [LinearOrder K] where
  entries : List (K × V)
  sorted : entries.Pairwise fun x y => x.1 < y.1

namespace SortedMap

variable {K V : Type} [LinearOrder K]

@[ext] theorem ext {m m' : SortedMap K V} (h : m.entries = m'.entries) : m = m' := by
  cases m; cases m'; cases h; rfl

def empty : SortedMap K V := ⟨[], List.Pairwise.nil⟩

/-- The entries in `range(..k)`. -/
def below (m : SortedMap K V) (k : K) : List (K × V) := m.entries.filter fun x => x.1 < k

/-- The entries in `range(..=k)`. -/
def upTo (m : SortedMap K V) (k : K) : List (K × V) := m.entries.filter fun x => x.1 ≤ k

/-- The entries in `range(k..)`. -/
def atLeast (m : SortedMap K V) (k : K) : List (K × V) := m.entries.filter fun x => k ≤ x.1

def remove (m : SortedMap K V) (k : K) : SortedMap K V :=
  ⟨m.entries.filter fun x => x.1 ≠ k, m.sorted.filter _⟩

def insert (m : SortedMap K V) (k : K) (v : V) : SortedMap K V where
  entries := (m.entries.filter fun x => x.1 < k) ++ (k, v) :: m.entries.filter fun x => k < x.1
  sorted := by
    refine List.pairwise_append.mpr ⟨m.sorted.filter _, List.pairwise_cons.mpr ⟨?_, m.sorted.filter _⟩, ?_⟩
    · intro x hx
      simpa using (List.mem_filter.mp hx).2
    · intro x hx y hy
      have hxk : x.1 < k := by simpa using (List.mem_filter.mp hx).2
      rcases List.mem_cons.mp hy with rfl | hy
      · exact hxk
      · exact hxk.trans (by simpa using (List.mem_filter.mp hy).2)

@[simp] theorem entries_empty : (empty : SortedMap K V).entries = [] := rfl

theorem mem_remove {m : SortedMap K V} {k : K} {x : K × V} :
    x ∈ (m.remove k).entries ↔ x ∈ m.entries ∧ x.1 ≠ k := by
  simp [remove, List.mem_filter]

theorem mem_removeAll {m : SortedMap K V} {ks : List K} {x : K × V} :
    x ∈ (ks.foldl remove m).entries ↔ x ∈ m.entries ∧ x.1 ∉ ks := by
  induction ks generalizing m with
  | nil => simp
  | cons k ks ih => rw [List.foldl_cons, ih, mem_remove, List.mem_cons, not_or, and_assoc]

theorem mem_insert {m : SortedMap K V} {k : K} {v : V} {x : K × V} :
    x ∈ (m.insert k v).entries ↔ x = (k, v) ∨ x ∈ m.entries ∧ x.1 ≠ k := by
  simp only [insert, List.mem_append, List.mem_filter, List.mem_cons, decide_eq_true_eq, ne_iff_lt_or_gt]
  tauto

/-- The entries before a key, and those from it on. -/
theorem entries_eq_append (m : SortedMap K V) (k : K) : m.entries = m.below k ++ m.atLeast k := by
  obtain ⟨l, hl⟩ := m
  simp only [below, atLeast]
  induction l with
  | nil => rfl
  | cons x l ih =>
      rw [List.pairwise_cons] at hl
      by_cases hx : x.1 < k
      · simp only [List.filter_cons, hx, decide_true, if_true, not_le.mpr hx, decide_false, List.cons_append]
        simpa using ih hl.2
      · have hnone : l.filter (fun y => decide (y.1 < k)) = [] := by
          rw [List.filter_eq_nil_iff]
          intro y hy
          simpa using (le_of_not_gt hx).trans (hl.1 y hy).le
        have hall : l.filter (fun y => decide (k ≤ y.1)) = l := by
          rw [List.filter_eq_self]
          intro y hy
          simpa using (le_of_not_gt hx).trans (hl.1 y hy).le
        simp [hx, le_of_not_gt hx, hnone, hall]

theorem atLeast_of_entries_eq {m : SortedMap K V} (pre : List (K × V)) {suf : List (K × V)} {x : K × V}
    (h : m.entries = pre ++ x :: suf) : m.atLeast x.1 = x :: suf := by
  have hs := m.sorted
  rw [h, List.pairwise_append, List.pairwise_cons] at hs
  rw [atLeast, h, List.filter_append, List.filter_cons_of_pos (by simp), List.filter_eq_nil_iff.mpr,
    List.filter_eq_self.mpr, List.nil_append]
  · intro y hy
    simpa using (hs.2.1.1 y hy).le
  · intro y hy
    simpa using hs.2.2 y hy x (by simp)

theorem eq_of_key_eq {m : SortedMap K V} {x y : K × V} (hx : x ∈ m.entries) (hy : y ∈ m.entries)
    (h : x.1 = y.1) : x = y :=
  List.inj_on_of_nodup_map (f := Prod.fst) (List.pairwise_map.mpr (m.sorted.imp fun h => h.ne)) hx hy h

/-- The last entry in `range(..=k)`. -/
def floor (m : SortedMap K V) (k : K) : Option (K × V) := (m.upTo k).getLast?

theorem getLast?_eq_some_of_pairwise {l : List (K × V)} (hl : l.Pairwise fun x y => x.1 < y.1) {x : K × V}
    (hx : x ∈ l) (hmax : ∀ y ∈ l, y.1 ≤ x.1) : l.getLast? = some x := by
  obtain ⟨pre, suf, rfl⟩ := List.append_of_mem hx
  rw [List.pairwise_append, List.pairwise_cons] at hl
  cases suf with
  | nil => simp
  | cons y suf =>
      have hlt := hl.2.1.1 y (by simp)
      exact absurd (hmax y (by simp)) (not_le.mpr hlt)

theorem floor_eq_some {m : SortedMap K V} {k : K} {x : K × V} :
    m.floor k = some x ↔ x ∈ m.entries ∧ x.1 ≤ k ∧ ∀ y ∈ m.entries, y.1 ≤ k → y.1 ≤ x.1 := by
  constructor
  · intro h
    have hx := List.mem_filter.mp (List.mem_of_getLast? h)
    refine ⟨hx.1, by simpa using hx.2, fun y hy hyk => ?_⟩
    have hy' : y ∈ m.upTo k := List.mem_filter.mpr ⟨hy, by simpa using hyk⟩
    obtain ⟨pre, hpre⟩ := List.getLast?_eq_some_iff.mp h
    have hs : (m.upTo k).Pairwise fun x y => x.1 < y.1 := m.sorted.filter _
    rw [hpre, List.pairwise_append] at hs
    rw [hpre, List.mem_append, List.mem_singleton] at hy'
    rcases hy' with hy' | rfl
    · exact (hs.2.2 y hy' x (by simp)).le
    · exact le_refl _
  · rintro ⟨hx, hxk, hmax⟩
    refine getLast?_eq_some_of_pairwise (m.sorted.filter _) (List.mem_filter.mpr ⟨hx, by simpa using hxk⟩) ?_
    intro y hy
    rw [List.mem_filter] at hy
    exact hmax y hy.1 (by simpa using hy.2)

theorem floor_eq_none {m : SortedMap K V} {k : K} : m.floor k = none ↔ ∀ x ∈ m.entries, k < x.1 := by
  rw [floor, List.getLast?_eq_none_iff, upTo, List.filter_eq_nil_iff]
  simp

def lookup (m : SortedMap K V) (k : K) : Option V := (m.entries.find? fun x => x.1 = k).map Prod.snd

theorem lookup_eq_some {m : SortedMap K V} {k : K} {v : V} : m.lookup k = some v ↔ (k, v) ∈ m.entries := by
  constructor
  · intro h
    obtain ⟨x, hx, rfl⟩ := Option.map_eq_some_iff.mp h
    have hk : x.1 = k := by simpa using List.find?_some hx
    rw [← hk]
    exact List.mem_of_find?_eq_some hx
  · intro h
    have hsome : (m.entries.find? fun x => decide (x.1 = k)).isSome := by
      rw [List.find?_isSome]
      exact ⟨(k, v), h, by simp⟩
    obtain ⟨x, hx⟩ := Option.isSome_iff_exists.mp hsome
    have hk : x.1 = k := by simpa using List.find?_some hx
    have he : x = (k, v) := eq_of_key_eq (List.mem_of_find?_eq_some hx) h hk
    rw [lookup, hx, he]
    rfl

end SortedMap

end GhidraDecompiler
