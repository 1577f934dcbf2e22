import Mathlib.Data.List.Basic

/-! Lists of segments. A segment stands for a list of entries, and the whole
list for the entries of its segments one after the other. -/

namespace GhidraDecompiler.Segments

variable {α β : Type} (f : α → List β) {l pre pre' mid post post' : List α} {a b : α} {i j k n : Nat}

/-- The segment with an entry. -/
theorem exists_split (h : i < (l.flatMap f).length) :
    ∃ pre a post, l = pre ++ a :: post ∧ (pre.flatMap f).length ≤ i ∧ i < (pre.flatMap f).length + (f a).length := by
  induction l generalizing i with
  | nil => exact absurd h (Nat.not_lt_zero i)
  | cons a l ih =>
      by_cases hi : i < (f a).length
      · exact ⟨[], a, l, rfl, Nat.zero_le i, by simpa using hi⟩
      · rw [List.flatMap_cons, List.length_append] at h
        obtain ⟨pre, b, post, rfl, hlow, hhigh⟩ := ih (i := i - (f a).length) (by omega)
        refine ⟨a :: pre, b, post, rfl, ?_, ?_⟩
        · rw [List.flatMap_cons, List.length_append]
          omega
        · rw [List.flatMap_cons, List.length_append]
          omega

/-- The segment with a later entry is the same one or a later one. -/
theorem split_order (h : pre ++ a :: post = pre' ++ b :: post') (hlow : (pre.flatMap f).length ≤ i)
    (hhigh : j < (pre'.flatMap f).length + (f b).length) (hij : i ≤ j) :
    (pre = pre' ∧ a = b ∧ post = post') ∨ ∃ mid, pre' = pre ++ a :: mid ∧ post = mid ++ b :: post' := by
  obtain ⟨mid, hpre, hrest⟩ | ⟨mid, hpre, hrest⟩ := List.append_eq_append_iff.mp h
  · cases mid with
    | nil =>
        obtain ⟨rfl, rfl⟩ := List.cons.inj hrest
        exact Or.inl ⟨by rw [hpre, List.append_nil], rfl, rfl⟩
    | cons c mid =>
        obtain ⟨rfl, rfl⟩ := List.cons.inj hrest
        exact Or.inr ⟨mid, hpre, rfl⟩
  · cases mid with
    | nil =>
        obtain ⟨rfl, rfl⟩ := List.cons.inj hrest
        exact Or.inl ⟨by rw [hpre, List.append_nil], rfl, rfl⟩
    | cons c mid =>
        obtain ⟨rfl, rfl⟩ := List.cons.inj hrest
        rw [hpre, List.flatMap_append, List.flatMap_cons, List.length_append, List.length_append] at hlow
        omega

/-- An entry is in one segment only. -/
theorem split_unique (h : pre ++ a :: post = pre' ++ b :: post') (hlow : (pre.flatMap f).length ≤ i)
    (hhigh : i < (pre.flatMap f).length + (f a).length) (hlow' : (pre'.flatMap f).length ≤ i)
    (hhigh' : i < (pre'.flatMap f).length + (f b).length) : pre = pre' ∧ a = b ∧ post = post' := by
  obtain hsame | ⟨mid, hpre, -⟩ := split_order f h hlow hhigh' (Nat.le_refl i)
  · exact hsame
  · rw [hpre, List.flatMap_append, List.flatMap_cons, List.length_append, List.length_append] at hlow'
    omega

theorem getElem?_split (hk : k < (f a).length) :
    ((pre ++ a :: post).flatMap f)[(pre.flatMap f).length + k]? = (f a)[k]? := by
  rw [List.flatMap_append, List.flatMap_cons, List.getElem?_append_right (Nat.le_add_right _ _), Nat.add_sub_cancel_left,
    List.getElem?_append_left hk]

/-- The entries from one segment to a later one. -/
theorem slice_split (hk : k ≤ (f a).length) (hn : n ≤ (f b).length) :
    (((pre ++ a :: (mid ++ b :: post)).flatMap f).drop ((pre.flatMap f).length + k)).take
      ((f a).length - k + (mid.flatMap f).length + n) = (f a).drop k ++ (mid.flatMap f ++ (f b).take n) := by
  rw [List.flatMap_append, List.drop_append, List.drop_of_length_le (Nat.le_add_right _ _), List.nil_append,
    Nat.add_sub_cancel_left, List.flatMap_cons, List.drop_append_of_le_length hk, List.flatMap_append, List.flatMap_cons]
  have hdrop : ((f a).drop k).length = (f a).length - k := List.length_drop
  rw [Nat.add_assoc, ← hdrop, List.take_length_add_append, List.take_length_add_append, List.take_append_of_le_length hn]

end GhidraDecompiler.Segments
