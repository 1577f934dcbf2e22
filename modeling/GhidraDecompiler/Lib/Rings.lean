import Mathlib.Data.Nat.ModEq
import Mathlib.Data.List.Basic

namespace GhidraDecompiler.Rings

variable {α : Type} {cache l l' : List α} {left i j n : Nat} {x y : α}

/-- Places less than a round apart are different. -/
theorem slot_inj (hi : i < n) (hj : j < n) : (left + i) % n = (left + j) % n ↔ i = j := by
  refine ⟨fun h => ?_, fun h => by rw [h]⟩
  exact Nat.ModEq.eq_of_lt_of_lt (Nat.ModEq.add_left_cancel' left h) hi hj

theorem slot_add (left i j n : Nat) : ((left + i) % n + j) % n = (left + (i + j)) % n := by
  rw [Nat.mod_add_mod, Nat.add_assoc]

/-- The entries of a ring from a place on, around the end. -/
def Holds (cache : List α) (left : Nat) (l : List α) : Prop :=
  l.length ≤ cache.length ∧ ∀ i < l.length, cache[(left + i) % cache.length]? = l[i]?

theorem holds_nil : Holds cache left [] := ⟨Nat.zero_le _, fun _ hi => absurd hi (Nat.not_lt_zero _)⟩

theorem Holds.length_le (h : Holds cache left l) : l.length ≤ cache.length := h.1

theorem Holds.get (h : Holds cache left l) (hi : i < l.length) : cache[(left + i) % cache.length]? = l[i]? := h.2 i hi

/-- The entry after a first part. -/
theorem Holds.at (h : Holds cache left (l ++ x :: l')) : cache[(left + l.length) % cache.length]? = some x := by
  rw [h.get (by simp), List.getElem?_append_right (Nat.le_refl _), Nat.sub_self, List.getElem?_cons_zero]

theorem Holds.head (h : Holds cache left (x :: l)) : cache[left % cache.length]? = some x := h.at (l := [])

theorem Holds.eq (h : Holds cache left l) (h' : Holds cache left l') (hlen : l.length = l'.length) : l = l' := by
  refine List.ext_getElem? fun i => ?_
  by_cases hi : i < l.length
  · rw [← h.get hi, h'.get (hlen ▸ hi)]
  · rw [List.getElem?_eq_none (Nat.not_lt.mp hi), List.getElem?_eq_none (hlen ▸ Nat.not_lt.mp hi)]

theorem Holds.init (h : Holds cache left (l ++ l')) : Holds cache left l := by
  have hlen := h.length_le
  rw [List.length_append] at hlen
  refine ⟨by omega, fun i hi => ?_⟩
  rw [h.get (by rw [List.length_append]; omega), List.getElem?_append_left hi]

theorem Holds.tail (h : Holds cache left (l ++ l')) : Holds cache ((left + l.length) % cache.length) l' := by
  have hlen := h.length_le
  rw [List.length_append] at hlen
  refine ⟨by omega, fun i hi => ?_⟩
  rw [slot_add, h.get (by rw [List.length_append]; omega), List.getElem?_append_right (by omega), Nat.add_sub_cancel_left]

theorem Holds.drop_head (h : Holds cache left (x :: l)) : Holds cache ((left + 1) % cache.length) l := h.tail (l := [x])

/-- A change of one entry. -/
theorem Holds.modify {f : α → α} (h : Holds cache left (l ++ x :: l')) :
    Holds (cache.modify ((left + l.length) % cache.length) f) left (l ++ f x :: l') := by
  have hlen := h.length_le
  rw [List.length_append, List.length_cons] at hlen
  refine ⟨by rw [List.length_modify, List.length_append, List.length_cons]; omega, fun i hi => ?_⟩
  rw [List.length_append, List.length_cons] at hi
  rw [List.length_modify]
  by_cases heq : l.length = i
  · subst heq
    rw [List.getElem?_modify_eq, h.at, List.getElem?_append_right (Nat.le_refl _), Nat.sub_self]
    rfl
  · have hne : (left + l.length) % cache.length ≠ (left + i) % cache.length := by
      rw [Ne, slot_inj (by omega) (by omega)]
      exact heq
    rw [List.getElem?_modify_ne _ _ hne, h.get (by rw [List.length_append, List.length_cons]; omega)]
    by_cases hlt : i < l.length
    · rw [List.getElem?_append_left hlt, List.getElem?_append_left hlt]
    · obtain ⟨j, hj⟩ : ∃ j, i - l.length = j + 1 := ⟨i - l.length - 1, by omega⟩
      rw [List.getElem?_append_right (by omega), List.getElem?_append_right (by omega), hj, List.getElem?_cons_succ,
        List.getElem?_cons_succ]

/-- With a free place, the entry in it can be made the last one. -/
theorem Holds.stale (h : Holds cache left l) (hroom : l.length < cache.length) : ∃ x, Holds cache left (l ++ [x]) := by
  have hlt : (left + l.length) % cache.length < cache.length := Nat.mod_lt _ (by omega)
  refine ⟨cache.get ⟨_, hlt⟩, by rw [List.length_append, List.length_singleton]; omega, fun i hi => ?_⟩
  by_cases hi' : i < l.length
  · rw [h.get hi', List.getElem?_append_left hi']
  · rw [List.length_append, List.length_singleton] at hi
    obtain rfl : i = l.length := by omega
    rw [List.getElem?_append_right (Nat.le_refl _), Nat.sub_self, List.getElem?_cons_zero, List.getElem?_eq_getElem hlt]
    rfl

theorem Holds.push {f : α → α} (h : Holds cache left l) (hroom : l.length < cache.length) :
    ∃ x, Holds (cache.modify ((left + l.length) % cache.length) f) left (l ++ [f x]) := by
  obtain ⟨x, hx⟩ := h.stale hroom
  exact ⟨x, hx.modify⟩

/-- The entries of a ring written to the front of a longer one. -/
theorem holds_front (l rest : List α) : Holds (l ++ rest) 0 l := by
  refine ⟨by rw [List.length_append]; omega, fun i hi => ?_⟩
  rw [Nat.zero_add, Nat.mod_eq_of_lt (by rw [List.length_append]; omega), List.getElem?_append_left hi]

end GhidraDecompiler.Rings
