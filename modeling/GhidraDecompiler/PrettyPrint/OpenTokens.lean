import Mathlib.Data.List.Induction
import GhidraDecompiler.PrettyPrint.EmitCalls

namespace GhidraDecompiler.PrettyPrint

open Fallible

variable {σ : Type} {P : TokenSplit → Prop} {toks tail A B : List TokenSplit} {t : TokenSplit} {pre rest : List Nat}
  {i j n k : Nat} {q : CircularQueue Nat} {tq : CircularQueue TokenSplit} {total m : Int}

/-- The positions of the tokens that have no size yet. -/
def openAt : Nat → List TokenSplit → List Nat
  | _, [] => []
  | n, t :: l => if t.size < 0 then n :: openAt (n + 1) l else openAt (n + 1) l

example : openAt n [] = [] := by rw [openAt]

theorem openAt_append : openAt n (A ++ B) = openAt n A ++ openAt (n + A.length) B := by
  induction A generalizing n with
  | nil => rfl
  | cons t A ih =>
      have hlen : n + (A.length + 1) = n + 1 + A.length := by omega
      rw [List.cons_append, openAt, openAt, ih, List.length_cons, hlen]
      split <;> rfl

theorem openAt_closed (h : ∀ t ∈ A, 0 ≤ t.size) : openAt n A = [] := by
  induction A generalizing n with
  | nil => rfl
  | cons t A ih =>
      have ht := h t List.mem_cons_self
      rw [openAt, if_neg (by omega)]
      exact ih fun u hu => h u (List.mem_cons_of_mem _ hu)

theorem openAt_cons_open (h : t.size < 0) : openAt n (t :: B) = n :: openAt (n + 1) B := by rw [openAt, if_pos h]

theorem openAt_cons_closed (h : 0 ≤ t.size) : openAt n (t :: B) = openAt (n + 1) B := by rw [openAt, if_neg (by omega)]

theorem openAt_succ : openAt (n + 1) A = (openAt n A).map (· + 1) := by
  induction A generalizing n with
  | nil => rfl
  | cons t A ih =>
      rw [openAt, openAt, ih]
      split <;> rfl

theorem length_openAt_le : (openAt n A).length ≤ A.length := by
  induction A generalizing n with
  | nil => exact Nat.le_refl _
  | cons t A ih =>
      have hle := ih (n := n + 1)
      rw [openAt]
      split
      · rw [List.length_cons, List.length_cons]
        omega
      · rw [List.length_cons]
        omega

theorem mem_openAt : i ∈ openAt n A ↔ ∃ j t, A[j]? = some t ∧ t.size < 0 ∧ i = n + j := by
  induction A generalizing n with
  | nil => simp [openAt]
  | cons u A ih =>
      have hlater : (∃ j t, A[j]? = some t ∧ t.size < 0 ∧ i = n + 1 + j) ↔
          ∃ j t, (u :: A)[j + 1]? = some t ∧ t.size < 0 ∧ i = n + (j + 1) := by
        simp only [List.getElem?_cons_succ, Nat.add_right_comm n 1, Nat.add_assoc]
      have hsplit : (∃ j t, (u :: A)[j]? = some t ∧ t.size < 0 ∧ i = n + j) ↔
          (u.size < 0 ∧ i = n) ∨ i ∈ openAt (n + 1) A := by
        rw [ih, hlater]
        constructor
        · rintro ⟨j, t, hj, ht, hi⟩
          cases j with
          | zero =>
              obtain rfl : u = t := Option.some.inj hj
              exact Or.inl ⟨ht, hi⟩
          | succ j => exact Or.inr ⟨j, t, hj, ht, hi⟩
        · rintro (⟨hu, hi⟩ | ⟨j, t, hj, ht, hi⟩)
          · exact ⟨0, u, rfl, hu, hi⟩
          · exact ⟨j + 1, t, hj, ht, hi⟩
      rw [hsplit]
      by_cases hu : u.size < 0
      · rw [openAt_cons_open hu, List.mem_cons]
        simp [hu]
      · rw [openAt_cons_closed (by omega)]
        simp [hu]

theorem pairwise_openAt : (openAt n A).Pairwise (· < ·) := by
  induction A generalizing n with
  | nil => exact List.Pairwise.nil
  | cons t A ih =>
      rw [openAt]
      split
      · refine List.Pairwise.cons (fun i hi => ?_) ih
        obtain ⟨j, t, -, -, rfl⟩ := mem_openAt.mp hi
        omega
      · exact ih

/-- The first open token, with the closed ones before it. -/
theorem openAt_first (h : openAt n toks = i :: rest) : ∃ A t B, toks = A ++ t :: B ∧ t.size < 0 ∧ (∀ u ∈ A, 0 ≤ u.size) ∧
    i = n + A.length ∧ openAt (n + A.length + 1) B = rest := by
  induction toks generalizing n with
  | nil => simp [openAt] at h
  | cons t l ih =>
      by_cases ht : t.size < 0
      · rw [openAt_cons_open ht] at h
        obtain ⟨hi, hrest⟩ := List.cons.inj h
        exact ⟨[], t, l, rfl, ht, by simp, hi.symm, hrest⟩
      · rw [openAt_cons_closed (by omega)] at h
        obtain ⟨A, u, B, rfl, hu, hA, hi, hB⟩ := ih h
        refine ⟨t :: A, u, B, rfl, hu, ?_, ?_, ?_⟩
        · rintro v hv
          obtain rfl | hv := List.mem_cons.mp hv
          · omega
          · exact hA v hv
        · rw [List.length_cons]
          omega
        · rw [List.length_cons, ← hB]
          congr 1
          omega

/-- The last open token, with the closed ones after it. -/
theorem openAt_last (h : openAt n toks = pre ++ [i]) : ∃ A t B, toks = A ++ t :: B ∧ t.size < 0 ∧ (∀ u ∈ B, 0 ≤ u.size) ∧
    i = n + A.length ∧ openAt n A = pre := by
  induction toks using List.reverseRecOn with
  | nil => simp [openAt] at h
  | append_singleton l t ih =>
      rw [openAt_append] at h
      by_cases ht : t.size < 0
      · rw [openAt_cons_open ht] at h
        obtain ⟨hpre, hi⟩ := List.append_inj' h rfl
        exact ⟨l, t, [], rfl, ht, by simp, (List.cons.inj hi).1.symm, hpre⟩
      · rw [openAt_cons_closed (by omega), openAt, List.append_nil] at h
        obtain ⟨A, u, B, rfl, hu, hB, hi, hA⟩ := ih h
        refine ⟨A, u, B ++ [t], by simp, hu, ?_, hi, hA⟩
        intro v hv
        obtain hv | hv := List.mem_append.mp hv
        · exact hB v hv
        · rw [List.mem_singleton.mp hv]
          omega

end GhidraDecompiler.PrettyPrint
