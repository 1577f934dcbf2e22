import GhidraDecompiler.Lib.Dominance
import Mathlib.Data.List.Nodup

namespace GhidraDecompiler.Flow

variable {V : Type} {E : V → V → Prop} {r : V}

/-- A depth-first search from the vertices `todo`, one after the other, that
passes over the vertices `seen`. It finishes the vertices in the order `post`.
The successors of a vertex are taken in any order. -/
inductive Dfs (E : V → V → Prop) : List V → List V → List V → Prop
  | done (seen : List V) : Dfs E seen [] []
  | skip (seen todo post : List V) (v : V) (hv : v ∈ seen) (h : Dfs E seen todo post) : Dfs E seen (v :: todo) post
  | visit (seen todo ws post₁ post₂ : List V) (v : V) (hv : v ∉ seen) (hws : ∀ w, w ∈ ws ↔ E v w)
      (h₁ : Dfs E (v :: seen) ws post₁) (h₂ : Dfs E (post₁ ++ v :: seen) todo post₂) :
      Dfs E seen (v :: todo) (post₁ ++ v :: post₂)

/-- The list is the reverse of a postorder of a search from `r`. -/
def ReversePostorder (E : V → V → Prop) (r : V) (l : List V) : Prop := Dfs E [] [r] l.reverse

theorem Dfs.pred {seen todo post : List V} (h : Dfs E seen todo post) :
    ∀ v ∈ post, v ∈ todo ∨ ∃ u, E u v ∧ [v, u].Sublist post := by
  induction h with
  | done => simp
  | skip seen todo post v _ _ ih => exact fun w hw => (ih w hw).imp_left (List.mem_cons_of_mem _)
  | visit seen todo ws post₁ post₂ v _ hws _ _ ih₁ ih₂ =>
      intro w hw
      rcases List.mem_append.mp hw with hw | hw
      · refine .inr ?_
        rcases ih₁ w hw with hw' | ⟨u, huw, hs⟩
        · exact ⟨v, (hws w).mp hw', (List.singleton_sublist.mpr hw).append (List.singleton_sublist.mpr (by simp))⟩
        · exact ⟨u, huw, hs.trans (List.sublist_append_left _ _)⟩
      · rcases List.mem_cons.mp hw with rfl | hw
        · exact .inl (by simp)
        · refine (ih₂ w hw).imp (List.mem_cons_of_mem _) fun ⟨u, huw, hs⟩ => ⟨u, huw, ?_⟩
          exact (hs.trans (List.sublist_cons_self _ _)).trans (List.sublist_append_right _ _)

theorem idxOf_lt_of_sublist [DecidableEq V] {l : List V} {u v : V} (h : [u, v].Sublist l) (hnd : l.Nodup) :
    l.idxOf u < l.idxOf v := by
  induction l with
  | nil => simp at h
  | cons x l ih =>
      have hv : v ∈ l := by
        cases h with
        | cons _ h => exact h.subset (by simp)
        | cons_cons _ h => exact h.subset (by simp)
      have hxv : x ≠ v := by
        rintro rfl
        exact (List.nodup_cons.mp hnd).1 hv
      by_cases hxu : x = u
      · subst hxu
        rw [List.idxOf_cons_self, List.idxOf_cons_ne _ hxv]
        exact Nat.succ_pos _
      · rw [List.idxOf_cons_ne _ hxu, List.idxOf_cons_ne _ hxv]
        refine Nat.succ_lt_succ (ih ?_ (List.nodup_cons.mp hnd).2)
        cases h with
        | cons _ h => exact h
        | cons_cons _ h => exact absurd rfl hxu

namespace ReversePostorder

variable {l : List V}

theorem head? (h : ReversePostorder E r l) : l.head? = some r := by
  rw [ReversePostorder] at h
  generalize hpost : l.reverse = post at h
  cases h with
  | skip _ _ _ _ hv => simp at hv
  | visit _ _ ws post₁ post₂ _ _ _ _ h₂ =>
      cases h₂
      rw [← List.getLast?_reverse, hpost]
      simp

/-- Each vertex but the first has a predecessor before it. -/
theorem exists_pred [DecidableEq V] (h : ReversePostorder E r l) (hnd : l.Nodup) {b : V} (hb : b ∈ l) (hbr : b ≠ r) :
    ∃ a, E a b ∧ l.idxOf a < l.idxOf b := by
  rcases Dfs.pred h b (List.mem_reverse.mpr hb) with hmem | ⟨a, hab, hs⟩
  · exact absurd (List.mem_singleton.mp hmem) hbr
  · exact ⟨a, hab, idxOf_lt_of_sublist (by simpa using List.reverse_sublist.mpr hs) hnd⟩

end ReversePostorder

end GhidraDecompiler.Flow
