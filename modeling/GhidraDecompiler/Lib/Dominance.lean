import Mathlib.Data.List.Basic
import Mathlib.Order.Basic
import Mathlib.Tactic.Push
import Mathlib.Tactic.Tauto

namespace GhidraDecompiler.Flow

variable {V : Type} {E : V → V → Prop} {r : V}

/-- The vertices that a path from `r` has visited, the last one first. -/
inductive Trace (E : V → V → Prop) (r : V) : List V → Prop
  | start : Trace E r [r]
  | step {b c : V} {l : List V} (h : Trace E r (b :: l)) (hbc : E b c) : Trace E r (c :: b :: l)

def Reaches (E : V → V → Prop) (r b : V) : Prop := ∃ l, Trace E r (b :: l)

/-- Every path from `r` to `b` passes through `a`. -/
def Dominates (E : V → V → Prop) (r a b : V) : Prop := ∀ l, Trace E r (b :: l) → a ∈ b :: l

/-- The last vertex before `b` that all paths to `b` share. -/
structure IsIdom (E : V → V → Prop) (r a b : V) : Prop where
  ne : a ≠ b
  dominates : Dominates E r a b
  nearest : ∀ c, c ≠ b → Dominates E r c b → Dominates E r c a

theorem Trace.suffix {l₁ l₂ : List V} {b : V} (h : Trace E r (l₁ ++ b :: l₂)) : Trace E r (b :: l₂) := by
  induction l₁ with
  | nil => exact h
  | cons c l₁ ih =>
      refine ih ?_
      cases l₁ with
      | nil => exact match h with | .step h _ => h
      | cons d l₁ => exact match h with | .step h _ => h

/-- The way to a vertex on a path can be exchanged for another one. -/
theorem Trace.replace {l₁ l₂ l₃ : List V} {b : V} (h : Trace E r (l₁ ++ b :: l₂)) (h' : Trace E r (b :: l₃)) :
    Trace E r (l₁ ++ b :: l₃) := by
  induction l₁ with
  | nil => exact h'
  | cons c l₁ ih =>
      cases l₁ with
      | nil => exact match h with | .step _ hbc => .step h' hbc
      | cons d l₁ => exact match h with | .step h hbc => .step (ih h) hbc

theorem Trace.reaches {l : List V} {b : V} (h : Trace E r l) (hb : b ∈ l) : Reaches E r b := by
  obtain ⟨l₁, l₂, rfl⟩ := List.append_of_mem hb
  exact ⟨l₂, h.suffix⟩

theorem Reaches.step {a b : V} (h : Reaches E r a) (hab : E a b) : Reaches E r b :=
  let ⟨l, hl⟩ := h
  ⟨a :: l, .step hl hab⟩

theorem reaches_entry : Reaches E r r := ⟨[], .start⟩

theorem Trace.entry_mem {l : List V} (h : Trace E r l) : r ∈ l := by
  induction h with
  | start => simp
  | step _ _ ih => exact List.mem_cons_of_mem _ ih

theorem dominates_refl (a : V) : Dominates E r a a := fun _ _ => List.mem_cons_self

theorem entry_dominates (b : V) : Dominates E r r b := fun _ h => h.entry_mem

theorem Dominates.trans {a b c : V} (hab : Dominates E r a b) (hbc : Dominates E r b c) : Dominates E r a c := by
  intro l hl
  obtain ⟨l₁, l₂, heq⟩ := List.append_of_mem (hbc l hl)
  rw [heq] at hl ⊢
  exact List.mem_append_right _ (hab l₂ hl.suffix)

theorem Dominates.eq_entry {a : V} (h : Dominates E r a r) : a = r := by
  simpa using h [] .start

theorem Dominates.reaches {a b : V} (h : Dominates E r a b) (hb : Reaches E r b) : Reaches E r a :=
  let ⟨l, hl⟩ := hb
  hl.reaches (h l hl)

theorem Dominates.pred {a b p : V} (h : Dominates E r a b) (hne : a ≠ b) (hpb : E p b) : Dominates E r a p := by
  intro l hl
  exact (List.mem_cons.mp (h _ (.step hl hpb))).resolve_left hne

theorem dominates_of_preds {a b : V} (hb : b ≠ r) (h : ∀ p, E p b → Reaches E r p → Dominates E r a p) :
    Dominates E r a b := by
  intro l hl
  cases hl with
  | start => exact absurd rfl hb
  | step hl hpb => exact List.mem_cons_of_mem _ (h _ hpb ⟨_, hl⟩ _ hl)

/-- Every path to `b` that goes through `a` contains a path to `b` on which
`a` comes only at the end of the list. -/
theorem exists_first_visit {l : List V} {a : V} (h : a ∈ l) : ∃ l₁ l₂, l = l₁ ++ a :: l₂ ∧ a ∉ l₂ := by
  classical
  induction l with
  | nil => simp at h
  | cons b l ih =>
      by_cases ha : a ∈ l
      · obtain ⟨l₁, l₂, rfl, hn⟩ := ih ha
        exact ⟨b :: l₁, l₂, rfl, hn⟩
      · rcases List.mem_cons.mp h with rfl | h
        · exact ⟨[], l, rfl, ha⟩
        · exact absurd h ha

/-- A reachable vertex has a path to it that visits it only once. -/
theorem Reaches.exists_simple {b : V} (h : Reaches E r b) : ∃ l, Trace E r (b :: l) ∧ b ∉ l := by
  obtain ⟨l, hl⟩ := h
  obtain ⟨l₁, l₂, heq, hn⟩ := exists_first_visit (show b ∈ b :: l by simp)
  exact ⟨l₂, (heq ▸ hl).suffix, hn⟩

theorem Dominates.antisymm {a b : V} (hab : Dominates E r a b) (hba : Dominates E r b a) (h : Reaches E r a) :
    a = b := by
  obtain ⟨l, hl, hn⟩ := h.exists_simple
  rcases List.mem_cons.mp (hba l hl) with rfl | hb
  · rfl
  · obtain ⟨l₁, l₂, rfl⟩ := List.append_of_mem hb
    have hs : Trace E r ((a :: l₁) ++ b :: l₂) := hl
    rcases List.mem_cons.mp (hab l₂ hs.suffix) with heq | ha
    · exact heq
    · exact absurd (by simp [ha]) hn

theorem exists_last_visit {l : List V} {P : V → Prop} (h : ∃ x ∈ l, P x) :
    ∃ l₁ x l₂, l = l₁ ++ x :: l₂ ∧ P x ∧ ∀ y ∈ l₁, ¬ P y := by
  induction l with
  | nil => simp at h
  | cons b l ih =>
      by_cases hb : P b
      · exact ⟨[], b, l, rfl, hb, by simp⟩
      · obtain ⟨x, hx, hpx⟩ := h
        rcases List.mem_cons.mp hx with rfl | hx
        · exact absurd hpx hb
        · obtain ⟨l₁, y, l₂, rfl, hy, hl₁⟩ := ih ⟨x, hx, hpx⟩
          exact ⟨b :: l₁, y, l₂, rfl, hy, List.forall_mem_cons.mpr ⟨hb, hl₁⟩⟩

theorem Dominates.mem_of_head? {a b : V} {l : List V} (h : Dominates E r a b) (hl : Trace E r l)
    (hhead : l.head? = some b) : a ∈ l := by
  cases l with
  | nil => simp at hhead
  | cons x l =>
      obtain rfl : x = b := by simpa using hhead
      exact h l hl

/-- What is left out between the last visit of `x` and the end of a path to `c`
and dominates `c` also dominates `x`. -/
theorem Dominates.of_last_visit {x y c : V} {l₂ : List V} (l₁ : List V) (hyc : Dominates E r y c)
    (hl : Trace E r (l₁ ++ x :: l₂)) (hhead : (l₁ ++ x :: l₂).head? = some c) (hy : y ∉ l₁) : Dominates E r y x := by
  intro m hm
  have hmem := hyc.mem_of_head? (hl.replace hm) (by simpa [List.head?_append] using hhead)
  exact (List.mem_append.mp hmem).resolve_left hy

/-- Two dominators of one vertex dominate each other one way or the other. -/
theorem Dominates.total {a b c : V} (hac : Dominates E r a c) (hbc : Dominates E r b c) (h : Reaches E r c) :
    Dominates E r a b ∨ Dominates E r b a := by
  obtain ⟨l, hl⟩ := h
  obtain ⟨l₁, x, l₂, heq, hx, hl₁⟩ := exists_last_visit (P := fun x => x = a ∨ x = b) ⟨a, hac l hl, .inl rfl⟩
  have hhead : (l₁ ++ x :: l₂).head? = some c := by rw [← heq]; rfl
  rw [heq] at hl
  rcases hx with rfl | rfl
  · exact .inr (hbc.of_last_visit l₁ hl hhead fun hy => hl₁ b hy (.inr rfl))
  · exact .inl (hac.of_last_visit l₁ hl hhead fun hy => hl₁ a hy (.inl rfl))

theorem IsIdom.unique {a a' b : V} (h : IsIdom E r a b) (h' : IsIdom E r a' b) (hb : Reaches E r b) : a = a' :=
  (h'.nearest a h.ne h.dominates).antisymm (h.nearest a' h'.ne h'.dominates) (h.dominates.reaches hb)

/-- A reachable vertex other than `r` has an immediate dominator. -/
theorem exists_isIdom {b : V} (hb : Reaches E r b) (hne : b ≠ r) : ∃ a, IsIdom E r a b := by
  obtain ⟨l, hl, hn⟩ := hb.exists_simple
  have hlast : ∃ x ∈ l, x ≠ b ∧ Dominates E r x b :=
    ⟨r, (List.mem_cons.mp hl.entry_mem).resolve_left (Ne.symm hne), Ne.symm hne, entry_dominates b⟩
  obtain ⟨l₁, a, l₂, rfl, ⟨hab, hdom⟩, hl₁⟩ := exists_last_visit hlast
  refine ⟨a, hab, hdom, fun c hcb hc => ?_⟩
  refine hc.of_last_visit (b :: l₁) hl rfl fun hmem => ?_
  rcases List.mem_cons.mp hmem with rfl | hmem
  · exact hcb rfl
  · exact hl₁ c hmem ⟨hcb, hc⟩

section Congr

variable {E' : V → V → Prop}

theorem Trace.mono {l : List V} (h : Trace E r l) (hE : ∀ a b, Reaches E r a → E a b → E' a b) : Trace E' r l := by
  induction h with
  | start => exact .start
  | step h hbc ih => exact .step ih (hE _ _ ⟨_, h⟩ hbc)

/-- Edges out of unreachable vertices do not matter. -/
theorem trace_congr (h₁ : ∀ a b, Reaches E r a → E a b → E' a b) (h₂ : ∀ a b, Reaches E' r a → E' a b → E a b) :
    Trace E r = Trace E' r := by
  ext l
  exact ⟨fun h => h.mono h₁, fun h => h.mono h₂⟩

theorem dominates_congr (h : Trace E r = Trace E' r) (a b : V) : Dominates E r a b ↔ Dominates E' r a b := by
  rw [Dominates, Dominates, h]

theorem isIdom_congr (h : Trace E r = Trace E' r) {a b : V} (hi : IsIdom E r a b) : IsIdom E' r a b :=
  ⟨hi.ne, (dominates_congr h a b).mp hi.dominates,
    fun c hcb hc => (dominates_congr h c a).mp (hi.nearest c hcb ((dominates_congr h c b).mpr hc))⟩

end Congr

end GhidraDecompiler.Flow
