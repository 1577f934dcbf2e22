import Mathlib.Data.List.Infix
import Mathlib.Data.List.Nodup
import Mathlib.Logic.Function.Basic

/-! Weak topological orders: chains in which every edge goes forward or back to
the first vertex of a component that holds its source. -/

namespace GhidraDecompiler.WeakOrder

variable {V : Type} {succ : V → List V}

/-- Every edge out of the chain goes forward in it, to a vertex outside of it that
is known, or to the first vertex of a component around its source. -/
def Respects (succ : V → List V) (chain : List V) (comps : List (List V)) (known : V → Prop) : Prop :=
  ∀ u ∈ chain, ∀ v ∈ succ u,
    [u, v].Sublist chain ∨ known v ∨ ∃ seg ∈ comps, seg.head? = some v ∧ u ∈ seg

/-- The components are stretches of the chain. -/
def Nested (chain : List V) (comps : List (List V)) : Prop := ∀ seg ∈ comps, seg ≠ [] ∧ seg <:+: chain

theorem respects_nil (known : V → Prop) : Respects succ [] [] known := by
  intro u hu
  cases hu

theorem nested_nil : Nested ([] : List V) [] := by
  intro seg hs
  cases hs

theorem respects_single {v : V} {known : V → Prop} (h : ∀ w ∈ succ v, known w) : Respects succ [v] [] known := by
  intro u hu w hw
  obtain rfl := List.mem_singleton.mp hu
  exact .inr (.inl (h w hw))

/-- A vertex known to no chain stays one when more of them are known. -/
theorem Respects.mono {chain : List V} {comps : List (List V)} {known known' : V → Prop}
    (h : Respects succ chain comps known) (hk : ∀ v, known v → known' v) : Respects succ chain comps known' := by
  intro u hu v hv
  rcases h u hu v hv with h | h | h
  · exact .inl h
  · exact .inr (.inl (hk v h))
  · exact .inr (.inr h)

/-- What is placed later stands in front, and knows what was placed before. -/
theorem Respects.append {l₁ l₂ : List V} {c₁ c₂ : List (List V)} {known₁ known₂ : V → Prop}
    (h₁ : Respects succ l₁ c₁ known₁) (h₂ : Respects succ l₂ c₂ known₂)
    (hk : ∀ v, known₂ v → v ∈ l₁ ∨ known₁ v) : Respects succ (l₂ ++ l₁) (c₁ ++ c₂) known₁ := by
  intro u hu v hv
  rcases List.mem_append.mp hu with hu | hu
  · rcases h₂ u hu v hv with h | h | ⟨seg, hs, hh⟩
    · exact .inl (h.trans (List.sublist_append_left l₂ l₁))
    · rcases hk v h with h | h
      · exact .inl ((List.singleton_sublist.mpr hu).append (List.singleton_sublist.mpr h))
      · exact .inr (.inl h)
    · exact .inr (.inr ⟨seg, List.mem_append_right _ hs, hh⟩)
  · rcases h₁ u hu v hv with h | h | ⟨seg, hs, hh⟩
    · exact .inl (h.trans (List.sublist_append_right l₂ l₁))
    · exact .inr (.inl h)
    · exact .inr (.inr ⟨seg, List.mem_append_left _ hs, hh⟩)

/-- A head in front of a chain that knows it closes a component. -/
theorem Respects.component {v : V} {l : List V} {comps : List (List V)} {known : V → Prop}
    (h : Respects succ l comps (fun w => w = v ∨ known w)) (hv : ∀ w ∈ succ v, w ∈ l ∨ w = v ∨ known w) :
    Respects succ (v :: l) (comps ++ [v :: l]) known := by
  have back : ∀ u ∈ v :: l, ∃ seg ∈ comps ++ [v :: l], seg.head? = some v ∧ u ∈ seg := by
    intro u hu
    exact ⟨v :: l, by simp, rfl, hu⟩
  intro u hu w hw
  rcases List.mem_cons.mp hu with rfl | hl
  · rcases hv w hw with h' | rfl | h'
    · exact .inl ((List.singleton_sublist.mpr h').cons_cons u)
    · exact .inr (.inr (back w hu))
    · exact .inr (.inl h')
  · rcases h u hl w hw with h' | (rfl | h') | ⟨seg, hs, hh⟩
    · exact .inl (h'.cons v)
    · exact .inr (.inr (back u hu))
    · exact .inr (.inl h')
    · exact .inr (.inr ⟨seg, List.mem_append_left _ hs, hh⟩)

/-- Edges out of a chain stay in it or lead to known vertices. -/
theorem Respects.closed {chain : List V} {comps : List (List V)} {known : V → Prop}
    (h : Respects succ chain comps known) (hn : Nested chain comps) {u v : V} (hu : u ∈ chain) (hv : v ∈ succ u) :
    v ∈ chain ∨ known v := by
  rcases h u hu v hv with h | h | ⟨seg, hs, hh, -⟩
  · exact .inl (h.subset (by simp))
  · exact .inr h
  · exact .inl ((hn seg hs).2.subset (List.mem_of_head? hh))

theorem Nested.append {l₁ l₂ : List V} {c₁ c₂ : List (List V)} (h₁ : Nested l₁ c₁) (h₂ : Nested l₂ c₂) :
    Nested (l₂ ++ l₁) (c₁ ++ c₂) := by
  intro seg hs
  rcases List.mem_append.mp hs with hs | hs
  · exact ⟨(h₁ seg hs).1, (h₁ seg hs).2.trans (List.suffix_append l₂ l₁).isInfix⟩
  · exact ⟨(h₂ seg hs).1, (h₂ seg hs).2.trans (List.prefix_append l₂ l₁).isInfix⟩

theorem Nested.component {v : V} {l : List V} {comps : List (List V)} (h : Nested l comps) :
    Nested (v :: l) (comps ++ [v :: l]) := by
  intro seg hs
  rcases List.mem_append.mp hs with hs | hs
  · exact ⟨(h seg hs).1, (h seg hs).2.trans (List.suffix_cons v l).isInfix⟩
  · obtain rfl := List.mem_singleton.mp hs
    exact ⟨by simp, List.infix_refl _⟩

/-- A singly linked list: each vertex is followed by the first one of the rest. -/
def Linked (next : V → Option V) : List V → Prop
  | [] => True
  | x :: l => next x = l.head? ∧ Linked next l

theorem Linked.congr {next next' : V → Option V} {l : List V} (h : Linked next l)
    (hn : ∀ x ∈ l, next' x = next x) : Linked next' l := by
  induction l with
  | nil => trivial
  | cons x l ih => exact ⟨(hn x (by simp)).trans h.1, ih h.2 (fun y hy => hn y (by simp [hy]))⟩

/-- Two linked lists become one when the last vertex of the first is redirected. -/
theorem Linked.append [DecidableEq V] {next : V → Option V} {a b : List V} {stop : V}
    (ha : Linked next a) (hb : Linked next b) (hs : a.getLast? = some stop) (hd : a.Nodup) (hn : stop ∉ b) :
    Linked (Function.update next stop b.head?) (a ++ b) := by
  induction a with
  | nil => simp at hs
  | cons x a ih =>
      cases a with
      | nil =>
          obtain rfl : x = stop := by simpa using hs
          refine ⟨by simp, hb.congr fun y hy => ?_⟩
          have hy' : y ≠ x := fun he => hn (he ▸ hy)
          exact Function.update_of_ne hy' _ _
      | cons z a =>
          have hlast : (z :: a).getLast? = some stop := by simpa using hs
          have hx : x ≠ stop := by
            rintro rfl
            exact (List.nodup_cons.mp hd).1 (List.mem_of_getLast? hlast)
          refine ⟨?_, ih ha.2 hlast (List.nodup_cons.mp hd).2⟩
          rw [Function.update_of_ne hx, ha.1]
          rfl

end GhidraDecompiler.WeakOrder
