import GhidraDecompiler.Lib.DominatorSweep

/-! Dominance frontiers, read off the tree of immediate dominators. -/

namespace GhidraDecompiler.Flow

variable {V : Type} {E : V → V → Prop} {r : V} {idx : V → ℕ} {N : V → Prop} {par : V → Option V}

/-- The dominance of `w` ends at `v`. -/
def Frontier (E : V → V → Prop) (r w v : V) : Prop :=
  ∃ u, E u v ∧ Dominates E r w u ∧ ¬ (w ≠ v ∧ Dominates E r w v)

inductive IteratedFrontier (E : V → V → Prop) (r : V) (W : Set V) : V → Prop
  | base {w v : V} (hw : w ∈ W) (hv : Frontier E r w v) : IteratedFrontier E r W v
  | step {w v : V} (hw : IteratedFrontier E r W w) (hv : Frontier E r w v) : IteratedFrontier E r W v

theorem IteratedFrontier.of_or {W : Set V} {w v : V} (hw : w ∈ W ∨ IteratedFrontier E r W w) (hv : Frontier E r w v) :
    IteratedFrontier E r W v :=
  hw.elim (fun hw => .base hw hv) fun hw => .step hw hv

/-- `par` gives the immediate dominators of the vertices in `N`; the root cannot
be entered. -/
structure IdomTree (E : V → V → Prop) (r : V) (N : V → Prop) (idx : V → ℕ) (par : V → Option V) : Prop where
  ordered : Ordered E r N idx
  source : ∀ u, ¬ E u r
  root : par r = none
  node : ∀ b a, par b = some a → N b
  idom : ∀ b, N b → b ≠ r → ∃ a, par b = some a ∧ IsIdom E r a b

namespace IdomTree

variable (h : IdomTree E r N idx par)

include h

theorem isIdom {a b : V} (hb : par b = some a) : IsIdom E r a b := by
  have hbr : b ≠ r := by
    rintro rfl
    simp [h.root] at hb
  obtain ⟨a', ha', hidom⟩ := h.idom b (h.node b a hb) hbr
  rwa [Option.some_inj.mp (hb.symm.trans ha')]

theorem node_par {a b : V} (hb : par b = some a) : N a :=
  h.ordered.node_of_reaches ((h.isIdom hb).dominates.reaches (h.ordered.reaches (h.node b a hb)))

theorem lt (b a : V) (hb : par b = some a) : idx a < idx b := by
  have hidom := h.isIdom hb
  refine lt_of_le_of_ne (h.ordered.idx_le (h.node b a hb) hidom.dominates) fun heq => hidom.ne ?_
  exact h.ordered.inj a b (h.node_par hb) (h.node b a hb) heq

theorem up_iff_dominates {a b : V} (hb : N b) : Up par b a ↔ Dominates E r a b := by
  constructor
  · intro hup
    induction hup with
    | refl => exact dominates_refl b
    | tail _ hac ih => exact (h.isIdom hac).dominates.trans ih
  · intro hdom
    induction hn : idx b using Nat.strong_induction_on generalizing b with
    | _ n ih =>
        subst hn
        by_cases hab : a = b
        · exact hab ▸ .refl
        have hbr : b ≠ r := by
          rintro rfl
          exact hab hdom.eq_entry
        obtain ⟨c, hc, hidom⟩ := h.idom b hb hbr
        exact .cons hc (ih _ (h.lt b c hc) (h.node_par hc) (hidom.nearest a hab hdom) rfl)

/-- The immediate dominator of the end of an edge is above its start. -/
theorem up_of_edge {u v a : V} (huv : E u v) (ha : par v = some a) : Up par u a :=
  (h.up_iff_dominates (h.ordered.closed u v huv).1).mpr ((h.isIdom ha).dominates.pred (h.isIdom ha).ne huv)

theorem exists_par {u v : V} (huv : E u v) : ∃ a, par v = some a := by
  have hvr : v ≠ r := by
    rintro rfl
    exact h.source u huv
  obtain ⟨a, ha, -⟩ := h.idom v (h.ordered.closed u v huv).2 hvr
  exact ⟨a, ha⟩

theorem frontier_iff {w v : V} : Frontier E r w v ↔ ∃ u a, E u v ∧ par v = some a ∧ Up par u w ∧ idx a < idx w := by
  constructor
  · rintro ⟨u, huv, hwu, hno⟩
    obtain ⟨a, ha⟩ := h.exists_par huv
    have hup := (h.up_iff_dominates (h.ordered.closed u v huv).1).mpr hwu
    refine ⟨u, a, huv, ha, hup, ?_⟩
    by_contra hle
    have hwa := Up.of_idx_le h.lt (h.up_of_edge huv ha) hup (not_lt.mp hle)
    have hwv : Up par v w := .cons ha hwa
    refine hno ⟨?_, (h.up_iff_dominates (h.node v a ha)).mp hwv⟩
    rintro rfl
    have := h.lt _ _ ha
    have := Up.idx_le h.lt hwa
    omega
  · rintro ⟨u, a, huv, ha, hup, hlt⟩
    refine ⟨u, huv, (h.up_iff_dominates (h.ordered.closed u v huv).1).mp hup, ?_⟩
    rintro ⟨hne, hdom⟩
    have hwa := Up.of_ne ((h.up_iff_dominates (h.node v a ha)).mpr hdom) (Ne.symm hne) ha
    have := Up.idx_le h.lt hwa
    omega

end IdomTree

/-- For each vertex a list of edge targets to go through when the frontiers of
the vertices above it are looked for. At the vertices of `B` the list is
complete, so that one need not go further down. -/
structure Augmented (E : V → V → Prop) (idx : V → ℕ) (par : V → Option V) (B : Set V) (aug : V → List V) : Prop where
  sound : ∀ k, ∀ v ∈ aug k, ∃ u a, E u v ∧ par v = some a ∧ Up par u k ∧ idx a < idx k
  start : ∀ u v a, E u v → par v = some a → idx a < idx u → v ∈ aug u
  complete : ∀ k ∈ B, ∀ u v a, E u v → par v = some a → Up par u k → idx a < idx k → v ∈ aug k
  sorted : ∀ k, (aug k).Pairwise fun v w => ∀ a b, par v = some a → par w = some b → idx a ≤ idx b

/-- All of the frontier of `q` has been merged, or is left to a marked vertex
below `q`. -/
def Settled (E : V → V → Prop) (idx : V → ℕ) (par : V → Option V) (marked merged : Set V) (q : V) : Prop :=
  ∀ u v a, E u v → par v = some a → Up par u q → idx a < idx q →
    v ∈ merged ∨ ∃ x ∈ marked, Up par u x ∧ Up par x q ∧ x ≠ q

theorem Settled.mono {marked marked' merged merged' : Set V} {q : V} (h : Settled E idx par marked merged q)
    (hmarked : marked ⊆ marked') (hmerged : merged ⊆ merged') : Settled E idx par marked' merged' q :=
  fun u v a huv ha hup hlt => (h u v a huv ha hup hlt).imp (fun hv => hmerged hv) fun ⟨x, hx, hrest⟩ => ⟨x, hmarked hx, hrest⟩

/-- When all marked vertices are settled, their frontiers have been merged. -/
theorem IdomTree.mem_of_settled (h : IdomTree E r N idx par) {marked merged : Set V}
    (hs : ∀ q ∈ marked, Settled E idx par marked merged q) {q v : V} (hq : q ∈ marked) (hv : Frontier E r q v) :
    v ∈ merged := by
  obtain ⟨u, a, huv, ha, hup, hlt⟩ := h.frontier_iff.mp hv
  induction hn : idx u - idx q using Nat.strong_induction_on generalizing q with
  | _ n ih =>
      subst hn
      rcases hs q hq u v a huv ha hup hlt with hv | ⟨x, hx, hux, hxq, hne⟩
      · exact hv
      · have hle := Up.idx_le h.lt hxq
        have hle' := Up.idx_le h.lt hux
        have hne' : idx x ≠ idx q := fun heq => hne (Up.eq_of_idx_le h.lt hxq heq.le)
        have hxa : idx a < idx x := by omega
        exact ih _ (by omega) hx (h.frontier_iff.mpr ⟨u, a, huv, ha, hux, hxa⟩) hux hxa rfl

end GhidraDecompiler.Flow
