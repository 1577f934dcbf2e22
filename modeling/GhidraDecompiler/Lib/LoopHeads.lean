import GhidraDecompiler.Lib.Dominance
import GhidraDecompiler.Lib.EdgeClasses

/-! The loops of a graph, found by collapsing the body of each loop into its
head. The heads are taken in the reverse order of their visits. -/

namespace GhidraDecompiler.Flow

open Relation

namespace Search

variable {V : Type} [DecidableEq V] {succ : V → List V} {s : Search V} {cm cm' : V → V} {irr irr' : V → ℕ → Prop}
  {M U : Set V} {x y m z b : V} {i : ℕ}

/-- A vertex lies below another one, or is the same. -/
def Inside (s : Search V) (x y : V) : Prop := s.visit x ≤ s.visit y ∧ s.visit y < s.last x

instance (s : Search V) (x y : V) : Decidable (s.Inside x y) := inferInstanceAs (Decidable (_ ∧ _))

/-- The blocks that are collapsed into `x`: one goes back from the sources of
the back edges to `x`, and takes for each vertex the one that stands for it. -/
inductive Under (succ : V → List V) (s : Search V) (cm : V → V) (x : V) : V → Prop
  | back {y : V} {i : ℕ} (hy : s.cls y i = some .back) (hx : (succ y)[i]? = some x) (hne : y ≠ x) :
      Under succ s cm x (cm y)
  | step {m z : V} {i : ℕ} (hm : Under succ s cm x m) (hz : (succ z)[i]? = some m) (hin : s.Inside x (cm z))
      (hne : cm z ≠ x) : Under succ s cm x (cm z)

/-- The vertices of `U` are collapsed into `x`. Edges into `U` from the outside
are marked, except that the search does not go on at the vertices of `M`. -/
structure Collapse (succ : V → List V) (s : Search V) (x : V) (M U : Set V) (cm cm' : V → V) (irr irr' : V → ℕ → Prop) :
    Prop where
  back : ∀ y i, s.cls y i = some .back → (succ y)[i]? = some x → y ≠ x → cm y ∈ U
  sound : ∀ m ∈ U, Under succ s cm x m
  closed : ∀ m ∈ U, ∀ z i, (succ z)[i]? = some m → irr' z i ∨ cm z = x ∨ cm z ∈ U ∨ cm z ∈ M
  marks : ∀ z i, irr' z i → irr z i ∨ ∃ m ∈ U, (succ z)[i]? = some m ∧ ¬ s.Inside x (cm z)
  mono : ∀ z i, irr z i → irr' z i
  copy : ∀ b, (b ∈ U → cm' b = x) ∧ (b ∉ U → cm' b = cm b)

/-- A vertex is represented by itself or by a head above it that was taken
before. -/
def Nested (s : Search V) (k : ℕ) (cm : V → V) : Prop :=
  ∀ b ∈ s.pre, cm b ∈ s.pre ∧ s.Inside (cm b) b ∧ (cm b = b ∨ k ≤ s.visit (cm b))

/-- The representative of a vertex below `x` is below `x` as well. -/
theorem Nested.inside (h : Nested s (s.visit x) cm) (hb : b ∈ s.pre) (hin : s.Inside x b) : s.Inside x (cm b) := by
  obtain ⟨-, ⟨hle, -⟩, heq | hge⟩ := h b hb
  · rwa [heq]
  · exact ⟨hge, hle.trans_lt hin.2⟩

theorem Nested.mono {k k' : ℕ} (h : Nested s k cm) (hk : k' ≤ k) : Nested s k' cm :=
  fun b hb => ⟨(h b hb).1, (h b hb).2.1, (h b hb).2.2.imp_right hk.trans⟩

theorem Nested.ne (h : Nested s (s.visit x + 1) cm) (hb : b ∈ s.pre) (hne : b ≠ x) : cm b ≠ x := by
  intro heq
  rcases (h b hb).2.2 with hcb | hge
  · exact hne (hcb.symm.trans heq)
  · rw [heq] at hge
    omega

theorem Inv.inside_of_back (h : Inv succ s) (hy : s.cls y i = some .back) (hx : (succ y)[i]? = some x) :
    y ∈ s.pre ∧ s.Inside x y := by
  have hp := (h.labelled y i _ hy).1
  obtain ⟨-, c, hc, hf⟩ := h.passed y i x hp hx
  obtain rfl : c = .back := Option.some_inj.mp (hc.symm.trans hy)
  exact ⟨h.mem_of_passed hp, hf⟩

/-- What is collapsed into `x` lies properly below `x`. -/
theorem Under.inside (hi : Inv succ s) (hn : Nested s (s.visit x + 1) cm) (hx : x ∈ s.pre)
    (hsrc : ∀ z m, m ∈ s.pre → m ∈ succ z → z ∈ s.pre) (hm : Under succ s cm x m) :
    m ∈ s.pre ∧ s.visit x < s.visit m ∧ s.visit m < s.last x := by
  have hlt {b : V} (hb : b ∈ s.pre) (hin : s.Inside x b) (hne : b ≠ x) : s.visit x < s.visit b :=
    lt_of_le_of_ne hin.1 fun heq => hne (visit_inj hx heq).symm
  induction hm with
  | back hy hyx hne =>
      obtain ⟨hyp, hin⟩ := hi.inside_of_back hy hyx
      have hcm := (hn.mono (Nat.le_succ _)).inside hyp hin
      exact ⟨(hn _ hyp).1, hlt (hn _ hyp).1 hcm (hn.ne hyp hne), hcm.2⟩
  | step _ hz hin hne ih =>
      have hzp := hsrc _ _ ih.1 (List.mem_of_getElem? hz)
      exact ⟨(hn _ hzp).1, hlt (hn _ hzp).1 hin hne, hin.2⟩

/-- A tree edge that enters the vertices below `x` comes from below `x`. -/
theorem Inv.tree_inside (hi : Inv succ s) (hn : Nested s (s.visit x + 1) cm) (hx : x ∈ s.pre)
    (hxm : s.visit x < s.visit m) (hmx : s.visit m < s.last x) (hz : s.cls z i = some .tree) (hm : (succ z)[i]? = some m) :
    s.Inside x (cm z) := by
  obtain ⟨hzp, -, hzm, -, hlow⟩ := hi.fits_tree ⟨i, hz, hm⟩
  exact (hn.mono (Nat.le_succ _)).inside hzp ⟨hlow x hx hxm hmx, hzm.trans hmx⟩

namespace Collapse

/-- Tree edges are not marked. -/
theorem not_tree (h : Collapse succ s x M U cm cm' irr irr') (hi : Inv succ s) (hn : Nested s (s.visit x + 1) cm)
    (hx : x ∈ s.pre) (hsrc : ∀ z m, m ∈ s.pre → m ∈ succ z → z ∈ s.pre)
    (hirr : ∀ z i, irr z i → s.cls z i ≠ some .tree) (z : V) (i : ℕ) (hz : irr' z i) : s.cls z i ≠ some .tree := by
  rcases h.marks z i hz with hz | ⟨m, hm, hzm, hout⟩
  · exact hirr z i hz
  · intro htree
    obtain ⟨-, h₁, h₂⟩ := (h.sound m hm).inside hi hn hx hsrc
    exact hout (hi.tree_inside hn hx h₁ h₂ htree hzm)

theorem nested (h : Collapse succ s x M U cm cm' irr irr') (hi : Inv succ s) (hn : Nested s (s.visit x + 1) cm)
    (hx : x ∈ s.pre) (hsrc : ∀ z m, m ∈ s.pre → m ∈ succ z → z ∈ s.pre) : Nested s (s.visit x) cm' := by
  intro b hb
  by_cases hbU : b ∈ U
  · rw [(h.copy b).1 hbU]
    obtain ⟨-, h₁, h₂⟩ := (h.sound b hbU).inside hi hn hx hsrc
    exact ⟨hx, ⟨h₁.le, h₂⟩, .inr le_rfl⟩
  · rw [(h.copy b).2 hbU]
    exact hn.mono (Nat.le_succ _) b hb

end Collapse

section Reducible

variable {r : V}

/-- Every vertex is dominated by the one that stands for it. -/
def Dominated (succ : V → List V) (s : Search V) (r : V) (cm : V → V) : Prop :=
  ∀ b ∈ s.pre, Dominates (fun v w => w ∈ succ v) r (cm b) b

/-- Along the tree edges to a vertex, all vertices are above it. -/
theorem Inv.exists_tree_trace (h : Inv succ s) (hr : r ∈ s.pre) (hb : ReflTransGen (TreeEdge succ s) r b) :
    ∃ l, Trace (fun v w => w ∈ succ v) r (b :: l) ∧ ∀ a ∈ b :: l, a ∈ s.pre ∧ s.Inside a b := by
  induction hb with
  | refl => exact ⟨[], .start, by simpa using ⟨hr, le_rfl, h.visit_lt_last hr⟩⟩
  | tail _ hbc ih =>
      obtain ⟨l, hl, hin⟩ := ih
      obtain ⟨hbp, hcp, hbc₁, hbc₂, -⟩ := h.fits_tree hbc
      obtain ⟨i, -, hmem⟩ := hbc
      refine ⟨_, .step hl (List.mem_of_getElem? hmem),
        List.forall_mem_cons.mpr ⟨⟨hcp, le_rfl, h.visit_lt_last hcp⟩, fun a ha => ?_⟩⟩
      obtain ⟨hap, h₁, h₂⟩ := hin a ha
      exact ⟨hap, h₁.trans hbc₁.le, hbc₂.trans_le (h.laminar a hap _ hbp h₁ h₂)⟩

/-- A search with one tree, whose root is `r`. -/
structure Single (succ : V → List V) (s : Search V) (r : V) : Prop where
  inv : Inv succ s
  root : r ∈ s.pre
  below : ∀ b ∈ s.pre, ReflTransGen (TreeEdge succ s) r b
  source : ∀ z m, m ∈ s.pre → m ∈ succ z → z ∈ s.pre

namespace Single

variable (h : Single succ s r)

include h

theorem reaches (hb : b ∈ s.pre) : Reaches (fun v w => w ∈ succ v) r b :=
  let ⟨l, hl, _⟩ := h.inv.exists_tree_trace h.root (h.below b hb)
  ⟨l, hl⟩

/-- Dominators are found above a vertex. -/
theorem inside {a : V} (hb : b ∈ s.pre) (hdom : Dominates (fun v w => w ∈ succ v) r a b) : s.Inside a b := by
  obtain ⟨l, hl, hin⟩ := h.inv.exists_tree_trace h.root (h.below b hb)
  exact (hin a (hdom l hl)).2

/-- The head dominates the representative of a vertex that it dominates, if the
representative was visited later. -/
theorem dominates_copy (hD : Dominated succ s r cm) (hx : x ∈ s.pre) (hb : b ∈ s.pre)
    (hdom : Dominates (fun v w => w ∈ succ v) r x b) (hlt : s.visit x < s.visit (cm b)) :
    Dominates (fun v w => w ∈ succ v) r x (cm b) := by
  refine (hdom.total (hD b hb) (h.reaches hb)).resolve_right fun hback => ?_
  have := (h.inside hx hback).1
  omega

/-- If `x` dominates the sources of its back edges, it dominates all that is
collapsed into it. -/
theorem dominates_under (hn : Nested s (s.visit x + 1) cm) (hD : Dominated succ s r cm) (hx : x ∈ s.pre)
    (hback : ∀ y i, s.cls y i = some .back → (succ y)[i]? = some x → Dominates (fun v w => w ∈ succ v) r x y)
    (hm : Under succ s cm x m) : Dominates (fun v w => w ∈ succ v) r x m := by
  have hlt {m : V} (hm : Under succ s cm x m) := (hm.inside h.inv hn hx h.source).2.1
  induction hm with
  | back hy hyx hne =>
      exact h.dominates_copy hD hx (h.inv.inside_of_back hy hyx).1 (hback _ _ hy hyx) (hlt (.back hy hyx hne))
  | @step m z i hm hz hin hne ih =>
      have hmp := (hm.inside h.inv hn hx h.source).1
      have hxm : x ≠ m := by
        rintro rfl
        exact absurd (hlt hm) (lt_irrefl _)
      have hmem := List.mem_of_getElem? hz
      exact h.dominates_copy hD hx (h.source z m hmp hmem) (ih.pred hxm hmem) (hlt (.step hm hz hin hne))

end Single

namespace Collapse

variable (h : Collapse succ s x M U cm cm' irr irr') (hr : Single succ s r) (hn : Nested s (s.visit x + 1) cm)
  (hD : Dominated succ s r cm) (hx : x ∈ s.pre)

include h hD

theorem dominated (hdom : ∀ m ∈ U, Dominates (fun v w => w ∈ succ v) r x m) : Dominated succ s r cm' := by
  intro b hb
  by_cases hbU : b ∈ U
  · rw [(h.copy b).1 hbU]
    exact hdom b hbU
  · rw [(h.copy b).2 hbU]
    exact hD b hb

include hr hn hx

/-- If `x` dominates the sources of its back edges, no edge is marked. -/
theorem unmarked (hirr : ∀ z i, ¬ irr z i)
    (hback : ∀ y i, s.cls y i = some .back → (succ y)[i]? = some x → Dominates (fun v w => w ∈ succ v) r x y) :
    (∀ z i, ¬ irr' z i) ∧ Dominated succ s r cm' := by
  have hdom (m : V) (hm : m ∈ U) := hr.dominates_under hn hD hx hback (h.sound m hm)
  refine ⟨fun z i hz => ?_, h.dominated hD hdom⟩
  obtain ⟨m, hm, hzm, hout⟩ := (h.marks z i hz).resolve_left (hirr z i)
  obtain ⟨hmp, hlt, -⟩ := (h.sound m hm).inside hr.inv hn hx hr.source
  have hxm : x ≠ m := by
    rintro rfl
    exact absurd hlt (lt_irrefl _)
  have hmem := List.mem_of_getElem? hzm
  have hzp := hr.source z m hmp hmem
  exact hout ((hn.mono (Nat.le_succ _)).inside hzp (hr.inside hzp ((hdom m hm).pred hxm hmem)))

/-- If no edge is marked, `x` dominates all that is collapsed into it: a path
that enters from elsewhere would have to come through a marked edge. -/
theorem dominates_of_unmarked (hM : M = ∅) (hirr : ∀ z i, ¬ irr' z i) (hm : m ∈ U) :
    Dominates (fun v w => w ∈ succ v) r x m := by
  intro l hl
  induction hlen : l.length using Nat.strong_induction_on generalizing m l with
  | _ n ih =>
      subst hlen
      obtain ⟨hmp, hlt, -⟩ := (h.sound m hm).inside hr.inv hn hx hr.source
      cases hl with
      | start =>
          have := ((hr.inv.below_iff hr.root hx).mp (hr.below x hx)).1
          omega
      | @step z _ l hl hzm =>
          have hzp := hr.source z m hmp hzm
          obtain ⟨i, hi⟩ := List.mem_iff_getElem?.mp hzm
          by_cases hzx : z = x
          · simp [hzx]
          · have hcz : cm z ∈ U := by
              rcases h.closed m hm z i hi with hirr' | heq | hU | hM'
              · exact absurd hirr' (hirr z i)
              · exact absurd heq (hn.ne hzp hzx)
              · exact hU
              · rw [hM] at hM'
                exact hM'.elim
            -- the path to the source passes through its representative
            obtain ⟨l₁, l₂, heq⟩ := List.append_of_mem (hD z hzp l hl)
            have hlen : l₂.length < (z :: l).length := by simp [heq]; omega
            have hmem := ih _ hlen hcz l₂ (heq ▸ hl).suffix rfl
            rw [heq]
            exact List.mem_cons_of_mem _ (List.mem_append_right _ hmem)

/-- If no edge is marked, `x` dominates the sources of its back edges. -/
theorem reducible (hM : M = ∅) (hirr : ∀ z i, ¬ irr' z i) : Dominated succ s r cm' ∧
    ∀ y i, s.cls y i = some .back → (succ y)[i]? = some x → Dominates (fun v w => w ∈ succ v) r x y := by
  have hdom (m : V) (hm : m ∈ U) := h.dominates_of_unmarked hr hn hD hx hM hirr hm
  refine ⟨h.dominated hD hdom, fun y i hy hyx => ?_⟩
  by_cases hne : y = x
  · exact hne ▸ dominates_refl y
  · exact (hdom _ (h.back y i hy hyx hne)).trans (hD y (hr.inv.inside_of_back hy hyx).1)

end Collapse

end Reducible

end Search

end GhidraDecompiler.Flow
