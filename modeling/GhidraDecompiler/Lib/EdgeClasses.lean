import GhidraDecompiler.Lib.DepthFirst
import Mathlib.Algebra.Order.BigOperators.Group.List
import Mathlib.Algebra.Order.Group.Nat
import Mathlib.Data.List.Perm.Subperm
import Mathlib.Algebra.GroupWithZero.Nat

/-! What a depth-first search knows of the edges that it has passed. -/

namespace GhidraDecompiler.Flow

namespace Search

variable {V : Type} [DecidableEq V] {succ : V → List V} {s t : Search V}

/-- What the class of an edge says about the two intervals. -/
def Fits (s : Search V) (v w : V) : EdgeClass → Prop
  | .tree => s.visit v < s.visit w ∧ s.visit w < s.last v ∧
      ∀ u ∈ s.pre, s.visit u < s.visit w → s.visit w < s.last u → s.visit u ≤ s.visit v
  | .back => s.visit w ≤ s.visit v ∧ s.visit v < s.last w
  | .forward => s.visit v < s.visit w ∧ s.visit w < s.last v
  | .cross => w ∈ s.post ∧ s.last w ≤ s.visit v

/-- The edges that the search has passed. -/
def Passed (s : Search V) (v : V) (i : ℕ) : Prop := v ∈ s.post ∨ ∃ k, (v, k) ∈ s.stack ∧ i < k

/-- The vertices from which the search was started. -/
def IsRoot (s : Search V) (w : V) : Prop :=
  ∀ u ∈ s.pre, s.visit u < s.visit w → u ∈ s.post ∧ s.last u ≤ s.visit w

/-- The invariant: every edge that was passed has a class that fits, and every
vertex except the roots was entered through exactly one tree edge. -/
structure Inv (succ : V → List V) (s : Search V) : Prop extends Shape s where
  passed : ∀ v i w, s.Passed v i → (succ v)[i]? = some w → w ∈ s.pre ∧ ∃ c, s.cls v i = some c ∧ s.Fits v w c
  labelled : ∀ v i c, s.cls v i = some c → s.Passed v i ∧ ∃ w, (succ v)[i]? = some w
  unique : ∀ u i v j w, s.cls u i = some .tree → s.cls v j = some .tree → (succ u)[i]? = some w →
    (succ v)[j]? = some w → u = v ∧ i = j
  parent : ∀ w ∈ s.pre, s.IsRoot w ∨ ∃ v i, s.cls v i = some .tree ∧ (succ v)[i]? = some w

theorem label_apply (s : Search V) (v : V) (i : ℕ) (c : EdgeClass) (u : V) (j : ℕ) :
    s.label v i c u j = if u = v ∧ j = i then some c else s.cls u j := by
  rw [label, Function.update_apply]
  by_cases hu : u = v
  · subst hu
    simp [Function.update_apply]
  · simp [hu]

/-- The later state of a search: intervals only grow at the end of the list of
visits, and those of finished vertices do not change. -/
structure Extends (s t : Search V) : Prop where
  mem : ∀ v ∈ s.pre, v ∈ t.pre
  old : ∀ u ∈ t.pre, ∀ v ∈ s.pre, t.visit u < t.visit v → u ∈ s.pre
  visit : ∀ v ∈ s.pre, t.visit v = s.visit v
  post : ∀ v ∈ s.post, v ∈ t.post
  last_le : ∀ v ∈ s.pre, s.last v ≤ t.last v
  last_eq : ∀ v ∈ s.post, t.last v = s.last v
  inside : ∀ u ∈ s.pre, ∀ v ∈ s.pre, s.visit v < t.last u → s.visit v < s.last u

namespace Extends

theorem of_eq (hpre : t.pre = s.pre) (hpost : ∀ v ∈ s.post, v ∈ t.post) (hlast : ∀ v, t.last v = s.last v) :
    Extends s t := by
  have hvisit (v : V) : t.visit v = s.visit v := by rw [Search.visit, hpre, Search.visit]
  exact ⟨fun v hv => hpre ▸ hv, fun u hu _ _ _ => hpre ▸ hu, fun v _ => hvisit v, hpost, fun v _ => (hlast v).ge,
    fun v _ => hlast v, fun u _ v _ h => (hlast u) ▸ h⟩

theorem fits (x : Extends s t) {v w : V} (hv : v ∈ s.pre) (hw : w ∈ s.pre) {c : EdgeClass} (h : s.Fits v w c) :
    t.Fits v w c := by
  cases c with
  | tree =>
      obtain ⟨hvw, hwv, hlow⟩ := h
      refine ⟨by rwa [x.visit v hv, x.visit w hw], by rw [x.visit w hw]; exact hwv.trans_le (x.last_le v hv), ?_⟩
      intro u hu huw hwu
      have hu' := x.old u hu w hw huw
      rw [x.visit u hu', x.visit w hw] at huw
      rw [x.visit w hw] at hwu
      rw [x.visit u hu', x.visit v hv]
      exact hlow u hu' huw (x.inside u hu' w hw hwu)
  | back =>
      refine ⟨by rw [x.visit v hv, x.visit w hw]; exact h.1, ?_⟩
      rw [x.visit v hv]
      exact h.2.trans_le (x.last_le w hw)
  | forward =>
      refine ⟨by rw [x.visit v hv, x.visit w hw]; exact h.1, ?_⟩
      rw [x.visit w hw]
      exact h.2.trans_le (x.last_le v hv)
  | cross =>
      refine ⟨x.post w h.1, ?_⟩
      rw [x.last_eq w h.1, x.visit v hv]
      exact h.2

theorem isRoot (x : Extends s t) {w : V} (hw : w ∈ s.pre) (h : s.IsRoot w) : t.IsRoot w := by
  intro u hu huw
  have hu' := x.old u hu w hw huw
  rw [x.visit u hu', x.visit w hw] at huw
  obtain ⟨hup, hlast⟩ := h u hu' huw
  rw [x.last_eq u hup, x.visit w hw]
  exact ⟨x.post u hup, hlast⟩

end Extends

theorem Pushed.extends {w : V} (p : Pushed s w t) (h : s.Shape) : Extends s t := by
  refine ⟨fun v hv => p.mem.mpr (.inl hv), fun u hu v hv huv => ?_, fun v hv => p.visit_of_mem hv,
    fun v hv => p.post ▸ hv, fun v hv => ?_, fun v hv => p.last_of_post h hv, fun u hu v hv huv => ?_⟩
  · refine (p.mem.mp hu).resolve_right fun heq => ?_
    subst heq
    rw [p.visit_new, p.visit_of_mem hv] at huv
    exact absurd (visit_lt hv) (not_lt.mpr huv.le)
  · by_cases hn : v ∈ s.names
    · rw [p.last_of_names hn, last_of_mem hn]
      exact Nat.le_succ _
    · exact (p.last_of_not_names hv hn).ge
  · by_cases hn : u ∈ s.names
    · rw [last_of_mem hn]
      exact visit_lt hv
    · rwa [p.last_of_not_names hu hn] at huv

theorem Popped.extends {v : V} {rest : List V} (p : Popped s v rest t) (h : s.Shape) : Extends s t :=
  .of_eq p.pre (fun _ hu => p.mem_post.mpr (.inl hu)) (p.last h)

omit [DecidableEq V] in
/-- Advancing at the top of the stack passes one more edge. -/
theorem passed_advance {v w : V} {i : ℕ} {rest : List (V × ℕ)} (hs : s.stack = (v, i) :: rest)
    (hpost : t.post = s.post) (ht : t.stack = (v, i + 1) :: rest ∨ t.stack = (w, 0) :: (v, i + 1) :: rest) (u : V)
    (j : ℕ) : t.Passed u j ↔ s.Passed u j ∨ u = v ∧ j = i := by
  have hmem : (∃ k, (u, k) ∈ t.stack ∧ j < k) ↔ (u = v ∧ j < i + 1) ∨ ∃ k, (u, k) ∈ rest ∧ j < k := by
    rcases ht with ht | ht <;> simp [ht, or_and_right, exists_or, and_assoc]
  rw [Passed, hmem, Passed, hs, hpost]
  simp only [List.mem_cons, Prod.mk.injEq, or_and_right, exists_or, and_assoc, exists_and_left, exists_eq_left,
    Nat.lt_succ_iff_lt_or_eq, and_or_left]
  simp only [or_assoc, or_comm (a := u = v ∧ j = i)]

theorem Shape.mem_of_passed (h : s.Shape) {u : V} {j : ℕ} (hp : s.Passed u j) : u ∈ s.pre := by
  rcases hp with hp | ⟨k, hk, -⟩
  · exact h.mem_of_post hp
  · exact h.mem_of_names (List.mem_map.mpr ⟨_, hk, rfl⟩)

/-- A step that passes an edge with the class that fits keeps the invariant. -/
theorem Inv.advance {v w : V} {i : ℕ} {c : EdgeClass} (h : Inv succ s) (hshape : t.Shape) (hext : Extends s t)
    (hi : (succ v)[i]? = some w) (hfresh : ¬ s.Passed v i) (hpassed : ∀ u j, t.Passed u j ↔ s.Passed u j ∨ u = v ∧ j = i)
    (hcls : t.cls = s.label v i c) (hv : v ∈ s.pre) (hw : w ∈ t.pre) (hfits : t.Fits v w c)
    (hnew : c = .tree → w ∉ s.pre) (hparent : ∀ u ∈ t.pre, u ∉ s.pre → c = .tree ∧ u = w) : Inv succ t := by
  have htree {u x : V} {j : ℕ} (hu : t.cls u j = some .tree) (hx : (succ u)[j]? = some x) :
      (u = v ∧ j = i ∧ x = w ∧ w ∉ s.pre) ∨ (s.cls u j = some .tree ∧ x ∈ s.pre) := by
    rw [hcls, label_apply] at hu
    split at hu
    next heq =>
      obtain ⟨rfl, rfl⟩ := heq
      exact .inl ⟨rfl, rfl, Option.some_inj.mp (hx.symm.trans hi), hnew (Option.some_inj.mp hu)⟩
    next => exact .inr ⟨hu, (h.passed u j x (h.labelled u j _ hu).1 hx).1⟩
  refine ⟨hshape, fun u j x hp hx => ?_, fun u j c' hc => ?_, fun u j u' j' x hu hu' hx hx' => ?_, fun x hx => ?_⟩
  · rw [hcls, label_apply]
    by_cases heq : u = v ∧ j = i
    · obtain ⟨rfl, rfl⟩ := heq
      obtain rfl : x = w := Option.some_inj.mp (hx.symm.trans hi)
      exact ⟨hw, c, by simp, hfits⟩
    · have hp' := ((hpassed u j).mp hp).resolve_right heq
      obtain ⟨hxs, c', hc', hf⟩ := h.passed u j x hp' hx
      exact ⟨hext.mem x hxs, c', by simp [heq, hc'], hext.fits (h.mem_of_passed hp') hxs hf⟩
  · rw [hcls, label_apply] at hc
    split at hc
    next heq => exact ⟨(hpassed u j).mpr (.inr heq), w, by rw [heq.1, heq.2, hi]⟩
    next =>
      obtain ⟨hp, hx⟩ := h.labelled u j c' hc
      exact ⟨(hpassed u j).mpr (.inl hp), hx⟩
  · rcases htree hu hx with ⟨rfl, rfl, rfl, hn⟩ | ⟨hs, hxs⟩ <;> rcases htree hu' hx' with ⟨rfl, rfl, h₁, h₂⟩ | ⟨hs', hxs'⟩
    · exact ⟨rfl, rfl⟩
    · exact absurd hxs' hn
    · exact absurd hxs (h₁ ▸ h₂)
    · exact h.unique u j u' j' x hs hs' hx hx'
  · by_cases hxs : x ∈ s.pre
    · rcases h.parent x hxs with hr | ⟨u, j, hu, hx⟩
      · exact .inl (hext.isRoot hxs hr)
      · refine .inr ⟨u, j, ?_, hx⟩
        rw [hcls, label_apply, if_neg, hu]
        rintro ⟨rfl, rfl⟩
        exact hfresh (h.labelled u j _ hu).1
    · obtain ⟨rfl, rfl⟩ := hparent x hx hxs
      exact .inr ⟨v, i, by rw [hcls, label_apply]; simp, hi⟩

section Top

variable {v : V} {i : ℕ} {rest : List (V × ℕ)}

omit [DecidableEq V] in
theorem names_eq (hs : s.stack = (v, i) :: rest) : s.names = v :: rest.map Prod.fst := by rw [names, hs, List.map_cons]

theorem Shape.not_passed_top (h : s.Shape) (hs : s.stack = (v, i) :: rest) : ¬ s.Passed v i := by
  have hnames := names_eq hs
  have hsorted := h.sorted
  rw [hnames, List.pairwise_cons] at hsorted
  rintro (hp | ⟨k, hk, hlt⟩)
  · exact h.apart v hp (by simp [hnames])
  · rw [hs, List.mem_cons] at hk
    rcases hk with hk | hk
    · obtain ⟨-, rfl⟩ := Prod.mk.injEq .. ▸ hk
      exact absurd hlt (lt_irrefl _)
    · exact absurd (hsorted.1 v (List.mem_map.mpr ⟨_, hk, rfl⟩)) (lt_irrefl _)

theorem Shape.visit_le_top (h : s.Shape) (hs : s.stack = (v, i) :: rest) {u : V} (hu : u ∈ s.names) :
    s.visit u ≤ s.visit v := by
  have hsorted := h.sorted
  rw [names_eq hs] at hu hsorted
  rcases List.mem_cons.mp hu with rfl | hu
  · exact le_rfl
  · exact ((List.pairwise_cons.mp hsorted).1 u hu).le

theorem Shape.fits_classify (h : s.Shape) (hs : s.stack = (v, i) :: rest) {w : V} (hw : w ∈ s.pre) :
    s.Fits v w (s.classify v w) ∧ s.classify v w ≠ .tree := by
  have hv : v ∈ s.names := by simp [names_eq hs]
  have hvp := h.mem_of_names hv
  rw [classify]
  split
  next hn =>
    have hwn := ((h.mem_iff w).mp hw).resolve_left hn
    exact ⟨⟨h.visit_le_top hs hwn, by rw [last_of_mem hwn]; exact visit_lt hvp⟩, by simp⟩
  next hp =>
    rw [not_not] at hp
    split
    next hlt => exact ⟨⟨hlt, by rw [last_of_mem hv]; exact visit_lt hw⟩, by simp⟩
    next hle =>
      refine ⟨⟨hp, ?_⟩, by simp⟩
      by_contra hgt
      exact h.apart v (h.closed w hp v hvp (not_lt.mp hle) (not_le.mp hgt)) hv

end Top

/-- A step that passes no edge keeps the invariant, if every new vertex is a
root. -/
theorem Inv.keep (h : Inv succ s) (hshape : t.Shape) (hext : Extends s t)
    (hpassed : ∀ u j w, (succ u)[j]? = some w → (t.Passed u j ↔ s.Passed u j)) (hcls : t.cls = s.cls) (hroot : ∀ u ∈ t.pre, u ∉ s.pre → t.IsRoot u) :
    Inv succ t := by
  refine ⟨hshape, fun u j x hp hx => ?_, fun u j c hc => ?_, hcls ▸ h.unique, fun x hx => ?_⟩
  · have hp' := (hpassed u j x hx).mp hp
    obtain ⟨hxs, c, hc, hf⟩ := h.passed u j x hp' hx
    exact ⟨hext.mem x hxs, c, hcls ▸ hc, hext.fits (h.mem_of_passed hp') hxs hf⟩
  · obtain ⟨hp, x, hx⟩ := h.labelled u j c (hcls ▸ hc)
    exact ⟨(hpassed u j x hx).mpr hp, x, hx⟩
  · by_cases hxs : x ∈ s.pre
    · rcases h.parent x hxs with hr | hp
      · exact .inl (hext.isRoot hxs hr)
      · exact .inr (hcls ▸ hp)
    · exact .inl (hroot x hx hxs)

theorem Inv.step (h : Inv succ s) (hstep : Step succ s t) : Inv succ t := by
  cases hstep with
  | root v hs hv =>
      have p : Pushed s v { s with pre := s.pre ++ [v], stack := [(v, 0)], size := Function.update s.size v 1 } :=
        ⟨hv, rfl, by simp [names, hs], rfl, rfl⟩
      refine h.keep (p.shape h.toShape) (p.extends h.toShape) (fun u j w _ => by simp [Passed, hs]) rfl ?_
      intro u hu hus
      obtain rfl := (p.mem.mp hu).resolve_left hus
      intro x hx hxu
      have hxs : x ∈ s.pre := (p.mem.mp hx).resolve_right (by rintro rfl; exact absurd hxu (lt_irrefl _))
      have hxp : x ∈ s.post := ((h.mem_iff x).mp hxs).resolve_right (by simp [names, hs])
      refine ⟨hxp, ?_⟩
      rw [p.last_of_post h.toShape hxp, p.visit_new]
      exact h.last_le x hxs
  | tree v i rest w hs hw hn =>
      have hv : v ∈ s.names := by simp [names_eq hs]
      have p : Pushed s w { s with
          pre := s.pre ++ [w], stack := (w, 0) :: (v, i + 1) :: rest, size := Function.update s.size w 1,
          cls := s.label v i .tree } := ⟨hn, rfl, by simp [names, hs], rfl, rfl⟩
      have hvp := h.mem_of_names hv
      refine h.advance (p.shape h.toShape) (p.extends h.toShape) hw (h.not_passed_top hs)
        (passed_advance hs rfl (.inr rfl)) rfl hvp (p.mem.mpr (.inr rfl)) ⟨?_, ?_, fun u hu huw hwu => ?_⟩ (fun _ => hn) ?_
      · rw [p.visit_new, p.visit_of_mem hvp]
        exact visit_lt hvp
      · rw [p.visit_new, p.last_of_names hv]
        exact Nat.lt_succ_self _
      · rw [p.visit_new] at huw hwu
        have hus : u ∈ s.pre := by
          refine (p.mem.mp hu).resolve_right fun heq => ?_
          rw [heq, p.visit_new] at huw
          exact absurd huw (lt_irrefl _)
        rw [p.visit_of_mem hus, p.visit_of_mem hvp]
        exact h.visit_le_top hs (p.mem_names_of_lt h.toShape hus hwu)
      · exact fun u hu hus => ⟨rfl, (p.mem.mp hu).resolve_left hus⟩
  | other v i rest w hs hw hn =>
      have hv : v ∈ s.names := by simp [names_eq hs]
      obtain ⟨hfits, hne⟩ := h.fits_classify hs hn
      have hnames : names { s with stack := (v, i + 1) :: rest, cls := s.label v i (s.classify v w) } = s.names := by
        simp [names, hs]
      have hext : Extends s { s with stack := (v, i + 1) :: rest, cls := s.label v i (s.classify v w) } :=
        .of_eq rfl (fun _ hu => hu) fun u => by rw [last, hnames]; rfl
      refine h.advance (h.toShape.of_eq rfl hnames rfl rfl) hext hw (h.not_passed_top hs)
        (passed_advance (w := w) hs rfl (.inl rfl)) rfl (h.mem_of_names hv) hn
        (hext.fits (h.mem_of_names hv) hn hfits) (fun hc => absurd hc hne) fun u hu hus => absurd hu hus
  | pop v i rest hs hi =>
      have p : Popped s v (rest.map Prod.fst)
          { s with stack := rest, post := s.post ++ [v], size := s.grown v (rest.map Prod.fst) } :=
        ⟨names_eq hs, rfl, rfl, rfl, rfl⟩
      refine h.keep (p.shape h.toShape) (p.extends h.toShape) (fun u j w hw => ?_) rfl (fun u hu hus => absurd hu hus)
      have hj : u = v → j < i := by
        rintro rfl
        have := (List.getElem?_eq_some_iff.mp hw).1
        omega
      simp only [Passed, hs, List.mem_append, List.mem_cons, List.not_mem_nil, or_false, Prod.mk.injEq, or_and_right,
        exists_or, and_assoc, exists_and_left, exists_eq_left, or_assoc]
      rw [and_iff_left_of_imp hj]

/-- The search before its first step. -/
def initial (size : V → ℕ) : Search V := ⟨[], [], [], size, fun _ _ => none⟩

theorem inv_initial (size : V → ℕ) : Inv succ (initial size) := by
  refine ⟨⟨?_, ?_, ?_, ?_, ?_, ?_, ?_, ?_, ?_, ?_, ?_, ?_⟩, ?_, ?_, ?_, ?_⟩ <;> simp [initial, names, Passed]

section Forest

/-- An edge of the forest that the search has built. -/
def TreeEdge (succ : V → List V) (s : Search V) (v w : V) : Prop :=
  ∃ i, s.cls v i = some .tree ∧ (succ v)[i]? = some w

namespace Inv

variable {u v w : V} {i : ℕ}

theorem fits_tree (h : Inv succ s) (hvw : TreeEdge succ s v w) : v ∈ s.pre ∧ w ∈ s.pre ∧ s.Fits v w .tree := by
  obtain ⟨i, hi, hw⟩ := hvw
  have hp := (h.labelled v i _ hi).1
  obtain ⟨hwp, c, hc, hf⟩ := h.passed v i w hp hw
  obtain rfl : c = .tree := Option.some_inj.mp (hc.symm.trans hi)
  exact ⟨h.mem_of_passed hp, hwp, hf⟩

/-- The vertices below a vertex are those in its interval. -/
theorem below_iff (h : Inv succ s) (hu : u ∈ s.pre) (hw : w ∈ s.pre) :
    Relation.ReflTransGen (TreeEdge succ s) u w ↔ s.visit u ≤ s.visit w ∧ s.visit w < s.last u := by
  constructor
  · intro hrel
    induction hrel using Relation.ReflTransGen.head_induction_on with
    | refl => exact ⟨le_rfl, h.visit_lt_last hw⟩
    | head hac _ ih =>
        obtain ⟨ha, hc, hac₁, hac₂, -⟩ := h.fits_tree hac
        obtain ⟨hcw, hwc⟩ := ih hc
        have := h.laminar _ ha _ hc hac₁.le hac₂
        exact ⟨by omega, by omega⟩
  · rintro ⟨hle, hlt⟩
    -- the vertex is reached through its parent, which lies in the interval as well
    induction hn : s.visit w using Nat.strong_induction_on generalizing w with
    | _ n ih =>
        subst hn
        rcases hle.eq_or_lt with heq | hlt'
        · exact visit_inj hu heq ▸ .refl
        · rcases h.parent w hw with hroot | ⟨v, i, hi, hvw⟩
          · exact absurd (hroot u hu hlt').2 (not_le.mpr hlt)
          · obtain ⟨hv, -, hvw₁, -, hlow⟩ := h.fits_tree ⟨i, hi, hvw⟩
            exact .tail (ih _ hvw₁ hv (hlow u hu hlt' hlt) (hvw₁.trans hlt) rfl) ⟨i, hi, hvw⟩

/-- The classes of the edges, in terms of the forest. -/
theorem class_iff (h : Inv succ s) (hp : s.Passed v i) (hw : (succ v)[i]? = some w) : ∃ c, s.cls v i = some c ∧
    (c = .back ↔ Relation.ReflTransGen (TreeEdge succ s) w v) ∧
    (c = .tree ∨ c = .forward ↔ v ≠ w ∧ Relation.ReflTransGen (TreeEdge succ s) v w) := by
  obtain ⟨hwp, c, hc, hf⟩ := h.passed v i w hp hw
  have hv := h.mem_of_passed hp
  rw [h.below_iff hwp hv, h.below_iff hv hwp]
  have hne : v ≠ w ↔ s.visit v ≠ s.visit w := not_congr ⟨fun heq => heq ▸ rfl, visit_inj hv⟩
  rw [hne]
  refine ⟨c, hc, ?_⟩
  cases c with
  | tree =>
      obtain ⟨h₁, h₂, -⟩ := hf
      exact ⟨by simp; omega, by simp; omega⟩
  | back =>
      obtain ⟨h₁, h₂⟩ := hf
      exact ⟨by simp; omega, by simp; omega⟩
  | forward =>
      obtain ⟨h₁, h₂⟩ := hf
      exact ⟨by simp; omega, by simp; omega⟩
  | cross =>
      have := h.visit_lt_last hwp
      exact ⟨by simp; have := hf.2; omega, by simp; have := hf.2; omega⟩

/-- Along an edge that is not a back edge, the target is finished first. -/
theorem finished_first (h : Inv succ s) (hv : v ∈ s.post) (hw : (succ v)[i]? = some w) (hc : s.cls v i ≠ some .back)
    (hwp : w ∈ s.post) : s.post.idxOf w < s.post.idxOf v := by
  obtain ⟨hwp', c, hc', hf⟩ := h.passed v i w (.inl hv) hw
  have hvp := h.mem_of_post hv
  have hv₁ := h.visit_lt_last hvp
  have hw₁ := h.visit_lt_last hwp'
  by_contra hle
  rcases (not_lt.mp hle).eq_or_lt with heq | hlt
  · obtain rfl := (List.idxOf_inj hv).mp heq
    cases c with
    | tree => exact absurd hf.1 (lt_irrefl _)
    | back => exact hc hc'
    | forward => exact absurd hf.1 (lt_irrefl _)
    | cross => exact absurd hf.2 (not_le.mpr hv₁)
  · have hor := List.pairwise_iff_getElem.mp h.order _ _ (List.idxOf_lt_length_of_mem hv)
      (List.idxOf_lt_length_of_mem hwp) hlt
    rw [List.getElem_idxOf, List.getElem_idxOf] at hor
    cases c with
    | tree =>
        obtain ⟨h₁, h₂, -⟩ := hf
        omega
    | back => exact hc hc'
    | forward =>
        obtain ⟨h₁, h₂⟩ := hf
        omega
    | cross =>
        obtain ⟨-, h₁⟩ := hf
        omega

end Inv

end Forest

section Progress

variable {l : List V}

/-- The positions on the stack stay within the lists of successors. -/
def InRange (succ : V → List V) (s : Search V) : Prop := ∀ v i, (v, i) ∈ s.stack → i ≤ (succ v).length

/-- The number of steps below the roots that the search has made. -/
def work (succ : V → List V) (s : Search V) : ℕ :=
  (s.post.map fun v => (succ v).length + 1).sum + (s.stack.map Prod.snd).sum

theorem InRange.step (h : InRange succ s) (hstep : Step succ s t) : InRange succ t := by
  cases hstep with
  | root v hs hv =>
      intro u j hu
      obtain ⟨rfl, rfl⟩ : u = v ∧ j = 0 := by simpa using hu
      exact Nat.zero_le _
  | tree v i rest w hs hw hn =>
      have hlt := (List.getElem?_eq_some_iff.mp hw).1
      intro u j hu
      simp only [List.mem_cons, Prod.mk.injEq] at hu
      rcases hu with ⟨rfl, rfl⟩ | ⟨rfl, rfl⟩ | hu
      · exact Nat.zero_le _
      · exact hlt
      · exact h u j (by simp [hs, hu])
  | other v i rest w hs hw hn =>
      have hlt := (List.getElem?_eq_some_iff.mp hw).1
      intro u j hu
      simp only [List.mem_cons, Prod.mk.injEq] at hu
      rcases hu with ⟨rfl, rfl⟩ | hu
      · exact hlt
      · exact h u j (by simp [hs, hu])
  | pop v i rest hs hi => exact fun u j hu => h u j (by simp [hs, show (u, j) ∈ rest from hu])

theorem work_step (h : InRange succ s) (hne : s.stack ≠ []) (hstep : Step succ s t) :
    work succ t = work succ s + 1 := by
  cases hstep with
  | root v hs hv => exact absurd hs hne
  | tree v i rest w hs hw hn =>
      simp only [work, hs, List.map_cons, List.sum_cons]
      omega
  | other v i rest w hs hw hn =>
      simp only [work, hs, List.map_cons, List.sum_cons]
      omega
  | pop v i rest hs hi =>
      have hle := h v i (by simp [hs])
      simp only [work, hs, List.map_append, List.map_cons, List.map_nil, List.sum_append, List.sum_cons, List.sum_nil]
      omega

theorem work_le (hs : s.Shape) (h : InRange succ s) (hsub : s.pre ⊆ l) :
    work succ s ≤ (l.map fun v => (succ v).length + 1).sum := by
  have hnodup : (s.post ++ s.names).Nodup := by
    refine List.nodup_append.mpr ⟨hs.post_nodup, hs.sorted.imp fun {a b} hab heq => ?_, fun a ha b hb hab => ?_⟩
    · exact absurd hab (heq ▸ lt_irrefl _)
    · exact hs.apart a ha (hab ▸ hb)
  have hperm : (s.post ++ s.names).Subperm l := by
    refine hnodup.subperm fun v hv => hsub ((hs.mem_iff v).mpr (List.mem_append.mp hv))
  have hstack : (s.stack.map Prod.snd).sum ≤ (s.names.map fun v => (succ v).length + 1).sum := by
    rw [names, List.map_map]
    refine List.sum_le_sum fun p hp => ?_
    have := h p.1 p.2 hp
    simp only [Function.comp]
    omega
  obtain ⟨l', hl', hsl⟩ := hperm
  have hsum := (hsl.map fun v => (succ v).length + 1).sum_le_sum fun _ _ => Nat.zero_le _
  rw [(hl'.map _).sum_eq, List.map_append, List.sum_append] at hsum
  rw [work]
  omega

end Progress

/-- When the stack is empty, the visited vertices are closed under edges. -/
theorem Inv.closed_of_empty (h : Inv succ s) (hs : s.stack = []) {v w : V} (hv : v ∈ s.pre) (hw : w ∈ succ v) :
    w ∈ s.pre := by
  obtain ⟨i, hi⟩ := List.mem_iff_getElem?.mp hw
  have hp : v ∈ s.post := ((h.mem_iff v).mp hv).resolve_right (by simp [names, hs])
  exact (h.passed v i w (.inl hp) hi).1

theorem Inv.reach_of_empty (h : Inv succ s) (hs : s.stack = []) {v w : V} (hv : v ∈ s.pre)
    (hw : Relation.ReflTransGen (fun a b => b ∈ succ a) v w) : w ∈ s.pre := by
  induction hw with
  | refl => exact hv
  | tail _ hbc ih => exact h.closed_of_empty hs ih hbc

section Cover

variable {R R' : Set V}

theorem TreeEdge.step (h : Inv succ s) (hstep : Step succ s t) {v w : V} (hvw : TreeEdge succ s v w) :
    TreeEdge succ t v w := by
  obtain ⟨i, hi, hw⟩ := hvw
  have hlabel {u : V} {j : ℕ} {rest : List (V × ℕ)} {c : EdgeClass} (hs : s.stack = (u, j) :: rest) :
      s.label u j c v i = some .tree := by
    rw [label_apply, if_neg, hi]
    rintro ⟨rfl, rfl⟩
    exact h.not_passed_top hs (h.labelled v i _ hi).1
  cases hstep with
  | root => exact ⟨i, hi, hw⟩
  | tree u j rest x hs => exact ⟨i, hlabel hs, hw⟩
  | other u j rest x hs => exact ⟨i, hlabel hs, hw⟩
  | pop => exact ⟨i, hi, hw⟩

/-- Every visited vertex belongs to `R` or was entered along a tree edge. -/
def Covered (succ : V → List V) (R : Set V) (s : Search V) : Prop :=
  ∀ w ∈ s.pre, w ∈ R ∨ ∃ v, TreeEdge succ s v w

theorem Covered.mono {Q : Set V} (h : Covered succ Q s) (hR : Q ⊆ R) : Covered succ R s :=
  fun w hw => (h w hw).imp_left fun hr => hR hr

theorem Covered.step (h : Covered succ R s) (hi : Inv succ s) (hstep : Step succ s t)
    (hroot : s.stack = [] → ∀ w ∈ t.pre, w ∉ s.pre → w ∈ R) : Covered succ R t := by
  intro w hw
  by_cases hws : w ∈ s.pre
  · exact (h w hws).imp_right fun ⟨v, hv⟩ => ⟨v, hv.step hi hstep⟩
  · cases hstep with
    | root v hs hv => exact .inl (hroot hs w hw hws)
    | tree v i rest x hs hx hn =>
        obtain rfl : w = x := by simpa [hws] using hw
        exact .inr ⟨v, i, by simp [label_apply], hx⟩
    | other => exact absurd hw hws
    | pop => exact absurd hw hws

/-- Every visited vertex lies below a vertex of `R`. -/
theorem Covered.exists_root (h : Covered succ R s) (hi : Inv succ s) {w : V} (hw : w ∈ s.pre) :
    ∃ r ∈ R, Relation.ReflTransGen (TreeEdge succ s) r w := by
  induction hn : s.visit w using Nat.strong_induction_on generalizing w with
  | _ n ih =>
      subst hn
      rcases h w hw with hroot | ⟨v, hv⟩
      · exact ⟨w, hroot, .refl⟩
      · obtain ⟨hvp, -, hlt, -⟩ := hi.fits_tree hv
        obtain ⟨r, hr, hrv⟩ := ih _ hlt hvp rfl
        exact ⟨r, hr, hrv.tail hv⟩

end Cover

end Search

end GhidraDecompiler.Flow
