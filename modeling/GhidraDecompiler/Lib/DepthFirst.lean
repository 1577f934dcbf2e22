import Mathlib.Data.List.Nodup
import Mathlib.Data.List.Chain
import Mathlib.Logic.Function.Basic
import Mathlib.Logic.Relation
import Mathlib.Order.Nat

/-! Depth-first search as a machine with an explicit stack, and what it knows
of the edges that it has passed. -/

namespace GhidraDecompiler.Flow

inductive EdgeClass
  | tree | back | forward | cross
  deriving DecidableEq

/-- A search: the vertices in the order in which they were visited and finished,
the vertices on the way from the root with the number of edges that were taken
from each, the sizes of the subtrees found so far and the classes of edges. -/
structure Search (V : Type) where
  pre : List V
  stack : List (V × ℕ)
  post : List V
  size : V → ℕ
  cls : V → ℕ → Option EdgeClass

namespace Search

variable {V : Type} [DecidableEq V] {succ : V → List V} {s t : Search V}

def visit (s : Search V) (v : V) : ℕ := s.pre.idxOf v

def names (s : Search V) : List V := s.stack.map Prod.fst

/-- The end of the interval of visits below a vertex; that of a vertex on the
stack still grows. -/
def last (s : Search V) (v : V) : ℕ := if v ∈ s.names then s.pre.length else s.visit v + s.size v

def label (s : Search V) (v : V) (i : ℕ) (c : EdgeClass) : V → ℕ → Option EdgeClass :=
  Function.update s.cls v (Function.update (s.cls v) i (some c))

/-- The class of an edge to a vertex that was visited before. -/
def classify (s : Search V) (v w : V) : EdgeClass :=
  if w ∉ s.post then .back else if s.visit v < s.visit w then .forward else .cross

/-- The sizes after a vertex was finished: that of the vertex below it on the
stack grows by its own. -/
def grown (s : Search V) (v : V) : List V → V → ℕ
  | [] => s.size
  | u :: _ => Function.update s.size u (s.size u + s.size v)

inductive Step (succ : V → List V) : Search V → Search V → Prop
  | root (s : Search V) (v : V) (hs : s.stack = []) (hv : v ∉ s.pre) :
      Step succ s { s with pre := s.pre ++ [v], stack := [(v, 0)], size := Function.update s.size v 1 }
  | tree (s : Search V) (v : V) (i : ℕ) (rest : List (V × ℕ)) (w : V) (hs : s.stack = (v, i) :: rest)
      (hw : (succ v)[i]? = some w) (hn : w ∉ s.pre) :
      Step succ s { s with
        pre := s.pre ++ [w], stack := (w, 0) :: (v, i + 1) :: rest, size := Function.update s.size w 1,
        cls := s.label v i .tree }
  | other (s : Search V) (v : V) (i : ℕ) (rest : List (V × ℕ)) (w : V) (hs : s.stack = (v, i) :: rest)
      (hw : (succ v)[i]? = some w) (hn : w ∈ s.pre) :
      Step succ s { s with stack := (v, i + 1) :: rest, cls := s.label v i (s.classify v w) }
  | pop (s : Search V) (v : V) (i : ℕ) (rest : List (V × ℕ)) (hs : s.stack = (v, i) :: rest)
      (hi : (succ v).length ≤ i) :
      Step succ s { s with
        stack := rest, post := s.post ++ [v], size := s.grown v (rest.map Prod.fst) }

theorem Step.pre_subset (hstep : Step succ s t) : s.pre ⊆ t.pre := by
  cases hstep <;> simp

/-- The part of the invariant that speaks of visits only: the intervals of
two vertices are nested or apart, and the finished vertices come in an order
that the intervals determine. -/
structure Shape (s : Search V) : Prop where
  pre_nodup : s.pre.Nodup
  post_nodup : s.post.Nodup
  mem_iff : ∀ v, v ∈ s.pre ↔ v ∈ s.post ∨ v ∈ s.names
  apart : ∀ v ∈ s.post, v ∉ s.names
  sorted : s.names.Pairwise fun a b => s.visit b < s.visit a
  top : ∀ v ∈ s.names.head?, s.visit v + s.size v = s.pre.length
  chain : s.names.IsChain fun a b => s.visit b + s.size b = s.visit a
  size_pos : ∀ v ∈ s.pre, 0 < s.size v
  last_le : ∀ v ∈ s.pre, s.last v ≤ s.pre.length
  laminar : ∀ u ∈ s.pre, ∀ v ∈ s.pre, s.visit u ≤ s.visit v → s.visit v < s.last u → s.last v ≤ s.last u
  closed : ∀ u ∈ s.post, ∀ v ∈ s.pre, s.visit u ≤ s.visit v → s.visit v < s.last u → v ∈ s.post
  order : s.post.Pairwise fun u v => s.last u ≤ s.visit v ∨ s.visit v < s.visit u ∧ s.visit u < s.last v

theorem visit_lt {v : V} (hv : v ∈ s.pre) : s.visit v < s.pre.length := List.idxOf_lt_length_of_mem hv

theorem visit_inj {u v : V} (hu : u ∈ s.pre) (h : s.visit u = s.visit v) : u = v := (List.idxOf_inj hu).mp h

theorem last_of_mem {v : V} (hv : v ∈ s.names) : s.last v = s.pre.length := if_pos hv

namespace Shape

theorem last_of_post (h : s.Shape) {v : V} (hv : v ∈ s.post) : s.last v = s.visit v + s.size v :=
  if_neg (h.apart v hv)

theorem mem_of_names (h : s.Shape) {v : V} (hv : v ∈ s.names) : v ∈ s.pre := (h.mem_iff v).mpr (.inr hv)

theorem mem_of_post (h : s.Shape) {v : V} (hv : v ∈ s.post) : v ∈ s.pre := (h.mem_iff v).mpr (.inl hv)

theorem visit_lt_last (h : s.Shape) {v : V} (hv : v ∈ s.pre) : s.visit v < s.last v := by
  rw [last]
  split
  · exact visit_lt hv
  · have := h.size_pos v hv
    omega

/-- The shape depends on four of the components only. -/
theorem of_eq (h : s.Shape) (hpre : t.pre = s.pre) (hnames : t.names = s.names) (hpost : t.post = s.post)
    (hsize : t.size = s.size) : t.Shape := by
  have hvisit : t.visit = s.visit := by
    funext v
    rw [visit, hpre, visit]
  have hlast : t.last = s.last := by
    funext v
    rw [last, hnames, hpre, hvisit, hsize, last]
  obtain ⟨h₁, h₂, h₃, h₄, h₅, h₆, h₇, h₈, h₉, h₁₀, h₁₁, h₁₂⟩ := h
  constructor <;> simpa only [hpre, hnames, hpost, hsize, hvisit, hlast]

end Shape

section Push

/-- The state after a new vertex was visited. -/
structure Pushed (s : Search V) (w : V) (t : Search V) : Prop where
  fresh : w ∉ s.pre
  pre : t.pre = s.pre ++ [w]
  names : t.names = w :: s.names
  post : t.post = s.post
  size : t.size = Function.update s.size w 1

namespace Pushed

variable {w : V} (p : Pushed s w t)

include p

theorem visit_of_mem {v : V} (hv : v ∈ s.pre) : t.visit v = s.visit v := by
  rw [visit, p.pre, List.idxOf_append_of_mem hv, visit]

theorem visit_new : t.visit w = s.pre.length := by
  rw [visit, p.pre, List.idxOf_append_of_notMem p.fresh]
  simp

theorem length : t.pre.length = s.pre.length + 1 := by simp [p.pre]

theorem last_new : t.last w = s.pre.length + 1 := by
  rw [last_of_mem (by simp [p.names]), p.length]

theorem ne_of_mem {v : V} (hv : v ∈ s.pre) : v ≠ w := fun h => p.fresh (h ▸ hv)

theorem last_of_names {v : V} (hv : v ∈ s.names) : t.last v = s.pre.length + 1 := by
  rw [last_of_mem (by simp [p.names, hv]), p.length]

theorem last_of_not_names {v : V} (hv : v ∈ s.pre) (hn : v ∉ s.names) : t.last v = s.last v := by
  have hvw := p.ne_of_mem hv
  rw [last, if_neg (by simp [p.names, hn, hvw]), p.visit_of_mem hv, p.size, Function.update_of_ne hvw, last, if_neg hn]

theorem mem {v : V} : v ∈ t.pre ↔ v ∈ s.pre ∨ v = w := by simp [p.pre]

theorem last_le (h : s.Shape) {v : V} (hv : v ∈ t.pre) : t.last v ≤ s.pre.length + 1 := by
  rcases p.mem.mp hv with hv | rfl
  · by_cases hn : v ∈ s.names
    · exact (p.last_of_names hn).le
    · rw [p.last_of_not_names hv hn]
      have := h.last_le v hv
      omega
  · exact p.last_new.le

theorem last_of_post (h : s.Shape) {v : V} (hv : v ∈ s.post) : t.last v = s.last v :=
  p.last_of_not_names (h.mem_of_post hv) (h.apart v hv)

/-- Only vertices on the stack have the new vertex in their interval. -/
theorem mem_names_of_lt (h : s.Shape) {u : V} (hu : u ∈ s.pre) (hlt : s.pre.length < t.last u) : u ∈ s.names := by
  by_contra hn
  rw [p.last_of_not_names hu hn] at hlt
  exact absurd (h.last_le u hu) (not_le.mpr hlt)

theorem laminar (h : s.Shape) (u : V) (hu : u ∈ t.pre) (v : V) (hv : v ∈ t.pre) (hle : t.visit u ≤ t.visit v)
    (hlt : t.visit v < t.last u) : t.last v ≤ t.last u := by
  rcases p.mem.mp hu with hu' | rfl
  · by_cases hn : u ∈ s.names
    · rw [p.last_of_names hn]
      exact p.last_le h hv
    · rw [p.last_of_not_names hu' hn] at hlt ⊢
      have hup : u ∈ s.post := ((h.mem_iff u).mp hu').resolve_right hn
      rcases p.mem.mp hv with hv' | rfl
      · rw [p.visit_of_mem hu', p.visit_of_mem hv'] at hle
        rw [p.visit_of_mem hv'] at hlt
        rw [p.last_of_post h (h.closed u hup v hv' hle hlt)]
        exact h.laminar u hu' v hv' hle hlt
      · rw [p.visit_new] at hlt
        exact absurd (h.last_le u hu') (not_le.mpr hlt)
  · rw [p.last_new]
    exact p.last_le h hv

theorem closed (h : s.Shape) (u : V) (hu : u ∈ t.post) (v : V) (hv : v ∈ t.pre) (hle : t.visit u ≤ t.visit v)
    (hlt : t.visit v < t.last u) : v ∈ t.post := by
  rw [p.post] at hu ⊢
  have hu' := h.mem_of_post hu
  rw [p.last_of_post h hu] at hlt
  rcases p.mem.mp hv with hv' | rfl
  · rw [p.visit_of_mem hu', p.visit_of_mem hv'] at hle
    rw [p.visit_of_mem hv'] at hlt
    exact h.closed u hu v hv' hle hlt
  · rw [p.visit_new] at hlt
    exact absurd (h.last_le u hu') (not_le.mpr hlt)

theorem shape (h : s.Shape) : t.Shape := by
  have hsize {v : V} (hv : v ∈ s.pre) : t.size v = s.size v := by rw [p.size, Function.update_of_ne (p.ne_of_mem hv)]
  have hnew : w ∉ s.names := fun hn => p.fresh (h.mem_of_names hn)
  refine ⟨?_, ?_, fun v => ?_, fun v hv => ?_, ?_, fun v hv => ?_, ?_, fun v hv => ?_, fun v hv => ?_, p.laminar h,
    p.closed h, ?_⟩
  · rw [p.pre, List.nodup_append]
    exact ⟨h.pre_nodup, by simp, fun a ha b hb hab => p.fresh (List.mem_singleton.mp hb ▸ hab ▸ ha)⟩
  · exact p.post ▸ h.post_nodup
  · rw [p.mem, p.post, p.names, h.mem_iff v, List.mem_cons]
    tauto
  · rw [p.post] at hv
    rw [p.names, List.mem_cons, not_or]
    exact ⟨p.ne_of_mem (h.mem_of_post hv), h.apart v hv⟩
  · rw [p.names, List.pairwise_cons]
    refine ⟨fun v hv => ?_, h.sorted.imp_of_mem fun {a b} ha hb hab => ?_⟩
    · rw [p.visit_new, p.visit_of_mem (h.mem_of_names hv)]
      exact visit_lt (h.mem_of_names hv)
    · rwa [p.visit_of_mem (h.mem_of_names ha), p.visit_of_mem (h.mem_of_names hb)]
  · obtain rfl : w = v := by simpa [p.names] using hv
    rw [p.visit_new, p.size, Function.update_self, p.length]
  · rw [p.names]
    have hrest : s.names.IsChain fun a b => t.visit b + t.size b = t.visit a := by
      refine List.IsChain.imp_of_mem_imp (fun a b ha hb hab => ?_) h.chain
      have ha' := h.mem_of_names ha
      have hb' := h.mem_of_names hb
      rwa [p.visit_of_mem ha', p.visit_of_mem hb', hsize hb']
    refine List.isChain_cons.mpr ⟨fun v hv => ?_, hrest⟩
    have hv' := h.mem_of_names (List.mem_of_mem_head? hv)
    rw [p.visit_of_mem hv', hsize hv', p.visit_new]
    exact h.top v hv
  · rcases p.mem.mp hv with hv | rfl
    · rw [hsize hv]
      exact h.size_pos v hv
    · simp [p.size]
  · rw [p.length]
    exact p.last_le h hv
  · rw [p.post]
    refine h.order.imp_of_mem fun {u v} hu hv huv => ?_
    rwa [p.last_of_post h hu, p.last_of_post h hv, p.visit_of_mem (h.mem_of_post hu), p.visit_of_mem (h.mem_of_post hv)]

end Pushed

end Push

section Pop

/-- The state after the vertex on top of the stack was finished. -/
structure Popped (s : Search V) (v : V) (rest : List V) (t : Search V) : Prop where
  names_old : s.names = v :: rest
  pre : t.pre = s.pre
  names : t.names = rest
  post : t.post = s.post ++ [v]
  size : t.size = s.grown v rest

namespace Popped

variable {v : V} {rest : List V} (p : Popped s v rest t)

include p

theorem visit (u : V) : t.visit u = s.visit u := by rw [Search.visit, p.pre, Search.visit]

theorem top_mem : v ∈ s.names := by simp [p.names_old]

theorem size_of_ne {u : V} (hu : u ∉ rest.head?) : t.size u = s.size u := by
  rw [p.size]
  cases rest with
  | nil => rfl
  | cons x rest =>
      refine Function.update_of_ne ?_ _ _
      rintro rfl
      simp at hu

theorem size_le (u : V) : s.size u ≤ t.size u := by
  rw [p.size]
  cases rest with
  | nil => rfl
  | cons x rest =>
      rw [grown, Function.update_apply]
      split
      next h => exact h ▸ Nat.le_add_right ..
      next => rfl

theorem lt_top (h : s.Shape) {u : V} (hu : u ∈ rest) : s.visit u < s.visit v := by
  have hsorted := h.sorted
  rw [p.names_old, List.pairwise_cons] at hsorted
  exact hsorted.1 u hu

theorem top_notMem (h : s.Shape) : v ∉ rest := fun hv => (p.lt_top h hv).ne rfl

theorem last (h : s.Shape) (u : V) : t.last u = s.last u := by
  by_cases hr : u ∈ rest
  · rw [last_of_mem (by rwa [p.names]), last_of_mem (by simp [p.names_old, hr]), p.pre]
  · have hsize : t.size u = s.size u := p.size_of_ne fun hh => hr (List.mem_of_mem_head? hh)
    rw [Search.last, p.names, if_neg hr, p.visit, hsize]
    by_cases huv : u = v
    · subst huv
      rw [last_of_mem p.top_mem]
      exact h.top u (by simp [p.names_old])
    · rw [Search.last, if_neg (by simp [p.names_old, hr, huv])]

theorem mem_post {u : V} : u ∈ t.post ↔ u ∈ s.post ∨ u = v := by simp [p.post]

/-- When a vertex is finished, so is everything that was visited after it. -/
theorem closed (h : s.Shape) (u : V) (hu : u ∈ t.post) (w : V) (hw : w ∈ t.pre) (hle : t.visit u ≤ t.visit w)
    (hlt : t.visit w < t.last u) : w ∈ t.post := by
  rw [p.pre] at hw
  rw [p.visit, p.visit] at hle
  rw [p.mem_post] at hu ⊢
  rcases hu with hu | rfl
  · rw [p.visit, p.last h] at hlt
    exact .inl (h.closed u hu w hw hle hlt)
  · rcases (h.mem_iff w).mp hw with hw | hw
    · exact .inl hw
    · rw [p.names_old, List.mem_cons] at hw
      refine .inr (hw.resolve_right fun hw => ?_)
      exact absurd (p.lt_top h hw) (not_lt.mpr hle)

/-- Where the finished vertices lie, seen from the one that is finished now. -/
theorem order_top (h : s.Shape) {u : V} (hu : u ∈ s.post) :
    s.last u ≤ s.visit v ∨ s.visit v < s.visit u ∧ s.visit u < s.last v := by
  have hv := h.mem_of_names p.top_mem
  have hu' := h.mem_of_post hu
  have hne : s.visit u ≠ s.visit v := fun heq => h.apart u hu (visit_inj hu' heq ▸ p.top_mem)
  rcases Nat.lt_or_gt_of_ne hne with hlt | hlt
  · left
    by_contra hgt
    exact h.apart v (h.closed u hu v hv hlt.le (not_le.mp hgt)) p.top_mem
  · rw [last_of_mem p.top_mem]
    exact .inr ⟨hlt, visit_lt hu'⟩

theorem shape (h : s.Shape) : t.Shape := by
  have hsorted := h.sorted
  have hchain := h.chain
  rw [p.names_old, List.pairwise_cons] at hsorted
  rw [p.names_old, List.isChain_cons] at hchain
  have hv := h.mem_of_names p.top_mem
  refine ⟨p.pre ▸ h.pre_nodup, ?_, fun u => ?_, fun u hu => ?_, ?_, fun u hu => ?_, ?_, fun u hu => ?_, fun u hu => ?_,
    fun u hu w hw => ?_, p.closed h, ?_⟩
  · rw [p.post, List.nodup_append]
    refine ⟨h.post_nodup, by simp, fun a ha b hb hab => ?_⟩
    obtain rfl := List.mem_singleton.mp hb
    exact h.apart a ha (hab ▸ p.top_mem)
  · rw [p.pre, p.mem_post, p.names, h.mem_iff u, p.names_old, List.mem_cons, or_assoc]
  · rw [p.names]
    rcases p.mem_post.mp hu with hu | rfl
    · exact fun hr => h.apart u hu (by simp [p.names_old, hr])
    · exact p.top_notMem h
  · rw [p.names]
    exact hsorted.2.imp fun {a b} hab => by rwa [p.visit, p.visit]
  · rw [p.names] at hu
    have hlink := hchain.1 u hu
    have htop := h.top v (by simp [p.names_old])
    obtain ⟨rest', rfl⟩ := List.head?_eq_some_iff.mp hu
    rw [p.visit, p.pre, p.size, grown, Function.update_self]
    omega
  · rw [p.names]
    refine List.IsChain.imp_of_mem_tail_imp (fun a b _ hb hab => ?_) hchain.2
    rwa [p.visit, p.visit, p.size_of_ne]
    intro hh
    obtain ⟨rest', rfl⟩ := List.head?_eq_some_iff.mp hh
    exact ((List.pairwise_cons.mp hsorted.2).1 b hb).ne rfl
  · exact (h.size_pos u (p.pre ▸ hu)).trans_le (p.size_le u)
  · rw [p.pre] at hu ⊢
    rw [p.last h]
    exact h.last_le u hu
  · rw [p.pre] at hu hw
    rw [p.visit, p.visit, p.last h, p.last h]
    exact h.laminar u hu w hw
  · rw [p.post, List.pairwise_append]
    refine ⟨h.order.imp_of_mem fun {a b} ha hb hab => ?_, by simp, fun u hu w hw => ?_⟩
    · rwa [p.last h, p.last h, p.visit, p.visit]
    · obtain rfl := List.mem_singleton.mp hw
      rw [p.last h, p.last h, p.visit, p.visit]
      exact p.order_top h hu

end Popped

end Pop

end Search

end GhidraDecompiler.Flow
