import Mathlib.Data.Finset.Card
import Mathlib.Data.Finset.Range
import Mathlib.Logic.Relation
import GhidraDecompiler.Lib.WeakOrder
import GhidraDecompiler.Range.ValueSetSolver

namespace GhidraDecompiler.Range.ValueSetSolver

open Fallible WeakOrder

variable {data : Funcdata} {succ : Nat → List Nat} {s s₁ s₂ : ValueSetSolver}

def node (s : ValueSetSolver) (x : Nat) : ValueSet := s.valueNodes.getD x ValueSet.newEmpty

def next (s : ValueSetSolver) (x : Nat) : Option Nat := (s.node x).next

def assigned (s : ValueSetSolver) (x : Nat) (f : ValueSet → ValueSet) : ValueSetSolver :=
  { s with valueNodes := s.valueNodes.modify x f }

theorem assign_eq {x : Nat} (f : ValueSet → ValueSet) (h : x < s.valueNodes.length) :
    s.assign x f = .ok (s.assigned x f) := by
  simp [assign, assigned, h]

theorem getIdx_node {x : Nat} (h : x < s.valueNodes.length) : getIdx s.valueNodes x = .ok (s.node x) := by
  rw [getIdx_ok_iff, node, List.getD_eq_getElem?_getD, List.getElem?_eq_getElem h, Option.getD_some]

theorem node_assigned {x : Nat} (f : ValueSet → ValueSet) (h : x < s.valueNodes.length) (y : Nat) :
    (s.assigned x f).node y = if y = x then f (s.node x) else s.node y := by
  simp only [node, assigned, List.getD_eq_getElem?_getD, List.getElem?_modify]
  by_cases hy : y = x
  · subst hy
    simp [List.getElem?_eq_getElem h]
  · simp [hy, Ne.symm hy]

@[simp] theorem length_assigned (x : Nat) (f : ValueSet → ValueSet) :
    (s.assigned x f).valueNodes.length = s.valueNodes.length := by
  simp [assigned]

/-- The graph that the edge iterators run through. -/
structure Graph (data : Funcdata) (succ : Nat → List Nat) (s : ValueSetSolver) : Prop where
  edges : ∀ x < s.valueNodes.length, s.edges data x = .ok (succ x)
  range : ∀ x < s.valueNodes.length, ∀ w ∈ succ x, w < s.valueNodes.length

theorem Graph.of_same (h : Graph data succ s) (hl : s₁.valueNodes.length = s.valueNodes.length)
    (hv : ∀ x, (s₁.node x).vn = (s.node x).vn) (hr : s₁.rootNodes = s.rootNodes) : Graph data succ s₁ := by
  refine ⟨fun x hx => ?_, fun x hx => ?_⟩
  · rw [hl] at hx
    rw [← h.edges x hx, ValueSetSolver.edges, ValueSetSolver.edges, getIdx_node hx, getIdx_node (hl ▸ hx)]
    simp only [ok_bind, hv, hr]
  · rw [hl] at hx ⊢
    exact h.range x hx

/-- Between two steps of the traversal a vertex is new, on the stack or settled. -/
structure Ready (s : ValueSetSolver) : Prop where
  stack : ∀ x ∈ s.nodeStack, ∃ k : ℕ, (s.node x).count = k ∧ 0 < k ∧ k ≤ s.depthFirstIndex
  cases : ∀ x, (s.node x).count = 0 ∨ (s.node x).count = ⊤ ∨ x ∈ s.nodeStack

def toPartition (l : List Nat) : Partition := { startNode := l.head?, stopNode := l.getLast?, isDirty := false }

/-- What a stretch of the traversal does: it places the vertices of `L` in front of
the order, leaves those of `T` on the stack and records the components `C`. -/
structure Effect (succ : Nat → List Nat) (s s₁ : ValueSetSolver) (L T : List Nat) (C : List (List Nat)) : Prop where
  size : s₁.valueNodes.length = s.valueNodes.length
  vn : ∀ x, (s₁.node x).vn = (s.node x).vn
  roots : s₁.rootNodes = s.rootNodes
  index : s.depthFirstIndex ≤ s₁.depthFirstIndex
  stack : s₁.nodeStack = T ++ s.nodeStack
  records : s₁.recordStorage = s.recordStorage ++ C.map toPartition
  heads : ∀ i seg, C[i]? = some seg → ∀ h, seg.head? = some h →
    (s₁.node h).partHead = some (s.recordStorage.length + i)
  nodup : (L ++ T).Nodup
  range : ∀ x ∈ L ++ T, x < s.valueNodes.length
  white : ∀ x ∈ L ++ T, (s.node x).count = 0
  placed : ∀ x ∈ L, (s₁.node x).count = ⊤
  stacked : ∀ x ∈ T, ∃ k : ℕ, (s₁.node x).count = k ∧ s.depthFirstIndex < k ∧ k ≤ s₁.depthFirstIndex
  same : ∀ x, x ∉ L → x ∉ T → (s₁.node x).count = (s.node x).count
  links : ∀ x ∉ L, s₁.next x = s.next x ∧ (s₁.node x).partHead = (s.node x).partHead
  nested : Nested L C
  respects : Respects succ L C (fun w => (s.node w).count = ⊤)

namespace Effect

variable {L T L₁ T₁ L₂ T₂ : List Nat} {C C₁ C₂ : List (List Nat)}

theorem graph (h : Effect succ s s₁ L T C) (hg : Graph data succ s) : Graph data succ s₁ :=
  hg.of_same h.size h.vn h.roots

theorem nil (s : ValueSetSolver) : Effect succ s s [] [] [] where
  size := rfl
  vn _ := rfl
  roots := rfl
  index := le_refl _
  stack := rfl
  records := by simp
  heads := by simp
  nodup := by simp
  range := by simp
  white := by simp
  placed := by simp
  stacked := by simp
  same _ _ _ := rfl
  links _ _ := ⟨rfl, rfl⟩
  nested := nested_nil
  respects := respects_nil _

/-- The count of a vertex after a stretch says what happened to it. -/
theorem not_mem_of_white (h : Effect succ s s₁ L T C) {x : Nat} (hx : (s₁.node x).count = 0) : x ∉ L ∧ x ∉ T := by
  refine ⟨fun hl => ?_, fun ht => ?_⟩
  · rw [h.placed x hl] at hx
    exact WithTop.top_ne_zero hx
  · obtain ⟨k, hk, hlt, -⟩ := h.stacked x ht
    rw [hk] at hx
    have : k = 0 := by exact_mod_cast hx
    omega

theorem white_before (h : Effect succ s s₁ L T C) {x : Nat} (hx : (s₁.node x).count = 0) : (s.node x).count = 0 := by
  obtain ⟨hl, ht⟩ := h.not_mem_of_white hx
  rw [← h.same x hl ht, hx]

theorem settled_before (h : Effect succ s s₁ L T C) {x : Nat} (hx : (s₁.node x).count = ⊤) :
    x ∈ L ∨ (s.node x).count = ⊤ := by
  by_cases hl : x ∈ L
  · exact .inl hl
  · by_cases ht : x ∈ T
    · obtain ⟨k, hk, -⟩ := h.stacked x ht
      rw [hk] at hx
      exact absurd hx (WithTop.coe_ne_top)
    · exact .inr (by rw [← h.same x hl ht, hx])

theorem settled_after (h : Effect succ s s₁ L T C) {x : Nat} (hx : (s.node x).count = ⊤) : (s₁.node x).count = ⊤ := by
  have hne : x ∉ L ++ T := fun hm => by
    rw [h.white x hm] at hx
    exact WithTop.zero_ne_top hx
  rw [List.mem_append, not_or] at hne
  rw [h.same x hne.1 hne.2, hx]

theorem white_of_placed (h : Effect succ s s₁ L T C) {x : Nat} (hx : x ∈ L) : (s.node x).count = 0 :=
  h.white x (List.mem_append_left T hx)

theorem trans (h₁ : Effect succ s s₁ L₁ T₁ C₁) (h₂ : Effect succ s₁ s₂ L₂ T₂ C₂) :
    Effect succ s s₂ (L₂ ++ L₁) (T₂ ++ T₁) (C₁ ++ C₂) := by
  -- what the second stretch meets as new was not touched by the first
  have hnew : ∀ x ∈ L₂ ++ T₂, x ∉ L₁ ∧ x ∉ T₁ := fun x hx => h₁.not_mem_of_white (h₂.white x hx)
  have hold : ∀ x, x ∈ L₁ ∨ x ∈ T₁ → x ∉ L₂ ∧ x ∉ T₂ := by
    intro x hx
    refine ⟨fun hl => ?_, fun ht => ?_⟩
    · have := hnew x (List.mem_append_left _ hl)
      tauto
    · have := hnew x (List.mem_append_right _ ht)
      tauto
  have hperm : ((L₂ ++ L₁) ++ (T₂ ++ T₁)).Perm ((L₂ ++ T₂) ++ (L₁ ++ T₁)) := by
    refine List.perm_iff_count.mpr fun x => ?_
    simp only [List.count_append]
    omega
  refine
    { size := h₂.size.trans h₁.size
      vn := fun x => (h₂.vn x).trans (h₁.vn x)
      roots := h₂.roots.trans h₁.roots
      index := h₁.index.trans h₂.index
      stack := by rw [h₂.stack, h₁.stack, List.append_assoc]
      records := by rw [h₂.records, h₁.records, List.map_append, List.append_assoc]
      heads := ?_
      nodup := ?_
      range := ?_
      white := ?_
      placed := ?_
      stacked := ?_
      same := ?_
      links := ?_
      nested := h₁.nested.append h₂.nested
      respects := h₁.respects.append h₂.respects fun v hv => h₁.settled_before hv }
  · intro i seg hi hd hh
    rw [List.getElem?_append] at hi
    split at hi
    · have hmem : hd ∈ L₁ := (h₁.nested seg (List.mem_of_getElem? hi)).2.subset (List.mem_of_head? hh)
      rw [(h₂.links hd (hold hd (.inl hmem)).1).2]
      exact h₁.heads i seg hi hd hh
    · rw [h₂.heads (i - C₁.length) seg hi hd hh, h₁.records, List.length_append, List.length_map]
      congr 1
      omega
  · refine hperm.nodup_iff.mpr (List.nodup_append.mpr ⟨h₂.nodup, h₁.nodup, fun x hx y hy he => ?_⟩)
    subst he
    have := hnew x hx
    rw [List.mem_append] at hy
    tauto
  · intro x hx
    rcases List.mem_append.mp (hperm.mem_iff.mp hx) with hx | hx
    · exact h₁.size ▸ h₂.range x hx
    · exact h₁.range x hx
  · intro x hx
    rcases List.mem_append.mp (hperm.mem_iff.mp hx) with hx | hx
    · exact h₁.white_before (h₂.white x hx)
    · exact h₁.white x hx
  · intro x hx
    rcases List.mem_append.mp hx with hx | hx
    · exact h₂.placed x hx
    · exact h₂.settled_after (h₁.placed x hx)
  · intro x hx
    rcases List.mem_append.mp hx with hx | hx
    · obtain ⟨k, hk, hlt, hle⟩ := h₂.stacked x hx
      exact ⟨k, hk, h₁.index.trans_lt hlt, hle⟩
    · obtain ⟨k, hk, hlt, hle⟩ := h₁.stacked x hx
      obtain ⟨hl, ht⟩ := hold x (.inr hx)
      exact ⟨k, (h₂.same x hl ht).trans hk, hlt, hle.trans h₂.index⟩
  · intro x hl ht
    rw [List.mem_append, not_or] at hl ht
    rw [h₂.same x hl.1 ht.1, h₁.same x hl.2 ht.2]
  · intro x hl
    rw [List.mem_append, not_or] at hl
    obtain ⟨hn₂, hp₂⟩ := h₂.links x hl.1
    obtain ⟨hn₁, hp₁⟩ := h₁.links x hl.2
    exact ⟨hn₂.trans hn₁, hp₂.trans hp₁⟩

theorem ready (h : Effect succ s s₁ L T C) (hs : Ready s) : Ready s₁ := by
  refine ⟨fun x hx => ?_, fun x => ?_⟩
  · rw [h.stack] at hx
    by_cases ht : x ∈ T
    · obtain ⟨k, hk, hlt, hle⟩ := h.stacked x ht
      exact ⟨k, hk, by omega, hle⟩
    · obtain ⟨k, hk, hpos, hle⟩ := hs.stack x ((List.mem_append.mp hx).resolve_left ht)
      have hl : x ∉ L := fun hl => by
        rw [h.white_of_placed hl] at hk
        have : k = 0 := by exact_mod_cast hk.symm
        omega
      exact ⟨k, (h.same x hl ht).trans hk, hpos, hle.trans h.index⟩
  · rw [h.stack, List.mem_append]
    by_cases hl : x ∈ L
    · exact .inr (.inl (h.placed x hl))
    · by_cases ht : x ∈ T
      · exact .inr (.inr (.inl ht))
      · rw [h.same x hl ht]
        rcases hs.cases x with h' | h' | h'
        · exact .inl h'
        · exact .inr (.inl h')
        · exact .inr (.inr (.inr h'))

/-- A list of settled vertices stays linked. -/
theorem linked (h : Effect succ s s₁ L T C) {l : List Nat} (hl : Linked s.next l)
    (hs : ∀ x ∈ l, (s.node x).count = ⊤) : Linked s₁.next l := by
  refine hl.congr fun x hx => (h.links x fun hm => ?_).1
  have := hs x hx
  rw [h.white_of_placed hm] at this
  exact WithTop.zero_ne_top this

/-- The vertices left on the stack get their place after all: `K` holds them and the
components `D` within. -/
theorem settle (h : Effect succ s s₁ L T C) {K : List Nat} {D : List (List Nat)}
    (hK : ∀ x, x ∈ K ↔ x ∈ T) (hnd : K.Nodup) (hn : Nested K D)
    (hr : Respects succ K D (fun w => w ∈ L ∨ (s.node w).count = ⊤))
    (size : s₂.valueNodes.length = s₁.valueNodes.length) (vn : ∀ x, (s₂.node x).vn = (s₁.node x).vn)
    (roots : s₂.rootNodes = s₁.rootNodes) (index : s₁.depthFirstIndex ≤ s₂.depthFirstIndex)
    (stack : s₂.nodeStack = s.nodeStack)
    (records : s₂.recordStorage = s₁.recordStorage ++ D.map toPartition)
    (heads : ∀ i seg, D[i]? = some seg → ∀ h, seg.head? = some h →
      (s₂.node h).partHead = some (s₁.recordStorage.length + i))
    (placed : ∀ x ∈ K, (s₂.node x).count = ⊤) (same : ∀ x ∉ K, (s₂.node x).count = (s₁.node x).count)
    (links : ∀ x ∉ K, s₂.next x = s₁.next x ∧ (s₂.node x).partHead = (s₁.node x).partHead) :
    Effect succ s s₂ (K ++ L) [] (C ++ D) := by
  have hdisj : ∀ x ∈ L, x ∉ K := fun x hl hk =>
    (List.nodup_append.mp h.nodup).2.2 x hl x ((hK x).mp hk) rfl
  have hmem : ∀ x, x ∈ (K ++ L) ++ [] → x ∈ L ++ T := by
    intro x hx
    rw [List.append_nil, List.mem_append, hK] at hx
    exact List.mem_append.mpr hx.symm
  refine
    { size := size.trans h.size
      vn := fun x => (vn x).trans (h.vn x)
      roots := roots.trans h.roots
      index := h.index.trans index
      stack := stack
      records := by rw [records, h.records, List.map_append, List.append_assoc]
      heads := ?_
      nodup := ?_
      range := fun x hx => h.range x (hmem x hx)
      white := fun x hx => h.white x (hmem x hx)
      placed := ?_
      stacked := by simp
      same := ?_
      links := ?_
      nested := h.nested.append hn
      respects := h.respects.append hr fun v hv => hv }
  · intro i seg hi hd hh
    rw [List.getElem?_append] at hi
    split at hi
    · have hmem : hd ∈ L := (h.nested seg (List.mem_of_getElem? hi)).2.subset (List.mem_of_head? hh)
      rw [(links hd (hdisj hd hmem)).2]
      exact h.heads i seg hi hd hh
    · rw [heads (i - C.length) seg hi hd hh, h.records, List.length_append, List.length_map]
      congr 1
      omega
  · rw [List.append_nil]
    refine List.nodup_append.mpr ⟨hnd, (List.nodup_append.mp h.nodup).1, fun x hk y hl he => ?_⟩
    exact hdisj y hl (he ▸ hk)
  · intro x hx
    rcases List.mem_append.mp hx with hx | hx
    · exact placed x hx
    · rw [same x (hdisj x hx), h.placed x hx]
  · intro x hl _
    rw [List.mem_append, not_or] at hl
    rw [same x hl.1, h.same x hl.2 (fun ht => hl.1 ((hK x).mpr ht))]
  · intro x hl
    rw [List.mem_append, not_or] at hl
    obtain ⟨hn', hp'⟩ := links x hl.1
    obtain ⟨hn, hp⟩ := h.links x hl.2
    exact ⟨hn'.trans hn, hp'.trans hp⟩

end Effect

/-- The number of vertices that were not visited yet. -/
def unvisited (s : ValueSetSolver) : Nat :=
  ((Finset.range s.valueNodes.length).filter (fun x => (s.node x).count = 0)).card

theorem unvisited_le (hl : s₁.valueNodes.length = s.valueNodes.length)
    (h : ∀ x, (s₁.node x).count = 0 → (s.node x).count = 0) : unvisited s₁ ≤ unvisited s := by
  refine Finset.card_le_card fun x hx => ?_
  rw [Finset.mem_filter, hl] at hx
  exact Finset.mem_filter.mpr ⟨hx.1, h x hx.2⟩

theorem unvisited_lt (hl : s₁.valueNodes.length = s.valueNodes.length)
    (h : ∀ x, (s₁.node x).count = 0 → (s.node x).count = 0) {v : Nat} (hv : v < s.valueNodes.length)
    (h₀ : (s.node v).count = 0) (h₁ : (s₁.node v).count ≠ 0) : unvisited s₁ < unvisited s := by
  refine Finset.card_lt_card (Finset.ssubset_iff_of_subset (fun x hx => ?_) |>.mpr ⟨v, ?_, ?_⟩)
  · rw [Finset.mem_filter, hl] at hx
    exact Finset.mem_filter.mpr ⟨hx.1, h x hx.2⟩
  · exact Finset.mem_filter.mpr ⟨Finset.mem_range.mpr hv, h₀⟩
  · exact fun hm => h₁ (Finset.mem_filter.mp hm).2

/-- An edge to a vertex that was not visited. -/
def Fresh (succ : Nat → List Nat) (s : ValueSetSolver) (u w : Nat) : Prop := w ∈ succ u ∧ (s.node w).count = 0

/-- What a visit of `v` does. When it does not settle all that it has reached, some
edge leads from there to a vertex that was on the stack before; the lowest count of
such a vertex is returned. -/
structure Visited (succ : Nat → List Nat) (s : ValueSetSolver) (v : Nat) (s₁ : ValueSetSolver) (head : WithTop Nat)
    (L T : List Nat) (C : List (List Nat)) : Prop where
  effect : Effect succ s s₁ L T C
  entered : v ∈ L ++ T
  reach : ∀ x ∈ L ++ T, Relation.ReflTransGen (Fresh succ s) v x
  outward : ∀ u ∈ T, ∀ w ∈ succ u, w ∈ L ∨ w ∈ T ∨ (s.node w).count = ⊤ ∨ w ∈ s.nodeStack ∧ head ≤ (s.node w).count
  head : (T = [] ∧ head = (s.depthFirstIndex + 1 : ℕ)) ∨
    ∃ u ∈ T, ∃ w ∈ s.nodeStack, w ∈ succ u ∧ head = (s.node w).count
  first : T = [] → L.head? = some v

/-- Total correctness of `visit` where at most `n` vertices were not visited. -/
def VisitSpec (data : Funcdata) (succ : Nat → List Nat) (n : Nat)
    (visit : Nat → ValueSetSolver → Partition → Outcome (ValueSetSolver × Partition × WithTop Nat)) : Prop :=
  ∀ v s l, Graph data succ s → Ready s → v < s.valueNodes.length → (s.node v).count = 0 → unvisited s ≤ n →
    Linked s.next l → (∀ x ∈ l, (s.node x).count = ⊤) →
    ∃ s₁ head L T C, visit v s (toPartition l) = .ok (s₁, toPartition (L ++ l), head) ∧
      Visited succ s v s₁ head L T C ∧ Linked s₁.next (L ++ l)

theorem getLast?_cons_getD (v : Nat) (l : List Nat) : (v :: l).getLast? = some (l.getLast?.getD v) := by
  cases l with
  | nil => rfl
  | cons x l => simp [List.getLast?_cons]

theorem partitionPrepend_eq {v : Nat} (h : v < s.valueNodes.length) (l : List Nat) :
    s.partitionPrepend v (toPartition l) =
      .ok (s.assigned v (fun x => { x with next := l.head? }), toPartition (v :: l)) := by
  cases hl : l.getLast? <;> simp [partitionPrepend, assign_eq _ h, toPartition, getLast?_cons_getD, hl]

theorem partitionPrependPartition_eq {K l : List Nat} {z : Nat} (hz : K.getLast? = some z)
    (h : z < s.valueNodes.length) :
    s.partitionPrependPartition (toPartition K) (toPartition l) =
      .ok (s.assigned z (fun x => { x with next := l.head? }), toPartition (K ++ l)) := by
  have hK : K ≠ [] := by
    rintro rfl
    simp at hz
  obtain ⟨x, K, rfl⟩ := List.exists_cons_of_ne_nil hK
  have hlast : (x :: (K ++ l)).getLast? = l.getLast?.or (some z) := by
    rw [← List.cons_append, List.getLast?_append, hz]
  cases hl : l.getLast? <;> simp [partitionPrependPartition, toPartition, hz, assign_eq _ h, hlast, hl]

theorem partitionSurround_eq {v : Nat} {l : List Nat} (h : v < s.valueNodes.length) :
    s.partitionSurround (toPartition (v :: l)) =
      .ok { s.assigned v (fun x => { x with partHead := some s.recordStorage.length }) with
        recordStorage := s.recordStorage ++ [toPartition (v :: l)] } := by
  simp [partitionSurround, toPartition, assign, assigned, h]

/-- Everything but the nodes is as it was. -/
structure SameRest (s s₁ : ValueSetSolver) : Prop where
  size : s₁.valueNodes.length = s.valueNodes.length
  roots : s₁.rootNodes = s.rootNodes
  index : s₁.depthFirstIndex = s.depthFirstIndex
  records : s₁.recordStorage = s.recordStorage

theorem popAbove_eq {v : Nat} {T rest : List Nat} (hv : v ∉ T) (hr : ∀ x ∈ T, x < s.valueNodes.length) :
    ∃ s₁, popAbove v (T ++ v :: rest) s = .ok s₁ ∧ SameRest s s₁ ∧ s₁.nodeStack = rest ∧
      ∀ x, s₁.node x = if x ∈ T then { s.node x with count := 0 } else s.node x := by
  induction T generalizing s with
  | nil => exact ⟨{ s with nodeStack := rest }, by simp [popAbove], ⟨rfl, rfl, rfl, rfl⟩, rfl, fun x => by simp [node]⟩
  | cons t T ih =>
      have ht : t < s.valueNodes.length := hr t (by simp)
      obtain ⟨htv, hvT⟩ := not_or.mp (List.mem_cons.not.mp hv)
      obtain ⟨s₁, he, hsame, hst, hn⟩ := @ih (s.assigned t (fun x => { x with count := 0 })) hvT (by
        intro x hx
        rw [length_assigned]
        exact hr x (by simp [hx]))
      refine ⟨s₁, ?_, ⟨hsame.size.trans (by simp), hsame.roots, hsame.index, hsame.records⟩, hst, fun x => ?_⟩
      · rw [List.cons_append, popAbove, if_neg (Ne.symm htv), assign_eq _ ht, ok_bind]
        exact he
      · rw [hn, node_assigned _ ht]
        by_cases hxt : x = t
        · subst hxt
          by_cases hm : x ∈ T <;> simp [hm]
        · simp [hxt]

end GhidraDecompiler.Range.ValueSetSolver
