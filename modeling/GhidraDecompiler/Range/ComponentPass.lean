import GhidraDecompiler.Range.TraversalEffect

namespace GhidraDecompiler.Range.ValueSetSolver

open Fallible WeakOrder

variable {data : Funcdata} {succ : Nat → List Nat} {s s₁ s₂ : ValueSetSolver}

section Component

variable {visit : Nat → ValueSetSolver → Partition → Outcome (ValueSetSolver × Partition × WithTop Nat)}
  {n v : Nat} {T : List Nat}

/-- Vertices whose edges stay among them, apart from settled ones. -/
def Sealed (succ : Nat → List Nat) (s : ValueSetSolver) (T : List Nat) : Prop :=
  ∀ u ∈ T, ∀ w ∈ succ u, w ∈ T ∨ (s.node w).count = ⊤

theorem count_ne_of_stack (hs : Ready s) {x : Nat} (hx : x ∈ s.nodeStack) :
    (s.node x).count ≠ 0 ∧ (s.node x).count ≠ ⊤ := by
  obtain ⟨k, hk, hpos, -⟩ := hs.stack x hx
  rw [hk]
  exact ⟨by exact_mod_cast hpos.ne', WithTop.coe_ne_top⟩

/-- A visit from sealed vertices stays among them and settles all that it reaches. -/
theorem Visited.settles {s₁ : ValueSetSolver} {head : WithTop Nat} {L' T' : List Nat} {C : List (List Nat)}
    {w : Nat} (h : Visited succ s w s₁ head L' T' C) (hs : Ready s) (hT : Sealed succ s T) (hw : w ∈ T)
    (hnew : ∀ x ∈ T, (s.node x).count = 0 ∨ (s.node x).count = ⊤) : T' = [] ∧ ∀ x ∈ L', x ∈ T := by
  have hreach : ∀ x, Relation.ReflTransGen (Fresh succ s) w x → x ∈ T := by
    intro x hx
    induction hx with
    | refl => exact hw
    | tail _ hstep ih =>
        rcases hT _ ih _ hstep.1 with h' | h'
        · exact h'
        · exact absurd (hstep.2.symm.trans h') WithTop.zero_ne_top
  refine ⟨?_, fun x hx => hreach x (h.reach x (List.mem_append_left _ hx))⟩
  rcases h.head with ⟨he, -⟩ | ⟨u, hu, y, hy, hyu, -⟩
  · exact he
  · obtain ⟨h₀, h₁⟩ := count_ne_of_stack hs hy
    rcases hT u (hreach u (h.reach u (List.mem_append_right _ hu))) y hyu with h' | h'
    · rcases hnew y h' with h'' | h''
      · exact absurd h'' h₀
      · exact absurd h'' h₁
    · exact absurd h' h₁

theorem component_edges (hv : VisitSpec data succ n visit) (hg : Graph data succ s) (hs : Ready s)
    (hn : unvisited s ≤ n) (hnew : ∀ x ∈ T, (s.node x).count = 0) (hT : Sealed succ s T) (ws : List Nat)
    (hw : ∀ w ∈ ws, w < s.valueNodes.length ∧ (w ∈ T ∨ (s.node w).count = ⊤)) :
    ∃ s₁ L C, ws.foldlM (componentEdge visit) (s, toPartition []) = .ok (s₁, toPartition L) ∧
      Effect succ s s₁ L [] C ∧ Linked s₁.next L ∧ (∀ x ∈ L, x ∈ T) ∧ ∀ w ∈ ws, (s₁.node w).count = ⊤ := by
  obtain ⟨⟨s₁, part⟩, hf, L, C, rfl, hinv⟩ := foldlM_total (f := componentEdge visit) (s := (s, toPartition []))
    (fun before st => ∃ L C, st.2 = toPartition L ∧ Effect succ s st.1 L [] C ∧ Linked st.1.next L ∧
      (∀ x ∈ L, x ∈ T) ∧ ∀ w ∈ before, (st.1.node w).count = ⊤) ws
    (fun before w after hws st hst => by
      obtain ⟨s₁, part⟩ := st
      obtain ⟨L, C, rfl, he, hl, hLT, hdone⟩ := hst
      obtain ⟨hlt, hwT⟩ := hw w (by simp [hws])
      have hlt₁ : w < s₁.valueNodes.length := he.size ▸ hlt
      -- the vertices of the component are new or settled all the time
      have hnew₁ : ∀ x ∈ T, (s₁.node x).count = 0 ∨ (s₁.node x).count = ⊤ := by
        intro x hx
        by_cases hxL : x ∈ L
        · exact .inr (he.placed x hxL)
        · exact .inl ((he.same x hxL (by simp)).trans (hnew x hx))
      have hT₁ : Sealed succ s₁ T := fun u hu y hy => (hT u hu y hy).imp_right he.settled_after
      by_cases hc : (s₁.node w).count = 0
      · have hwT : w ∈ T := hwT.resolve_right fun h' =>
          WithTop.zero_ne_top (hc.symm.trans (he.settled_after h'))
        obtain ⟨s₂, head, L', T', C', hvis, hV, hl'⟩ := hv w s₁ L (he.graph hg) (he.ready hs) hlt₁ hc
          ((unvisited_le he.size fun x => he.white_before).trans hn) hl he.placed
        obtain ⟨rfl, hL'⟩ := hV.settles (he.ready hs) hT₁ hwT hnew₁
        have he' := he.trans hV.effect
        refine ⟨(s₂, toPartition (L' ++ L)), ?_, L' ++ L, C ++ C', rfl, he', hl', ?_, ?_⟩
        · simp [componentEdge, getIdx_node hlt₁, hc, hvis]
        · intro x hx
          rcases List.mem_append.mp hx with hx | hx
          · exact hL' x hx
          · exact hLT x hx
        · intro x hx
          rcases List.mem_append.mp hx with hx | hx
          · exact hV.effect.settled_after (hdone x hx)
          · rw [List.mem_singleton.mp hx]
            exact hV.effect.placed w (by simpa using hV.entered)
      · refine ⟨(s₁, toPartition L), ?_, L, C, rfl, he, hl, hLT, fun x hx => ?_⟩
        · simp [componentEdge, getIdx_node hlt₁, hc]
        · rcases List.mem_append.mp hx with hx | hx
          · exact hdone x hx
          · rw [List.mem_singleton.mp hx]
            rcases hwT with h' | h'
            · exact (hnew₁ w h').resolve_left hc
            · exact he.settled_after h')
    ⟨[], [], rfl, Effect.nil s, trivial, by simp, by simp⟩
  exact ⟨s₁, L, C, hf, hinv⟩

/-- The state in which the head of a component was put in front of the rest of it and
the component was recorded. -/
def surrounded (s : ValueSetSolver) (v : Nat) (L : List Nat) : ValueSetSolver :=
  { s.assigned v (fun x => { x with next := L.head?, partHead := some s.recordStorage.length }) with
    recordStorage := s.recordStorage ++ [toPartition (v :: L)] }

theorem node_surrounded (h : v < s.valueNodes.length) (L : List Nat) (x : Nat) :
    (s.surrounded v L).node x =
      if x = v then { s.node v with next := L.head?, partHead := some s.recordStorage.length } else s.node x :=
  node_assigned _ h x

theorem component_eq {L : List Nat} (hg : s.edges data v = .ok (succ v)) (hl : v < s₁.valueNodes.length)
    (hf : (succ v).foldlM (componentEdge visit) (s, toPartition []) = .ok (s₁, toPartition L)) :
    component data visit v s Partition.new = .ok (s₁.surrounded v L, toPartition (v :: L)) := by
  have hnew : Partition.new = toPartition [] := rfl
  have hl' : v < (s₁.assigned v (fun x => { x with next := L.head? })).valueNodes.length := by simpa using hl
  simp only [component, hg, ok_bind, hnew, hf, partitionPrepend_eq hl, partitionSurround_eq hl', pure_eq_ok]
  simp [surrounded, assigned, List.modify_modify_eq, Function.comp_def]

end Component

/-- The loop over the successors of `v` when those in `done` were passed. -/
structure Scanned (succ : Nat → List Nat) (s : ValueSetSolver) (v : Nat) (l done : List Nat) (st : Scan)
    (L T : List Nat) (C : List (List Nat)) : Prop where
  effect : Effect succ s st.solver L (T ++ [v]) C
  part : st.part = toPartition (L ++ l)
  linked : Linked st.solver.next (L ++ l)
  index : (st.solver.node v).count = (s.depthFirstIndex + 1 : ℕ)
  reach : ∀ x ∈ L ++ (T ++ [v]), Relation.ReflTransGen (Fresh succ s) v x
  outward : ∀ u w, u ∈ T ∧ w ∈ succ u ∨ u = v ∧ w ∈ done →
    w ∈ L ∨ w ∈ T ++ [v] ∨ (s.node w).count = ⊤ ∨ w ∈ s.nodeStack ∧ st.head ≤ (s.node w).count
  le : st.head ≤ (s.depthFirstIndex + 1 : ℕ)
  head : st.head = (s.depthFirstIndex + 1 : ℕ) ∨
    ∃ u ∈ T ++ [v], ∃ w ∈ s.nodeStack, w ∈ succ u ∧ st.head = (s.node w).count
  noLoop : st.loopFound = false → T = [] ∧ v ∉ done ∧ st.head = (s.depthFirstIndex + 1 : ℕ)

namespace Scanned

variable {visit : Nat → ValueSetSolver → Partition → Outcome (ValueSetSolver × Partition × WithTop Nat)}
  {n v : Nat} {l L T : List Nat} {C : List (List Nat)} {st : Scan}

/-- When nothing leads below `v`, no edge out of the vertices above it does. -/
theorem closed (h : Scanned succ s v l (succ v) st L T C) (hs : Ready s)
    (hh : st.head = (s.depthFirstIndex + 1 : ℕ)) :
    ∀ u ∈ T ++ [v], ∀ w ∈ succ u, w ∈ L ∨ w ∈ T ++ [v] ∨ (s.node w).count = ⊤ := by
  intro u hu w hw
  have hcase : u ∈ T ∧ w ∈ succ u ∨ u = v ∧ w ∈ succ v := by
    rcases List.mem_append.mp hu with hu | hu
    · exact .inl ⟨hu, hw⟩
    · obtain rfl := List.mem_singleton.mp hu
      exact .inr ⟨rfl, hw⟩
  rcases h.outward u w hcase with h' | h' | h' | ⟨hst, hle⟩
  · exact .inl h'
  · exact .inr (.inl h')
  · exact .inr (.inr h')
  · obtain ⟨k, hk, -, hkle⟩ := hs.stack w hst
    rw [hh, hk] at hle
    have : s.depthFirstIndex + 1 ≤ k := WithTop.coe_le_coe.mp hle
    omega

theorem lt (h : Scanned succ s v l (succ v) st L T C) : v < s.valueNodes.length :=
  h.effect.range v (by simp)

/-- Without a loop the vertex alone is put in front. -/
theorem finish_single (h : Scanned succ s v l (succ v) st L T C) (hs : Ready s) (hf : st.loopFound = false)
    (hl : ∀ x ∈ l, (s.node x).count = ⊤) :
    ∃ s₂, finish data visit v st = .ok (s₂, toPartition ([v] ++ L ++ l), st.head) ∧
      Effect succ s s₂ ([v] ++ L) [] (C ++ []) ∧ Linked s₂.next ([v] ++ L ++ l) := by
  obtain ⟨rfl, hself, hh⟩ := h.noLoop hf
  have hlt : v < st.solver.valueNodes.length := h.effect.size ▸ h.lt
  let s₁ := st.solver.assigned v (fun x => { x with count := ⊤ })
  let s₂ := ({ s₁ with nodeStack := s.nodeStack }).assigned v (fun x => { x with next := (L ++ l).head? })
  have hlt₁ : v < ({ s₁ with nodeStack := s.nodeStack } : ValueSetSolver).valueNodes.length := by
    simpa [s₁] using hlt
  have hnode : ∀ x, s₂.node x =
      if x = v then { st.solver.node v with count := ⊤, next := (L ++ l).head? } else st.solver.node x := by
    intro x
    refine (node_assigned _ hlt₁ x).trans ?_
    have h₁ : ∀ y, ({ s₁ with nodeStack := s.nodeStack } : ValueSetSolver).node y = s₁.node y := fun y => rfl
    rw [h₁, h₁, node_assigned _ hlt, node_assigned _ hlt]
    by_cases hx : x = v <;> simp [hx]
  have hstack : s₁.nodeStack = v :: s.nodeStack := h.effect.stack
  have hvL : v ∉ L := fun hv => (List.nodup_append.mp h.effect.nodup).2.2 v hv v (by simp) rfl
  have hvl : v ∉ l := fun hv => by
    have := hl v hv
    rw [h.effect.white v (by simp)] at this
    exact WithTop.zero_ne_top this
  refine ⟨s₂, ?_, ?_, ?_⟩
  · have he : st.head = (st.solver.node v).count := hh.trans h.index.symm
    simp only [finish, getIdx_node hlt, ok_bind, if_pos he, assign_eq _ hlt, hf, Bool.false_eq_true, if_false]
    rw [show (st.solver.assigned v fun x => { x with count := ⊤ }).nodeStack = v :: s.nodeStack from hstack, h.part]
    change (partitionPrepend { s₁ with nodeStack := s.nodeStack } v _ >>= _) = _
    rw [partitionPrepend_eq hlt₁]
    rfl
  · refine h.effect.settle (K := [v]) (D := []) (by simp) (by simp) ?_ ?_ (by simp [s₂, s₁, assigned]) ?_ rfl
      (le_refl _) rfl (by simp [s₂, s₁, assigned]) (by simp) ?_ ?_ ?_
    · intro seg hseg
      cases hseg
    · refine respects_single fun w hw => ?_
      rcases h.closed hs hh v (by simp) w hw with h' | h' | h'
      · exact .inl h'
      · exact absurd (List.mem_singleton.mp h' ▸ hw) hself
      · exact .inr h'
    · intro x
      rw [hnode]
      by_cases hx : x = v <;> simp [hx]
    · intro x hx
      rw [hnode, if_pos (List.mem_singleton.mp hx)]
    · intro x hx
      rw [hnode, if_neg (fun he => hx (List.mem_singleton.mpr he))]
    · intro x hx
      simp only [next]
      rw [hnode, if_neg (fun he => hx (List.mem_singleton.mpr he))]
      exact ⟨rfl, rfl⟩
  · refine ⟨?_, h.linked.congr fun x hx => ?_⟩
    · simp [next, hnode]
    · have hxv : x ≠ v := by
        rintro rfl
        rcases List.mem_append.mp hx with hx | hx
        · exact hvL hx
        · exact hvl hx
      simp [next, hnode, hxv]

end Scanned

/-- The state in which a component is about to be traversed again: its head is
settled and the rest of it is new. -/
structure Popped (s s₁ : ValueSetSolver) (v : Nat) (T : List Nat) (s₂ : ValueSetSolver) : Prop where
  rest : SameRest s₁ s₂
  stack : s₂.nodeStack = s.nodeStack
  node : ∀ x, s₂.node x =
    if x ∈ T then { s₁.node x with count := 0 } else if x = v then { s₁.node x with count := ⊤ } else s₁.node x

namespace Popped

variable {v n : Nat} {L T : List Nat} {C : List (List Nat)}

theorem count_eq (h : Popped s s₁ v T s₂) {x : Nat} (ht : x ∉ T) (hv : x ≠ v) :
    (s₂.node x).count = (s₁.node x).count := by
  rw [h.node, if_neg ht, if_neg hv]

theorem count_new (h : Popped s s₁ v T s₂) {x : Nat} (ht : x ∈ T) : (s₂.node x).count = 0 := by
  rw [h.node, if_pos ht]

theorem count_head (h : Popped s s₁ v T s₂) (hv : v ∉ T) : (s₂.node v).count = ⊤ := by
  rw [h.node, if_neg hv, if_pos rfl]

theorem node_rest (h : Popped s s₁ v T s₂) (x : Nat) :
    (s₂.node x).vn = (s₁.node x).vn ∧ s₂.next x = s₁.next x ∧ (s₂.node x).partHead = (s₁.node x).partHead := by
  simp only [ValueSetSolver.next]
  rw [h.node]
  split_ifs <;> exact ⟨rfl, rfl, rfl⟩

theorem graph (h : Popped s s₁ v T s₂) (hg : Graph data succ s₁) : Graph data succ s₂ :=
  hg.of_same h.rest.size (fun x => (h.node_rest x).1) h.rest.roots

theorem head_not_mem (he : Effect succ s s₁ L (T ++ [v]) C) : v ∉ T := fun hv =>
  (List.nodup_append.mp (List.nodup_append.mp he.nodup).2.1).2.2 v hv v (by simp) rfl

/-- Vertices that the first pass left alone have kept their counts. -/
theorem count_old (h : Popped s s₁ v T s₂) (he : Effect succ s s₁ L (T ++ [v]) C) {x : Nat}
    (hx : (s.node x).count ≠ 0) : (s₂.node x).count = (s.node x).count := by
  have hm : ∀ {l : List Nat}, (∀ y ∈ l, y ∈ L ++ (T ++ [v])) → x ∉ l := fun hl hxl => hx (he.white x (hl x hxl))
  have hT : x ∉ T := hm fun y hy => by simp [hy]
  have hv : x ∉ [v] := hm fun y hy => by simp [List.mem_singleton.mp hy]
  have hL : x ∉ L := hm fun y hy => by simp [hy]
  rw [h.count_eq hT (by simpa using hv), he.same x hL (by simp [hT, List.mem_singleton.not.mp hv])]

theorem count_placed (h : Popped s s₁ v T s₂) (he : Effect succ s s₁ L (T ++ [v]) C) {x : Nat} (hx : x ∈ L) :
    (s₂.node x).count = ⊤ := by
  have hne : ∀ y ∈ T ++ [v], x ≠ y := (List.nodup_append.mp he.nodup).2.2 x hx
  rw [h.count_eq (fun ht => hne x (by simp [ht]) rfl) (hne v (by simp)), he.placed x hx]

theorem white_before (h : Popped s s₁ v T s₂) (he : Effect succ s s₁ L (T ++ [v]) C) {x : Nat}
    (hx : (s₂.node x).count = 0) : (s.node x).count = 0 := by
  by_contra hne
  exact hne ((h.count_old he hne).symm.trans hx)

/-- Where edges can lead when the component is closed. -/
theorem known (h : Popped s s₁ v T s₂) (he : Effect succ s s₁ L (T ++ [v]) C) {w : Nat}
    (hw : w ∈ L ∨ w ∈ T ++ [v] ∨ (s.node w).count = ⊤) : w ∈ T ∨ (s₂.node w).count = ⊤ := by
  rcases hw with hw | hw | hw
  · exact .inr (h.count_placed he hw)
  · rcases List.mem_append.mp hw with hw | hw
    · exact .inl hw
    · obtain rfl := List.mem_singleton.mp hw
      exact .inr (h.count_head (head_not_mem he))
  · exact .inr ((h.count_old he (by rw [hw]; exact WithTop.top_ne_zero)).trans hw)

theorem settled_before (h : Popped s s₁ v T s₂) (he : Effect succ s s₁ L (T ++ [v]) C) {w : Nat}
    (hw : (s₂.node w).count = ⊤) : w = v ∨ w ∈ L ∨ (s.node w).count = ⊤ := by
  by_cases hv : w = v
  · exact .inl hv
  · have hT : w ∉ T := fun ht => WithTop.zero_ne_top ((h.count_new ht).symm.trans hw)
    rw [h.count_eq hT hv] at hw
    exact .inr (he.settled_before hw)

theorem ready (h : Popped s s₁ v T s₂) (he : Effect succ s s₁ L (T ++ [v]) C) (hs : Ready s) : Ready s₂ := by
  refine ⟨fun x hx => ?_, fun x => ?_⟩
  · rw [h.stack] at hx
    obtain ⟨k, hk, hpos, hle⟩ := hs.stack x hx
    refine ⟨k, (h.count_old he (count_ne_of_stack hs hx).1).trans hk, hpos, ?_⟩
    rw [h.rest.index]
    exact hle.trans he.index
  · by_cases hw : (s.node x).count = 0
    · by_cases hm : x ∈ L ∨ x ∈ T ++ [v] ∨ (s.node x).count = ⊤
      · rcases h.known he hm with h' | h'
        · exact .inl (h.count_new h')
        · exact .inr (.inl h')
      · simp only [not_or, List.mem_append, List.mem_singleton] at hm
        exact .inl ((h.count_eq hm.2.1.1 hm.2.1.2).trans ((he.same x hm.1 (by simp [hm.2.1])).trans hw))
    · rw [h.count_old he hw, h.stack]
      exact .inr ((hs.cases x).resolve_left hw)

theorem unvisited_le (h : Popped s s₁ v T s₂) (he : Effect succ s s₁ L (T ++ [v]) C) (hn : unvisited s ≤ n + 1) :
    unvisited s₂ ≤ n := by
  have hv : v ∈ L ++ (T ++ [v]) := by simp
  have hlt := unvisited_lt (h.rest.size.trans he.size) (fun x => h.white_before he) (he.range v hv)
    (he.white v hv) (by rw [h.count_head (head_not_mem he)]; exact WithTop.top_ne_zero)
  omega

end Popped

namespace Scanned

variable {visit : Nat → ValueSetSolver → Partition → Outcome (ValueSetSolver × Partition × WithTop Nat)}
  {n v : Nat} {l L T K : List Nat} {C D : List (List Nat)} {st : Scan}

theorem popped (h : Scanned succ s v l (succ v) st L T C) :
    ∃ s₂, popAbove v (st.solver.assigned v (fun x => { x with count := ⊤ })).nodeStack
        (st.solver.assigned v (fun x => { x with count := ⊤ })) = .ok s₂ ∧ Popped s st.solver v T s₂ := by
  have hlt : v < st.solver.valueNodes.length := h.effect.size ▸ h.lt
  have hv := Popped.head_not_mem h.effect
  have hstack : (st.solver.assigned v (fun x => { x with count := ⊤ })).nodeStack = T ++ v :: s.nodeStack := by
    change st.solver.nodeStack = _
    rw [h.effect.stack, List.append_assoc, List.singleton_append]
  obtain ⟨s₂, hp, hrest, hst, hn⟩ := @popAbove_eq (st.solver.assigned v (fun x => { x with count := ⊤ })) v T
    s.nodeStack hv (fun x hx => by
      rw [length_assigned, h.effect.size]
      exact h.effect.range x (by simp [hx]))
  refine ⟨s₂, by rw [hstack, hp], ⟨hrest.size.trans (by simp), hrest.roots, hrest.index, hrest.records⟩, hst, ?_⟩
  intro x
  rw [hn, node_assigned _ hlt]
  by_cases hx : x = v
  · subst hx
    simp [hv]
  · simp [hx]

/-- The second pass reaches all of the component: a way from its head to one of its
vertices cannot lead through what the first pass has placed. -/
theorem covered (h : Scanned succ s v l (succ v) st L T C) {s₃ : ValueSetSolver} (hp : Popped s st.solver v T s₂)
    (he : Effect succ s₂ s₃ K [] D) (hdone : ∀ w ∈ succ v, (s₃.node w).count = ⊤) : ∀ x ∈ T, x ∈ K := by
  have hnew : ∀ w, (s.node w).count = 0 → (s₂.node w).count = ⊤ → w = v ∨ w ∈ K ∨ w ∈ L := by
    intro w hw hs
    rcases hp.settled_before h.effect hs with h' | h' | h'
    · exact .inl h'
    · exact .inr (.inr h')
    · exact absurd (hw.symm.trans h') WithTop.zero_ne_top
  have hreach : ∀ x, Relation.ReflTransGen (Fresh succ s) v x → x = v ∨ x ∈ K ∨ x ∈ L := by
    intro x hx
    induction hx with
    | refl => exact .inl rfl
    | @tail y w _ hstep ih =>
        obtain ⟨hw, hw₀⟩ := hstep
        rcases ih with rfl | hy | hy
        · rcases he.settled_before (hdone w hw) with h' | h'
          · exact .inr (.inl h')
          · exact hnew w hw₀ h'
        · rcases he.respects.closed he.nested hy hw with h' | h'
          · exact .inr (.inl h')
          · exact hnew w hw₀ h'
        · rcases h.effect.respects.closed h.effect.nested hy hw with h' | h'
          · exact .inr (.inr h')
          · exact absurd (hw₀.symm.trans h') WithTop.zero_ne_top
  intro x hx
  rcases hreach x (h.reach x (by simp [hx])) with rfl | h' | h'
  · exact absurd hx (Popped.head_not_mem h.effect)
  · exact h'
  · exact absurd rfl ((List.nodup_append.mp h.effect.nodup).2.2 x h' x (by simp [hx]))

theorem not_mem_l (h : Scanned succ s v l (succ v) st L T C) (hl : ∀ x ∈ l, (s.node x).count = ⊤) {x : Nat}
    (hx : x ∈ L ++ l) : x ∉ T ++ [v] := by
  intro ht
  rcases List.mem_append.mp hx with hx | hx
  · exact (List.nodup_append.mp h.effect.nodup).2.2 x hx x ht rfl
  · have := h.effect.white x (List.mem_append_right _ ht)
    rw [hl x hx] at this
    exact WithTop.top_ne_zero this

/-- With a loop the vertex is put in front together with its component. -/
theorem finish_component (h : Scanned succ s v l (succ v) st L T C) (hv : VisitSpec data succ n visit)
    (hg : Graph data succ s) (hs : Ready s) (hn : unvisited s ≤ n + 1) (hf : st.loopFound = true)
    (hh : st.head = (s.depthFirstIndex + 1 : ℕ)) (hl : ∀ x ∈ l, (s.node x).count = ⊤) :
    ∃ s₂ K D, finish data visit v st = .ok (s₂, toPartition ((v :: K) ++ L ++ l), st.head) ∧
      Effect succ s s₂ ((v :: K) ++ L) [] (C ++ D) ∧ Linked s₂.next ((v :: K) ++ L ++ l) ∧ ∀ x ∈ K, x ∈ T := by
  have hlt : v < st.solver.valueNodes.length := h.effect.size ▸ h.lt
  obtain ⟨s₂, hpop, hp⟩ := h.popped
  have hg₂ : Graph data succ s₂ := hp.graph (h.effect.graph hg)
  have hlt₂ : v < s₂.valueNodes.length := hp.rest.size ▸ hlt
  have hknown := h.closed hs hh
  obtain ⟨s₃, K, D, hfold, he, hlink, hKT, hdone⟩ := component_edges hv hg₂ (hp.ready h.effect hs)
    (hp.unvisited_le h.effect hn) (fun x => hp.count_new)
    (fun u hu w hw => hp.known h.effect (hknown u (by simp [hu]) w hw)) (succ v)
    (fun w hw => ⟨hg₂.range v hlt₂ w hw, hp.known h.effect (hknown v (by simp) w hw)⟩)
  have hTK := h.covered hp he hdone
  have hlt₃ : v < s₃.valueNodes.length := he.size ▸ hlt₂
  have hvK : v ∉ K := fun hv => Popped.head_not_mem h.effect (hKT v hv)
  have hmem : ∀ x, x ∈ v :: K ↔ x ∈ T ++ [v] := by
    intro x
    rw [List.mem_cons, List.mem_append, List.mem_singleton]
    exact ⟨fun hx => hx.symm.imp_left (hKT x), fun hx => hx.symm.imp_right (hTK x)⟩
  -- the last vertex of the component is redirected
  obtain ⟨z, hz⟩ : ∃ z, (v :: K).getLast? = some z := ⟨_, getLast?_cons_getD v K⟩
  have hzK : z ∈ v :: K := List.mem_of_getLast? hz
  have hltz : z < (s₃.surrounded v K).valueNodes.length := by
    have := h.effect.range z (List.mem_append_right _ ((hmem z).mp hzK))
    simpa [surrounded, he.size, hp.rest.size, h.effect.size] using this
  let s₄ := (s₃.surrounded v K).assigned z (fun x => { x with next := (L ++ l).head? })
  have hnode : ∀ x, s₄.node x = if x = z then { (s₃.surrounded v K).node z with next := (L ++ l).head? }
      else (s₃.surrounded v K).node x := node_assigned _ hltz
  have hnode₃ := node_surrounded hlt₃ K
  have hcount : ∀ x, (s₄.node x).count = (s₃.node x).count := by
    intro x
    rw [hnode, hnode₃, hnode₃]
    split_ifs <;> simp_all
  have hvn : ∀ x, (s₄.node x).vn = (s₃.node x).vn := by
    intro x
    rw [hnode, hnode₃, hnode₃]
    split_ifs <;> simp_all
  have hhead : ∀ x ≠ v, (s₄.node x).partHead = (s₃.node x).partHead := by
    intro x hx
    rw [hnode, hnode₃, hnode₃]
    split_ifs <;> simp_all
  have hout : ∀ x ∉ v :: K, s₄.node x = s₃.node x := by
    intro x hx
    have hxz : x ≠ z := fun he => hx (he ▸ hzK)
    have hxv : x ≠ v := fun he => hx (by simp [he])
    rw [hnode, if_neg hxz, hnode₃, if_neg hxv]
  have hold : ∀ x ∉ v :: K, (s₃.node x).count = (st.solver.node x).count ∧ s₃.next x = st.solver.next x ∧
      (s₃.node x).partHead = (st.solver.node x).partHead := by
    intro x hx
    obtain ⟨hxv, hxK⟩ := not_or.mp (List.mem_cons.not.mp hx)
    obtain ⟨hn₃, hp₃⟩ := he.links x hxK
    obtain ⟨-, hn₂, hp₂⟩ := hp.node_rest x
    refine ⟨?_, hn₃.trans hn₂, hp₃.trans hp₂⟩
    rw [he.same x hxK (by simp), hp.count_eq (fun hT => hxK (hTK x hT)) hxv]
  refine ⟨s₄, K, D ++ [v :: K], ?_, ?_, ?_, hKT⟩
  · have hev : st.head = (st.solver.node v).count := hh.trans h.index.symm
    simp only [finish, getIdx_node hlt, ok_bind, if_pos hev, assign_eq _ hlt, hf, if_true, hpop,
      component_eq (hg₂.edges v hlt₂) hlt₃ hfold, h.part, partitionPrependPartition_eq hz hltz, pure_eq_ok]
    rw [← List.append_assoc]
  · refine h.effect.settle hmem (List.nodup_cons.mpr ⟨hvK, (List.nodup_append.mp he.nodup).1⟩)
      he.nested.component (Respects.component (he.respects.mono fun w => hp.settled_before h.effect) ?_)
      ?_ ?_ ?_ ?_ ?_ ?_ ?_ ?_ ?_ ?_
    · intro w hw
      rcases he.settled_before (hdone w hw) with h' | h'
      · exact .inl h'
      · exact .inr (hp.settled_before h.effect h')
    · simp [s₄, surrounded, he.size, hp.rest.size]
    · intro x
      rw [hvn, he.vn, (hp.node_rest x).1]
    · exact he.roots.trans hp.rest.roots
    · exact hp.rest.index ▸ he.index
    · exact he.stack.trans hp.stack
    · change s₃.recordStorage ++ [toPartition (v :: K)] = _
      rw [he.records, hp.rest.records, List.map_append, List.append_assoc]
      rfl
    · intro i seg hi hd hhd
      rw [List.getElem?_append] at hi
      split at hi
      · have hdK : hd ∈ K := (he.nested seg (List.mem_of_getElem? hi)).2.subset (List.mem_of_head? hhd)
        rw [hhead hd (fun hv => hvK (hv ▸ hdK)), he.heads i seg hi hd hhd, hp.rest.records]
      · obtain ⟨hi₀, rfl⟩ : i - D.length = 0 ∧ v :: K = seg := by
          rcases Nat.eq_zero_or_pos (i - D.length) with h' | h'
          · simpa [h'] using hi
          · rw [List.getElem?_eq_none (by rw [List.length_singleton]; omega)] at hi
            cases hi
        obtain rfl : v = hd := by simpa using hhd
        have hrec : (s₄.node v).partHead = some s₃.recordStorage.length := by
          rw [hnode]
          by_cases hvz : v = z
          · rw [if_pos hvz, ← hvz, hnode₃, if_pos rfl]
          · rw [if_neg hvz, hnode₃, if_pos rfl]
        rw [hrec, he.records, hp.rest.records, List.length_append, List.length_map]
        congr 1
        omega
    · intro x hx
      rw [hcount]
      rcases List.mem_cons.mp hx with rfl | hx
      · exact he.settled_after (hp.count_head (Popped.head_not_mem h.effect))
      · exact he.placed x hx
    · intro x hx
      rw [hcount, (hold x hx).1]
    · intro x hx
      rw [ValueSetSolver.next, hout x hx]
      exact (hold x hx).2
  · have hsep : ∀ x ∈ L ++ l, x ∉ v :: K := fun x hx hm => h.not_mem_l hl hx ((hmem x).mp hm)
    have hcomp : Linked (s₃.surrounded v K).next (v :: K) := by
      refine ⟨by simp [ValueSetSolver.next, hnode₃], hlink.congr fun x hx => ?_⟩
      have hxv : x ≠ v := fun he => hvK (he ▸ hx)
      simp [ValueSetSolver.next, hnode₃, hxv]
    have hrest : Linked (s₃.surrounded v K).next (L ++ l) := by
      refine h.linked.congr fun x hx => ?_
      have hx' := hsep x hx
      have hxv : x ≠ v := fun he => hx' (by simp [he])
      rw [← (hold x hx').2.1]
      simp [ValueSetSolver.next, hnode₃, hxv]
    have happ := hcomp.append hrest hz
      (List.nodup_cons.mpr ⟨hvK, (List.nodup_append.mp he.nodup).1⟩) (fun hm => hsep z hm hzK)
    rw [List.append_assoc]
    refine happ.congr fun x _ => ?_
    by_cases hx : x = z
    · simp [ValueSetSolver.next, hnode, hx]
    · simp [ValueSetSolver.next, hnode, hx]

end Scanned

end GhidraDecompiler.Range.ValueSetSolver
