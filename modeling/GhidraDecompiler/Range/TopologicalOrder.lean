import GhidraDecompiler.Range.ComponentPass

namespace GhidraDecompiler.Range.ValueSetSolver

open Fallible WeakOrder

variable {data : Funcdata} {succ : Nat → List Nat} {s s₁ s₂ : ValueSetSolver}

namespace Scanned

variable {visit : Nat → ValueSetSolver → Partition → Outcome (ValueSetSolver × Partition × WithTop Nat)}
  {n v : Nat} {l L T : List Nat} {C : List (List Nat)} {st : Scan}

/-- A vertex on the stack with a count up to the lowest one seen is `v` or was on the
stack before. -/
theorem low_cases {done : List Nat} (h : Scanned succ s v l done st L T C) (hs : Ready s) {y : Nat}
    (hy : y ∈ st.solver.nodeStack) (hle : (st.solver.node y).count ≤ (s.depthFirstIndex + 1 : ℕ)) :
    (st.solver.node y).count = (s.depthFirstIndex + 1 : ℕ) ∨
      y ∈ s.nodeStack ∧ (st.solver.node y).count = (s.node y).count := by
  by_cases ht : y ∈ T ++ [v]
  · obtain ⟨k, hk, hlt, -⟩ := h.effect.stacked y ht
    rw [hk] at hle ⊢
    have hle : k ≤ s.depthFirstIndex + 1 := WithTop.coe_le_coe.mp hle
    exact .inl (congrArg Nat.cast (by omega))
  · rw [h.effect.stack] at hy
    have hst : y ∈ s.nodeStack := (List.mem_append.mp hy).resolve_left ht
    have hL : y ∉ L := fun hL => (count_ne_of_stack hs hst).1 (h.effect.white_of_placed hL)
    exact .inr ⟨hst, h.effect.same y hL ht⟩

theorem index_le {done : List Nat} (h : Scanned succ s v l done st L T C) :
    s.depthFirstIndex + 1 ≤ st.solver.depthFirstIndex := by
  obtain ⟨k, -, hlt, hle⟩ := h.effect.stacked v (by simp)
  omega

/-- A successor that was visited before. -/
theorem visitEdge_old {done : List Nat} (h : Scanned succ s v l done st L T C) (hs : Ready s) {w : Nat}
    (hw : w ∈ succ v) (hlt : w < st.solver.valueNodes.length) (hc : (st.solver.node w).count ≠ 0) :
    ∃ st', visitEdge visit st w = .ok st' ∧ Scanned succ s v l (done ++ [w]) st' L T C := by
  -- the lowest count, whether the successor lowers it or not
  have step : ∀ (head : WithTop Nat) (loopFound : Bool), head ≤ st.head → head ≤ (st.solver.node w).count →
      (head = (s.depthFirstIndex + 1 : ℕ) ∨ ∃ u ∈ T ++ [v], ∃ w ∈ s.nodeStack, w ∈ succ u ∧ head = (s.node w).count) →
      (loopFound = false → T = [] ∧ v ∉ done ++ [w] ∧ head = (s.depthFirstIndex + 1 : ℕ)) →
      Scanned succ s v l (done ++ [w]) { st with head := head, loopFound := loopFound } L T C := by
    intro head loopFound hle hle' hhead hno
    refine ⟨h.effect, h.part, h.linked, h.index, h.reach, ?_, hle.trans h.le, hhead, hno⟩
    rintro u y huy
    by_cases hy : u ∈ T ∧ y ∈ succ u ∨ u = v ∧ y ∈ done
    · rcases h.outward u y hy with h' | h' | h' | ⟨hst, h'⟩
      · exact .inl h'
      · exact .inr (.inl h')
      · exact .inr (.inr (.inl h'))
      · exact .inr (.inr (.inr ⟨hst, hle.trans h'⟩))
    · obtain rfl : y = w := by
        rcases huy with huy | ⟨hu, hy'⟩
        · exact absurd (.inl huy) hy
        · rcases List.mem_append.mp hy' with hy' | hy'
          · exact absurd (.inr ⟨hu, hy'⟩) hy
          · exact List.mem_singleton.mp hy'
      rcases (h.effect.ready hs).cases y with h' | h' | h'
      · exact absurd h' hc
      · rcases h.effect.settled_before h' with h' | h'
        · exact .inl h'
        · exact .inr (.inr (.inl h'))
      · by_cases ht : y ∈ T ++ [v]
        · exact .inr (.inl ht)
        · rw [h.effect.stack] at h'
          have hst := (List.mem_append.mp h').resolve_left ht
          have hL : y ∉ L := fun hL => (count_ne_of_stack hs hst).1 (h.effect.white_of_placed hL)
          exact .inr (.inr (.inr ⟨hst, h.effect.same y hL ht ▸ hle'⟩))
  by_cases hle : (st.solver.node w).count ≤ st.head
  · refine ⟨_, ?_, step (st.solver.node w).count true hle (le_refl _) ?_ (by simp)⟩
    · simp [visitEdge, getIdx_node hlt, hc, hle]
    · rcases (h.effect.ready hs).cases w with h' | h' | h'
      · exact absurd h' hc
      · rw [h'] at hle
        exact absurd (hle.trans h.le) (by simp)
      · rcases h.low_cases hs h' (hle.trans h.le) with h'' | ⟨hst, h''⟩
        · exact .inl h''
        · exact .inr ⟨v, by simp, w, hst, hw, h''⟩
  · refine ⟨_, ?_, step st.head st.loopFound (le_refl _) (le_of_not_ge hle) h.head ?_⟩
    · simp [visitEdge, getIdx_node hlt, hc, hle]
    · intro hf
      obtain ⟨hT, hv, hh⟩ := h.noLoop hf
      refine ⟨hT, fun hm => ?_, hh⟩
      rcases List.mem_append.mp hm with hm | hm
      · exact hv hm
      · obtain rfl := List.mem_singleton.mp hm
        exact hle (h.index.trans hh.symm).le

/-- A successor that is visited from here. -/
theorem visitEdge_new {done : List Nat} (h : Scanned succ s v l done st L T C) (hv : VisitSpec data succ n visit)
    (hg : Graph data succ s) (hs : Ready s) (hn : unvisited s ≤ n + 1) (hl : ∀ x ∈ l, (s.node x).count = ⊤) {w : Nat}
    (hw : w ∈ succ v) (hlt : w < st.solver.valueNodes.length) (hc : (st.solver.node w).count = 0) :
    ∃ st' L' T' C', visitEdge visit st w = .ok st' ∧ Scanned succ s v l (done ++ [w]) st' L' T' C' := by
  have he := h.effect
  have hset : ∀ x ∈ L ++ l, (st.solver.node x).count = ⊤ := by
    intro x hx
    rcases List.mem_append.mp hx with hx | hx
    · exact he.placed x hx
    · exact he.settled_after (hl x hx)
  have hvw : (st.solver.node v).count ≠ 0 := by
    rw [h.index]
    intro h'
    have : s.depthFirstIndex + 1 = 0 := by exact_mod_cast h'
    omega
  have hn' : unvisited st.solver ≤ n := by
    have hvm : v ∈ L ++ (T ++ [v]) := by simp
    have := unvisited_lt he.size (fun x => he.white_before) (he.range v hvm) (he.white v hvm) hvw
    omega
  obtain ⟨s₂, head, L', T', C', hvis, hV, hlink⟩ := hv w st.solver (L ++ l) (he.graph hg) (he.ready hs) hlt hc hn'
    h.linked hset
  have hvV : v ∉ L' ∧ v ∉ T' := by
    refine ⟨fun hm => hvw ?_, fun hm => hvw ?_⟩
    · exact hV.effect.white v (List.mem_append_left _ hm)
    · exact hV.effect.white v (List.mem_append_right _ hm)
  have he' : Effect succ s s₂ (L' ++ L) (T' ++ T ++ [v]) (C ++ C') := by
    rw [List.append_assoc]
    exact he.trans hV.effect
  have hreach : ∀ x ∈ L' ++ L ++ (T' ++ T ++ [v]), Relation.ReflTransGen (Fresh succ s) v x := by
    intro x hx
    have hmono : ∀ a b, Fresh succ st.solver a b → Fresh succ s a b := fun a b hab => ⟨hab.1, he.white_before hab.2⟩
    by_cases hx' : x ∈ L' ++ T'
    · exact .head ⟨hw, he.white_before hc⟩ (Relation.ReflTransGen.mono hmono _ _ (hV.reach x hx'))
    · refine h.reach x ?_
      simp only [List.mem_append] at hx hx' ⊢
      tauto
  -- the lowest count, whether the visit lowers it or not
  have step : ∀ (hd : WithTop Nat) (loopFound : Bool), hd ≤ st.head → hd ≤ head →
      (hd = (s.depthFirstIndex + 1 : ℕ) ∨
        ∃ u ∈ T' ++ T ++ [v], ∃ w ∈ s.nodeStack, w ∈ succ u ∧ hd = (s.node w).count) →
      (loopFound = false → T' ++ T = [] ∧ v ∉ done ++ [w] ∧ hd = (s.depthFirstIndex + 1 : ℕ)) →
      Scanned succ s v l (done ++ [w])
        { solver := s₂, part := toPartition (L' ++ L ++ l), head := hd, loopFound := loopFound }
        (L' ++ L) (T' ++ T) (C ++ C') := by
    intro hd loopFound hle hle' hhead hno
    refine ⟨he', rfl, by rw [List.append_assoc]; exact hlink, ?_, hreach, ?_, hle.trans h.le, hhead, hno⟩
    · exact (hV.effect.same v hvV.1 hvV.2).trans h.index
    · intro u y huy
      by_cases hold : u ∈ T ∧ y ∈ succ u ∨ u = v ∧ y ∈ done
      · rcases h.outward u y hold with h' | h' | h' | ⟨hst, h'⟩
        · exact .inl (List.mem_append_right _ h')
        · exact .inr (.inl (by rw [List.append_assoc]; exact List.mem_append_right _ h'))
        · exact .inr (.inr (.inl h'))
        · exact .inr (.inr (.inr ⟨hst, hle.trans h'⟩))
      · by_cases hu : u ∈ T' ∧ y ∈ succ u
        · rcases hV.outward u hu.1 y hu.2 with h' | h' | h' | ⟨hst, h'⟩
          · exact .inl (List.mem_append_left _ h')
          · exact .inr (.inl (by simp [h']))
          · rcases he.settled_before h' with h' | h'
            · exact .inl (List.mem_append_right _ h')
            · exact .inr (.inr (.inl h'))
          · by_cases ht : y ∈ T ++ [v]
            · exact .inr (.inl (by rw [List.append_assoc]; exact List.mem_append_right _ ht))
            · rw [he.stack] at hst
              have hst := (List.mem_append.mp hst).resolve_left ht
              have hL : y ∉ L := fun hL => (count_ne_of_stack hs hst).1 (he.white_of_placed hL)
              exact .inr (.inr (.inr ⟨hst, hle'.trans (he.same y hL ht ▸ h')⟩))
        · have hyw : y = w := by
            simp only [List.mem_append, List.mem_singleton] at huy
            tauto
          rw [hyw]
          rcases List.mem_append.mp hV.entered with h' | h'
          · exact .inl (List.mem_append_left _ h')
          · exact .inr (.inl (by simp [h']))
  by_cases hle : head ≤ st.head
  · refine ⟨_, _, _, _, ?_, step head true hle (le_refl _) ?_ (by simp)⟩
    · simp [visitEdge, getIdx_node hlt, hc, h.part, hvis, hle]
    · rcases hV.head with ⟨-, h'⟩ | ⟨u, hu, y, hy, hyu, h'⟩
      · rw [h'] at hle
        have h₁ : st.solver.depthFirstIndex + 1 ≤ s.depthFirstIndex + 1 := WithTop.coe_le_coe.mp (hle.trans h.le)
        have h₂ := h.index_le
        omega
      · rw [h'] at hle ⊢
        rcases h.low_cases hs hy (hle.trans h.le) with h'' | ⟨hst, h''⟩
        · exact .inl h''
        · exact .inr ⟨u, by simp [hu], y, hst, hyu, h''⟩
  · have hhead : st.head = (s.depthFirstIndex + 1 : ℕ) ∨
        ∃ u ∈ T' ++ T ++ [v], ∃ w ∈ s.nodeStack, w ∈ succ u ∧ st.head = (s.node w).count := by
      refine h.head.imp_right ?_
      rintro ⟨u, hu, hrest⟩
      exact ⟨u, by rw [List.append_assoc]; exact List.mem_append_right _ hu, hrest⟩
    refine ⟨_, _, _, _, ?_, step st.head st.loopFound (le_refl _) (le_of_not_ge hle) hhead ?_⟩
    · simp [visitEdge, getIdx_node hlt, hc, h.part, hvis, hle]
    · intro hf
      obtain ⟨rfl, hvd, hh⟩ := h.noLoop hf
      have hT' : T' = [] := by
        rcases hV.head with ⟨h', -⟩ | ⟨u, hu, y, hy, hyu, h'⟩
        · exact h'
        · -- an open vertex leads to `v` or below, which lowers the count
          refine absurd ?_ hle
          rw [h', hh]
          rw [he.stack, List.nil_append, List.singleton_append] at hy
          rcases List.mem_cons.mp hy with rfl | hy
          · exact h.index.le
          · obtain ⟨k, hk, -, hkle⟩ := hs.stack y hy
            have hyn : y ∉ L ++ ([] ++ [v]) := fun hm => (count_ne_of_stack hs hy).1 (he.white y hm)
            rw [List.mem_append, not_or] at hyn
            rw [he.same y hyn.1 hyn.2, hk]
            exact WithTop.coe_le_coe.mpr (show k ≤ s.depthFirstIndex + 1 by omega)
      refine ⟨by simp [hT'], fun hm => ?_, hh⟩
      rcases List.mem_append.mp hm with hm | hm
      · exact hvd hm
      · exact hvw (List.mem_singleton.mp hm ▸ hc)

end Scanned

/-- The state in which the visit of `v` has begun. -/
def pushed (s : ValueSetSolver) (v : Nat) : ValueSetSolver :=
  ({ s with nodeStack := v :: s.nodeStack, depthFirstIndex := s.depthFirstIndex + 1 }).assigned v
    (fun x => { x with count := (s.depthFirstIndex + 1 : ℕ) })

theorem node_pushed {v : Nat} (h : v < s.valueNodes.length) (x : Nat) :
    (s.pushed v).node x = if x = v then { s.node v with count := (s.depthFirstIndex + 1 : ℕ) } else s.node x := by
  let s₁ : ValueSetSolver := { s with nodeStack := v :: s.nodeStack, depthFirstIndex := s.depthFirstIndex + 1 }
  exact @node_assigned s₁ v _ h x

/-- The variables of the loop over the successors before it. -/
def begun (s : ValueSetSolver) (v : Nat) (l : List Nat) : Scan :=
  { solver := s.pushed v, part := toPartition l, head := (s.depthFirstIndex + 1 : ℕ), loopFound := false }

theorem Effect.push {v : Nat} (h : v < s.valueNodes.length) (h₀ : (s.node v).count = 0) :
    Effect succ s (s.pushed v) [] [v] [] where
  size := by simp [pushed]
  vn x := by
    rw [node_pushed h]
    by_cases hx : x = v <;> simp [hx]
  roots := rfl
  index := Nat.le_succ _
  stack := rfl
  records := by simp [pushed, assigned]
  heads := by simp
  nodup := by simp
  range := by simpa using h
  white := by simpa using h₀
  placed := by simp
  stacked x hx := by
    rw [node_pushed h, if_pos (List.mem_singleton.mp hx)]
    exact ⟨s.depthFirstIndex + 1, rfl, Nat.lt_succ_self _, le_refl _⟩
  same x _ hx := by rw [node_pushed h, if_neg (fun he => hx (List.mem_singleton.mpr he))]
  links x _ := by
    simp only [next]
    rw [node_pushed h]
    by_cases hx : x = v <;> simp [hx]
  nested := nested_nil
  respects := respects_nil _

theorem Scanned.start {v : Nat} {l : List Nat} (h : v < s.valueNodes.length) (h₀ : (s.node v).count = 0)
    (hl : Linked s.next l) (hls : ∀ x ∈ l, (s.node x).count = ⊤) :
    Scanned succ s v l [] (s.begun v l) [] [] [] where
  effect := Effect.push h h₀
  part := rfl
  linked := (@Effect.push succ s v h h₀).linked hl hls
  index := by rw [begun, node_pushed h, if_pos rfl]
  reach x hx := by
    obtain rfl : x = v := by simpa using hx
    exact .refl
  outward := by simp
  le := le_refl _
  head := .inl rfl
  noLoop _ := ⟨rfl, by simp, rfl⟩

/-- The loop over all successors. -/
theorem visit_edges {visit : Nat → ValueSetSolver → Partition → Outcome (ValueSetSolver × Partition × WithTop Nat)}
    {n v : Nat} {l : List Nat} (hv : VisitSpec data succ n visit) (hg : Graph data succ s) (hs : Ready s)
    (hlt : v < s.valueNodes.length) (hc : (s.node v).count = 0) (hn : unvisited s ≤ n + 1)
    (hl : Linked s.next l) (hls : ∀ x ∈ l, (s.node x).count = ⊤) :
    ∃ st L T C, (succ v).foldlM (visitEdge visit) (s.begun v l) = .ok st ∧
      Scanned succ s v l (succ v) st L T C := by
  obtain ⟨st, hf, L, T, C, h⟩ := foldlM_total (f := visitEdge visit)
    (fun done st => ∃ L T C, Scanned succ s v l done st L T C) (succ v)
    (fun done w after hw st hst => by
      obtain ⟨L, T, C, h⟩ := hst
      have hmem : w ∈ succ v := by simp [hw]
      have hltw : w < st.solver.valueNodes.length := h.effect.size ▸ hg.range v hlt w hmem
      by_cases hcw : (st.solver.node w).count = 0
      · obtain ⟨st', L', T', C', he, h'⟩ := h.visitEdge_new hv hg hs hn hls hmem hltw hcw
        exact ⟨st', he, L', T', C', h'⟩
      · obtain ⟨st', he, h'⟩ : ∃ st', visitEdge visit st w = .ok st' ∧ _ := h.visitEdge_old hs hmem hltw hcw
        exact ⟨st', he, L, T, C, h'⟩)
    ⟨[], [], [], Scanned.start hlt hc hl hls⟩
  exact ⟨st, L, T, C, hf, h⟩

/-- With fuel for all vertices that were not visited, a visit does what it should.
The induction is on the fuel: every nested visit meets fewer such vertices. -/
theorem visit_spec (data : Funcdata) (succ : Nat → List Nat) (n : Nat) :
    VisitSpec data succ n (visit data n) := by
  induction n with
  | zero =>
      intro v s l hg hs hlt hc hn
      have : v ∈ (Finset.range s.valueNodes.length).filter (fun x => (s.node x).count = 0) :=
        Finset.mem_filter.mpr ⟨Finset.mem_range.mpr hlt, hc⟩
      rw [unvisited, Nat.le_zero, Finset.card_eq_zero] at hn
      rw [hn] at this
      simp at this
  | succ n ih =>
      intro v s l hg hs hlt hc hn hl hls
      obtain ⟨st, L, T, C, hf, h⟩ := visit_edges ih hg hs hlt hc hn hl hls
      have hedges : (s.pushed v).edges data v = .ok (succ v) :=
        ((@Effect.push succ s v hlt hc).graph hg).edges v (by simpa [pushed] using hlt)
      have hvisit : visit data (n + 1) v s (toPartition l) = finish data (visit data n) v st := by
        let s₁ : ValueSetSolver := { s with nodeStack := v :: s.nodeStack, depthFirstIndex := s.depthFirstIndex + 1 }
        rw [visit]
        change (s₁.assign v _ >>= _) = _
        rw [@assign_eq s₁ v _ hlt]
        change ((s.pushed v).edges data v >>= _) = _
        rw [hedges, ok_bind]
        change ((succ v).foldlM _ (s.begun v l) >>= _) = _
        rw [hf, ok_bind]
      rw [hvisit]
      by_cases hh : st.head = (s.depthFirstIndex + 1 : ℕ)
      · -- nothing leads below: the vertex and all above it are placed
        obtain ⟨s₂, K, D, hfin, he, hlink, hKT⟩ : ∃ s₂ K D,
            finish data (visit data n) v st = .ok (s₂, toPartition ((v :: K) ++ L ++ l), st.head) ∧
              Effect succ s s₂ ((v :: K) ++ L) [] (C ++ D) ∧ Linked s₂.next ((v :: K) ++ L ++ l) ∧
              ∀ x ∈ K, x ∈ T := by
          cases hloop : st.loopFound with
          | false =>
              obtain ⟨s₂, hfin, he, hlink⟩ : ∃ s₂, finish data (visit data n) v st = .ok (s₂, _, st.head) ∧ _ :=
                h.finish_single hs hloop hls
              exact ⟨s₂, [], [], hfin, he, hlink, by simp⟩
          | true => exact h.finish_component ih hg hs hn hloop hh hls
        refine ⟨s₂, st.head, (v :: K) ++ L, [], C ++ D, hfin,
          ⟨he, by simp, ?_, by simp, .inl ⟨rfl, hh⟩, fun _ => rfl⟩, hlink⟩
        intro x hx
        refine h.reach x ?_
        rw [List.append_nil, List.mem_append, List.mem_cons] at hx
        rcases hx with (rfl | hx) | hx
        · simp
        · simp [hKT x hx]
        · simp [hx]
      · -- the vertex stays on the stack
        have hfin : finish data (visit data n) v st = .ok (st.solver, st.part, st.head) := by
          have hne : st.head ≠ (st.solver.node v).count := fun he => hh (he.trans h.index)
          simp [finish, getIdx_node (h.effect.size ▸ hlt : v < st.solver.valueNodes.length), hne]
        refine ⟨st.solver, st.head, L, T ++ [v], C, by rw [hfin, h.part],
          ⟨h.effect, by simp, h.reach, ?_, .inr ?_, by simp⟩, h.linked⟩
        · intro u hu w hw
          refine h.outward u w ?_
          rcases List.mem_append.mp hu with hu | hu
          · exact .inl ⟨hu, hw⟩
          · obtain rfl := List.mem_singleton.mp hu
            exact .inr ⟨rfl, hw⟩
        · exact h.head.resolve_left hh

/-- An edge of the data-flow graph. -/
def Edge (data : Funcdata) (s : ValueSetSolver) (u w : Nat) : Prop := ∃ ws, s.edges data u = .ok ws ∧ w ∈ ws

/-- The state in which the value sets and the roots were established: nothing was
ordered yet, and the roots and the successors are value sets. -/
structure Established (data : Funcdata) (s : ValueSetSolver) : Prop where
  order : s.orderPartition = Partition.new
  stack : s.nodeStack = []
  roots : ∀ r ∈ s.rootNodes, r < s.valueNodes.length
  edges : ∀ u w, s.Edge data u w → w < s.valueNodes.length

/-- The state before the visit of the artificial root. -/
def rooted (s : ValueSetSolver) : ValueSetSolver :=
  { s with
    valueNodes := s.valueNodes.map (fun v => { v with count := 0, next := none, partHead := none }) ++
      [ValueSet.newEmpty]
    depthFirstIndex := 0
    orderPartition := Partition.new }

/-- The edges of the graph with the artificial root. -/
def succOf (data : Funcdata) (s : ValueSetSolver) (u : Nat) : List Nat :=
  match s.rooted.edges data u with
  | .ok ws => ws
  | .error _ => []

theorem length_rooted (s : ValueSetSolver) : s.rooted.valueNodes.length = s.valueNodes.length + 1 := by
  simp [rooted]

theorem count_rooted (s : ValueSetSolver) (x : Nat) : (s.rooted.node x).count = 0 := by
  simp only [rooted, node, List.getD_eq_getElem?_getD, List.getElem?_append]
  split
  · cases hx : s.valueNodes[x]? <;> simp [hx, ValueSet.newEmpty]
  · cases hx : [ValueSet.newEmpty][x - (s.valueNodes.map _).length]? with
    | none => rfl
    | some v =>
        obtain rfl := List.mem_singleton.mp (List.mem_of_getElem? hx)
        rfl

theorem edges_rooted {u : Nat} (hu : u < s.valueNodes.length) : s.rooted.edges data u = s.edges data u := by
  have h₁ : s.rooted.valueNodes[u]? =
      some { s.valueNodes[u] with count := 0, next := none, partHead := none } := by
    rw [rooted, List.getElem?_append_left (by simpa using hu), List.getElem?_map, List.getElem?_eq_getElem hu]
    rfl
  rw [ValueSetSolver.edges, ValueSetSolver.edges, getIdx_eq h₁, getIdx_eq (List.getElem?_eq_getElem hu)]
  rfl

theorem edges_root : s.rooted.edges data s.valueNodes.length = .ok s.rootNodes := by
  have h₁ : s.rooted.valueNodes[s.valueNodes.length]? = some ValueSet.newEmpty := by
    rw [rooted, List.getElem?_append_right (by simp)]
    simp
  rw [ValueSetSolver.edges, getIdx_eq h₁]
  simp [ValueSet.newEmpty, ValueSetEdge.remaining, rooted]

theorem succOf_root : succOf data s s.valueNodes.length = s.rootNodes := by
  rw [succOf, edges_root]

theorem edge_iff {u w : Nat} (hu : u < s.valueNodes.length) : s.Edge data u w ↔ w ∈ succOf data s u := by
  have h₁ : s.edges data u = .ok (succOf data s u) := by
    rw [succOf, edges_rooted hu, ValueSetSolver.edges, getIdx_node hu]
    rfl
  simp [Edge, h₁]

theorem Established.graph (h : s.Established data) :
    Graph data (succOf data s) s.rooted ∧
      ∀ u < s.rooted.valueNodes.length, ∀ w ∈ succOf data s u, w < s.valueNodes.length := by
  have hrange : ∀ u < s.rooted.valueNodes.length, ∀ w ∈ succOf data s u, w < s.valueNodes.length := by
    intro u hu w hw
    rw [length_rooted] at hu
    rcases Nat.lt_succ_iff_lt_or_eq.mp hu with hu | rfl
    · exact h.edges u w ((edge_iff hu).mpr hw)
    · rw [succOf_root] at hw
      exact h.roots w hw
  refine ⟨⟨fun u hu => ?_, fun u hu w hw => ?_⟩, hrange⟩
  · rw [succOf, ValueSetSolver.edges, getIdx_node hu]
    rfl
  · have := hrange u hu w hw
    rw [length_rooted]
    omega

theorem ready_rooted (h : s.Established data) : Ready s.rooted := by
  refine ⟨fun x hx => ?_, fun x => .inl (count_rooted s x)⟩
  change x ∈ s.nodeStack at hx
  rw [h.stack] at hx
  cases hx

/-- The visit of the artificial root settles all that it reaches, behind the root. -/
theorem visit_root (h : s.Established data) :
    ∃ s₁ head chain C, visit data s.rooted.valueNodes.length s.valueNodes.length s.rooted s.orderPartition =
        .ok (s₁, toPartition (s.valueNodes.length :: chain), head) ∧
      Visited (succOf data s) s.rooted s.valueNodes.length s₁ head (s.valueNodes.length :: chain) [] C ∧
      Linked s₁.next (s.valueNodes.length :: chain) := by
  have hunv : unvisited s.rooted ≤ s.rooted.valueNodes.length := by
    refine (Finset.card_filter_le _ _).trans ?_
    rw [Finset.card_range]
  obtain ⟨s₁, head, L, T, C, hv, hV, hl⟩ := visit_spec data (succOf data s) s.rooted.valueNodes.length
    s.valueNodes.length s.rooted [] h.graph.1 (ready_rooted h) (by rw [length_rooted]; omega)
    (count_rooted s _) hunv trivial (by simp)
  obtain rfl : T = [] := by
    rcases hV.head with ⟨hT, -⟩ | ⟨u, hu, w, hw, -⟩
    · exact hT
    · change w ∈ s.nodeStack at hw
      rw [h.stack] at hw
      cases hw
  obtain ⟨chain, rfl⟩ : ∃ chain, L = s.valueNodes.length :: chain := by
    cases L with
    | nil => exact absurd (hV.first rfl) (by simp)
    | cons x L => exact ⟨L, by rw [Option.some.inj (hV.first rfl)]⟩
  rw [List.append_nil] at hv hl
  refine ⟨s₁, head, chain, C, ?_, hV, hl⟩
  rw [h.order]
  exact hv

/-- What the visit of the root reaches is what the roots reach. -/
theorem mem_chain_iff (h : s.Established data) {head : WithTop Nat} {chain : List Nat} {C : List (List Nat)}
    (hV : Visited (succOf data s) s.rooted s.valueNodes.length s₁ head (s.valueNodes.length :: chain) [] C) (x : Nat) :
    x ∈ chain ↔ ∃ r ∈ s.rootNodes, Relation.ReflTransGen (s.Edge data) r x := by
  have hrange := h.graph.2
  have hroot : s.valueNodes.length ∉ chain := by
    have := hV.effect.nodup
    rw [List.append_nil] at this
    exact (List.nodup_cons.mp this).1
  have hclosed : ∀ u ∈ s.valueNodes.length :: chain, ∀ w ∈ succOf data s u, w ∈ chain := by
    intro u hu w hw
    rcases hV.effect.respects.closed hV.effect.nested hu hw with h' | h'
    · refine (List.mem_cons.mp h').resolve_left fun he => ?_
      have := hrange u (hV.effect.range u (by simpa using hu)) w hw
      omega
    · rw [count_rooted] at h'
      exact absurd h' WithTop.zero_ne_top
  constructor
  · intro hx
    rcases (hV.reach x (by simp [hx])).cases_head with he | ⟨r, hr, hpath⟩
    · exact absurd (he ▸ hx) hroot
    · have hr' : r ∈ s.rootNodes := by simpa [succOf_root] using hr.1
      refine ⟨r, hr', ?_⟩
      suffices hp : Relation.ReflTransGen (s.Edge data) r x ∧ x < s.valueNodes.length from hp.1
      clear hx
      induction hpath with
      | refl => exact ⟨.refl, h.roots r hr'⟩
      | tail _ hstep ih =>
          obtain ⟨hp, hlt⟩ := ih
          have hedge := (edge_iff hlt).mpr hstep.1
          exact ⟨hp.tail hedge, h.edges _ _ hedge⟩
  · rintro ⟨r, hr, hpath⟩
    induction hpath with
    | refl => exact hclosed s.valueNodes.length (by simp) r (by rwa [succOf_root])
    | @tail u w _ hstep ih =>
        refine hclosed u (by simp [ih]) w ((edge_iff ?_).mp hstep)
        have hlt : u < s.rooted.valueNodes.length := hV.effect.range u (by simp [ih])
        rw [length_rooted] at hlt
        rcases Nat.lt_succ_iff_lt_or_eq.mp hlt with hlt | rfl
        · exact hlt
        · exact absurd ih hroot

/-- The result without the artificial root. -/
def unrooted (s : ValueSetSolver) (order : Partition) : ValueSetSolver :=
  { s with valueNodes := s.valueNodes.dropLast, orderPartition := order }

theorem node_unrooted {n x : Nat} (hs : s.valueNodes.length = n + 1) (hx : x < n) (order : Partition) :
    (s.unrooted order).node x = s.node x := by
  simp only [unrooted, node, List.getD_eq_getElem?_getD, List.getElem?_dropLast]
  rw [if_pos (by omega)]

theorem establish_eq {head : WithTop Nat} {chain : List Nat}
    (hv : visit data s.rooted.valueNodes.length s.valueNodes.length s.rooted s.orderPartition =
      .ok (s₁, toPartition (s.valueNodes.length :: chain), head))
    (hs : s₁.valueNodes.length = s.valueNodes.length + 1) (hn : s₁.next s.valueNodes.length = chain.head?) :
    ∃ order, s.establishTopologicalOrder data = .ok (s₁.unrooted order) ∧ order.startNode = chain.head? := by
  let order : Partition := { toPartition (s.valueNodes.length :: chain) with startNode := chain.head? }
  refine ⟨if order.stopNode = some s.valueNodes.length then { order with stopNode := none } else order, ?_, ?_⟩
  · have hroot : (s.valueNodes.map fun v => { v with count := 0, next := none, partHead := none }).length =
        s.valueNodes.length := List.length_map _
    simp only [establishTopologicalOrder, hroot]
    change (visit data s.rooted.valueNodes.length s.valueNodes.length s.rooted s.orderPartition >>= _) = _
    rw [hv, ok_bind]
    change (getIdx s₁.valueNodes s.valueNodes.length >>= _) = _
    rw [getIdx_node (by omega), ok_bind]
    change Except.ok _ = _
    change (s₁.node s.valueNodes.length).next = _ at hn
    simp only [hn]
    rfl
  · split_ifs <;> rfl

/-- The chain of a solver is a weak topological order of what the roots reach: it
holds each vertex once, and an edge goes forward in it or back to the start of a
recorded stretch of the chain around its source. -/
structure WeaklyOrdered (data : Funcdata) (s s₁ : ValueSetSolver) (chain : List Nat) : Prop where
  start : s₁.orderPartition.startNode = chain.head?
  linked : Linked s₁.next chain
  nodup : chain.Nodup
  reached : ∀ x, x ∈ chain ↔ ∃ r ∈ s.rootNodes, Relation.ReflTransGen (s.Edge data) r x
  edges : ∀ u ∈ chain, ∀ w ∈ chain, s.Edge data u w →
    [u, w].Sublist chain ∨ ∃ k part segment, (s₁.node w).partHead = some k ∧
      s₁.recordStorage[k]? = some part ∧ part.startNode = some w ∧ segment <:+: chain ∧
      segment.head? = part.startNode ∧ segment.getLast? = part.stopNode ∧ u ∈ segment

/-- A loop inside a loop. -/
def nestedLoops : ValueSetSolver :=
  { valueNodes := (List.range 4).map (fun i => { count := 0, vn := some i, partHead := none, next := none })
    orderPartition := Partition.new
    recordStorage := []
    rootNodes := [0]
    nodeStack := []
    depthFirstIndex := 0 }

def nestedLoopsData : Funcdata :=
  { descend := fun vn => if vn = 0 then [1] else if vn = 1 then [2] else if vn = 2 then [1, 3] else [0]
    getOut := some
    isMark := fun _ => true
    getValueSet := some }

example : (nestedLoops.establishTopologicalOrder nestedLoopsData).map
    (fun s => (s.orderPartition.startNode, s.valueNodes.map (·.next), s.recordStorage.map (·.stopNode))) =
    .ok (some 0, [some 1, some 2, some 3, none], [some 2, some 3]) := by
  decide

end GhidraDecompiler.Range.ValueSetSolver
