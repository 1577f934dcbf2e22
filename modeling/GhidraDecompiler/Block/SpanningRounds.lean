import GhidraDecompiler.Block.SpanningRun

namespace GhidraDecompiler.Block

open Fallible Flow FlowBlock Relation

variable {d₀ d : Blocks} {graph : BlockId} {list R done todo : List BlockId} {s t : Search BlockId} {st : Spanning}
  {extra : Bool}

/-- Every block is reachable from a block of `R`. -/
def Spans (d : Blocks) (list R : List BlockId) : Prop := ∀ b ∈ list, ∃ r ∈ R, ReflTransGen (Edge d) r b

/-- The innermost loop ends with an empty stack; the blocks that it visits are
entered along tree edges. -/
theorem Sim.walk_loop (h : Sim d₀ list st s) (hg : FlowGraph d₀ graph) (hl : (blk d₀ graph).list = list) {S : Set BlockId}
    (hc : s.Covered (points d₀ .outof) S) : ∃ st' t, loop Spanning.walkPass (walkFuel st.d list) st = .ok st' ∧
      Sim d₀ list st' t ∧ t.stack = [] ∧ t.Covered (points d₀ .outof) S ∧ s.pre ⊆ t.pre ∧ st'.rootlist = st.rootlist := by
  let total := (list.map fun b => (points d₀ .outof b).length + 1).sum
  have hfuel : walkFuel st.d list = total + 1 := by
    simp only [walkFuel, h.length_out, total]
  let Inv : Nat → Spanning → Prop := fun n st' => ∃ t, Sim d₀ list st' t ∧ t.Covered (points d₀ .outof) S ∧
    s.pre ⊆ t.pre ∧ st'.rootlist = st.rootlist ∧ n + t.work (points d₀ .outof) = total
  let Post : Spanning → Prop := fun st' => ∃ t, Sim d₀ list st' t ∧ t.stack = [] ∧ t.Covered (points d₀ .outof) S ∧
    s.pre ⊆ t.pre ∧ st'.rootlist = st.rootlist
  have hbody (n : Nat) (st' : Spanning) (hi : Inv n st') : (∃ r, st'.walkPass = .ok (.leave r) ∧ Post r) ∨
      ∃ st'' m, st'.walkPass = .ok (.again st'') ∧ m < n ∧ Inv m st'' := by
    obtain ⟨t, ht, hct, hsub, hroot, hwork⟩ := hi
    by_cases hstack : t.stack = []
    · refine .inl ⟨st', ?_, t, ht, hstack, hct, hsub, hroot⟩
      have hstate : st'.state = [] := by rw [ht.state, Search.names, hstack, List.map_nil]
      simp only [Spanning.walkPass, hstate, pure_eq_ok]
    · obtain ⟨st'', t', hrun, hstep, ht', hroot'⟩ := ht.walk hg.reciprocal (hl ▸ hg.list_live)
        (fun b hb => hl ▸ hg.inside b (hl ▸ hb) .outof) hstack
      have hw := Search.work_step ht.range hstack hstep
      have hle := Search.work_le ht'.inv.toShape ht'.range ht'.sub
      refine .inr ⟨st'', total - t'.work (points d₀ .outof), hrun, by omega, t', ht',
        hct.step ht.inv hstep fun hempty => absurd hempty hstack, List.Subset.trans hsub hstep.pre_subset, hroot'.trans hroot, ?_⟩
      exact Nat.sub_add_cancel hle
  have hle := Search.work_le h.inv.toShape h.range h.sub
  obtain ⟨st', hrun, t, ht, hstack, hct, hsub, hroot⟩ := loop_bounded Inv Post hbody (s := st) (k := total + 1)
    (n := total - s.work (points d₀ .outof)) ⟨s, h, hc, List.Subset.refl _, rfl, Nat.sub_add_cancel hle⟩ (by omega)
  exact ⟨st', t, hfuel ▸ hrun, ht, hstack, hct, hsub, hroot⟩

/-- The scan of the root list takes out the roots that were visited before the
first one that was not. -/
theorem rootPass_loop (h : Sim d₀ list st s) (hlive : ∀ b ∈ list, d₀.Live b) (hsub : todo ⊆ list)
    (done : List BlockId) {k : Nat} (hf : todo.length < k) : ∃ seen rest, todo = seen ++ rest ∧ (∀ b ∈ seen, b ∈ s.pre) ∧
      ((rest = [] ∧ loop (rootPass st.d) k (done.length, done ++ todo) = .ok (none, done.length, done)) ∨
      ∃ b rest', rest = b :: rest' ∧ b ∉ s.pre ∧
        loop (rootPass st.d) k (done.length, done ++ todo) = .ok (some b, done.length + 1, done ++ b :: rest')) := by
  induction todo generalizing k with
  | nil =>
      obtain ⟨k, rfl⟩ : ∃ n, k = n + 1 := ⟨k - 1, by simp at hf; omega⟩
      refine ⟨[], [], rfl, by simp, .inl ⟨rfl, loop_succ_leave ?_ k⟩⟩
      simp [rootPass]
  | cons b rest ih =>
      obtain ⟨k, rfl⟩ : ∃ n, k = n + 1 := ⟨k - 1, by simp at hf; omega⟩
      obtain ⟨hb, hrest⟩ := List.cons_subset.mp hsub
      have hget : (done ++ b :: rest)[done.length]? = some b := by simp
      by_cases hv : b ∈ s.pre
      · have hpass : rootPass st.d (done.length, done ++ b :: rest) = .ok (.again (done.length, done ++ rest)) := by
          have hne : (blk st.d b).visitcount ≠ -1 := fun heq => (h.visitcount_eq_iff hb).mp heq hv
          simp only [rootPass, hget, get_of_live (h.live hlive hb), ok_bind, if_neg hne, pure_eq_ok]
          rw [List.eraseIdx_append_of_length_le le_rfl, Nat.sub_self, List.eraseIdx_cons_zero]
        obtain ⟨seen, rest', rfl, hseen, hres⟩ := ih hrest (k := k) (by simp at hf ⊢; omega)
        refine ⟨b :: seen, rest', rfl, ?_, ?_⟩
        · simpa [hv] using hseen
        · rw [loop_succ_again hpass]
          exact hres
      · refine ⟨[], b :: rest, rfl, by simp, .inr ⟨b, rest, rfl, hv, loop_succ_leave ?_ k⟩⟩
        simp only [rootPass, hget, get_of_live (h.live hlive hb), ok_bind, if_pos ((h.visitcount_eq_iff hb).mpr hv),
          pure_eq_ok]

theorem chooseBlock_spec (h : Sim d₀ list st s) (hlive : ∀ b ∈ list, d₀.Live b) {l : List BlockId} (hsub : l ⊆ list)
    (hex : ∃ b ∈ l, b ∉ s.pre) (b₀ : BlockId) : ∃ b, chooseBlock st.d l b₀ = .ok b ∧ b ∈ l ∧ b ∉ s.pre := by
  induction l generalizing b₀ with
  | nil => simp at hex
  | cons c rest ih =>
      obtain ⟨hc, hrest⟩ := List.cons_subset.mp hsub
      by_cases hv : c ∈ s.pre
      · have hne : (blk st.d c).visitcount ≠ -1 := fun heq => (h.visitcount_eq_iff hc).mp heq hv
        obtain ⟨b, hrun, hb, hbp⟩ := ih hrest (by simpa [hv] using hex) c
        refine ⟨b, ?_, List.mem_cons_of_mem _ hb, hbp⟩
        simp only [chooseBlock, get_of_live (h.live hlive hc), ok_bind, if_neg hne, hrun]
      · refine ⟨c, ?_, List.mem_cons_self .., hv⟩
        simp only [chooseBlock, get_of_live (h.live hlive hc), ok_bind, if_pos ((h.visitcount_eq_iff hc).mpr hv),
          pure_eq_ok]

/-- The state between two trees of a round that was begun with the roots `R`:
`done` is the part of the root list that was used up, and `todo` the rest. -/
structure Round (d₀ : Blocks) (list R : List BlockId) (s : Search BlockId) (done todo : List BlockId) (extra : Bool) :
    Prop where
  stack : s.stack = []
  covered : s.Covered (points d₀ .outof) {b | b ∈ done}
  visited : ∀ b ∈ done, b ∈ s.pre
  pending : ∀ b ∈ R, b ∈ s.pre ∨ b ∈ todo
  nodup : (done ++ todo).Nodup
  sub : done ++ todo ⊆ list
  given : extra = false → done ++ todo ⊆ R
  extra : extra = true → ¬ Spans d₀ list R ∧ todo = []
  start : done = [] → todo = R
  single : ∀ b rest, R = b :: rest → Spans d₀ list [b] → done ⊆ [b]
  last : ∀ r, Spans d₀ list [r] → r ∈ s.pre → ∃ b, done.getLast? = some b ∧ ReflTransGen (Edge d₀) b r

/-- A new tree is grown from a block that was not visited. -/
theorem Round.grow (h : Round d₀ list R s done todo extra) (hsim : Sim d₀ list st s) (hg : FlowGraph d₀ graph)
    (hl : (blk d₀ graph).list = list) {b : BlockId} (hb : b ∈ list) (hv : b ∉ s.pre) (rootlist : List BlockId) :
    ∃ st₁ st' t, Spanning.enter { st with rootlist } b = .ok st₁ ∧
      loop Spanning.walkPass (walkFuel st₁.d list) st₁ = .ok st' ∧ Sim d₀ list st' t ∧ t.stack = [] ∧
      t.Covered (points d₀ .outof) {c | c ∈ done ++ [b]} ∧ b ∈ t.pre ∧ s.pre ⊆ t.pre ∧ s.pre.length < t.pre.length ∧
      st'.rootlist = rootlist := by
  have hstep : Search.Step (points d₀ .outof) s _ := Search.Step.root s b h.stack hv
  obtain ⟨st₁, henter, hsim₁, hroot₁⟩ := hsim.enter (hl ▸ hg.list_live) hb hstep
    ⟨hv, rfl, by simp [Search.names, h.stack], rfl, rfl⟩ { st with rootlist }
    (hsim.shows.congr rfl rfl rfl rfl) rfl rfl rfl rfl (by simp [hsim.istate, h.stack])
  have hcov := (h.covered.mono (R := {c | c ∈ done ++ [b]}) fun c hc => List.mem_append_left _ hc).step hsim.inv hstep
    fun _ w hw hws => by
      obtain rfl : w = b := by simpa [hws] using hw
      simp
  obtain ⟨st', t, hloop, ht, hstack, hct, hsub, hroot⟩ := hsim₁.walk_loop hg hl hcov
  have hlen := (hsim₁.inv.pre_nodup.subperm hsub).length_le
  rw [List.length_append, List.length_singleton] at hlen
  exact ⟨st₁, st', t, henter, hloop, ht, hstack, hct, hsub (by simp), fun c hc => hsub (List.mem_append_left _ hc),
    by omega, hroot.trans hroot₁⟩

/-- As long as a block is missing, none was visited that reaches all blocks. -/
theorem Round.notMem_of_spans (h : Round d₀ list R s done todo extra) (hsim : Sim d₀ list st s)
    (hnodup : list.Nodup) (hlt : s.pre.length < list.length) {r : BlockId} (hr : Spans d₀ list [r]) : r ∉ s.pre := by
  intro hmem
  have hall : list ⊆ s.pre := fun b hb => by
    obtain ⟨r', hr', hb'⟩ := hr b hb
    exact hsim.inv.reach_of_empty h.stack (List.mem_singleton.mp hr' ▸ hmem) hb'
  have := (hnodup.subperm hall).length_le
  omega

/-- The block that reaches all others is visited in the last tree. -/
theorem Round.grow_last (h : Round d₀ list R s done todo extra) (hsim : Sim d₀ list st s) (hnodup : list.Nodup)
    (hlt : s.pre.length < list.length) (ht : t.Inv (points d₀ .outof)) {b : BlockId}
    (hct : t.Covered (points d₀ .outof) {c | c ∈ done ++ [b]}) (r : BlockId) (hr : Spans d₀ list [r]) (hrt : r ∈ t.pre) :
    ∃ b', (done ++ [b]).getLast? = some b' ∧ ReflTransGen (Edge d₀) b' r := by
  obtain ⟨c, hc, hcr⟩ := hct.exists_root ht hrt
  have hpath : ReflTransGen (Edge d₀) c r := ReflTransGen.mono (fun a a' haa' => by
    obtain ⟨i, -, ha'⟩ := haa'
    exact List.mem_of_getElem? ha') c r hcr
  rcases List.mem_append.mp hc with hc | hc
  · exact absurd (hsim.inv.reach_of_empty h.stack (h.visited c hc) hpath) (h.notMem_of_spans hsim hnodup hlt hr)
  · exact ⟨c, by simpa using (List.mem_singleton.mp hc).symm, hpath⟩

/-- If the first root reaches all blocks, no other root is used. -/
theorem Round.grow_single (h : Round d₀ list R s done todo extra) (hsim : Sim d₀ list st s) (hnodup : list.Nodup)
    (hlt : s.pre.length < list.length) {seen rest rest' : List BlockId} {b b' : BlockId} (htodo : todo = seen ++ rest)
    (hseen : ∀ c ∈ seen, c ∈ s.pre) (hR : R = b :: rest') (hspan : Spans d₀ list [b])
    (hnext : ∀ c, rest.head? = some c → c = b') : done ++ [b'] ⊆ [b] := by
  have hb := h.notMem_of_spans hsim hnodup hlt hspan
  have hdone : done = [] := by
    refine List.eq_nil_iff_forall_not_mem.mpr fun c hc => ?_
    exact hb (List.mem_singleton.mp (h.single b rest' hR hspan hc) ▸ h.visited c hc)
  have hrest := (h.start hdone).trans hR
  rw [htodo] at hrest
  cases seen with
  | nil =>
      rw [List.nil_append] at hrest
      simpa [hdone] using (hnext b (by rw [hrest, List.head?_cons])).symm
  | cons c seen => exact absurd (hseen c (by simp)) ((List.cons.inj hrest).1 ▸ hb)

theorem Round.treePass (h : Round d₀ list R s done todo extra) (hsim : Sim d₀ list st s)
    (hroot : st.rootlist = done ++ todo) (hg : FlowGraph d₀ graph) (hl : (blk d₀ graph).list = list)
    (hlt : s.pre.length < list.length) :
    ∃ st' t done' todo' extra', treePass list (st, done.length, extra) = .ok (.again (st', done'.length, extra')) ∧
      Sim d₀ list st' t ∧ Round d₀ list R t done' todo' extra' ∧ st'.rootlist = done' ++ todo' ∧
      s.pre.length < t.pre.length := by
  have hlive : ∀ b ∈ list, d₀.Live b := hl ▸ hg.list_live
  have hnodup : list.Nodup := hl ▸ hg.nodup
  have hif : st.preorder.length < list.length := hsim.preorder ▸ hlt
  obtain ⟨seen, rest, rfl, hseen, hscan⟩ := rootPass_loop hsim hlive
    (fun b hb => h.sub (List.mem_append_right _ hb)) done (k := st.rootlist.length + 1) (by
      rw [hroot, List.length_append]
      omega)
  rw [← hroot] at hscan
  rcases hscan with ⟨rfl, hscan⟩ | ⟨b, rest', rfl, hbv, hscan⟩
  · rw [List.append_nil] at h
    have hex : ∃ b ∈ list, b ∉ s.pre := by
      by_contra hall
      push Not at hall
      have := (hnodup.subperm hall).length_le
      omega
    obtain ⟨b₀, hb₀⟩ : ∃ b₀, list[0]? = some b₀ := ⟨_, List.getElem?_eq_getElem (by omega)⟩
    obtain ⟨b, hchoose, hb, hbv⟩ := chooseBlock_spec hsim hlive (List.Subset.refl _) hex b₀
    obtain ⟨st₁, st', t, henter, hloop, ht, hstack, hct, hbt, hsub, hlen, hroot'⟩ :=
      h.grow hsim hg hl hb hbv (done ++ [b])
    refine ⟨st', t, done ++ [b], [], true, ?_, ht, ⟨hstack, hct, ?_, fun c hc => .inl (hsub ?_), ?_, ?_, by simp, ?_,
      by simp, fun b' rest hR hspan => ?_, h.grow_last hsim hnodup hlt ht.inv hct⟩, by simpa using hroot', hlen⟩
    · simp only [Block.treePass, if_pos hif, hscan, ok_bind, getIdx_eq hb₀, hchoose, henter, hloop, pure_eq_ok,
        List.length_append, List.length_singleton]
    · exact List.forall_mem_append.mpr ⟨fun c hc => hsub (h.visited c hc), by simpa using hbt⟩
    · exact (h.pending c hc).elim id (hseen c)
    · rw [List.append_nil, List.nodup_append]
      refine ⟨(List.nodup_append.mp h.nodup).1, by simp, fun c hc c' hc' heq => ?_⟩
      exact hbv (List.mem_singleton.mp hc' ▸ heq ▸ h.visited c hc)
    · rw [List.append_nil, List.append_subset]
      exact ⟨fun c hc => h.sub (List.mem_append_left _ hc), by simpa using hb⟩
    · -- a root that reaches the chosen block would have been visited before it
      refine fun _ => ⟨fun hspan => ?_, rfl⟩
      obtain ⟨r, hr, hrb⟩ := hspan b hb
      exact hbv (hsim.inv.reach_of_empty h.stack ((h.pending r hr).elim id (hseen r)) hrb)
    · exact h.grow_single hsim hnodup hlt (List.append_nil seen).symm hseen hR hspan (by simp)
  · have hb : b ∈ list := h.sub (by simp)
    obtain ⟨st₁, st', t, henter, hloop, ht, hstack, hct, hbt, hsub, hlen, hroot'⟩ :=
      h.grow hsim hg hl hb hbv (done ++ b :: rest')
    have hperm : (done ++ [b] ++ rest').Sublist (done ++ (seen ++ b :: rest')) := by
      rw [List.append_assoc]
      exact List.Sublist.append_left (List.sublist_append_right ..) _
    refine ⟨st', t, done ++ [b], rest', extra, ?_, ht, ⟨hstack, hct, ?_, fun c hc => ?_, hperm.nodup h.nodup,
      List.Subset.trans hperm.subset h.sub, fun he => List.Subset.trans hperm.subset (h.given he), fun he => ?_, by simp,
      fun b' rest hR hspan => h.grow_single hsim hnodup hlt rfl hseen hR hspan (by simp),
      h.grow_last hsim hnodup hlt ht.inv hct⟩, by simpa using hroot', hlen⟩
    · simp only [Block.treePass, if_pos hif, hscan, ok_bind, henter, hloop, pure_eq_ok, List.length_append,
        List.length_singleton]
    · exact List.forall_mem_append.mpr ⟨fun c hc => hsub (h.visited c hc), by simpa using hbt⟩
    · rcases h.pending c hc with hc | hc
      · exact .inl (hsub hc)
      · rcases List.mem_append.mp hc with hc | hc
        · exact .inl (hsub (hseen c hc))
        · rcases List.mem_cons.mp hc with rfl | hc
          · exact .inl hbt
          · exact .inr hc
    · have hnil := (h.extra he).2
      simp at hnil

/-- The state before a round. -/
structure Fresh (d₀ : Blocks) (list : List BlockId) (st : Spanning) : Prop where
  frame : SameFrame d₀ st.d
  visitcount : ∀ b ∈ list, (blk st.d b).visitcount = -1
  index : ∀ b ∈ list, (blk st.d b).index = -1
  copymap : ∀ b ∈ list, (blk st.d b).copymap = some b
  preorder : st.preorder = []
  state : st.state = []
  istate : st.istate = []
  length_rpostorder : st.rpostorder.length = list.length

/-- With all labels cleared, the blocks show a search before its first step. -/
theorem Fresh.clear (h : Fresh d₀ list st) (hg : FlowGraph d₀ graph) (hl : (blk d₀ graph).list = list) :
    ∃ d', blockClearEdgeFlags st.d graph spanFlags = .ok d' ∧
      Sim d₀ list { st with d := d', rpostcount := list.length } (Search.initial fun _ => 0) := by
  have hlist : (blk st.d graph).list = list := (h.frame.list graph).trans hl
  obtain ⟨d', hrun, hnext, hlive, hblk⟩ := modifyAll_spec (d := st.d) (l := list) (fun _ => clearLabels spanFlags)
    (fun _ => clearLabels_idem spanFlags) fun b hb => (h.frame.live b).mpr (hg.list_live b (hl ▸ hb))
  have hblk' (b : BlockId) : Block.frame (blk d' b) = Block.frame (blk st.d b) ∧ (blk d' b).visitcount = (blk st.d b).visitcount ∧
      (blk d' b).index = (blk st.d b).index ∧ (blk d' b).copymap = (blk st.d b).copymap := by
    rw [hblk]
    split <;> exact ⟨rfl, rfl, rfl, rfl⟩
  have hedge (dir : Dir) (b : BlockId) (i : Nat) : edge? d' dir b i =
      (edge? st.d dir b i).map fun e => if b ∈ list then relabel (· &&& ~~~spanFlags) e else e := by
    refine edge?_relabel ?_ i
    rw [hblk]
    split
    · exact edges_clearLabels ..
    · rfl
  have hframe : SameFrame st.d d' := by
    refine ⟨hnext, hlive, fun b => (hblk' b).1, fun dir b i => ?_⟩
    rw [hedge, Option.map_map]
    congr 1
    funext e
    simp only [Function.comp]
    split
    · simp [strip, relabel, BitVec.and_assoc]
    · rfl
  refine ⟨d', ?_, ⟨h.frame.trans hframe, fun b hb => ?_, fun b hb => ?_, fun b hb => ?_, fun b hb => ?_,
    fun b hb dir i e he => ?_⟩, Search.inv_initial _, fun _ _ hv => ?_, ?_, h.preorder, h.state, h.istate, ?_, h.length_rpostorder, ?_⟩
  · simp only [blockClearEdgeFlags, get_of_live ((h.frame.live graph).mpr hg.live), ok_bind, hlist, hrun]
  · exact (hblk' b).2.1.trans (h.visitcount b hb)
  · exact (hblk' b).2.2.1.trans (h.index b hb)
  · simp [Search.initial] at hb
  · exact (hblk' b).2.2.2.trans (h.copymap b hb)
  · rw [hedge, Option.map_eq_some_iff] at he
    obtain ⟨g, -, rfl⟩ := he
    rw [if_pos hb]
    exact Flags.clear_and_of_subset (by decide)
  · simp [Search.initial] at hv
  · simp [Search.initial]
  · simp [Search.initial]
  · simp [Search.initial, h.length_rpostorder]

/-- A round visits all blocks. -/
theorem spanRound_spec (h : Fresh d₀ list st) (hg : FlowGraph d₀ graph) (hl : (blk d₀ graph).list = list)
    (hnodup : st.rootlist.Nodup) (hsub : st.rootlist ⊆ list) :
    ∃ st' extra s done todo, spanRound graph list st = .ok (st', extra) ∧ Sim d₀ list st' s ∧
      Round d₀ list st.rootlist s done todo extra ∧ st'.rootlist = done ++ todo ∧ list ⊆ s.pre := by
  obtain ⟨d', hclear, hsim⟩ := h.clear hg hl
  let Inv : Nat → Spanning × Nat × Bool → Prop := fun n x => ∃ s done todo, Sim d₀ list x.1 s ∧
    Round d₀ list st.rootlist s done todo x.2.2 ∧ x.1.rootlist = done ++ todo ∧ x.2.1 = done.length ∧
    n + s.pre.length = list.length
  let Post : Spanning × Bool → Prop := fun x => ∃ s done todo, Sim d₀ list x.1 s ∧
    Round d₀ list st.rootlist s done todo x.2 ∧ x.1.rootlist = done ++ todo ∧ list ⊆ s.pre
  have hbody (n : Nat) (x : Spanning × Nat × Bool) (hi : Inv n x) :
      (∃ r, treePass list x = .ok (.leave r) ∧ Post r) ∨ ∃ x' m, treePass list x = .ok (.again x') ∧ m < n ∧ Inv m x' := by
    obtain ⟨st', ri, extra⟩ := x
    obtain ⟨s, done, todo, hs, hround, hroot, hri, hn⟩ := hi
    dsimp only at hs hround hroot hri
    subst hri
    by_cases hlt : s.pre.length < list.length
    · obtain ⟨st'', t, done', todo', extra', hrun, ht, hround', hroot', hlen⟩ := hround.treePass hs hroot hg hl hlt
      have hle := (ht.inv.pre_nodup.subperm ht.sub).length_le
      exact .inr ⟨_, list.length - t.pre.length, hrun, by omega, t, done', todo', ht, hround', hroot', rfl, by omega⟩
    · refine .inl ⟨(st', extra), ?_, s, done, todo, hs, hround, hroot, ?_⟩
      · have hif : ¬ st'.preorder.length < list.length := hs.preorder ▸ hlt
        simp only [treePass, if_neg hif, pure_eq_ok]
      · exact ((hs.inv.pre_nodup.subperm hs.sub).perm_of_length_le (not_lt.mp hlt)).symm.subset
  have hstart : Inv list.length ({ st with d := d', rpostcount := list.length }, 0, false) := by
    refine ⟨_, [], st.rootlist, hsim, ⟨rfl, fun b hb => ?_, by simp, fun b hb => .inr hb, by simpa using hnodup,
      by simpa using hsub, fun _ => by simp, by simp, fun _ => rfl, by simp, fun r _ hr => ?_⟩, rfl, rfl, rfl⟩
    · simp [Search.initial] at hb
    · simp [Search.initial] at hr
  obtain ⟨⟨st', extra⟩, hrun, s, done, todo, hs, hround, hroot, hall⟩ := loop_bounded Inv Post hbody hstart
    (Nat.lt_succ_self _)
  refine ⟨st', extra, s, done, todo, ?_, hs, hround, hroot, hall⟩
  simp only [spanRound, hclear, ok_bind]
  exact hrun

end GhidraDecompiler.Block
