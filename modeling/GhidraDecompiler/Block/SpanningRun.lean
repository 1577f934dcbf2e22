import GhidraDecompiler.Block.SpanningTree
import GhidraDecompiler.Lib.EdgeClasses

namespace GhidraDecompiler.Block

open Fallible Flow FlowBlock

variable {d₀ d d' : Blocks} {graph bl b : BlockId}

/-- A block without its edge lists and the fields that the search writes. -/
def frame (b : FlowBlock) : FlowBlock :=
  { b.core with index := 0, visitcount := 0, numdesc := 0, copymap := none }

/-- An edge without the bits of its label that the search writes. -/
def strip : BlockEdge → BlockEdge := relabel (· &&& ~~~spanFlags)

/-- The edges of two states differ at most in what the search writes. -/
def SameEdges (d d' : Blocks) : Prop := ∀ dir b i, (edge? d' dir b i).map strip = (edge? d dir b i).map strip

/-- Two states that differ at most in what the search writes. -/
structure SameFrame (d d' : Blocks) : Prop where
  nextId : d'.nextId = d.nextId
  live : ∀ b, d'.Live b ↔ d.Live b
  blocks : ∀ b, frame (blk d' b) = frame (blk d b)
  edges : SameEdges d d'

namespace SameEdges

theorem symm (h : SameEdges d d') : SameEdges d' d := fun dir b i => (h dir b i).symm

theorem edge?_eq (h : SameEdges d d') {dir : Dir} {b : BlockId} {i : Nat} {e : BlockEdge}
    (he : edge? d' dir b i = some e) :
    ∃ f, edge? d dir b i = some f ∧ f.point = e.point ∧ f.reverseIndex = e.reverseIndex := by
  have heq := h dir b i
  rw [he, Option.map_some, eq_comm, Option.map_eq_some_iff] at heq
  obtain ⟨f, hf, hfe⟩ := heq
  have hp : (strip f).point = (strip e).point := by rw [hfe]
  have hr : (strip f).reverseIndex = (strip e).reverseIndex := by rw [hfe]
  exact ⟨f, hf, hp, hr⟩

theorem points (h : SameEdges d d') (dir : Dir) (b : BlockId) : points d' dir b = points d dir b := by
  refine List.ext_getElem? fun i => ?_
  have heq := congrArg (Option.map BlockEdge.point) (h dir b i)
  rwa [Option.map_map, Option.map_map, show BlockEdge.point ∘ strip = BlockEdge.point from rfl, ← points_getElem?,
    ← points_getElem?] at heq

theorem reciprocal (h : SameEdges d d') (hr : Reciprocal d) : Reciprocal d' := by
  intro dir b i e he _
  obtain ⟨f, hf, hp, hi⟩ := h.edge?_eq he
  obtain ⟨-, f', hf', hp', hi', -⟩ := hr dir b i f hf (by simp)
  rw [hp, hi] at hf'
  obtain ⟨e', he', hep, hei⟩ := h.symm.edge?_eq hf'
  exact ⟨by simp, e', he', hep.trans hp', hei.trans hi', trivial⟩

/-- A change to the label of one edge that keeps the other bits. -/
theorem relabel {f : Flags → Flags} {v : BlockId} {i : Nat} (hf : ∀ l, f l &&& ~~~spanFlags = l &&& ~~~spanFlags)
    (h : ∀ dir c j, edge? d' dir c j =
      (edge? d dir c j).map fun g => if origin dir c j g = (v, i) then Block.relabel f g else g) : SameEdges d d' := by
  intro dir c j
  rw [h, Option.map_map]
  congr 1
  funext g
  simp only [Function.comp]
  split
  · simp [strip, Block.relabel, hf]
  · rfl

end SameEdges

theorem edge?_update (hb : d.Live bl) {g : FlowBlock → FlowBlock} (he : ∀ x dir, (g x).edges dir = x.edges dir)
    (dir : Dir) (b : BlockId) (i : Nat) : edge? (d.update bl g) dir b i = edge? d dir b i := by
  rw [edge?, blk_update hb, edge?]
  split
  next h => rw [he, h]
  next => rfl

namespace SameFrame

theorem refl (d : Blocks) : SameFrame d d := ⟨rfl, fun _ => Iff.rfl, fun _ => rfl, fun _ _ _ => rfl⟩

theorem trans {d₁ d₂ d₃ : Blocks} (h : SameFrame d₁ d₂) (h' : SameFrame d₂ d₃) : SameFrame d₁ d₃ :=
  ⟨h'.nextId.trans h.nextId, fun b => (h'.live b).trans (h.live b), fun b => (h'.blocks b).trans (h.blocks b),
    fun dir b i => (h'.edges dir b i).trans (h.edges dir b i)⟩

theorem points (h : SameFrame d d') (dir : Dir) (b : BlockId) : points d' dir b = points d dir b := h.edges.points dir b

theorem reciprocal (h : SameFrame d d') (hr : Reciprocal d) : Reciprocal d' := h.edges.reciprocal hr

theorem list (h : SameFrame d d') (b : BlockId) : (blk d' b).list = (blk d b).list := by
  simpa [frame, core] using congrArg FlowBlock.list (h.blocks b)

theorem flags (h : SameFrame d d') (b : BlockId) : (blk d' b).flags = (blk d b).flags := by
  simpa [frame, core] using congrArg FlowBlock.flags (h.blocks b)

theorem update (hb : d.Live bl) {g : FlowBlock → FlowBlock} (hg : ∀ x, frame (g x) = frame x)
    (he : ∀ x dir, (g x).edges dir = x.edges dir) : SameFrame d (d.update bl g) := by
  refine ⟨by simp, by simp, fun b => ?_, fun dir b i => by rw [edge?_update hb he]⟩
  rw [blk_update hb]
  split
  next h => rw [hg, h]
  next => rfl

theorem of_sameCore (h : SameCore d d') (he : SameEdges d d') : SameFrame d d' := ⟨h.nextId, h.live, fun b => by rw [frame, h.blk_core b, frame], he⟩

end SameFrame

theorem FlowGraph.of_sameFrame (hg : FlowGraph d graph) (h : SameFrame d d') : FlowGraph d' graph := by
  refine ⟨(h.live graph).mpr hg.live, h.reciprocal hg.reciprocal, h.list graph ▸ hg.nodup, ?_, ?_⟩
  · rw [h.list graph]
    exact fun b hb => (h.live b).mpr (hg.list_live b hb)
  · rw [h.list graph]
    intro b hb dir
    rw [h.points dir b]
    exact hg.inside b hb dir

/-- The bits of a label that stand for the class of an edge. -/
def classBits : Option EdgeClass → Flags
  | none => 0
  | some .tree => fTreeEdge
  | some .back => fBackEdge ||| fLoopEdge
  | some .forward => fForwardEdge
  | some .cross => fCrossEdge

theorem classBits_and (c : Option EdgeClass) : classBits c &&& spanFlags = classBits c := by
  rcases c with _ | c
  · rfl
  · cases c <;> rfl

theorem eq_tree_of_and {c : Option EdgeClass} (h : classBits c &&& fTreeEdge ≠ 0#32) : c = some .tree := by
  match c with
  | some .tree => rfl
  | none | some .back | some .forward | some .cross => exact absurd rfl h

theorem eq_back_of_and {c : Option EdgeClass} (h : classBits c &&& fBackEdge ≠ 0#32) : c = some .back := by
  match c with
  | some .back => rfl
  | none | some .tree | some .forward | some .cross => exact absurd rfl h

/-- The blocks of the list show how far the search has come. -/
structure Shows (d₀ : Blocks) (list : List BlockId) (d : Blocks) (s : Search BlockId) : Prop where
  frame : SameFrame d₀ d
  visit : ∀ b ∈ list, (blk d b).visitcount = if b ∈ s.pre then (s.visit b : Int) else -1
  index : ∀ b ∈ list, (blk d b).index = if b ∈ s.post then (list.length : Int) - 1 - s.post.idxOf b else -1
  numdesc : ∀ b ∈ s.pre, (blk d b).numdesc = s.size b
  copymap : ∀ b ∈ list, (blk d b).copymap = some b
  labels : ∀ b ∈ list, ∀ dir i e, edge? d dir b i = some e →
    e.label &&& spanFlags = classBits (s.cls (origin dir b i e).1 (origin dir b i e).2)

namespace Shows

variable {list : List BlockId} {s t : Search BlockId}

/-- An edge that was passed is labelled with its class. -/
theorem label (h : Shows d₀ list d s) (hr : Reciprocal d₀) {v : BlockId} {i : Nat} {e : BlockEdge}
    (he : edge? d .outof v i = some e) (hnone : s.cls v i = none) (c : EdgeClass) :
    ∃ d', blockSetOutEdgeFlag d v i (classBits (some c)) = .ok d' ∧
      Shows d₀ list d' { s with cls := s.label v i c } := by
  obtain ⟨d', hrun, hcore, hedge⟩ := relabelOutEdge_spec (h.frame.reciprocal hr) he (· ||| classBits (some c))
  have hbits : classBits (some c) &&& ~~~spanFlags = 0#32 := by cases c <;> rfl
  have hblk (b : BlockId) := hcore.blk_core b
  have hsame : SameEdges d d' := .relabel (fun l => Flags.set_and_of_disjoint hbits) hedge
  refine ⟨d', hrun, h.frame.trans (.of_sameCore hcore hsame), fun b hb => ?_, fun b hb => ?_, fun b hb => ?_,
    fun b hb => ?_, fun b hb dir j e' he' => ?_⟩
  · exact (congrArg FlowBlock.visitcount (hblk b)).trans (h.visit b hb)
  · exact (congrArg FlowBlock.index (hblk b)).trans (h.index b hb)
  · exact (congrArg FlowBlock.numdesc (hblk b)).trans (h.numdesc b hb)
  · exact (congrArg FlowBlock.copymap (hblk b)).trans (h.copymap b hb)
  · rw [hedge, Option.map_eq_some_iff] at he'
    obtain ⟨g, hg, rfl⟩ := he'
    have hold := h.labels b hb dir j g hg
    simp only
    by_cases ho : origin dir b j g = (v, i)
    · have ho' : origin dir b j (relabel (· ||| classBits (some c)) g) = (v, i) := by
        cases dir <;> exact ho
      rw [ho, hnone] at hold
      rw [if_pos ho, ho', Search.label_apply, if_pos ⟨rfl, rfl⟩, relabel, BitVec.and_or_distrib_right, hold,
        classBits_and]
      exact BitVec.zero_or ..
    · rw [if_neg ho, Search.label_apply, if_neg (by simpa [Prod.ext_iff] using ho)]
      exact hold

/-- The stack of the search is not shown in the blocks. -/
theorem congr (h : Shows d₀ list d s) (hpre : t.pre = s.pre) (hpost : t.post = s.post) (hsize : t.size = s.size)
    (hcls : t.cls = s.cls) : Shows d₀ list d t := by
  obtain ⟨h₁, h₂, h₃, h₄, h₅, h₆⟩ := h
  have hvisit : t.visit = s.visit := by
    funext b
    rw [Search.visit, hpre, Search.visit]
  exact ⟨h₁, by rwa [hpre, hvisit], by rwa [hpost], by rwa [hpre, hsize], h₅, by rwa [hcls]⟩

theorem push (h : Shows d₀ list d s) {w : BlockId} (hw : d.Live w) (p : Search.Pushed s w t) (hcls : t.cls = s.cls) :
    Shows d₀ list (d.update w fun b => { b with visitcount := s.pre.length, numdesc := 1 }) t := by
  have hedges (x : FlowBlock) (dir : Dir) :
      ({ x with visitcount := s.pre.length, numdesc := 1 } : FlowBlock).edges dir = x.edges dir := by
    cases dir <;> rfl
  refine ⟨h.frame.trans (.update hw (fun _ => rfl) hedges), fun b hb => ?_, fun b hb => ?_, fun b hb => ?_,
    fun b hb => ?_, fun b hb dir i e he => ?_⟩
  · rw [blk_update hw]
    split
    next heq =>
      subst heq
      rw [if_pos (p.mem.mpr (.inr rfl)), p.visit_new]
    next hne =>
      rw [h.visit b hb]
      by_cases hbs : b ∈ s.pre
      · rw [if_pos hbs, if_pos (p.mem.mpr (.inl hbs)), p.visit_of_mem hbs]
      · rw [if_neg hbs, if_neg fun hbt => hne ((p.mem.mp hbt).resolve_left hbs)]
  · rw [p.post, ← h.index b hb, blk_update hw]
    split
    next heq => rw [heq]
    next => rfl
  · rw [p.size, blk_update hw]
    split
    next heq => rw [heq, Function.update_self]; rfl
    next hne => rw [Function.update_of_ne hne, h.numdesc b ((p.mem.mp hb).resolve_right hne)]
  · rw [← h.copymap b hb, blk_update hw]
    split
    next heq => rw [heq]
    next => rfl
  · rw [hcls]
    exact h.labels b hb dir i e (by rwa [edge?_update hw hedges] at he)

/-- A block is finished; the two assignments are those of `retire`. -/
theorem pop (h : Shows d₀ list d s) {v : BlockId} {rest : List BlockId} (hs : s.Shape) (hv : d.Live v)
    (hrest : ∀ u ∈ rest, d.Live u) (p : Search.Popped s v rest t) (hcls : t.cls = s.cls) {k : Nat}
    (hk : k + 1 + s.post.length = list.length) :
    ∃ d', Spanning.creditParent (d.update v fun b => { b with index := k }) v rest = .ok d' ∧ Shows d₀ list d' t := by
  let f : BlockId → FlowBlock → FlowBlock := fun b x =>
    { x with
      index := if b = v then k else x.index
      numdesc := if rest.head? = some b then x.numdesc + (blk d v).numdesc else x.numdesc }
  obtain ⟨d', hrun, hnext, hlive, hblk⟩ : ∃ d',
      Spanning.creditParent (d.update v fun b => { b with index := k }) v rest = .ok d' ∧ d'.nextId = d.nextId ∧
        (∀ b, d'.Live b ↔ d.Live b) ∧ ∀ b, blk d' b = f b (blk d b) := by
    have hv' : (d.update v fun b => { b with index := k }).Live v := by simpa using hv
    cases rest with
    | nil =>
        refine ⟨_, rfl, by simp, by simp, fun b => ?_⟩
        rw [blk_update hv]
        by_cases hb : b = v <;> simp [f, hb]
    | cons u rest =>
        have hu : (d.update v fun b => { b with index := k }).Live u := by simpa using hrest u (by simp)
        refine ⟨_, by rw [Spanning.creditParent, get_of_live hv', ok_bind, Arena.modify_eq _ hu], by simp, by simp, fun b => ?_⟩
        rw [blk_update hu, blk_update hv, blk_update hv, blk_update hv, if_pos rfl]
        simp only [f, List.head?_cons, Option.some_inj, eq_comm (a := u) (b := b)]
        by_cases hbu : b = u
        · subst hbu
          by_cases hb : b = v <;> simp [hb]
        · by_cases hb : b = v
          · subst hb
            simp [hbu]
          · simp [hb, hbu]
  have hframe : SameFrame d d' := by
    refine ⟨hnext, hlive, fun b => by rw [hblk]; rfl, fun dir b i => ?_⟩
    rw [edge?, hblk, edge?]
    cases dir <;> rfl
  refine ⟨d', hrun, h.frame.trans hframe, fun b hb => ?_, fun b hb => ?_, fun b hb => ?_, fun b hb => ?_,
    fun b hb dir i e he => ?_⟩
  · rw [hblk, p.pre, p.visit]
    exact h.visit b hb
  · rw [hblk, p.post]
    by_cases hbv : b = v
    · subst hbv
      have hnew : b ∉ s.post := fun hp => hs.apart b hp p.top_mem
      simp only [f, if_pos, List.mem_append, List.mem_singleton, or_true, List.idxOf_append_of_notMem hnew]
      simp
      omega
    · have hmem : b ∈ s.post ++ [v] ↔ b ∈ s.post := by simp [hbv]
      simp only [f, if_neg hbv, h.index b hb, hmem]
      split
      next hbp => rw [List.idxOf_append_of_mem hbp]
      next => rfl
  · rw [p.pre] at hb
    rw [hblk, p.size]
    cases rest with
    | nil => exact h.numdesc b hb
    | cons u rest =>
        simp only [f, List.head?_cons, Option.some_inj, Search.grown, Function.update_apply, h.numdesc b hb,
          h.numdesc v (hs.mem_of_names p.top_mem), eq_comm (a := u) (b := b)]
        split
        next heq => simp [heq]
        next => rfl
  · rw [hblk]
    exact h.copymap b hb
  · rw [hcls]
    refine h.labels b hb dir i e ?_
    rw [← he, edge?, edge?, hblk]
    cases dir <;> rfl

end Shows

/-- The state of the code at some point of a round, and the search behind it. -/
structure Sim (d₀ : Blocks) (list : List BlockId) (st : Spanning) (s : Search BlockId) : Prop where
  shows : Shows d₀ list st.d s
  inv : Search.Inv (points d₀ .outof) s
  range : Search.InRange (points d₀ .outof) s
  sub : s.pre ⊆ list
  preorder : st.preorder = s.pre
  state : st.state = s.names
  istate : st.istate = s.stack.map Prod.snd
  rpostcount : st.rpostcount + s.post.length = list.length
  length_rpostorder : st.rpostorder.length = list.length
  rpostorder : st.rpostorder.drop st.rpostcount = s.post.reverse.map some

namespace Sim

variable {list : List BlockId} {s t : Search BlockId} {st : Spanning}

theorem live (h : Sim d₀ list st s) (hg : ∀ b ∈ list, d₀.Live b) {b : BlockId} (hb : b ∈ list) : st.d.Live b :=
  (h.shows.frame.live b).mpr (hg b hb)

/-- Entering a block, as a root or along an edge that was labelled before. -/
theorem enter (h : Sim d₀ list st s) (hg : ∀ b ∈ list, d₀.Live b) {w : BlockId} (hw : w ∈ list)
    (hstep : Search.Step (points d₀ .outof) s t) (p : Search.Pushed s w t) (st₁ : Spanning)
    (hshow : Shows d₀ list st₁.d { s with cls := t.cls }) (hpre : st₁.preorder = st.preorder)
    (hstate : st₁.state = st.state) (hcount : st₁.rpostcount = st.rpostcount) (horder : st₁.rpostorder = st.rpostorder)
    (histate : 0 :: st₁.istate = t.stack.map Prod.snd) :
    ∃ st', st₁.enter w = .ok st' ∧ Sim d₀ list st' t ∧ st'.rootlist = st₁.rootlist := by
  have hlive : st₁.d.Live w := (hshow.frame.live w).mpr (hg w hw)
  have p' : Search.Pushed { s with cls := t.cls } w t := ⟨p.fresh, p.pre, p.names, p.post, p.size⟩
  have hshow' := hshow.push hlive p' rfl
  have hrun := Arena.modify_eq (fun b => { b with visitcount := st₁.preorder.length, numdesc := 1 }) hlive
  refine ⟨_, (congrArg (· >>= _) hrun).trans rfl, ⟨?_, h.inv.step hstep, h.range.step hstep, fun b hb => ?_, ?_, ?_,
    histate, ?_, ?_, ?_⟩, rfl⟩
  · rw [hpre, h.preorder]
    exact hshow'
  · rcases p.mem.mp hb with hb | rfl
    · exact h.sub hb
    · exact hw
  · rw [hpre, h.preorder, p.pre]
  · rw [hstate, h.state, p.names]
  · rw [hcount, p.post]
    exact h.rpostcount
  · rw [horder]
    exact h.length_rpostorder
  · rw [hcount, horder, p.post]
    exact h.rpostorder

theorem length_out (h : Sim d₀ list st s) (b : BlockId) :
    (blk st.d b).outofthis.length = (points d₀ .outof b).length := by
  rw [← h.shows.frame.points, points, List.length_map, edges]

/-- A block whose edges were all followed is finished. -/
theorem retire (h : Sim d₀ list st s) (hg : ∀ b ∈ list, d₀.Live b) {v : BlockId} {i : Nat} {rest : List (BlockId × Nat)}
    (hs : s.stack = (v, i) :: rest)
    (hstep : Search.Step (points d₀ .outof) s t) (p : Search.Popped s v (rest.map Prod.fst) t) (hcls : t.cls = s.cls)
    (hstack : t.stack = rest) :
    ∃ st', st.retire v (rest.map Prod.fst) = .ok st' ∧ Sim d₀ list st' t ∧ st'.rootlist = st.rootlist := by
  have hshape := h.inv.toShape
  have hv : v ∈ list := h.sub (hshape.mem_of_names p.top_mem)
  have hnodup : (v :: s.post).Nodup := List.nodup_cons.mpr ⟨fun hp => hshape.apart v hp p.top_mem, hshape.post_nodup⟩
  have hsub : v :: s.post ⊆ list := List.cons_subset.mpr ⟨hv, fun u hu => h.sub (hshape.mem_of_post hu)⟩
  have hlen := (List.Nodup.subperm hnodup hsub).length_le
  have hcount := h.rpostcount
  rw [List.length_cons] at hlen
  have hpos : st.rpostcount ≠ 0 := by omega
  obtain ⟨d', hcredit, hshow⟩ := h.shows.pop hshape (h.live hg hv)
    (fun u hu => h.live hg (h.sub (hshape.mem_of_names (by simp [p.names_old, hu])))) p hcls
    (k := st.rpostcount - 1) (by omega)
  have hset : st.rpostcount - 1 < st.rpostorder.length := by
    rw [h.length_rpostorder]
    omega
  have hrun : st.retire v (rest.map Prod.fst) = .ok { st with
      d := d', rpostorder := st.rpostorder.set (st.rpostcount - 1) (some v), rpostcount := st.rpostcount - 1,
      state := rest.map Prod.fst, istate := st.istate.tail } := by
    simp only [Spanning.retire, if_neg hpos, pure_eq_ok, ok_bind, Arena.modify_eq _ (h.live hg hv), setIdx_eq _ hset,
      hcredit]
  refine ⟨_, hrun, ⟨hshow, h.inv.step hstep, h.range.step hstep, fun b hb => h.sub (p.pre ▸ hb), ?_, ?_, ?_, ?_, ?_, ?_⟩,
    rfl⟩
  · rw [p.pre]
    exact h.preorder
  · rw [p.names]
  · rw [hstack, h.istate, hs, List.map_cons, List.tail_cons]
  · rw [p.post, List.length_append, List.length_singleton]
    dsimp only
    omega
  · rw [List.length_set]
    exact h.length_rpostorder
  · have hdrop : (st.rpostorder.set (st.rpostcount - 1) (some v)).drop (st.rpostcount - 1) =
        some v :: st.rpostorder.drop st.rpostcount := by
      rw [List.drop_eq_getElem_cons (by rwa [List.length_set]), List.getElem_set_self,
        List.drop_set_of_lt (by omega), Nat.sub_add_cancel (by omega)]
    rw [hdrop, h.rpostorder, p.post]
    simp

/-- An edge to a block that was visited before is labelled. -/
theorem relabel (h : Sim d₀ list st s) (hr : Reciprocal d₀) {v w : BlockId} {i : Nat} {rest : List (BlockId × Nat)}
    (hs : s.stack = (v, i) :: rest) {e : BlockEdge} (he : edge? st.d .outof v i = some e)
    (hw : (points d₀ .outof v)[i]? = some w) (hpre : w ∈ s.pre) (hnone : s.cls v i = none) :
    ∃ d' t, blockSetOutEdgeFlag st.d v i (classBits (some (s.classify v w))) = .ok d' ∧
      Search.Step (points d₀ .outof) s t ∧ Sim d₀ list { st with d := d', istate := (i + 1) :: rest.map Prod.snd } t := by
  obtain ⟨d', hrun, hshow⟩ := h.shows.label hr he hnone (s.classify v w)
  have hstep := Search.Step.other s v i rest w hs hw hpre
  refine ⟨d', _, hrun, hstep, hshow.congr rfl rfl rfl rfl, h.inv.step hstep, h.range.step hstep, h.sub, h.preorder, ?_, rfl,
    h.rpostcount, h.length_rpostorder, h.rpostorder⟩
  rw [h.state, Search.names, hs]
  rfl

theorem visitcount_eq_iff (h : Sim d₀ list st s) {b : BlockId} (hb : b ∈ list) :
    (blk st.d b).visitcount = -1 ↔ b ∉ s.pre := by
  rw [h.shows.visit b hb]
  split
  next hp =>
    simp only [hp, not_true, iff_false]
    omega
  next hp => simp [hp]

theorem index_eq_iff (h : Sim d₀ list st s) {b : BlockId} (hb : b ∈ list) : (blk st.d b).index = -1 ↔ b ∉ s.post := by
  rw [h.shows.index b hb]
  split
  next hp =>
    have hlt := List.idxOf_lt_length_of_mem hp
    have hcount := h.rpostcount
    simp only [hp, not_true, iff_false]
    omega
  next hp => simp [hp]

/-- Following an edge of the block on top of the stack. -/
theorem follow (h : Sim d₀ list st s) (hr : Reciprocal d₀) (hg : ∀ b ∈ list, d₀.Live b) {v w : BlockId} {i : Nat}
    {rest : List (BlockId × Nat)} (hs : s.stack = (v, i) :: rest) (hw : (points d₀ .outof v)[i]? = some w)
    (hwl : w ∈ list) {e : BlockEdge} (he : edge? st.d .outof v i = some e) (hep : e.point = w)
    (hnone : s.cls v i = none) :
    ∃ st' t, Spanning.follow { st with istate := (i + 1) :: rest.map Prod.snd } v i = .ok st' ∧
      Search.Step (points d₀ .outof) s t ∧ Sim d₀ list st' t ∧ st'.rootlist = st.rootlist := by
  have hv : v ∈ list := h.sub (h.inv.mem_of_names (by simp [Search.names_eq hs]))
  have hgetv := get_of_live (h.live hg hv)
  have hgetw := get_of_live (h.live hg hwl)
  have hedge : getIdx (blk st.d v).outofthis i = .ok e := getIdx_eq he
  by_cases hpre : w ∈ s.pre
  · obtain ⟨d', t, hrun, hstep, hsim⟩ := h.relabel hr hs he hw hpre hnone
    refine ⟨_, t, ?_, hstep, hsim, rfl⟩
    have hvisit : (blk st.d w).visitcount ≠ -1 := fun hn => (h.visitcount_eq_iff hwl).mp hn hpre
    have hcompare : (blk st.d v).visitcount < (blk st.d w).visitcount ↔ s.visit v < s.visit w := by
      rw [h.shows.visit v hv, h.shows.visit w hwl, if_pos hpre,
        if_pos (h.inv.mem_of_names (by simp [Search.names_eq hs]))]
      omega
    simp only [Spanning.follow, hgetv, ok_bind, hedge, hep, hgetw, if_neg hvisit, h.index_eq_iff hwl, hcompare]
    rw [Search.classify] at hrun
    by_cases hpost : w ∈ s.post
    · rw [if_neg (not_not.mpr hpost)] at hrun
      rw [if_neg (not_not.mpr hpost)]
      by_cases hlt : s.visit v < s.visit w
      · rw [if_pos hlt] at hrun
        rw [if_pos hlt]
        exact (congrArg (· >>= _) hrun).trans rfl
      · rw [if_neg hlt] at hrun
        rw [if_neg hlt]
        exact (congrArg (· >>= _) hrun).trans rfl
    · rw [if_pos hpost] at hrun
      rw [if_pos hpost]
      exact (congrArg (· >>= _) hrun).trans rfl
  · obtain ⟨d', hrun, hshow⟩ := h.shows.label hr he hnone .tree
    have hstep := Search.Step.tree s v i rest w hs hw hpre
    obtain ⟨st', hst', hsim, hroot⟩ := h.enter hg hwl hstep ⟨hpre, rfl, by simp [Search.names, hs], rfl, rfl⟩
      { st with d := d', istate := (i + 1) :: rest.map Prod.snd } (hshow.congr rfl rfl rfl rfl) rfl rfl rfl rfl rfl
    refine ⟨st', _, ?_, hstep, hsim, hroot⟩
    simp only [Spanning.follow, hgetv, ok_bind, hedge, hep, hgetw, if_pos ((h.visitcount_eq_iff hwl).mpr hpre)]
    exact (congrArg (· >>= _) hrun).trans hst'

theorem walk (h : Sim d₀ list st s) (hr : Reciprocal d₀) (hg : ∀ b ∈ list, d₀.Live b)
    (hin : ∀ b ∈ list, points d₀ .outof b ⊆ list) (hne : s.stack ≠ []) :
    ∃ st' t, st.walkPass = .ok (.again st') ∧ Search.Step (points d₀ .outof) s t ∧ Sim d₀ list st' t ∧
      st'.rootlist = st.rootlist := by
  obtain ⟨⟨v, i⟩, rest, hs⟩ := List.exists_cons_of_ne_nil hne
  have hstate : st.state = v :: rest.map Prod.fst := by rw [h.state, Search.names_eq hs]
  have histate : st.istate = i :: rest.map Prod.snd := by rw [h.istate, hs, List.map_cons]
  have hv : v ∈ list := h.sub (h.inv.mem_of_names (by simp [Search.names_eq hs]))
  have hgetv := get_of_live (h.live hg hv)
  by_cases hi : (points d₀ .outof v).length ≤ i
  · have hstep := Search.Step.pop s v i rest hs hi
    obtain ⟨st', hst', hsim, hroot⟩ := h.retire hg hs hstep ⟨Search.names_eq hs, rfl, rfl, rfl, rfl⟩ rfl rfl
    refine ⟨st', _, ?_, hstep, hsim, hroot⟩
    simp only [Spanning.walkPass, hstate, histate, List.head?_cons, expect_some, ok_bind, hgetv, h.length_out, if_pos hi,
      hst', pure_eq_ok]
  · have hlt : i < (points st.d .outof v).length := by
      rw [h.shows.frame.points]
      exact not_le.mp hi
    obtain ⟨e, he⟩ := exists_edge? hlt
    have hw : (points d₀ .outof v)[i]? = some e.point := by
      rw [← h.shows.frame.points, points_getElem?, he, Option.map_some]
    have hnone : s.cls v i = none := by
      by_contra hsome
      obtain ⟨c, hc⟩ := Option.ne_none_iff_exists'.mp hsome
      exact h.inv.not_passed_top hs (h.inv.labelled v i c hc).1
    have hlabel : e.label &&& fIrreducible = 0#32 := by
      have hspan := h.shows.labels v hv .outof i e he
      rw [origin, hnone, classBits] at hspan
      rw [show fIrreducible = spanFlags &&& fIrreducible from rfl, ← BitVec.and_assoc, hspan]
      exact BitVec.zero_and ..
    obtain ⟨st', t, hst', hstep, hsim, hroot⟩ := h.follow hr hg hs hw (hin v hv (List.mem_of_getElem? hw)) he rfl hnone
    refine ⟨st', t, ?_, hstep, hsim, hroot⟩
    have hedge : getIdx (blk st.d v).outofthis i = .ok e := getIdx_eq he
    simp only [Spanning.walkPass, hstate, histate, List.head?_cons, expect_some, ok_bind, hgetv, h.length_out, if_neg hi,
      hedge, hlabel, ne_eq, not_true, if_false, List.tail_cons]
    rw [hstate] at hst'
    simp only [hst', ok_bind, pure_eq_ok]

end Sim

end GhidraDecompiler.Block
