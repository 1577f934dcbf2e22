import GhidraDecompiler.Block.StructureLoops
import GhidraDecompiler.Block.SpanningForest
import GhidraDecompiler.Lib.LoopHeads

namespace GhidraDecompiler.Block

open Fallible Flow FlowBlock

variable {d₀ d d' : Blocks} {list : List BlockId} {s : Search BlockId} {cm cm' : BlockId → BlockId}
  {irr irr' : BlockId → Nat → Prop} {M : Set BlockId} {b x m : BlockId}

/-- The labels of the search that are left as they are. -/
def keptFlags : Flags := fTreeEdge ||| fBackEdge ||| fLoopEdge

/-- A block without what is written while loops are looked for. -/
def loopFrame (b : FlowBlock) : FlowBlock := { frame b with flags := b.flags &&& ~~~fMark }

/-- The state while loops are looked for: `cm` says which block stands for which
one, and `irr` which edges were found to be irreducible. -/
structure Looping (d₀ : Blocks) (list : List BlockId) (s : Search BlockId) (d : Blocks) (cm : BlockId → BlockId)
    (irr : BlockId → Nat → Prop) : Prop where
  nextId : d.nextId = d₀.nextId
  live : ∀ b, d.Live b ↔ d₀.Live b
  blocks : ∀ b, loopFrame (blk d b) = loopFrame (blk d₀ b)
  edges : SameEdges d₀ d
  visit : ∀ b ∈ list, (blk d b).visitcount = s.visit b
  numdesc : ∀ b ∈ list, (blk d b).numdesc = s.size b
  copymap : ∀ b ∈ list, (blk d b).copymap = some (cm b)
  labels : ∀ b ∈ list, ∀ dir i e, edge? d dir b i = some e →
    e.label &&& keptFlags = classBits (s.cls (origin dir b i e).1 (origin dir b i e).2) &&& keptFlags ∧
      (e.label &&& fIrreducible ≠ 0#32 ↔ irr (origin dir b i e).1 (origin dir b i e).2)

theorem Spanned.looping {graph : BlockId} {rootlist : List BlockId} (h : Spanned d₀ graph d s rootlist) :
    Looping d₀ (blk d₀ graph).list s d id fun _ _ => False := by
  refine ⟨h.shows.frame.nextId, h.shows.frame.live, fun b => ?_, h.shows.frame.edges, fun b hb => h.visitcount_eq hb,
    fun b hb => h.numdesc_eq hb, fun b hb => h.shows.copymap b hb, fun b hb dir i e he => ?_⟩
  · rw [loopFrame, h.shows.frame.blocks b, h.shows.frame.flags b, loopFrame]
  · have hspan := h.shows.labels b hb dir i e he
    refine ⟨and_flag_of_span hspan (by decide), ?_⟩
    rw [and_flag_of_span hspan (by decide)]
    cases s.cls (origin dir b i e).1 (origin dir b i e).2 with
    | none => simp [classBits]
    | some c => cases c <;> simp <;> decide

namespace Looping

/-- A change to one label that may make the edge irreducible. -/
theorem relabel (h : Looping d₀ list s d cm irr) (hr : Reciprocal d₀) {v : BlockId} {i : Nat} {e : BlockEdge}
    (he : edge? d .outof v i = some e) {f : Flags → Flags} {P : Prop}
    (hstrip : ∀ l, f l &&& ~~~spanFlags = l &&& ~~~spanFlags) (hkept : ∀ l, f l &&& keptFlags = l &&& keptFlags)
    (hirr : ∀ l, f l &&& fIrreducible ≠ 0#32 ↔ l &&& fIrreducible ≠ 0#32 ∨ P) :
    ∃ d', relabelOutEdge d v i f = .ok d' ∧ SameCore d d' ∧
      Looping d₀ list s d' cm fun v' j => irr v' j ∨ P ∧ v' = v ∧ j = i := by
  obtain ⟨d', hrun, hcore, hedge⟩ := relabelOutEdge_spec (h.edges.reciprocal hr) he f
  have hblk (b : BlockId) := hcore.blk_core b
  refine ⟨d', hrun, hcore, hcore.nextId.trans h.nextId, fun b => (hcore.live b).trans (h.live b), fun b => ?_,
    fun dir b j => ?_, fun b hb => ?_, fun b hb => ?_, fun b hb => ?_, fun b hb dir j e' he' => ?_⟩
  · rw [← h.blocks b, loopFrame, frame, hblk b, hcore.flags b, loopFrame, frame]
  · exact (SameEdges.relabel hstrip hedge dir b j).trans (h.edges dir b j)
  · exact (congrArg FlowBlock.visitcount (hblk b)).trans (h.visit b hb)
  · exact (congrArg FlowBlock.numdesc (hblk b)).trans (h.numdesc b hb)
  · exact (congrArg FlowBlock.copymap (hblk b)).trans (h.copymap b hb)
  · rw [hedge, Option.map_eq_some_iff] at he'
    obtain ⟨g, hg, rfl⟩ := he'
    obtain ⟨hold, hold'⟩ := h.labels b hb dir j g hg
    by_cases ho : origin dir b j g = (v, i)
    · have ho' : origin dir b j (Block.relabel f g) = (v, i) := by cases dir <;> exact ho
      rw [ho] at hold hold'
      rw [if_pos ho, ho', Block.relabel, hkept, hirr, hold']
      exact ⟨hold, by simp⟩
    · rw [if_neg ho]
      refine ⟨hold, hold'.trans ?_⟩
      have hne : ¬ ((origin dir b j g).1 = v ∧ (origin dir b j g).2 = i) := fun hand => ho (Prod.ext hand.1 hand.2)
      simp [hne]

/-- Marking a block or taking its mark away is not seen. -/
theorem update_flags (h : Looping d₀ list s d cm irr) (hb : d.Live b) {f : Flags → Flags}
    (hf : ∀ fl, f fl &&& ~~~fMark = fl &&& ~~~fMark) :
    Looping d₀ list s (d.update b fun x => { x with flags := f x.flags }) cm irr := by
  have hedges (x : FlowBlock) (dir : Dir) : ({ x with flags := f x.flags } : FlowBlock).edges dir = x.edges dir := by
    cases dir <;> rfl
  refine ⟨by simpa using h.nextId, fun c => by simpa using h.live c, fun c => ?_, fun dir c i => ?_, fun c hc => ?_,
    fun c hc => ?_, fun c hc => ?_, fun c hc dir i e he => ?_⟩
  · rw [← h.blocks c, blk_update hb]
    split
    next heq => simp [heq, loopFrame, frame, core, hf]
    next => rfl
  · rw [edge?_update hb hedges]
    exact h.edges dir c i
  · rw [← h.visit c hc, blk_update hb]
    split
    next heq => rw [heq]
    next => rfl
  · rw [← h.numdesc c hc, blk_update hb]
    split
    next heq => rw [heq]
    next => rfl
  · rw [← h.copymap c hc, blk_update hb]
    split
    next heq => rw [heq]
    next => rfl
  · rw [edge?_update hb hedges] at he
    exact h.labels c hc dir i e he

end Looping

/-- The flags that are kept are read off the class. -/
theorem Looping.and_flag (h : Looping d₀ list s d cm irr) {dir : Dir} {i : Nat} {e : BlockEdge} (hb : b ∈ list)
    (he : edge? d dir b i = some e) (fl : Flags) (hfl : keptFlags &&& fl = fl) :
    e.label &&& fl = classBits (s.cls (origin dir b i e).1 (origin dir b i e).2) &&& fl := by
  rw [← hfl, ← BitVec.and_assoc, (h.labels b hb dir i e he).1, BitVec.and_assoc]

theorem Looping.edge?_eq (h : Looping d₀ list s d cm irr) (h' : Looping d₀ list s d' cm' irr') {dir : Dir} {i : Nat}
    {e : BlockEdge} (he : edge? d dir b i = some e) :
    ∃ f, edge? d' dir b i = some f ∧ f.point = e.point ∧ f.reverseIndex = e.reverseIndex := by
  obtain ⟨g, hg, hgp, hgr⟩ := h.edges.edge?_eq he
  obtain ⟨f, hf, hfp, hfr⟩ := h'.edges.symm.edge?_eq hg
  exact ⟨f, hf, hfp.trans hgp, hfr.trans hgr⟩

/-- The blocks of `U` carry the mark, and besides them at most those of `M`. -/
structure Marks (list : List BlockId) (M : Set BlockId) (U : List BlockId) (d : Blocks) : Prop where
  on : ∀ b ∈ U, (blk d b).isMark = true
  off : ∀ b ∈ list, (blk d b).isMark = true → b ∈ M ∨ b ∈ U

/-- A block is put into the queue. -/
theorem Looping.push {U : List BlockId} (h : Looping d₀ list s d cm irr) (hm : Marks list M U d) (hb : d.Live b) :
    Looping d₀ list s (d.update b setMark) cm irr ∧ Marks list M (U ++ [b]) (d.update b setMark) ∧
      ∀ dir c i, edge? (d.update b setMark) dir c i = edge? d dir c i := by
  refine ⟨h.update_flags hb fun fl => Flags.set_and_of_disjoint (by decide), ⟨fun c hc => ?_, fun c hc hmark => ?_⟩,
    edge?_update hb fun x dir => by cases dir <;> rfl⟩
  · by_cases hcb : c = b
    · rw [hcb, blk_update_self hb]
      exact isMark_setMark _
    · rw [blk_update_ne hcb]
      exact hm.on c (by simpa [hcb] using hc)
  · by_cases hcb : c = b
    · exact .inr (by simp [hcb])
    · rw [blk_update_ne hcb] at hmark
      exact (hm.off c hc hmark).imp_right (List.mem_append_left _)

theorem Marks.of_sameCore {U : List BlockId} (h : Marks list M U d) (hc : SameCore d d') : Marks list M U d' := by
  have hmark (b : BlockId) : (blk d' b).isMark = (blk d b).isMark := by rw [isMark, hc.flags b, isMark]
  exact ⟨fun b hb => by rw [hmark, h.on b hb], fun b hb hm => h.off b hb (by rwa [hmark] at hm)⟩

theorem isMark_collapse (x : BlockId) (b : FlowBlock) : (Reaching.collapse x b).isMark = false := by
  have h : (b.flags &&& ~~~fMark) &&& fMark = 0#32 := Flags.clear_and_of_subset (by decide)
  simpa [isMark, Reaching.collapse, clearMark] using h

/-- The blocks of the queue lose their marks and are represented by the head. -/
theorem Looping.collapse {U : List BlockId} (h : Looping d₀ list s d cm irr) (hm : Marks list M U d)
    (hnext : d'.nextId = d.nextId) (hlive : ∀ b, d'.Live b ↔ d.Live b)
    (hblk : ∀ b, blk d' b = if b ∈ U then Reaching.collapse x (blk d b) else blk d b) :
    Looping d₀ list s d' (fun b => if b ∈ U then x else cm b) irr ∧ Marks list M [] d' := by
  have hedge (dir : Dir) (b : BlockId) (i : Nat) : edge? d' dir b i = edge? d dir b i := by
    rw [edge?, hblk, edge?]
    split
    next => cases dir <;> rfl
    next => rfl
  refine ⟨⟨hnext.trans h.nextId, fun b => (hlive b).trans (h.live b), fun b => ?_, fun dir b i => ?_, fun b hb => ?_,
    fun b hb => ?_, fun b hb => ?_, fun b hb dir i e he => ?_⟩, ⟨by simp, fun b hb hmark => ?_⟩⟩
  · rw [← h.blocks b, hblk]
    split
    next => simp [loopFrame, frame, core, Reaching.collapse, clearMark, BitVec.and_assoc]
    next => rfl
  · rw [hedge]
    exact h.edges dir b i
  · rw [← h.visit b hb, hblk]
    split <;> rfl
  · rw [← h.numdesc b hb, hblk]
    split <;> rfl
  · rw [hblk]
    split
    next => rfl
    next => exact h.copymap b hb
  · rw [hedge] at he
    exact h.labels b hb dir i e he
  · rw [hblk] at hmark
    split at hmark
    next => simp [isMark_collapse] at hmark
    next hbU => exact (hm.off b hb hmark).imp_right fun hmem => absurd hmem hbU

section Head

variable {graph : BlockId} {rootlist : List BlockId} {d₁ : Blocks}

namespace Spanned

variable (hs : Spanned d₀ graph d₁ s rootlist)

include hs

theorem source (z m : BlockId) (hm : m ∈ s.pre) (hz : m ∈ points d₀ .outof z) : z ∈ s.pre :=
  (hs.mem z).mpr (hs.flow.inside m ((hs.mem m).mp hm) .into (hs.flow.reciprocal.mem_points_op.mp hz))

/-- An in edge of a block of the graph, seen from its other end. -/
theorem of_into (h : Looping d₀ (blk d₀ graph).list s d cm irr) (hm : m ∈ (blk d₀ graph).list) {k : Nat} {e : BlockEdge}
    (he : edge? d .into m k = some e) :
    e.point ∈ (blk d₀ graph).list ∧ (points d₀ .outof e.point)[e.reverseIndex]? = some m ∧
      ∃ e', edge? d .outof e.point e.reverseIndex = some e' := by
  obtain ⟨-, e', he', hp, -⟩ := h.edges.reciprocal hs.flow.reciprocal .into m k e he (by simp)
  have hout : (points d₀ .outof e.point)[e.reverseIndex]? = some m := by
    rw [← h.edges.points, points_getElem?]
    exact (congrArg _ he').trans (by rw [Option.map_some, hp])
  refine ⟨hs.flow.inside m hm .into ?_, hout, e', he'⟩
  exact hs.flow.reciprocal.mem_points_op.mp (List.mem_of_getElem? hout)

theorem exists_into (h : Looping d₀ (blk d₀ graph).list s d cm irr) {z : BlockId} {i : Nat}
    (hz : (points d₀ .outof z)[i]? = some m) :
    ∃ k e, edge? d .into m k = some e ∧ e.point = z ∧ e.reverseIndex = i := by
  rw [← h.edges.points, points_getElem?, Option.map_eq_some_iff] at hz
  obtain ⟨e, he, rfl⟩ := hz
  obtain ⟨-, e', he', hp, hr, -⟩ := h.edges.reciprocal hs.flow.reciprocal .outof z i e he (by simp)
  exact ⟨e.reverseIndex, e', he', hp, hr⟩

end Spanned

variable (hs : Spanned d₀ graph d₁ s rootlist) (hn : s.Nested (s.visit x + 1) cm) (hx : x ∈ (blk d₀ graph).list)

include hs hn hx

theorem startSlots_spec {st : Reaching} (h : Looping d₀ (blk d₀ graph).list s st.d cm irr)
    (hmarks : Marks (blk d₀ graph).list M st.reachunder st.d) (hempty : st.reachunder = []) :
    ∃ st', (List.range (blk st.d x).intothis.length).foldlM (Reaching.startSlot x) st = .ok st' ∧
      Looping d₀ (blk d₀ graph).list s st'.d cm irr ∧ Marks (blk d₀ graph).list M st'.reachunder st'.d ∧
      (∀ m ∈ st'.reachunder, s.Under (points d₀ .outof) cm x m) ∧
      (∀ y i, s.cls y i = some .back → (points d₀ .outof y)[i]? = some x → y ≠ x → cm y ∈ st'.reachunder) ∧
      st'.reachunder.length ≤ (points d₀ .into x).length ∧ st'.needrebuild = st.needrebuild := by
  have hsize : (blk st.d x).intothis.length = (points d₀ .into x).length := by
    rw [← h.edges.points, points, List.length_map, FlowBlock.edges]
  let Inv : Nat → Reaching → Prop := fun k st' => Looping d₀ (blk d₀ graph).list s st'.d cm irr ∧
    Marks (blk d₀ graph).list M st'.reachunder st'.d ∧ (∀ m ∈ st'.reachunder, s.Under (points d₀ .outof) cm x m) ∧
    (∀ j < k, ∀ e, edge? st'.d .into x j = some e → e.label &&& fBackEdge ≠ 0#32 → e.point ≠ x →
      cm e.point ∈ st'.reachunder) ∧ st'.reachunder.length ≤ k ∧ st'.needrebuild = st.needrebuild
  have hstep (k : Nat) (hk : k < (points d₀ .into x).length) (st' : Reaching) (hi : Inv k st') :
      ∃ st'', Reaching.startSlot x st' (0 + k) = .ok st'' ∧ Inv (k + 1) st'' := by
    obtain ⟨hl, hm, hu, hb, hlen, hneed⟩ := hi
    rw [Nat.zero_add]
    obtain ⟨e, he⟩ : ∃ e, edge? st'.d .into x k = some e := exists_edge? (by rwa [hl.edges.points])
    have hget : getIdx (blk st'.d x).intothis k = .ok e := getIdx_eq he
    have hgetx := get_of_live ((hl.live x).mpr (hs.flow.list_live x hx))
    obtain ⟨hp, hout, -⟩ := hs.of_into hl hx he
    have hlast {st'' : Reaching} (hedge : ∀ j, edge? st''.d .into x j = edge? st'.d .into x j)
        (hsub : st'.reachunder ⊆ st''.reachunder)
        (hnew : e.label &&& fBackEdge ≠ 0#32 → e.point ≠ x → cm e.point ∈ st''.reachunder) :
        ∀ j < k + 1, ∀ e, edge? st''.d .into x j = some e → e.label &&& fBackEdge ≠ 0#32 → e.point ≠ x →
          cm e.point ∈ st''.reachunder := by
      intro j hj f hf hback hne
      rw [hedge] at hf
      rcases Nat.lt_succ_iff_lt_or_eq.mp hj with hj | rfl
      · exact hsub (hb j hj f hf hback hne)
      · obtain rfl : e = f := Option.some_inj.mp (he.symm.trans hf)
        exact hnew hback hne
    by_cases hback : e.label &&& fBackEdge = 0#32
    · refine ⟨st', ?_, hl, hm, hu, hlast (fun _ => rfl) (fun _ h => h) (fun hne => absurd hback hne), by omega, hneed⟩
      simp only [Reaching.startSlot, hgetx, ok_bind, hget, if_pos hback, pure_eq_ok]
    · by_cases hself : e.point = x
      · refine ⟨st', ?_, hl, hm, hu, hlast (fun _ => rfl) (fun _ h => h) (fun _ hne => absurd hself hne), by omega, hneed⟩
        simp only [Reaching.startSlot, hgetx, ok_bind, hget, if_neg hback, if_pos hself, pure_eq_ok]
      · have hcls : s.cls e.point e.reverseIndex = some .back :=
          eq_back_of_and (hl.and_flag hx he fBackEdge (by decide) ▸ hback)
        have hcm := (hs.mem _).mp (hn e.point ((hs.mem _).mpr hp)).1
        have hlive : st'.d.Live (cm e.point) := (hl.live _).mpr (hs.flow.list_live _ hcm)
        obtain ⟨hl', hm', hedge⟩ := hl.push hm hlive
        refine ⟨{ st' with d := st'.d.update (cm e.point) setMark, reachunder := st'.reachunder ++ [cm e.point] }, ?_, hl', hm',
          ?_, hlast (fun j => hedge .into x j) (fun c hc => List.mem_append_left _ hc) (fun _ _ => by simp), ?_, hneed⟩
        · simp only [Reaching.startSlot, hgetx, ok_bind, hget, if_neg hback, if_neg hself,
            get_of_live ((hl.live _).mpr (hs.flow.list_live _ hp)), hl.copymap _ hp, expect_some,
            Arena.modify_eq _ hlive, pure_eq_ok]
        · intro c hc
          rcases List.mem_append.mp hc with hc | hc
          · exact hu c hc
          · exact List.mem_singleton.mp hc ▸ .back hcls hout hself
        · simp only [List.length_append, List.length_singleton]
          omega
  obtain ⟨st', hrun, hl, hm, hu, hb, hlen, hneed⟩ := foldlM_range'_total Inv 0 (points d₀ .into x).length hstep (s := st)
    ⟨h, hmarks, by simp [hempty], by simp, by simp [hempty], rfl⟩
  rw [hsize, List.range_eq_range']
  refine ⟨st', hrun, hl, hm, hu, fun y i hy hyx hne => ?_, hlen, hneed⟩
  obtain ⟨k, e, he, rfl, rfl⟩ := hs.exists_into hl hyx
  have hk : k < (points d₀ .into x).length := by
    rw [← hl.edges.points]
    exact lt_length_points he
  refine hb k hk e he ?_ hne
  rw [hl.and_flag hx he fBackEdge (by decide), origin, hy]
  decide

end Head

/-- The queue while the loop with head `x` is looked for. It starts with `first`,
and `irr` says which edges were irreducible before. -/
structure Queue (d₀ : Blocks) (list : List BlockId) (s : Search BlockId) (x : BlockId) (M : Set BlockId)
    (cm : BlockId → BlockId) (irr : BlockId → Nat → Prop) (first : List BlockId) (st : Reaching)
    (irr' : BlockId → Nat → Prop) : Prop where
  looping : Looping d₀ list s st.d cm irr'
  marks : Marks list M st.reachunder st.d
  under : ∀ m ∈ st.reachunder, s.Under (points d₀ .outof) cm x m
  order : ∃ second, st.reachunder = first ++ second ∧ second.Nodup
  found : ∀ z i, irr' z i → irr z i ∨ ∃ m ∈ st.reachunder, (points d₀ .outof z)[i]? = some m ∧ ¬ s.Inside x (cm z)
  mono : ∀ z i, irr z i → irr' z i
  rebuild : st.needrebuild = false

/-- The search need not follow the edge in slot `i` of `z` any more. -/
def Seen (x : BlockId) (M : Set BlockId) (cm : BlockId → BlockId) (reachunder : List BlockId)
    (irr : BlockId → Nat → Prop) (z : BlockId) (i : Nat) : Prop :=
  irr z i ∨ cm z = x ∨ cm z ∈ reachunder ∨ cm z ∈ M

theorem Seen.mono {U U' : List BlockId} {z : BlockId} {i : Nat} (h : Seen x M cm U irr z i) (hU : U ⊆ U')
    (hirr : ∀ z i, irr z i → irr' z i) : Seen x M cm U' irr' z i :=
  h.imp (hirr z i) (Or.imp_right (Or.imp_left fun hu => hU hu))

section Head

variable {graph : BlockId} {rootlist first : List BlockId} {d₁ : Blocks} {st : Reaching} {k : Nat} {e : BlockEdge}
  (hs : Spanned d₀ graph d₁ s rootlist) (hn : s.Nested (s.visit x + 1) cm) (hx : x ∈ (blk d₀ graph).list)

include hs hn hx

theorem Queue.below (h : Queue d₀ (blk d₀ graph).list s x M cm irr first st irr') (hm : m ∈ st.reachunder) :
    m ∈ (blk d₀ graph).list ∧ s.visit x < s.visit m ∧ s.visit m < s.last x := by
  obtain ⟨hmp, hlow⟩ := (h.under m hm).inside hs.inv hn ((hs.mem x).mpr hx) hs.source
  exact ⟨(hs.mem m).mp hmp, hlow⟩

/-- An edge that comes from outside is no tree edge, and becomes irreducible. -/
theorem markSlot_spec (h : Queue d₀ (blk d₀ graph).list s x M cm irr first st irr') (hm : m ∈ st.reachunder)
    (he : edge? st.d .into m k = some e) (hout : ¬ s.Inside x (cm e.point)) :
    ∃ st', Reaching.markSlot m st k e = .ok st' ∧ st'.reachunder = st.reachunder ∧
      Queue d₀ (blk d₀ graph).list s x M cm irr first st' fun z i => irr' z i ∨ z = e.point ∧ i = e.reverseIndex := by
  obtain ⟨hml, hxm, hmx⟩ := h.below hs hn hx hm
  obtain ⟨-, hzm, e', he'⟩ := hs.of_into h.looping hml he
  obtain ⟨d', hrun, hcore, hl⟩ := h.looping.relabel hs.flow.reciprocal he' (f := (· ||| fIrreducible)) (P := True)
    (fun l => Flags.set_and_of_disjoint (by decide)) (fun l => Flags.set_and_of_disjoint (by decide))
    (fun l => by simpa using Flags.set_and_ne_zero (by decide))
  obtain ⟨f, hf, hfp, hfr⟩ := h.looping.edge?_eq hl he
  obtain ⟨f', hf', -⟩ := h.looping.edge?_eq hl he'
  obtain ⟨d'', hrun', hcore', hl'⟩ := hl.relabel hs.flow.reciprocal hf' (f := (· &&& ~~~(fCrossEdge ||| fForwardEdge)))
    (P := False) (fun l => Flags.clear_and_of_disjoint (by decide)) (fun l => Flags.clear_and_of_disjoint (by decide))
    (fun l => by rw [Flags.clear_and_of_disjoint (by decide)]; simp)
  have htree : ¬ f.label &&& fTreeEdge ≠ 0#32 := by
    rw [hl.and_flag hml hf fTreeEdge (by decide), origin, hfp, hfr]
    exact fun hne => hout (hs.inv.tree_inside hn ((hs.mem x).mpr hx) hxm hmx (eq_tree_of_and hne) hzm)
  have hget : getIdx (blk d' m).intothis k = .ok f := getIdx_eq hf
  refine ⟨{ st with d := d'', irreduciblecount := st.irreduciblecount + 1 }, ?_, rfl, ?_⟩
  · rw [Reaching.markSlot, blockSetOutEdgeFlag_eq, hrun]
    simp only [ok_bind, get_of_live (live_of_edge? hf), hget, if_neg htree, blockClearOutEdgeFlag_eq, hrun', pure_eq_ok]
  · refine ⟨by simpa using hl', (h.marks.of_sameCore hcore).of_sameCore hcore', h.under, h.order, fun z i hz => ?_,
      fun z i hz => .inl (h.mono z i hz), h.rebuild⟩
    rcases hz with hz | ⟨rfl, rfl⟩
    · exact h.found z i hz
    · exact .inr ⟨m, hm, hzm, hout⟩

theorem reachSlot_spec (h : Queue d₀ (blk d₀ graph).list s x M cm irr first st irr') (hm : m ∈ st.reachunder)
    (he : edge? st.d .into m k = some e) :
    ∃ st' irr'', Reaching.reachSlot x m st k = .ok st' ∧ Queue d₀ (blk d₀ graph).list s x M cm irr first st' irr'' ∧
      st.reachunder <+: st'.reachunder ∧ (∀ z i, irr' z i → irr'' z i) ∧
      Seen x M cm st'.reachunder irr'' e.point e.reverseIndex := by
  obtain ⟨hml, -⟩ := h.below hs hn hx hm
  obtain ⟨hp, hzm, -⟩ := hs.of_into h.looping hml he
  have hcm := (hs.mem _).mp (hn e.point ((hs.mem _).mpr hp)).1
  have hget : getIdx (blk st.d m).intothis k = .ok e := getIdx_eq he
  have hlive (b : BlockId) (hb : b ∈ (blk d₀ graph).list) : st.d.Live b :=
    (h.looping.live b).mpr (hs.flow.list_live b hb)
  have houtside : ((blk st.d x).visitcount > (blk st.d (cm e.point)).visitcount ∨
      (blk st.d x).visitcount + (blk st.d x).numdesc ≤ (blk st.d (cm e.point)).visitcount) ↔
      ¬ s.Inside x (cm e.point) := by
    rw [h.looping.visit x hx, h.looping.visit _ hcm, h.looping.numdesc x hx, Search.Inside, hs.last_eq]
    omega
  have hrun : Reaching.reachSlot x m st k = if e.label &&& fIrreducible ≠ 0#32 then pure st else
      if ¬ s.Inside x (cm e.point) then Reaching.markSlot m st k e else
      if (blk st.d (cm e.point)).isMark = false ∧ cm e.point ≠ x then
        pure { st with d := st.d.update (cm e.point) setMark, reachunder := st.reachunder ++ [cm e.point] }
      else pure st := by
    simp only [Reaching.reachSlot, get_of_live (hlive m hml), ok_bind, hget, get_of_live (hlive _ hp),
      h.looping.copymap _ hp, expect_some, get_of_live (hlive x hx), get_of_live (hlive _ hcm), houtside,
      Arena.modify_eq _ (hlive _ hcm)]
  rw [hrun]
  by_cases hirr : e.label &&& fIrreducible ≠ 0#32
  · exact ⟨st, irr', if_pos hirr, h, List.prefix_rfl, fun _ _ hz => hz,
      .inl ((h.looping.labels m hml .into k e he).2.mp hirr)⟩
  rw [if_neg hirr]
  by_cases hin : s.Inside x (cm e.point)
  · rw [if_neg (not_not.mpr hin)]
    by_cases hnew : (blk st.d (cm e.point)).isMark = false ∧ cm e.point ≠ x
    · rw [if_pos hnew]
      obtain ⟨hl, hmarks, -⟩ := h.looping.push h.marks (hlive _ hcm)
      have hfresh : cm e.point ∉ st.reachunder := fun hmem => by simp [h.marks.on _ hmem] at hnew
      refine ⟨_, irr', rfl, ⟨hl, hmarks, fun c hc => ?_, ?_, fun z i hz => ?_, h.mono, h.rebuild⟩,
        List.prefix_append _ _, fun _ _ hz => hz, .inr (.inr (.inl (by simp)))⟩
      · rcases List.mem_append.mp hc with hc | hc
        · exact h.under c hc
        · exact List.mem_singleton.mp hc ▸ .step (h.under m hm) hzm hin hnew.2
      · obtain ⟨second, hsecond, hnodup⟩ := h.order
        rw [hsecond] at hfresh
        refine ⟨second ++ [cm e.point], by simp [hsecond], hnodup.append (List.nodup_singleton _) ?_⟩
        simpa using fun hmem => hfresh (List.mem_append_right _ hmem)
      · refine (h.found z i hz).imp_right fun hfound => ?_
        obtain ⟨c, hc, hrest⟩ := hfound
        exact ⟨c, List.mem_append_left _ hc, hrest⟩
    · rw [if_neg hnew]
      refine ⟨st, irr', rfl, h, List.prefix_rfl, fun _ _ hz => hz, ?_⟩
      by_cases hself : cm e.point = x
      · exact .inr (.inl hself)
      · have hmark : (blk st.d (cm e.point)).isMark = true := by simpa [hself] using hnew
        exact .inr (.inr ((h.marks.off _ hcm hmark).symm))
  · rw [if_pos hin]
    obtain ⟨st', hrun', hsame, hq⟩ := markSlot_spec hs hn hx h hm he hin
    exact ⟨st', _, hrun', hq, hsame ▸ List.prefix_rfl, fun z i hz => .inl hz, .inl (.inr ⟨rfl, rfl⟩)⟩

/-- All edges into one block of the queue are looked at. -/
theorem reachSlots_spec (h : Queue d₀ (blk d₀ graph).list s x M cm irr first st irr') (hm : m ∈ st.reachunder) :
    ∃ st' irr'', (List.range (blk st.d m).intothis.length).foldlM (Reaching.reachSlot x m) st = .ok st' ∧
      Queue d₀ (blk d₀ graph).list s x M cm irr first st' irr'' ∧ st.reachunder <+: st'.reachunder ∧
      (∀ z i, irr' z i → irr'' z i) ∧
      ∀ z i, (points d₀ .outof z)[i]? = some m → Seen x M cm st'.reachunder irr'' z i := by
  have hsize : (blk st.d m).intothis.length = (points d₀ .into m).length := by
    rw [← h.looping.edges.points, points, List.length_map, FlowBlock.edges]
  let Inv : Nat → Reaching → Prop := fun k st' => ∃ irr'', Queue d₀ (blk d₀ graph).list s x M cm irr first st' irr'' ∧
    st.reachunder <+: st'.reachunder ∧ (∀ z i, irr' z i → irr'' z i) ∧
    ∀ j < k, ∀ e, edge? st'.d .into m j = some e → Seen x M cm st'.reachunder irr'' e.point e.reverseIndex
  have hstep (k : Nat) (hk : k < (points d₀ .into m).length) (st' : Reaching) (hi : Inv k st') :
      ∃ st'', Reaching.reachSlot x m st' (0 + k) = .ok st'' ∧ Inv (k + 1) st'' := by
    obtain ⟨irr₁, hq, hpre, hirr, hseen⟩ := hi
    rw [Nat.zero_add]
    obtain ⟨e, he⟩ : ∃ e, edge? st'.d .into m k = some e := exists_edge? (by rwa [hq.looping.edges.points])
    obtain ⟨st'', irr₂, hrun, hq', hpre', hirr', hlast⟩ := reachSlot_spec hs hn hx hq (hpre.subset hm) he
    refine ⟨st'', hrun, irr₂, hq', hpre.trans hpre', fun z i hz => hirr' z i (hirr z i hz), fun j hj f hf => ?_⟩
    obtain ⟨g, hg, hgp, hgr⟩ := hq'.looping.edge?_eq hq.looping hf
    rw [← hgp, ← hgr]
    rcases Nat.lt_succ_iff_lt_or_eq.mp hj with hj | rfl
    · exact (hseen j hj g hg).mono hpre'.subset hirr'
    · obtain rfl : e = g := Option.some_inj.mp (he.symm.trans hg)
      exact hlast
  obtain ⟨st', hrun, irr'', hq, hpre, hirr, hseen⟩ := foldlM_range'_total Inv 0 (points d₀ .into m).length hstep (s := st)
    ⟨irr', h, List.prefix_rfl, fun _ _ hz => hz, by simp⟩
  rw [hsize, List.range_eq_range']
  refine ⟨st', irr'', hrun, hq, hpre, hirr, fun z i hz => ?_⟩
  obtain ⟨k, e, he, rfl, rfl⟩ := hs.exists_into hq.looping hz
  exact hseen k (by rw [← hq.looping.edges.points]; exact lt_length_points he) e he

/-- The queue is worked off. -/
theorem reachLoop_spec (h : Queue d₀ (blk d₀ graph).list s x M cm irr st.reachunder st irr)
    (hlen : st.reachunder.length ≤ k) :
    ∃ st' irr', loop (Reaching.reachPass x) (k + st.d.nextId + 1) (0, st) = .ok st' ∧
      Queue d₀ (blk d₀ graph).list s x M cm irr st.reachunder st' irr' ∧ ∀ m ∈ st'.reachunder, ∀ z i,
        (points d₀ .outof z)[i]? = some m → Seen x M cm st'.reachunder irr' z i := by
  let bound := k + st.d.nextId
  have hbound {st' : Reaching} {irr' : BlockId → Nat → Prop}
      (hq : Queue d₀ (blk d₀ graph).list s x M cm irr st.reachunder st' irr') : st'.reachunder.length ≤ bound := by
    obtain ⟨second, hsecond, hnodup⟩ := hq.order
    have hsub : second ⊆ List.range st.d.nextId := fun c hc => by
      have hcl := (hq.below hs hn hx (hsecond ▸ List.mem_append_right _ hc)).1
      exact List.mem_range.mpr (Arena.lt_of_live ((h.looping.live c).mpr (hs.flow.list_live c hcl)))
    have hle := (hnodup.subperm hsub).length_le
    rw [List.length_range] at hle
    rw [hsecond, List.length_append]
    exact Nat.add_le_add hlen hle
  let Inv : Nat → Nat × Reaching → Prop := fun n p => ∃ irr',
    Queue d₀ (blk d₀ graph).list s x M cm irr st.reachunder p.2 irr' ∧ n + p.1 = bound ∧
    ∀ j < p.1, ∀ m, p.2.reachunder[j]? = some m → ∀ z i, (points d₀ .outof z)[i]? = some m →
      Seen x M cm p.2.reachunder irr' z i
  let Post : Reaching → Prop := fun st' => ∃ irr', Queue d₀ (blk d₀ graph).list s x M cm irr st.reachunder st' irr' ∧
    ∀ m ∈ st'.reachunder, ∀ z i, (points d₀ .outof z)[i]? = some m → Seen x M cm st'.reachunder irr' z i
  have hbody (n : Nat) (p : Nat × Reaching) (hi : Inv n p) : (∃ r, Reaching.reachPass x p = .ok (.leave r) ∧ Post r) ∨
      ∃ p' n', Reaching.reachPass x p = .ok (.again p') ∧ n' < n ∧ Inv n' p' := by
    obtain ⟨q, st'⟩ := p
    obtain ⟨irr', hq, hn', hseen⟩ := hi
    cases hmem : st'.reachunder[q]? with
    | none =>
        refine .inl ⟨st', by simp [Reaching.reachPass, hmem], irr', hq, fun m hm => ?_⟩
        obtain ⟨j, hj⟩ := List.mem_iff_getElem?.mp hm
        obtain ⟨hlt, -⟩ := List.getElem?_eq_some_iff.mp hj
        exact hseen j (hlt.trans_le (List.getElem?_eq_none_iff.mp hmem)) m hj
    | some m =>
        have hm := List.mem_of_getElem? hmem
        obtain ⟨hlt, -⟩ := List.getElem?_eq_some_iff.mp hmem
        have hle : st'.reachunder.length ≤ bound := hbound hq
        have hpos : n + q = bound := hn'
        obtain ⟨st'', irr'', hrun, hq', hpre, hirr, hlast⟩ := reachSlots_spec hs hn hx hq hm
        refine .inr ⟨(q + 1, st''), n - 1, ?_, by omega, irr'', hq', by omega, fun j hj c hc => ?_⟩
        · have hlive := (hq.looping.live m).mpr (hs.flow.list_live m (hq.below hs hn hx hm).1)
          simp only [Reaching.reachPass, hmem, get_of_live hlive, ok_bind, hrun, pure_eq_ok]
        · have hj' : j < st'.reachunder.length := by omega
          obtain ⟨t, ht⟩ := hpre
          rw [← ht, List.getElem?_append_left hj'] at hc
          rcases Nat.lt_succ_iff_lt_or_eq.mp hj with hj | rfl
          · exact fun z i hz => (hseen j hj c hc z i hz).mono (ht ▸ List.subset_append_left _ _) hirr
          · obtain rfl : m = c := Option.some_inj.mp (hmem.symm.trans hc)
            exact hlast
  obtain ⟨st', hrun, irr', hq, hseen⟩ := loop_bounded Inv Post hbody (s := (0, st)) (k := bound + 1) (n := bound)
    ⟨irr, h, rfl, by simp⟩ (Nat.lt_succ_self _)
  exact ⟨st', irr', hrun, hq, hseen⟩

/-- One head is taken, and its loop is collapsed into it. -/
theorem visitHead_spec (h : Looping d₀ (blk d₀ graph).list s st.d cm irr) (hmarks : Marks (blk d₀ graph).list M [] st.d)
    (hempty : st.reachunder = []) (hneed : st.needrebuild = false) :
    ∃ st' U cm' irr', Reaching.visitHead st x = .ok st' ∧ Looping d₀ (blk d₀ graph).list s st'.d cm' irr' ∧
      Marks (blk d₀ graph).list M [] st'.d ∧ st'.reachunder = [] ∧ st'.needrebuild = false ∧
      s.Collapse (points d₀ .outof) x M U cm cm' irr irr' := by
  obtain ⟨st₁, hrun₁, hl₁, hm₁, hu₁, hback, hlen, hneed₁⟩ := startSlots_spec hs hn hx h (hempty ▸ hmarks) hempty
  have hq₁ : Queue d₀ (blk d₀ graph).list s x M cm irr st₁.reachunder st₁ irr :=
    ⟨hl₁, hm₁, hu₁, ⟨[], by simp, List.nodup_nil⟩, fun z i hz => .inl hz, fun _ _ hz => hz, hneed₁.trans hneed⟩
  obtain ⟨st₂, irr', hrun₂, hq, hseen⟩ := reachLoop_spec hs hn hx hq₁ hlen
  have hlive (b : BlockId) (hb : b ∈ st₂.reachunder) : st₂.d.Live b :=
    (hq.looping.live b).mpr (hs.flow.list_live b (hq.below hs hn hx hb).1)
  obtain ⟨d', hrun₃, hnext, hlive', hblk⟩ := modifyAll_spec (fun _ => Reaching.collapse x) (fun _ b => by
    simp [Reaching.collapse, clearMark, BitVec.and_assoc]) hlive
  obtain ⟨hl, hm⟩ := hq.looping.collapse hq.marks hnext hlive' hblk
  have hsize : (blk st.d x).intothis.length = (points d₀ .into x).length := by
    rw [← h.edges.points, points, List.length_map, FlowBlock.edges]
  refine ⟨{ st₂ with d := d', reachunder := [] }, {b | b ∈ st₂.reachunder}, fun b => if b ∈ st₂.reachunder then x else cm b,
    irr', ?_, hl, hm, rfl, hq.rebuild, ⟨fun y i hy hyx hne => ?_, hq.under, hseen, hq.found, hq.mono, fun b => ?_⟩⟩
  · simp only [Reaching.visitHead, get_of_live ((h.live x).mpr (hs.flow.list_live x hx)), ok_bind, hrun₁, hsize ▸ hrun₂,
      hrun₃, pure_eq_ok]
  · obtain ⟨second, hsecond, -⟩ := hq.order
    exact (congrArg (cm y ∈ ·) hsecond).mpr (List.mem_append_left _ (hback y i hy hyx hne))
  · exact ⟨fun hb => if_pos hb, fun hb => if_neg hb⟩

omit hn hx

/-- All heads are taken, each one after those that were visited later. What
holds at first and is kept when a loop is collapsed, holds in the end. -/
theorem visitHeads_spec (P : List BlockId → (BlockId → BlockId) → (BlockId → Nat → Prop) → Prop)
    (hstart : P [] id fun _ _ => False)
    (hstep : ∀ before x after, s.pre.reverse = before ++ x :: after → ∀ U cm cm' irr irr', s.Nested (s.visit x + 1) cm →
      s.Collapse (points d₀ .outof) x M U cm cm' irr irr' → P before cm irr → P (before ++ [x]) cm' irr')
    (hmarks : Marks (blk d₀ graph).list M [] d₁) (n : Int) :
    ∃ st' cm irr, s.pre.reverse.foldlM Reaching.visitHead ⟨d₁, [], n, false⟩ = .ok st' ∧
      Looping d₀ (blk d₀ graph).list s st'.d cm irr ∧ Marks (blk d₀ graph).list M [] st'.d ∧ st'.needrebuild = false ∧
      P s.pre.reverse cm irr := by
  let Inv : List BlockId → Reaching → Prop := fun before st' => ∃ cm irr, Looping d₀ (blk d₀ graph).list s st'.d cm irr ∧
    Marks (blk d₀ graph).list M [] st'.d ∧ st'.reachunder = [] ∧ st'.needrebuild = false ∧
    s.Nested (s.pre.length - before.length) cm ∧ P before cm irr
  have hhead (before : List BlockId) (x : BlockId) (after : List BlockId) (hpre : s.pre.reverse = before ++ x :: after)
      (st' : Reaching) (hi : Inv before st') : ∃ st'', st'.visitHead x = .ok st'' ∧ Inv (before ++ [x]) st'' := by
    obtain ⟨cm, irr, hl, hm, hempty, hneed, hn, hP⟩ := hi
    have hsplit : s.pre = after.reverse ++ x :: before.reverse := by
      rw [← List.reverse_reverse s.pre, hpre]
      simp
    have hx : x ∈ s.pre := by simp [hsplit]
    have hvisit : s.visit x = after.length := by
      have hnodup := hs.inv.pre_nodup
      rw [hsplit, List.nodup_append] at hnodup
      rw [Search.visit, hsplit, List.idxOf_append_of_notMem fun hmem => hnodup.2.2 x hmem x (by simp) rfl]
      simp
    have hlen : s.pre.length = after.length + 1 + before.length := by
      rw [hsplit]
      simp
      omega
    have hn' : s.Nested (s.visit x + 1) cm := by rwa [hvisit, show after.length + 1 = s.pre.length - before.length by omega]
    obtain ⟨st'', U, cm', irr', hrun, hl', hm', hempty', hneed', hc⟩ :=
      visitHead_spec hs hn' ((hs.mem x).mp hx) hl hm hempty hneed
    refine ⟨st'', hrun, cm', irr', hl', hm', hempty', hneed', ?_, hstep before x after hpre U cm cm' irr irr' hn' hc hP⟩
    have hnested := hc.nested hs.inv hn' hx hs.source
    rwa [hvisit, show after.length = s.pre.length - (before ++ [x]).length by simp; omega] at hnested
  obtain ⟨st', hrun, cm, irr, hl, hm, -, hneed, -, hP⟩ := foldlM_total Inv s.pre.reverse hhead (s := ⟨d₁, [], n, false⟩)
    ⟨id, _, hs.looping, hmarks, rfl, rfl, fun b hb => ⟨hb, ⟨le_rfl, hs.inv.visit_lt_last hb⟩, .inl rfl⟩, hstart⟩
  exact ⟨st', cm, irr, hrun, hl, hm, hneed, hP⟩

end Head

end GhidraDecompiler.Block
