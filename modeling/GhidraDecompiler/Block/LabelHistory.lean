import GhidraDecompiler.Block.LabelCopies

namespace GhidraDecompiler.Block

open Fallible FlowBlock

variable {d d' : Blocks} {bl : BlockId} {i : Nat} {e : BlockEdge}

/-- The operations on edges and on their labels. The operations on edges are
those that stay within one graph. -/
inductive LabelOp
  | edit (op : EdgeOp) (h : ∀ graph, op ≠ .selfIdentify graph)
  | setOutEdgeFlag (bl : BlockId) (index : Nat) (lab : Flags)
  | clearOutEdgeFlag (bl : BlockId) (index : Nat) (lab : Flags)
  | clearEdgeFlags (graph : BlockId) (fl : Flags)

namespace LabelOp

def run (d : Blocks) : LabelOp → Outcome Blocks
  | edit op _ => op.run d
  | setOutEdgeFlag bl index lab => blockSetOutEdgeFlag d bl index lab
  | clearOutEdgeFlag bl index lab => blockClearOutEdgeFlag d bl index lab
  | clearEdgeFlags graph fl => blockClearEdgeFlags d graph fl

def Admissible (d : Blocks) : LabelOp → Prop
  | edit op _ => op.Admissible d
  | setOutEdgeFlag bl index _ => index < (blk d bl).outofthis.length
  | clearOutEdgeFlag bl index _ => index < (blk d bl).outofthis.length
  | clearEdgeFlags graph _ => d.Live graph ∧ ∀ b ∈ (blk d graph).list, d.Live b

/-- When an operation leaves the two copies of every label the same: two edges
that become one have the same label, of parallel edges the first has every bit
of the others, and no edge with one of the bits leads out of the graph whose
bits are cleared. -/
def Clean (d : Blocks) : LabelOp → Prop
  | edit (.replaceEdgesThru bl input out) _ => ∀ e ∈ edge? d .into bl input, ∀ g ∈ edge? d .outof bl out, e.label = g.label
  | edit (.dedup bl) _ => DedupClean d bl
  | clearEdgeFlags graph fl => ∀ b ∈ (blk d graph).list, ∀ dir i e, edge? d dir b i = some e →
      e.point ∉ (blk d graph).list → e.label &&& fl = 0#32
  | _ => True

end LabelOp

/-- The states reached from blocks without edges by operations with a condition
on the state before each. -/
inductive LabelRun (P : Blocks → LabelOp → Prop) : Blocks → Prop
  | start (d : Blocks) (hedges : ∀ b dir, (blk d b).edges dir = []) (hmarks : Unmarked d) : LabelRun P d
  | step (op : LabelOp) (d d' : Blocks) (h : LabelRun P d) (hop : P d op) (hrun : op.run d = .ok d') : LabelRun P d'

/-- The two ends of every edge name each other and carry the same label. -/
def LabelsAgree (d : Blocks) : Prop :=
  ∀ dir b i e, edge? d dir b i = some e → ∃ e', edge? d dir.op e.point e.reverseIndex = some e' ∧
    e'.point = b ∧ e'.reverseIndex = i ∧ e'.label = e.label

theorem labelsAgree_iff : LabelsAgree d ↔ Matched Eq d ∅ := by
  constructor
  · intro h dir b i e he _
    obtain ⟨e', he', hp, hr, hl⟩ := h dir b i e he
    exact ⟨by simp, e', he', hp, hr, hl.symm⟩
  · intro h dir b i e he
    obtain ⟨-, e', he', hp, hr, hl⟩ := h dir b i e he (by simp)
    exact ⟨e', he', hp, hr, hl.symm⟩

theorem origin_op {dir : Dir} {b c : BlockId} {i j : Nat} {e e' : BlockEdge} (hp : e.point = c) (hr : e.reverseIndex = j)
    (hp' : e'.point = b) (hr' : e'.reverseIndex = i) : origin dir.op c j e' = origin dir b i e := by
  cases dir <;> simp [origin, Dir.op, hp, hr, hp', hr']

/-- A change of labels that treats both ends of an edge alike. -/
theorem Matched.relabelAll (hm : Matched Eq d ∅) {f : Dir → BlockId → Nat → BlockEdge → Flags}
    (hedge : ∀ dir c j, edge? d' dir c j = (edge? d dir c j).map fun g => { g with label := f dir c j g })
    (hf : ∀ dir b i e e', edge? d dir b i = some e → edge? d dir.op e.point e.reverseIndex = some e' →
      f dir b i e = f dir.op e.point e.reverseIndex e') : Matched Eq d' ∅ := by
  intro dir b i e he _
  rw [hedge, Option.map_eq_some_iff] at he
  obtain ⟨g, hg, rfl⟩ := he
  obtain ⟨-, g', hg', hp, hr, -⟩ := hm dir b i g hg (by simp)
  refine ⟨by simp, { g' with label := f dir.op g.point g.reverseIndex g' }, ?_, hp, hr, hf dir b i g g' hg hg'⟩
  rw [hedge, hg', Option.map_some]

theorem relabelOutEdge_labels (hm : Matched Eq d ∅) (he : edge? d .outof bl i = some e) (f : Flags → Flags) :
    ∃ d', relabelOutEdge d bl i f = .ok d' ∧ Matched Eq d' ∅ ∧ SameCore d d' := by
  obtain ⟨d', hrun, hc, hedge⟩ := relabelOutEdge_spec hm he f
  refine ⟨d', hrun, hm.relabelAll (f := fun dir c j g => if origin dir c j g = (bl, i) then f g.label else g.label) ?_ ?_, hc⟩
  · intro dir c j
    rw [hedge]
    congr 1
    funext g
    split <;> rfl
  · intro dir b j g g' hg hg'
    obtain ⟨-, g'', hg'', hp, hr, hlabel⟩ := hm dir b j g hg (by simp)
    obtain rfl : g'' = g' := Option.some_inj.mp (hg''.symm.trans hg')
    simp only [origin_op rfl rfl hp hr, hlabel]

theorem blockClearEdgeFlags_labels (hm : Matched Eq d ∅) {graph : BlockId} {fl : Flags} (hg : d.Live graph)
    (hlive : ∀ b ∈ (blk d graph).list, d.Live b)
    (hclean : ∀ b ∈ (blk d graph).list, ∀ dir i e, edge? d dir b i = some e → e.point ∉ (blk d graph).list → e.label &&& fl = 0#32) :
    ∃ d', blockClearEdgeFlags d graph fl = .ok d' ∧ Matched Eq d' ∅ ∧ ∀ b, (blk d' b).flags = (blk d b).flags := by
  obtain ⟨d', hrun, -, -, hblk⟩ := modifyAll_spec (fun _ => clearLabels fl) (fun _ => clearLabels_idem fl) hlive
  have hkeep : ∀ l : Flags, l &&& fl = 0#32 → l &&& ~~~fl = l := by
    intro l hl
    refine BitVec.eq_of_getElem_eq fun i hi => ?_
    have hbit := congrArg (fun x => x.getLsbD i) hl
    simp at hbit ⊢
    exact hbit
  refine ⟨d', by rw [blockClearEdgeFlags, get_of_live hg, ok_bind]; exact hrun, ?_, fun b => ?_⟩
  · refine hm.relabelAll (f := fun _ c _ g => if c ∈ (blk d graph).list then g.label &&& ~~~fl else g.label) ?_ ?_
    · intro dir c j
      rw [edge?_relabel (f := (· &&& ~~~fl)) (p := c ∈ (blk d graph).list)]
      · congr 1
        funext g
        split <;> rfl
      · rw [hblk]
        split <;> simp
    · intro dir b j g g' he he'
      obtain ⟨-, g'', hg'', hp, -, hlabel⟩ := hm dir b j g he (by simp)
      obtain rfl : g'' = g' := Option.some_inj.mp (hg''.symm.trans he')
      by_cases hb : b ∈ (blk d graph).list <;> by_cases hc : g.point ∈ (blk d graph).list
      · simp only [hb, hc, if_true, hlabel]
      · simp only [hb, hc, if_true, if_false]
        rw [hkeep _ (hclean b hb dir j g he hc), hlabel]
      · simp only [hb, hc, if_true, if_false]
        rw [← hp] at hb
        rw [hkeep _ (hclean _ hc _ _ _ he' hb), hlabel]
      · simp only [hb, hc, if_false, hlabel]
  · rw [hblk]
    split <;> rfl

/-- The step lemma for the operations on edges. -/
theorem edit_labels (hm : Matched Eq d ∅) (hu : Unmarked d) (op : EdgeOp) (h : ∀ graph, op ≠ .selfIdentify graph)
    (hop : op.Admissible d) (hclean : (LabelOp.edit op h).Clean d) :
    ∃ d', op.run d = .ok d' ∧ Matched Eq d' ∅ ∧ Unmarked d' := by
  have hR : ∀ l : Flags, l = l := fun _ => rfl
  cases op with
  | addInEdge bl source lab =>
      obtain ⟨d', hrun, hm', hc', -⟩ := blockAddInEdge_spec hR hm hop.1 hop.2 lab
      exact ⟨d', hrun, hm', hu.of_core hc'⟩
  | removeInEdge bl slot =>
      obtain ⟨e, he, -⟩ := exists_edge_of_lt .into hop
      obtain ⟨d', hrun, hm', hc', -⟩ := blockRemoveDirEdge_spec hm he
      exact ⟨d', hrun, hm', hu.of_core hc'⟩
  | removeOutEdge bl slot =>
      obtain ⟨e, he, -⟩ := exists_edge_of_lt .outof hop
      obtain ⟨d', hrun, hm', hc', -⟩ := blockRemoveDirEdge_spec hm he
      exact ⟨d', hrun, hm', hu.of_core hc'⟩
  | replaceInEdge bl num source =>
      obtain ⟨e, he, -⟩ := exists_edge_of_lt .into hop.1
      obtain ⟨d', hrun, hm', hc', -⟩ := blockReplaceDirEdge_spec hR hm he hop.2
      exact ⟨d', hrun, hm', hu.of_core hc'⟩
  | replaceOutEdge bl num source =>
      obtain ⟨e, he, -⟩ := exists_edge_of_lt .outof hop.1
      obtain ⟨d', hrun, hm', hc', -⟩ := blockReplaceDirEdge_spec hR hm he hop.2
      exact ⟨d', hrun, hm', hu.of_core hc'⟩
  | replaceEdgesThru bl input out =>
      obtain ⟨e, he, -⟩ := exists_edge_of_lt .into hop.1
      obtain ⟨g, hg, -⟩ := exists_edge_of_lt .outof hop.2
      obtain ⟨-, e', he', -, -, hle⟩ := hm _ _ _ _ he (by simp)
      obtain ⟨-, g', hg', -, -, hlg⟩ := hm _ _ _ _ hg (by simp)
      have hsame : e'.label = g'.label := by
        rw [← hle, ← hlg]
        exact hclean e he g hg
      obtain ⟨d', hrun, hm', hc', -⟩ := blockReplaceEdgesThru_spec hm he hg he' hg' hsame hsame.symm
      exact ⟨d', hrun, hm', hu.of_core hc'⟩
  | swapEdges bl =>
      obtain ⟨second, h₀, -⟩ := exists_edge_of_lt .outof (d := d) (b := bl) (i := 0)
        (by simp only [EdgeOp.Admissible] at hop; simp only [FlowBlock.edges]; omega)
      obtain ⟨first, h₁, -⟩ := exists_edge_of_lt .outof (d := d) (b := bl) (i := 1)
        (by simp only [EdgeOp.Admissible] at hop; simp only [FlowBlock.edges]; omega)
      obtain ⟨d₁, hrun, hm₁, -⟩ := blockSwapEdges_spec hm h₀ h₁
      obtain ⟨d', hrun', -, hs', -⟩ := swapEdges_step hm.reciprocal hop
      obtain rfl := Except.ok.inj (hrun.symm.trans hrun')
      refine ⟨_, hrun, hm₁.congr ?_, hs'.unmarked hu⟩
      exact edge?_update_of_edges (f := fun b : FlowBlock => { b with flags := b.flags ^^^ fFlipPath })
        (fun x dir => by cases dir <;> rfl) d₁ bl
  | dedup bl =>
      obtain ⟨d', hrun, hm', hc'⟩ := blockDedup_labels hm hop hu hclean
      exact ⟨d', hrun, hm', hu.of_core hc'⟩
  | moveOutEdge blold slot blnew =>
      obtain ⟨e, he, -⟩ := exists_edge_of_lt .outof hop.1
      obtain ⟨-, f, hf, -⟩ := hm _ _ _ _ he (by simp)
      obtain ⟨d', hrun, hm', hc', -⟩ := blockReplaceDirEdge_spec hR hm hf hop.2
      refine ⟨d', ?_, hm', hu.of_core hc'⟩
      have he' : (blk d blold).outofthis[slot]? = some e := he
      simp only [EdgeOp.run, blockMoveOutEdge, get_of_live (live_of_edge? he), ok_bind, getIdx_eq he']
      exact hrun
  | switchEdge input outbefore outafter =>
      obtain ⟨d', hrun, hm', hc', -⟩ := switchDirEdge_spec hR hm _ _ hop.1 hop.2
      exact ⟨d', hrun, hm', hu.of_core hc'⟩
  | removeFromFlow bl =>
      obtain ⟨d', hrun, hm', hc', -⟩ := blockRemoveFromFlow_spec hR hm hop.1 hop.2
      exact ⟨d', hrun, hm', hu.of_core hc'⟩
  | selfIdentify graph => exact absurd rfl (h graph)

theorem LabelOp.run_labels (hm : Matched Eq d ∅) (hu : Unmarked d) (op : LabelOp) (hop : op.Admissible d)
    (hclean : op.Clean d) : ∃ d', op.run d = .ok d' ∧ Matched Eq d' ∅ ∧ Unmarked d' := by
  cases op with
  | edit op h => exact edit_labels hm hu op h hop hclean
  | setOutEdgeFlag bl index lab =>
      obtain ⟨e, he, -⟩ := exists_edge_of_lt .outof hop
      obtain ⟨d', hrun, hm', hc'⟩ := relabelOutEdge_labels hm he (· ||| lab)
      exact ⟨d', hrun, hm', hu.of_core hc'⟩
  | clearOutEdgeFlag bl index lab =>
      obtain ⟨e, he, -⟩ := exists_edge_of_lt .outof hop
      obtain ⟨d', hrun, hm', hc'⟩ := relabelOutEdge_labels hm he (· &&& ~~~lab)
      exact ⟨d', hrun, hm', hu.of_core hc'⟩
  | clearEdgeFlags graph fl =>
      obtain ⟨d', hrun, hm', hflags⟩ := blockClearEdgeFlags_labels hm hop.1 hop.2 hclean
      refine ⟨d', hrun, hm', fun b => ?_⟩
      rw [hflags]
      exact hu b

theorem LabelRun.matched (h : LabelRun (fun d op => op.Admissible d ∧ op.Clean d) d) : Matched Eq d ∅ ∧ Unmarked d := by
  induction h with
  | start d hedges hmarks =>
      refine ⟨fun dir b i e he => ?_, hmarks⟩
      simp [edge?, hedges] at he
  | step op d d' _ hop hrun ih =>
      obtain ⟨t, ht, hm', hu'⟩ := op.run_labels ih.1 ih.2 hop.1 hop.2
      obtain rfl : d' = t := Except.ok.inj (hrun.symm.trans ht)
      exact ⟨hm', hu'⟩

/-- While every operation meets its condition, both ends of every edge carry the
same label, and every operation returns. -/
theorem labels_agree_while_clean (d : Blocks) (h : LabelRun (fun d op => op.Admissible d ∧ op.Clean d) d) :
    LabelsAgree d ∧ ∀ op : LabelOp, op.Admissible d → op.Clean d →
      ∃ d', op.run d = .ok d' ∧ LabelRun (fun d op => op.Admissible d ∧ op.Clean d) d' := by
  obtain ⟨hm, hu⟩ := h.matched
  refine ⟨labelsAgree_iff.mpr hm, fun op hop hclean => ?_⟩
  obtain ⟨d', hrun, -⟩ := op.run_labels hm hu hop hclean
  exact ⟨d', hrun, .step op d d' h ⟨hop, hclean⟩ hrun⟩

/-- Two blocks with two parallel edges of given labels. -/
def parallelEdges (first second : Flags) : Blocks := ⟨[
  some { FlowBlock.new .plain with outofthis := [⟨first, 1, 0⟩, ⟨second, 1, 1⟩] },
  some { FlowBlock.new .plain with intothis := [⟨first, 0, 0⟩, ⟨second, 0, 1⟩] }]⟩

def addOp (lab : Flags) : LabelOp := .edit (.addInEdge 1 0 lab) fun _ => by simp

def dedupOp : LabelOp := .edit (.dedup 1) fun _ => by simp

theorem labelRun_twoBlocks (P : Blocks → LabelOp → Prop) : LabelRun P twoBlocks := by
  have hblk (b : BlockId) : blk twoBlocks b = FlowBlock.new .plain := by
    match b with
    | 0 => rfl
    | 1 => rfl
    | b + 2 => rfl
  refine .start twoBlocks (fun b dir => ?_) fun b => ?_
  · rw [hblk]
    cases dir <;> rfl
  · rw [hblk]
    decide

theorem labelRun_parallelEdges (P : Blocks → LabelOp → Prop) (first second : Flags)
    (h : ∀ d lab, d.Live 1 ∧ d.Live 0 → P d (addOp lab)) : LabelRun P (parallelEdges first second) := by
  have hone : LabelRun P ⟨[
      some { FlowBlock.new .plain with outofthis := [⟨first, 1, 0⟩] },
      some { FlowBlock.new .plain with intothis := [⟨first, 0, 0⟩] }]⟩ :=
    .step (addOp first) twoBlocks _ (labelRun_twoBlocks P) (h _ _ ⟨rfl, rfl⟩) rfl
  exact .step (addOp second) _ _ hone (h _ _ ⟨rfl, rfl⟩) rfl

theorem labels_agree_while_clean_parallel :
    ∃ d', dedupOp.run (parallelEdges 3#32 1#32) = .ok d' ∧ LabelsAgree d' := by
  have hrun := labelRun_parallelEdges (fun d op => op.Admissible d ∧ op.Clean d) 3#32 1#32 fun d lab hlive => ⟨hlive, trivial⟩
  have hclean : dedupOp.Clean (parallelEdges 3#32 1#32) := by
    refine ⟨fun x => ?_, fun x hx => ?_⟩
    · by_cases hzero : x = 0
      · subst hzero
        decide
      · intro a ha
        simp [stubs, stub, blk, parallelEdges, Arena.get?, FlowBlock.edges, Ne.symm hzero] at ha
    · simp [AbsorbedAt, stubs, blk, parallelEdges, Arena.get?, FlowBlock.edges, FlowBlock.new]
  obtain ⟨d', hstep, hreached⟩ := (labels_agree_while_clean _ hrun).2 dedupOp (show Arena.Live _ 1 from rfl) hclean
  exact ⟨d', hstep, (labels_agree_while_clean d' hreached).1⟩

/-- Merged parallel edges carry the joint label at the target only. -/
theorem dedup_splits_label : ¬ ∀ d, LabelRun (fun d op => op.Admissible d) d → LabelsAgree d := by
  intro hall
  have hrun := labelRun_parallelEdges (fun d op => op.Admissible d) 0#32 1#32 fun _ _ hlive => hlive
  have hdedup : dedupOp.run (parallelEdges 0#32 1#32) = .ok ⟨[
      some { FlowBlock.new .plain with outofthis := [⟨0#32, 1, 0⟩] },
      some { FlowBlock.new .plain with intothis := [⟨1#32, 0, 0⟩] }]⟩ := by
    decide
  obtain ⟨e', he', -, -, hlabel⟩ := hall _ (.step dedupOp _ _ hrun (show Arena.Live _ 1 from rfl) hdedup) .outof 0 0 ⟨0#32, 1, 0⟩ rfl
  obtain rfl : (⟨1#32, 0, 0⟩ : BlockEdge) = e' := Option.some_inj.mp he'
  exact absurd hlabel (by decide)

end GhidraDecompiler.Block
