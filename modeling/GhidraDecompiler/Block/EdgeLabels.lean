import GhidraDecompiler.Block.EdgeHistory
import GhidraDecompiler.Lib.Flags

namespace GhidraDecompiler.Block

open Fallible

variable {R : Flags → Flags → Prop} {d d' : Blocks} {dir : Dir} {b c bl : BlockId} {i j : Nat} {e : BlockEdge}

/-- A graph of blocks: the edges of each block in its list are stored at both
ends and stay in the list. -/
structure FlowGraph (d : Blocks) (graph : BlockId) : Prop where
  live : d.Live graph
  reciprocal : Reciprocal d
  nodup : (blk d graph).list.Nodup
  list_live : ∀ b ∈ (blk d graph).list, d.Live b
  inside : ∀ b ∈ (blk d graph).list, ∀ dir, points d dir b ⊆ (blk d graph).list

/-- There is an edge from one block to another. -/
def Edge (d : Blocks) (a b : BlockId) : Prop := b ∈ points d .outof a

/-- Each block has its position in the list as its index. -/
def Indexed (d : Blocks) (graph : BlockId) : Prop :=
  ∀ (i : Nat) b, (blk d graph).list[i]? = some b → (blk d b).index = i

/-- All conditions can be checked by evaluation. -/
theorem FlowGraph.of_check {graph : BlockId} (hlive : d.Live graph)
    (hcheck : ∀ b ∈ List.range d.nextId, d.Live b → blockCheckEdges d b = .ok ()) (hnodup : (blk d graph).list.Nodup)
    (hlist : ∀ b ∈ (blk d graph).list, d.Live b ∧ points d .into b ⊆ (blk d graph).list ∧
      points d .outof b ⊆ (blk d graph).list) : FlowGraph d graph := by
  refine ⟨hlive, reciprocal_iff_checkEdges.mpr fun b hb => ?_, hnodup, fun b hb => (hlist b hb).1, fun b hb dir => ?_⟩
  · exact hcheck b (List.mem_range.mpr (Arena.lt_of_live hb)) hb
  · cases dir with
    | into => exact (hlist b hb).2.1
    | outof => exact (hlist b hb).2.2

/-- Two blocks in a cycle; the first one is the root. -/
def cycle : Blocks := ⟨[
  some { FlowBlock.newGraphKind .graph with list := [1, 2] },
  some { FlowBlock.new .plain with intothis := [⟨0, 2, 0⟩], outofthis := [⟨0, 2, 0⟩] },
  some { FlowBlock.new .plain with intothis := [⟨0, 1, 0⟩], outofthis := [⟨0, 1, 0⟩], index := 1 }]⟩

theorem flowGraph_cycle : FlowGraph cycle 0 := .of_check (by decide) (by decide) (by decide) (by decide)

def relabel (f : Flags → Flags) (e : BlockEdge) : BlockEdge := { e with label := f e.label }

/-- The out slot of an edge that is stored in some slot of either list. -/
def origin (dir : Dir) (b : BlockId) (i : Nat) (e : BlockEdge) : BlockId × Nat :=
  match dir with
  | .into => (e.point, e.reverseIndex)
  | .outof => (b, i)

/-- A change of the label at both ends of an edge. -/
def relabelOutEdge (d : Blocks) (bl : BlockId) (index : Nat) (f : Flags → Flags) : Outcome Blocks := do
  let edge ← getIdx (← d.get bl).outofthis index
  let d ← modifyEdge d .outof bl index (relabel f)
  modifyEdge d .into edge.point edge.reverseIndex (relabel f)

theorem blockSetOutEdgeFlag_eq (d : Blocks) (bl : BlockId) (index : Nat) (lab : Flags) :
    blockSetOutEdgeFlag d bl index lab = relabelOutEdge d bl index (· ||| lab) := rfl

theorem blockClearOutEdgeFlag_eq (d : Blocks) (bl : BlockId) (index : Nat) (lab : Flags) :
    blockClearOutEdgeFlag d bl index lab = relabelOutEdge d bl index (· &&& ~~~lab) := rfl

theorem Matched.origin_eq_iff (hm : Matched R d ∅) (he : edge? d .outof bl i = some e) {f : BlockEdge}
    (hf : edge? d dir c j = some f) :
    origin dir c j f = (bl, i) ↔ (dir, c, j) = (.outof, bl, i) ∨ (dir, c, j) = (.into, e.point, e.reverseIndex) := by
  cases dir with
  | outof => simp [origin]
  | into =>
      simp only [origin, Prod.mk.injEq, reduceCtorEq, false_and, true_and, false_or]
      constructor
      · rintro ⟨rfl, rfl⟩
        obtain ⟨-, e', he', hp, hr, -⟩ := hm .into c j f hf (by simp)
        obtain rfl : e' = e := Option.some_inj.mp (he'.symm.trans he)
        exact ⟨hp.symm, hr.symm⟩
      · rintro ⟨rfl, rfl⟩
        obtain ⟨-, e', he', hp, hr, -⟩ := hm .outof bl i e he (by simp)
        obtain rfl : e' = f := Option.some_inj.mp (he'.symm.trans hf)
        exact ⟨hp, hr⟩

/-- The change reaches the two ends of the edge and nothing else. -/
theorem relabelOutEdge_spec (hm : Matched R d ∅) (he : edge? d .outof bl i = some e) (f : Flags → Flags) :
    ∃ d', relabelOutEdge d bl i f = .ok d' ∧ SameCore d d' ∧ ∀ dir c j, edge? d' dir c j =
      (edge? d dir c j).map fun g => if origin dir c j g = (bl, i) then relabel f g else g := by
  obtain ⟨-, e', he', hp, hr, -⟩ := hm .outof bl i e he (by simp)
  rw [Dir.op_outof] at he'
  have he₁ : edge? (setEdge d .outof bl i (relabel f e)) .into e.point e.reverseIndex = some e' := by
    rw [edge?_setEdge_ne he _ (by simp), he']
  refine ⟨setEdge (setEdge d .outof bl i (relabel f e)) .into e.point e.reverseIndex (relabel f e'), ?_,
    (sameCore_setEdge ..).trans (sameCore_setEdge ..), fun dir c j => ?_⟩
  · have hget : getIdx (blk d bl).outofthis i = .ok e := getIdx_eq he
    simp only [relabelOutEdge, get_of_live (live_of_edge? he), ok_bind, hget, modifyEdge_eq he, modifyEdge_eq he₁]
  · rw [edge?_setEdge he₁, edge?_setEdge he]
    cases hg : edge? d dir c j with
    | none =>
        have h₁ : ¬ (dir = .into ∧ c = e.point ∧ j = e.reverseIndex) := by
          rintro ⟨rfl, rfl, rfl⟩
          simp [he'] at hg
        have h₂ : ¬ (dir = .outof ∧ c = bl ∧ j = i) := by
          rintro ⟨rfl, rfl, rfl⟩
          simp [he] at hg
        simp [h₁, h₂]
    | some g =>
        have hiff := hm.origin_eq_iff he hg
        simp only [Prod.mk.injEq] at hiff
        by_cases h₁ : dir = .into ∧ c = e.point ∧ j = e.reverseIndex
        · obtain ⟨rfl, rfl, rfl⟩ := h₁
          obtain rfl : e' = g := Option.some_inj.mp (he'.symm.trans hg)
          simp [origin, hp, hr]
        · by_cases h₂ : dir = .outof ∧ c = bl ∧ j = i
          · obtain ⟨rfl, rfl, rfl⟩ := h₂
            obtain rfl : e = g := Option.some_inj.mp (he.symm.trans hg)
            simp [origin]
          · have hno : origin dir c j g ≠ (bl, i) := fun heq => (hiff.mp (by simpa using heq)).elim h₂ h₁
            simp [h₁, h₂, hno]

/-- An assignment to each block of a list, in which a block may come twice. -/
theorem modifyAll_spec {l : List BlockId} (f : BlockId → FlowBlock → FlowBlock) (hf : ∀ b x, f b (f b x) = f b x)
    (hlive : ∀ b ∈ l, d.Live b) : ∃ d', l.foldlM (fun d b => d.modify b (f b)) d = .ok d' ∧ d'.nextId = d.nextId ∧
      (∀ b, d'.Live b ↔ d.Live b) ∧ ∀ b, blk d' b = if b ∈ l then f b (blk d b) else blk d b := by
  refine foldlM_total (f := fun (d : Blocks) b => d.modify b (f b)) (fun before d' => d'.nextId = d.nextId ∧
    (∀ b, d'.Live b ↔ d.Live b) ∧ ∀ b, blk d' b = if b ∈ before then f b (blk d b) else blk d b) l ?_ (by simp)
  rintro before c after hl d₁ ⟨hnext, hlive₁, hblk⟩
  have hc : d₁.Live c := (hlive₁ c).mpr (hlive c (by simp [hl]))
  refine ⟨_, Arena.modify_eq _ hc, by simpa using hnext, fun b => by simpa using hlive₁ b, fun b => ?_⟩
  by_cases hbc : b = c
  · subst hbc
    rw [blk_update_self hc, hblk, if_pos (List.mem_append_right _ (List.mem_singleton_self b))]
    split
    · exact hf b _
    · rfl
  · rw [blk_update_ne hbc, hblk]
    simp [hbc]

def clearLabels (fl : Flags) (b : FlowBlock) : FlowBlock :=
  { b with
    intothis := b.intothis.map (relabel (· &&& ~~~fl))
    outofthis := b.outofthis.map (relabel (· &&& ~~~fl)) }

def blockClearEdgeFlags (d : Blocks) (graph : BlockId) (fl : Flags) : Outcome Blocks := do
  (← d.get graph).list.foldlM (fun d child => d.modify child (clearLabels fl)) d

@[simp] theorem edges_clearLabels (fl : Flags) (b : FlowBlock) (dir : Dir) :
    (clearLabels fl b).edges dir = (b.edges dir).map (relabel (· &&& ~~~fl)) := by
  cases dir <;> rfl

theorem clearLabels_idem (fl : Flags) (b : FlowBlock) : clearLabels fl (clearLabels fl b) = clearLabels fl b := by
  simp [clearLabels, relabel, Function.comp_def, BitVec.and_assoc]

theorem edge?_relabel {f : Flags → Flags} {p : Prop} [Decidable p]
    (h : (blk d' b).edges dir = if p then ((blk d b).edges dir).map (relabel f) else (blk d b).edges dir) (i : Nat) :
    edge? d' dir b i = (edge? d dir b i).map fun e => if p then relabel f e else e := by
  rw [edge?, h, edge?]
  split <;> simp

end GhidraDecompiler.Block
