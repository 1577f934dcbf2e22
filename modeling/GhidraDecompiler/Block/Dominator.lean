import GhidraDecompiler.Block.EdgeSpecs
import GhidraDecompiler.Lib.DominatorSweep

namespace GhidraDecompiler.Block

open Fallible Flow

def setImmedDom (dom : Option BlockId) (b : FlowBlock) : FlowBlock := { b with immedDom := dom }

def blockCreateVirtualRoot (d : Blocks) (rootlist : List BlockId) : Outcome (Blocks × BlockId) := do
  let (d, newroot) := d.alloc (FlowBlock.new .plain)
  let d ← rootlist.foldlM (fun d root => blockAddInEdge d root newroot 0) d
  pure (d, newroot)

/-- The blocks in the order in which the walk up the tree meets them: a finger
is a position in `postorder`, and the block with index `i` stands at position
`numnodes - i`. -/
structure Fingers where
  postorder : List BlockId
  numnodes : Int

namespace Fingers

variable (o : Fingers)

def ofBlock (d : Blocks) (b : BlockId) : Outcome Int := do
  pure (o.numnodes - (← d.get b).index)

/-- One of the two inner loops: a finger goes up the tree until it is level
with the other one. -/
def climb (d : Blocks) (other finger : Int) : Outcome (Pass Int Int) := do
  if finger < other then
    let dom ← expect (← d.get (← getAt o.postorder finger)).immedDom
    pure (.again (← o.ofBlock d dom))
  else pure (.leave finger)

def level (d : Blocks) (s : Int × Int) : Outcome (Pass (Int × Int) Int) := do
  let (finger1, finger2) := s
  if finger1 ≠ finger2 then
    let finger1 ← loop (o.climb d finger2) (o.postorder.length + 1) finger1
    let finger2 ← loop (o.climb d finger1) (o.postorder.length + 1) finger2
    pure (.again (finger1, finger2))
  else pure (.leave finger1)

/-- The first loop over the in edges: the first block that has a place in the
tree, and the edges after it. -/
def candidate (d : Blocks) : List BlockEdge → Option BlockId → Outcome (Option BlockId × List BlockEdge)
  | [], newIdom => pure (newIdom, [])
  | edge :: edges, _ => do
      if (← d.get edge.point).immedDom.isSome then pure (some edge.point, edges)
      else candidate d edges (some edge.point)

/-- The body of the second loop over the in edges. -/
def refine (d : Blocks) (newIdom : Option BlockId) (edge : BlockEdge) : Outcome (Option BlockId) := do
  let rho := edge.point
  if (← d.get rho).immedDom.isSome then
    let finger1 ← o.ofBlock d rho
    let finger2 ← o.ofBlock d (← expect newIdom)
    let finger ← loop (o.level d) (2 * o.postorder.length + 1) (finger1, finger2)
    pure (some (← getAt o.postorder finger))
  else pure newIdom

def visit (rootnode : BlockId) (s : Blocks × Bool × Option BlockId) (cur : BlockId) :
    Outcome (Blocks × Bool × Option BlockId) := do
  let (d, changed, newIdom) := s
  if (← d.get cur).immedDom = some rootnode then pure s
  else
    let (newIdom, edges) ← candidate d (← d.get cur).intothis newIdom
    let newIdom ← edges.foldlM (o.refine d) newIdom
    if (← d.get cur).immedDom ≠ newIdom then
      let d ← d.modify cur (setImmedDom newIdom)
      pure (d, true, newIdom)
    else pure (d, changed, newIdom)

/-- One round of the outer loop: all blocks but the root, from the end of
`postorder` to its beginning. -/
def round (rootnode : BlockId) (s : Blocks × Option BlockId) :
    Outcome (Pass (Blocks × Option BlockId) Blocks) := do
  let (d, newIdom) := s
  let (d, changed, newIdom) ← o.postorder.dropLast.reverse.foldlM (o.visit rootnode) (d, false, newIdom)
  if changed then pure (.again (d, newIdom)) else pure (.leave d)

end Fingers

/-- A block directly below the virtual root is left without an immediate
dominator. -/
def releaseBlock (root : BlockId) (d : Blocks) (b : BlockId) : Outcome Blocks := do
  if (← d.get b).immedDom = some root then d.modify b (setImmedDom none) else pure d

/-- The body of the loop that removes the edges of the virtual root. -/
def releasePass (root : BlockId) (d : Blocks) : Outcome (Pass Blocks Blocks) := do
  let size := (← d.get root).outofthis.length
  if size > 0 then pure (.again (← blockRemoveOutEdge d root (size - 1))) else pure (.leave d)

/-- The last part: the virtual root is taken out again. -/
def dismissVirtualRoot (d : Blocks) (list : List BlockId) (root : BlockId) : Outcome Blocks := do
  let d ← list.reverse.foldlM (releaseBlock root) d
  let d ← loop (releasePass root) ((← d.get root).outofthis.length + 1) d
  d.remove root

/-- The choice of the root: the blocks of the list in reverse order, and behind
them a virtual root when there are several roots or the only one has edges
into it. -/
def placeRoot (d : Blocks) (list rootlist : List BlockId) : Outcome (Blocks × List BlockId × Option BlockId) := do
  let (d, postorder, virtualroot) ←
    if rootlist.length > 1 then do
      let (d, root) ← blockCreateVirtualRoot d rootlist
      pure (d, list.reverse ++ [root], some root)
    else pure (d, list.reverse, none)
  let source ← expect postorder.getLast?
  if (← d.get source).intothis.length ≠ 0 then
    if rootlist ≠ [source] then throw (.lowlevel "Problems finding root node of graph")
    else
      let (d, root) ← blockCreateVirtualRoot d rootlist
      pure (d, postorder ++ [root], some root)
  else pure (d, postorder, virtualroot)

/-- The part after the choice of the root. -/
def buildTree (d : Blocks) (list postorder : List BlockId) (virtualroot : Option BlockId) : Outcome Blocks := do
  let rootnode ← expect postorder.getLast?
  let d ← d.modify rootnode (setImmedDom (some rootnode))
  let d ← (← d.get rootnode).outofthis.foldlM (fun d edge => d.modify edge.point (setImmedDom (some rootnode))) d
  let o : Fingers := ⟨postorder, list.length - 1⟩
  let d ← loop (o.round rootnode) (list.length * (list.length + 1) + 2) (d, none)
  match virtualroot with
  | some root => dismissVirtualRoot d list root
  | none => d.modify rootnode (setImmedDom none)

def blockCalcForwardDominator (d : Blocks) (graph : BlockId) (rootlist : List BlockId) : Outcome Blocks := do
  let list := (← d.get graph).list
  if list = [] then pure d
  else
    let d ← list.foldlM (fun d child => d.modify child (setImmedDom none)) d
    let (d, postorder, virtualroot) ← placeRoot d list rootlist
    buildTree d list postorder virtualroot

/-- The body of the loop of `block_dominates`. -/
def dominatesPass (d : Blocks) (bl : BlockId) (index : Int) (cur : Option BlockId) :
    Outcome (Pass (Option BlockId) Bool) := do
  match cur with
  | none => pure (.leave false)
  | some block =>
      if index > (← d.get block).index then pure (.leave false)
      else if block = bl then pure (.leave true)
      else pure (.again (← d.get block).immedDom)

def blockDominates (d : Blocks) (bl subBlock : BlockId) : Outcome Bool := do
  let index := (← d.get bl).index
  loop (dominatesPass d bl index) (d.nextId + 2) (some subBlock)

/-- The state while the tree is built: `top` is the root of the tree, either
the first block of the list or a virtual root, which has index 0 as well. -/
structure Placed (d : Blocks) (list : List BlockId) (r top : BlockId) (o : Fingers) : Prop where
  head : list.head? = some r
  nodup : list.Nodup
  live : ∀ b ∈ list, d.Live b
  index : ∀ (i : Nat) b, list[i]? = some b → (blk d b).index = i
  top_live : d.Live top
  top_index : (blk d top).index = 0
  top_eq : top = r ∨ top ∉ list
  numnodes : o.numnodes = list.length - 1
  postorder : ∀ (i : Nat) b, list[i]? = some b → o.postorder[list.length - 1 - i]? = some b

/-- The tree, with the virtual root and the first block taken together. -/
def domParent (d : Blocks) (list : List BlockId) (r top b : BlockId) : Option BlockId :=
  if b ∈ list ∧ b ≠ r then (blk d b).immedDom.map fun x => if x = top then r else x else none

/-- The position of a block in the order of the fingers. -/
def finger (list : List BlockId) (b : BlockId) : Int := list.length - 1 - list.idxOf b

namespace Placed

variable {d : Blocks} {list : List BlockId} {r top : BlockId} {o : Fingers} (h : Placed d list r top o)

theorem getElem?_idxOf {b : BlockId} (hb : b ∈ list) : list[list.idxOf b]? = some b := by
  rw [List.getElem?_eq_getElem (List.idxOf_lt_length_of_mem hb), List.getElem_idxOf]

include h

theorem root_mem : r ∈ list := List.mem_of_mem_head? h.head

theorem index_eq {b : BlockId} (hb : b ∈ list) : (blk d b).index = list.idxOf b := h.index _ b (getElem?_idxOf hb)

theorem idxOf_root : list.idxOf r = 0 := by
  obtain ⟨l, rfl⟩ := List.head?_eq_some_iff.mp h.head
  simp

/-- The finger at a block of the list. -/
theorem ofBlock_eq {b : BlockId} (hb : b ∈ list) : o.ofBlock d b = .ok (finger list b) := by
  simp [Fingers.ofBlock, get_of_live (h.live b hb), h.numnodes, h.index_eq hb, finger]

theorem getAt_finger {b : BlockId} (hb : b ∈ list) : getAt o.postorder (finger list b) = .ok b := by
  have hlt := List.idxOf_lt_length_of_mem hb
  rw [finger, show (list.length : Int) - 1 - list.idxOf b = ((list.length - 1 - list.idxOf b : Nat) : Int) by omega]
  exact getAt_eq (h.postorder _ b (getElem?_idxOf hb))

theorem length_le : list.length ≤ o.postorder.length := by
  obtain ⟨hlt, -⟩ := List.getElem?_eq_some_iff.mp (h.postorder 0 r (List.head?_eq_getElem? ▸ h.head))
  omega

/-- Going up the tree from a block. The virtual root is passed off as the first
block of the list, since both have index 0. -/
theorem ofBlock_dom {b a dom : BlockId} (hb : domParent d list r top b = some a)
    (hdom : (blk d b).immedDom = some dom) (ha : a ∈ list) : o.ofBlock d dom = .ok (finger list a) := by
  have hbl : b ∈ list ∧ b ≠ r := by
    by_contra hn
    simp [domParent, hn] at hb
  rw [domParent, if_pos hbl, hdom, Option.map_some, Option.some_inj] at hb
  by_cases htop : dom = top
  · rw [if_pos htop] at hb
    subst htop hb
    simp [Fingers.ofBlock, get_of_live h.top_live, h.numnodes, h.top_index, finger, h.idxOf_root]
  · rw [if_neg htop] at hb
    exact hb ▸ h.ofBlock_eq (hb ▸ ha)

end Placed

/-- The part of the tree that the fingers walk on: going up lowers the index
and stays in the list. -/
structure Climbable (list : List BlockId) (r : BlockId) (par : BlockId → Option BlockId) : Prop where
  lt : ∀ b a, par b = some a → list.idxOf a < list.idxOf b
  mem : ∀ b, Up par b r → b ∈ list

section Walk

variable {d : Blocks} {list : List BlockId} {r top : BlockId} {o : Fingers} (h : Placed d list r top o)
  (hc : Climbable list r (domParent d list r top))

include h hc

theorem climb_pass {x : BlockId} (hx : Up (domParent d list r top) x r) {other : Int}
    (hlt : finger list x < other) (hother : other ≤ list.length - 1) :
    ∃ a, domParent d list r top x = some a ∧ o.climb d other (finger list x) = .ok (.again (finger list a)) := by
  have hxr : x ≠ r := by
    rintro rfl
    rw [finger, h.idxOf_root] at hlt
    omega
  obtain ⟨a, ha, hup⟩ := hx.eq_or.resolve_left hxr
  have hxl := hc.mem x hx
  obtain ⟨dom, hdom⟩ : ∃ dom, (blk d x).immedDom = some dom := by
    rw [domParent, if_pos ⟨hxl, hxr⟩, Option.map_eq_some_iff] at ha
    exact ⟨_, ha.choose_spec.1⟩
  refine ⟨a, ha, ?_⟩
  simp [Fingers.climb, hlt, h.getAt_finger hxl, get_of_live (h.live x hxl), hdom,
    h.ofBlock_dom ha hdom (hc.mem a hup)]

/-- The inner loop stops at the first block that is level with the other
finger or above it, and passes no common ancestor. -/
theorem climb_spec {x : BlockId} (hx : Up (domParent d list r top) x r) (y : BlockId) :
    ∃ x', loop (o.climb d (finger list y)) (o.postorder.length + 1) (finger list x) = .ok (finger list x') ∧
      Up (domParent d list r top) x' r ∧ list.idxOf x' ≤ list.idxOf y ∧
      (∀ w, Up (domParent d list r top) y w →
        (Up (domParent d list r top) x w ↔ Up (domParent d list r top) x' w)) ∧
      (x = x' ∨ list.idxOf x' < list.idxOf x) := by
  have hlen := h.length_le
  have hxlt := List.idxOf_lt_length_of_mem (hc.mem x hx)
  let Inv : Int → Prop := fun s => ∃ x', s = finger list x' ∧ Up (domParent d list r top) x' r ∧
    (∀ w, Up (domParent d list r top) y w → (Up (domParent d list r top) x w ↔ Up (domParent d list r top) x' w)) ∧
    (x = x' ∨ list.idxOf x' < list.idxOf x)
  have hbody (s : Int) (hs : Inv s) :
      (∃ t, o.climb d (finger list y) s = .ok (.leave t) ∧ Inv t ∧ finger list y ≤ t) ∨
      ∃ s', o.climb d (finger list y) s = .ok (.again s') ∧ Inv s' ∧
        (list.length - 1 - s').toNat < (list.length - 1 - s).toNat := by
    obtain ⟨x', rfl, hx', hw, hmove⟩ := hs
    by_cases hlt : finger list x' < finger list y
    · obtain ⟨a, ha, hpass⟩ := climb_pass h hc hx' hlt (by simp only [finger]; omega)
      have hidx := hc.lt x' a ha
      have hxr : x' ≠ r := by
        rintro rfl
        rw [h.idxOf_root] at hidx
        omega
      simp only [finger] at hlt
      refine .inr ⟨_, hpass, ⟨a, rfl, hx'.of_ne hxr ha, fun w hyw => (hw w hyw).trans ?_, .inr ?_⟩, ?_⟩
      · -- a common ancestor has a smaller index than the block that is left
        refine ⟨fun hup => hup.of_ne ?_ ha, .cons ha⟩
        rintro rfl
        have := hyw.idx_le hc.lt
        omega
      · rcases hmove with rfl | hmove <;> omega
      · simp only [finger]
        omega
    · exact .inl ⟨_, by simp [Fingers.climb, hlt], ⟨x', rfl, hx', hw, hmove⟩, by omega⟩
  obtain ⟨s, hloop, ⟨x', rfl, hx', hw, hmove⟩, hle⟩ := loop_total Inv (fun s => Inv s ∧ finger list y ≤ s)
    (fun s => (list.length - 1 - s).toNat) hbody (s := finger list x) (k := o.postorder.length + 1)
    ⟨x, rfl, hx, fun _ _ => Iff.rfl, .inl rfl⟩ (by simp only [finger]; omega)
  exact ⟨x', hloop, hx', by simp only [finger] at hle; omega, hw, hmove⟩

/-- The walk of both fingers ends at the nearest common ancestor. -/
theorem level_spec {x y : BlockId} (hx : Up (domParent d list r top) x r) (hy : Up (domParent d list r top) y r) :
    ∃ z, loop (o.level d) (2 * o.postorder.length + 1) (finger list x, finger list y) = .ok (finger list z) ∧
      IsMeet (domParent d list r top) (fun p => p = x ∨ p = y) z := by
  have hlen := h.length_le
  have hxlt := List.idxOf_lt_length_of_mem (hc.mem x hx)
  have hylt := List.idxOf_lt_length_of_mem (hc.mem y hy)
  let Inv : Int × Int → Prop := fun s => ∃ x' y', s = (finger list x', finger list y') ∧
    Up (domParent d list r top) x' r ∧ Up (domParent d list r top) y' r ∧
    ∀ w, (Up (domParent d list r top) x w ∧ Up (domParent d list r top) y w ↔
      Up (domParent d list r top) x' w ∧ Up (domParent d list r top) y' w)
  let Post : Int → Prop := fun s => ∃ z, s = finger list z ∧
    ∀ w, (Up (domParent d list r top) x w ∧ Up (domParent d list r top) y w ↔ Up (domParent d list r top) z w)
  have hbody (s : Int × Int) (hs : Inv s) : (∃ t, o.level d s = .ok (.leave t) ∧ Post t) ∨
      ∃ s', o.level d s = .ok (.again s') ∧ Inv s' ∧
        (list.length - 1 - s'.1).toNat + (list.length - 1 - s'.2).toNat <
          (list.length - 1 - s.1).toNat + (list.length - 1 - s.2).toNat := by
    obtain ⟨x', y', rfl, hx', hy', hw⟩ := hs
    have hxm := hc.mem x' hx'
    by_cases hne : finger list x' = finger list y'
    · obtain rfl : x' = y' := (List.idxOf_inj hxm).mp (by simp only [finger] at hne; omega)
      exact .inl ⟨_, by simp [Fingers.level], x', rfl, fun w => by simpa using hw w⟩
    · obtain ⟨x₁, h₁, hx₁, hle₁, hw₁, hm₁⟩ := climb_spec h hc hx' y'
      obtain ⟨y₁, h₂, hy₁, hle₂, hw₂, hm₂⟩ := climb_spec h hc hy' x₁
      refine .inr ⟨(finger list x₁, finger list y₁), by simp [Fingers.level, hne, h₁, h₂],
        ⟨x₁, y₁, rfl, hx₁, hy₁, fun w => (hw w).trans ⟨fun ⟨ha, hb⟩ => ?_, fun ⟨ha, hb⟩ => ?_⟩⟩, ?_⟩
      · have ha' := (hw₁ w hb).mp ha
        exact ⟨ha', (hw₂ w ha').mp hb⟩
      · have hb' := (hw₂ w ha).mpr hb
        exact ⟨(hw₁ w hb').mpr ha, hb'⟩
      · simp only [finger] at hne ⊢
        rcases hm₁ with rfl | hm₁ <;> rcases hm₂ with rfl | hm₂ <;> omega
  obtain ⟨s, hloop, z, rfl, hz⟩ := loop_total Inv Post
    (fun s => (list.length - 1 - s.1).toNat + (list.length - 1 - s.2).toNat) hbody
    (s := (finger list x, finger list y)) (k := 2 * o.postorder.length + 1) ⟨x, y, rfl, hx, hy, fun _ => Iff.rfl⟩
    (by simp only [finger]; omega)
  refine ⟨z, hloop, ?_, fun w hw => (hz w).mp ⟨hw x (.inl rfl), hw y (.inr rfl)⟩⟩
  have hself := (hz z).mpr .refl
  rintro p (rfl | rfl)
  · exact hself.1
  · exact hself.2

end Walk

end GhidraDecompiler.Block
