import GhidraDecompiler.Block.FlowBlock

namespace GhidraDecompiler.Block

open Fallible

/-- Assignment to a field of one stored edge. -/
def modifyEdge (d : Blocks) (dir : Dir) (b : BlockId) (i : Nat) (f : BlockEdge → BlockEdge) :
    Outcome Blocks := do
  let edge ← getIdx ((← d.get b).edges dir) i
  d.modify b fun bl => bl.setEdges dir ((bl.edges dir).set i (f edge))

def pushEdge (d : Blocks) (dir : Dir) (b : BlockId) (edge : BlockEdge) : Outcome Blocks :=
  d.modify b fun bl => bl.setEdges dir (bl.edges dir ++ [edge])

def blockAddInEdge (d : Blocks) (bl source : BlockId) (lab : Flags) : Outcome Blocks := do
  let ourrev := (← d.get source).outofthis.length
  let brev := (← d.get bl).intothis.length
  let d ← pushEdge d .into bl ⟨lab, source, ourrev⟩
  pushEdge d .outof source ⟨lab, bl, brev⟩

/-- The body of the loop of a half delete: slot `slot + 1` moves down by one,
and the edge on the other side learns its new position. -/
def shiftEdge (dir : Dir) (bl : BlockId) (d : Blocks) (slot : Nat) : Outcome Blocks := do
  let edge ← getIdx ((← d.get bl).edges dir) (slot + 1)
  let d ← d.modify bl fun b => b.setEdges dir ((b.edges dir).set slot edge)
  modifyEdge d dir.op edge.point edge.reverseIndex fun e => { e with reverseIndex := e.reverseIndex - 1 }

def blockHalfDeleteEdge (dir : Dir) (d : Blocks) (bl : BlockId) (slot : Nat) : Outcome Blocks := do
  let size := ((← d.get bl).edges dir).length
  let d ← (List.range' slot (size - 1 - slot)).foldlM (shiftEdge dir bl) d
  d.modify bl fun b => b.setEdges dir (b.edges dir).dropLast

def blockHalfDeleteInEdge : Blocks → BlockId → Nat → Outcome Blocks := blockHalfDeleteEdge .into

def blockHalfDeleteOutEdge : Blocks → BlockId → Nat → Outcome Blocks := blockHalfDeleteEdge .outof

def blockRemoveDirEdge (dir : Dir) (d : Blocks) (bl : BlockId) (slot : Nat) : Outcome Blocks := do
  let edge ← getIdx ((← d.get bl).edges dir) slot
  let d ← blockHalfDeleteEdge dir d bl slot
  blockHalfDeleteEdge dir.op d edge.point edge.reverseIndex

def blockRemoveInEdge : Blocks → BlockId → Nat → Outcome Blocks := blockRemoveDirEdge .into

def blockRemoveOutEdge : Blocks → BlockId → Nat → Outcome Blocks := blockRemoveDirEdge .outof

def blockReplaceDirEdge (dir : Dir) (d : Blocks) (bl : BlockId) (num : Nat) (source : BlockId) :
    Outcome Blocks := do
  let oldedge ← getIdx ((← d.get bl).edges dir) num
  let d ← blockHalfDeleteEdge dir.op d oldedge.point oldedge.reverseIndex
  let newrev := ((← d.get source).edges dir.op).length
  let edge ← getIdx ((← d.get bl).edges dir) num
  let d ← modifyEdge d dir bl num fun e => { e with point := source, reverseIndex := newrev }
  pushEdge d dir.op source ⟨edge.label, bl, num⟩

def blockReplaceInEdge : Blocks → BlockId → Nat → BlockId → Outcome Blocks := blockReplaceDirEdge .into

def blockReplaceOutEdge : Blocks → BlockId → Nat → BlockId → Outcome Blocks := blockReplaceDirEdge .outof

def blockReplaceEdgesThru (d : Blocks) (bl : BlockId) (input out : Nat) : Outcome Blocks := do
  let inedge ← getIdx (← d.get bl).intothis input
  let outedge ← getIdx (← d.get bl).outofthis out
  let d ← modifyEdge d .outof inedge.point inedge.reverseIndex fun e =>
    { e with point := outedge.point, reverseIndex := outedge.reverseIndex }
  let d ← modifyEdge d .into outedge.point outedge.reverseIndex fun e =>
    { e with point := inedge.point, reverseIndex := inedge.reverseIndex }
  let d ← blockHalfDeleteInEdge d bl input
  blockHalfDeleteOutEdge d bl out

def blockSwapEdges (d : Blocks) (bl : BlockId) : Outcome Blocks := do
  let out := (← d.get bl).outofthis
  let second ← getIdx out 0
  let first ← getIdx out 1
  let d ← d.modify bl fun b => { b with outofthis := (b.outofthis.set 0 first).set 1 second }
  let d ← modifyEdge d .into first.point first.reverseIndex fun e => { e with reverseIndex := 0 }
  let d ← modifyEdge d .into second.point second.reverseIndex fun e => { e with reverseIndex := 1 }
  d.modify bl fun b => { b with flags := b.flags ^^^ FlowBlock.fFlipPath }

def blockSetOutEdgeFlag (d : Blocks) (bl : BlockId) (index : Nat) (lab : Flags) : Outcome Blocks := do
  let edge ← getIdx (← d.get bl).outofthis index
  let d ← modifyEdge d .outof bl index fun e => { e with label := e.label ||| lab }
  modifyEdge d .into edge.point edge.reverseIndex fun e => { e with label := e.label ||| lab }

def blockClearOutEdgeFlag (d : Blocks) (bl : BlockId) (index : Nat) (lab : Flags) : Outcome Blocks := do
  let edge ← getIdx (← d.get bl).outofthis index
  let d ← modifyEdge d .outof bl index fun e => { e with label := e.label &&& ~~~lab }
  modifyEdge d .into edge.point edge.reverseIndex fun e => { e with label := e.label &&& ~~~lab }

/-- One pass of the scan for parallel edges: the first edge to `dup` is kept
in slot `indval`, and the label of each later one is added to it. -/
def eliminatePass (dir : Dir) (bl dup : BlockId) (s : Nat × Option Nat × Blocks) :
    Outcome (Pass (Nat × Option Nat × Blocks) Blocks) := do
  let (slot, indval, d) := s
  let list := (← d.get bl).edges dir
  if slot < list.length then
    let edge ← getIdx list slot
    if edge.point = dup then
      match indval with
      | none => pure (.again (slot + 1, some slot, d))
      | some first =>
          let d ← modifyEdge d dir bl first fun e => { e with label := e.label ||| edge.label }
          let d ← blockHalfDeleteEdge dir d bl slot
          let d ← blockHalfDeleteEdge dir.op d dup edge.reverseIndex
          pure (.again (slot, some first, d))
    else
      pure (.again (slot + 1, indval, d))
  else
    pure (.leave d)

/-- Every pass moves on by one slot or shortens the list by one, so one pass
more than the list is long is enough. -/
def blockEliminateDups (dir : Dir) (d : Blocks) (bl dup : BlockId) : Outcome Blocks := do
  loop (eliminatePass dir bl dup) (((← d.get bl).edges dir).length + 1) (0, none, d)

def blockEliminateInDups : Blocks → BlockId → BlockId → Outcome Blocks := blockEliminateDups .into

def blockEliminateOutDups : Blocks → BlockId → BlockId → Outcome Blocks := blockEliminateDups .outof

def findDupsStep (s : Blocks × List BlockId) (edge : BlockEdge) : Outcome (Blocks × List BlockId) := do
  let (d, duplist) := s
  let point := edge.point
  let flags := (← d.get point).flags
  if flags &&& FlowBlock.fMark2 ≠ 0#32 then
    pure (d, duplist)
  else if flags &&& FlowBlock.fMark ≠ 0#32 then
    pure (← d.modify point (FlowBlock.setFlag FlowBlock.fMark2), duplist ++ [point])
  else
    pure (← d.modify point (FlowBlock.setFlag FlowBlock.fMark), duplist)

def blockFindDups (d : Blocks) (reference : List BlockEdge) (duplist : List BlockId) :
    Outcome (Blocks × List BlockId) := do
  let (d, duplist) ← reference.foldlM findDupsStep (d, duplist)
  let d ← reference.foldlM (fun d edge =>
    d.modify edge.point (FlowBlock.clearFlag (FlowBlock.fMark ||| FlowBlock.fMark2))) d
  pure (d, duplist)

def blockDedup (d : Blocks) (bl : BlockId) : Outcome Blocks := do
  let (d, duplist) ← blockFindDups d (← d.get bl).intothis []
  let d ← duplist.foldlM (fun d dup => blockEliminateInDups d bl dup) d
  let (d, duplist) ← blockFindDups d (← d.get bl).outofthis []
  duplist.foldlM (fun d dup => blockEliminateOutDups d bl dup) d

/-- The check of one of the two edge lists of a block against the lists of
its neighbours, with the texts of the three complaints. -/
def checkEdgeList (dir : Dir) (d : Blocks) (bl : BlockId) (short edge index : String) : Outcome Unit := do
  let list := (← d.get bl).edges dir
  list.zipIdx.forM fun (e, slot) => do
    let other := (← d.get e.point).edges dir.op
    if other.length ≤ e.reverseIndex then
      .error (.lowlevel short)
    let edger ← getIdx other e.reverseIndex
    if edger.point ≠ bl then
      .error (.lowlevel edge)
    if edger.reverseIndex ≠ slot then
      .error (.lowlevel index)

def blockCheckEdges (d : Blocks) (bl : BlockId) : Outcome Unit := do
  checkEdgeList .into d bl "Not enough outofthis blocks" "Intothis edge mismatch" "Intothis index mismatch"
  checkEdgeList .outof d bl "Not enough intothis blocks" "Outofthis edge mismatch" "Outofthis index mismatch"

/-- The scan over the slots of `input` that redirects every edge to `before`.
The replacement of an edge leaves the length of the list as it is. -/
def switchDirEdge (dir : Dir) (d : Blocks) (input before after : BlockId) : Outcome Blocks := do
  (List.range ((← d.get input).edges dir).length).foldlM (fun d slot => do
    let edge ← getIdx ((← d.get input).edges dir) slot
    if edge.point = before then blockReplaceDirEdge dir d input slot after else pure d) d

def blockSwitchEdge : Blocks → BlockId → BlockId → BlockId → Outcome Blocks := switchDirEdge .outof

def blockMoveOutEdge (d : Blocks) (blold : BlockId) (slot : Nat) (blnew : BlockId) : Outcome Blocks := do
  let edge ← getIdx (← d.get blold).outofthis slot
  blockReplaceInEdge d edge.point edge.reverseIndex blnew

/-- The inner loop of `block_remove_from_flow`: every edge into the block is
redirected to `bbout`. -/
def redirectPass (bl bbout : BlockId) (d : Blocks) : Outcome (Pass Blocks Blocks) := do
  match (← d.get bl).intothis with
  | [] => pure (.leave d)
  | edge :: _ => pure (.again (← blockReplaceOutEdge d edge.point edge.reverseIndex bbout))

def removeFromFlowPass (bl : BlockId) (d : Blocks) : Outcome (Pass Blocks Blocks) := do
  let out := (← d.get bl).outofthis
  if 0 < out.length then
    let lastslot := out.length - 1
    let bbout := (← getIdx out lastslot).point
    let d ← blockRemoveOutEdge d bl lastslot
    pure (.again (← loop (redirectPass bl bbout) ((← d.get bl).intothis.length + 1) d))
  else
    pure (.leave d)

def blockRemoveFromFlow (d : Blocks) (bl : BlockId) : Outcome Blocks := do
  loop (removeFromFlowPass bl) ((← d.get bl).outofthis.length + 1) d

/-- One pass over a slot of a component in `block_self_identify`. An edge to
a block outside of the graph is redirected, with all edges parallel to it. -/
def identifyPass (dir : Dir) (graph mybl : BlockId) (s : Nat × Blocks) :
    Outcome (Pass (Nat × Blocks) Blocks) := do
  let (slot, d) := s
  let list := (← d.get mybl).edges dir
  if slot < list.length then
    let otherbl := (← getIdx list slot).point
    if (← d.get otherbl).parent = some graph then
      pure (.again (slot + 1, d))
    else
      let d ← switchDirEdge dir.op d otherbl mybl graph
      match dir with
      | .into => pure (.again (slot, d))
      | .outof =>
          if (← d.get mybl).isSwitchOut then
            pure (.again (slot, ← d.modify graph (FlowBlock.setFlag FlowBlock.fSwitchOut)))
          else
            pure (.again (slot, d))
  else
    pure (.leave d)

def blockSelfIdentify (d : Blocks) (graph : BlockId) : Outcome Blocks := do
  let list := (← d.get graph).list
  if list = [] then
    pure d
  else
    let d ← list.foldlM (fun d mybl => do
      let d ← loop (identifyPass .into graph mybl) ((← d.get mybl).intothis.length + 1) (0, d)
      loop (identifyPass .outof graph mybl) ((← d.get mybl).outofthis.length + 1) (0, d)) d
    blockDedup d graph

end GhidraDecompiler.Block
