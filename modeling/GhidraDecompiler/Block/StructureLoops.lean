import GhidraDecompiler.Block.SpanningTree

namespace GhidraDecompiler.Block

open Fallible FlowBlock

/-- The blocks and the local variables of the search for irreducible edges. -/
structure Reaching where
  d : Blocks
  reachunder : List BlockId
  irreduciblecount : Int
  needrebuild : Bool
  deriving DecidableEq

namespace Reaching

/-- The first loop over the in edges of a head: the sources of its back edges. -/
def startSlot (head : BlockId) (s : Reaching) (slot : Nat) : Outcome Reaching := do
  let edge ← getIdx (← s.d.get head).intothis slot
  if edge.label &&& fBackEdge = 0#32 then pure s
  else if edge.point = head then pure s
  else
    let ymap ← expect (← s.d.get edge.point).copymap
    pure { s with d := ← s.d.modify ymap setMark, reachunder := s.reachunder ++ [ymap] }

/-- An edge that enters the loop from elsewhere becomes irreducible. -/
def markSlot (member : BlockId) (s : Reaching) (slot : Nat) (edge : BlockEdge) : Outcome Reaching := do
  let d ← blockSetOutEdgeFlag s.d edge.point edge.reverseIndex fIrreducible
  let s := { s with d, irreduciblecount := s.irreduciblecount + 1 }
  if (← getIdx (← s.d.get member).intothis slot).label &&& fTreeEdge ≠ 0#32 then
    pure { s with needrebuild := true }
  else
    pure { s with d := ← blockClearOutEdgeFlag s.d edge.point edge.reverseIndex (fCrossEdge ||| fForwardEdge) }

def reachSlot (head member : BlockId) (s : Reaching) (slot : Nat) : Outcome Reaching := do
  let edge ← getIdx (← s.d.get member).intothis slot
  if edge.label &&& fIrreducible ≠ 0#32 then pure s
  else
    let yprime ← expect (← s.d.get edge.point).copymap
    let xvisit := (← s.d.get head).visitcount
    let xdesc := (← s.d.get head).numdesc
    let yvisit := (← s.d.get yprime).visitcount
    if xvisit > yvisit ∨ xvisit + xdesc ≤ yvisit then
      markSlot member s slot edge
    else if (← s.d.get yprime).isMark = false ∧ yprime ≠ head then
      pure { s with d := ← s.d.modify yprime setMark, reachunder := s.reachunder ++ [yprime] }
    else
      pure s

/-- One pass through the queue. -/
def reachPass (head : BlockId) (s : Nat × Reaching) : Outcome (Pass (Nat × Reaching) Reaching) := do
  let (queue_index, s) := s
  match s.reachunder[queue_index]? with
  | none => pure (.leave s)
  | some member =>
      let size := (← s.d.get member).intothis.length
      pure (.again (queue_index + 1, ← (List.range size).foldlM (reachSlot head member) s))

def collapse (head : BlockId) (b : FlowBlock) : FlowBlock := { b.clearMark with copymap := some head }

/-- The loop with a given head is found and collapsed. A block enters the queue
once for each edge in the first loop, and at most once more in the second. -/
def visitHead (s : Reaching) (head : BlockId) : Outcome Reaching := do
  let size := (← s.d.get head).intothis.length
  let s ← (List.range size).foldlM (startSlot head) s
  let s ← loop (reachPass head) (size + s.d.nextId + 1) (0, s)
  let d ← s.reachunder.foldlM (fun d member => d.modify member (collapse head)) s.d
  pure { s with d, reachunder := [] }

end Reaching

def blockFindIrreducible (d : Blocks) (preorder : List BlockId) (irreduciblecount : Int) :
    Outcome (Blocks × Int × Bool) := do
  let s ← preorder.reverse.foldlM Reaching.visitHead ⟨d, [], irreduciblecount, false⟩
  pure (s.d, s.irreduciblecount, s.needrebuild)

def blockAddLoopEdge (d : Blocks) (begin : BlockId) (outindex : Nat) : Outcome Blocks :=
  blockSetOutEdgeFlag d begin outindex fLoopEdge

/-- One pass of the search in `block_calc_loop`; the tops of the two vectors
stand first. -/
def calcLoopPass (s : Blocks × List BlockId × List Nat) :
    Outcome (Pass (Blocks × List BlockId × List Nat) Blocks) := do
  let (d, path, state) := s
  match path with
  | [] => pure (.leave d)
  | bl :: rest =>
      let slot ← expect state.head?
      if slot ≥ (← d.get bl).outofthis.length then
        pure (.again (← d.modify bl (clearFlag fMark2), rest, state.tail))
      else
        let state := (slot + 1) :: state.tail
        let edge ← getIdx (← d.get bl).outofthis slot
        if edge.label &&& fLoopEdge ≠ 0#32 then pure (.again (d, path, state))
        else
          let nextbl := edge.point
          if (← d.get nextbl).flags &&& fMark2 ≠ 0#32 then
            pure (.again (← blockAddLoopEdge d bl slot, path, state))
          else if (← d.get nextbl).flags &&& fMark = 0#32 then
            pure (.again (← d.modify nextbl (setFlag (fMark ||| fMark2)), nextbl :: path, 0 :: state))
          else
            pure (.again (d, path, state))

def blockCalcLoop (d : Blocks) (graph : BlockId) : Outcome Blocks := do
  let list := (← d.get graph).list
  match list with
  | [] => pure d
  | first :: _ =>
      let d ← d.modify first (setFlag (fMark ||| fMark2))
      let d ← loop calcLoopPass (walkFuel d list) (d, [first], [0])
      list.foldlM (fun d child => d.modify child (clearFlag (fMark ||| fMark2))) d

/-- One pass of the loop of `block_structure_loops`. -/
def structurePass (graph : BlockId) (s : Blocks × List BlockId × List BlockId × Int) :
    Outcome (Pass (Blocks × List BlockId × List BlockId × Int) (Blocks × List BlockId × Int)) := do
  let (d, preorder, rootlist, irreduciblecount) := s
  let (d, preorder, rootlist) ← blockFindSpanningTree d graph preorder rootlist
  let (d, irreduciblecount, needrebuild) ← blockFindIrreducible d preorder irreduciblecount
  if needrebuild then
    let d ← blockClearEdgeFlags d graph (fTreeEdge ||| fForwardEdge ||| fCrossEdge ||| fBackEdge ||| fLoopEdge)
    pure (.again (d, [], [], irreduciblecount))
  else
    pure (.leave (d, rootlist, irreduciblecount))

/-- The source bounds the number of rebuilds by nothing; here `fuel` does. -/
def blockStructureLoops (fuel : Nat) (d : Blocks) (graph : BlockId) (rootlist : List BlockId) :
    Outcome (Blocks × List BlockId) := do
  let (d, rootlist, irreduciblecount) ← loop (structurePass graph) fuel (d, [], rootlist, 0)
  if irreduciblecount > 0 then pure (← blockCalcLoop d graph, rootlist) else pure (d, rootlist)

end GhidraDecompiler.Block
