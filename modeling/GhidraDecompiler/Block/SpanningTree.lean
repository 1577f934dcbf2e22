import GhidraDecompiler.Block.EdgeLabels
import Mathlib.Algebra.GroupWithZero.Nat

namespace GhidraDecompiler.Block

open Fallible FlowBlock

/-- The bits that the search clears on every edge before it sets its own. -/
def spanFlags : Flags :=
  fIrreducible ||| fTreeEdge ||| fForwardEdge ||| fCrossEdge ||| fBackEdge ||| fLoopEdge ||| fLoopExitEdge

/-- The blocks and the local variables of the search. The tops of the vectors
`state` and `istate` stand first in the two lists. -/
structure Spanning where
  d : Blocks
  preorder : List BlockId
  rootlist : List BlockId
  rpostorder : List (Option BlockId)
  rpostcount : Nat
  state : List BlockId
  istate : List Nat
  deriving DecidableEq

namespace Spanning

/-- A block is visited for the first time. -/
def enter (s : Spanning) (bl : BlockId) : Outcome Spanning := do
  let d ← s.d.modify bl fun b => { b with visitcount := s.preorder.length, numdesc := 1 }
  pure { s with d := d, preorder := s.preorder ++ [bl], state := bl :: s.state, istate := 0 :: s.istate }

/-- The descendants of a block are counted to its parent, if it has one. -/
def creditParent (d : Blocks) (curbl : BlockId) : List BlockId → Outcome Blocks
  | [] => pure d
  | parentbl :: _ => do
      let numdesc := (← d.get curbl).numdesc
      d.modify parentbl fun b => { b with numdesc := b.numdesc + numdesc }

/-- All out edges of a block were followed, and it is given its index. -/
def retire (s : Spanning) (curbl : BlockId) (rest : List BlockId) : Outcome Spanning := do
  if s.rpostcount = 0 then throw .panic
  let rpostcount := s.rpostcount - 1
  let d ← s.d.modify curbl fun b => { b with index := rpostcount }
  let rpostorder ← setIdx s.rpostorder rpostcount (some curbl)
  let d ← creditParent d curbl rest
  pure { s with d, rpostorder, rpostcount, state := rest, istate := s.istate.tail }

def follow (s : Spanning) (curbl : BlockId) (edgenum : Nat) : Outcome Spanning := do
  let childbl := (← getIdx (← s.d.get curbl).outofthis edgenum).point
  if (← s.d.get childbl).visitcount = -1 then
    enter { s with d := ← blockSetOutEdgeFlag s.d curbl edgenum fTreeEdge } childbl
  else if (← s.d.get childbl).index = -1 then
    pure { s with d := ← blockSetOutEdgeFlag s.d curbl edgenum (fBackEdge ||| fLoopEdge) }
  else if (← s.d.get curbl).visitcount < (← s.d.get childbl).visitcount then
    pure { s with d := ← blockSetOutEdgeFlag s.d curbl edgenum fForwardEdge }
  else
    pure { s with d := ← blockSetOutEdgeFlag s.d curbl edgenum fCrossEdge }

/-- The body of the innermost loop. -/
def walkPass (s : Spanning) : Outcome (Pass Spanning Spanning) := do
  match s.state with
  | [] => pure (.leave s)
  | curbl :: rest =>
      let curstate ← expect s.istate.head?
      if (← s.d.get curbl).outofthis.length ≤ curstate then
        pure (.again (← s.retire curbl rest))
      else
        let s := { s with istate := (curstate + 1) :: s.istate.tail }
        if (← getIdx (← s.d.get curbl).outofthis curstate).label &&& fIrreducible ≠ 0#32 then
          pure (.again s)
        else
          pure (.again (← s.follow curbl curstate))

end Spanning

/-- The body of the loop over the root list: roots that were visited in the
meantime are taken out of it. -/
def rootPass (d : Blocks) (s : Nat × List BlockId) :
    Outcome (Pass (Nat × List BlockId) (Option BlockId × Nat × List BlockId)) := do
  let (rootindex, rootlist) := s
  match rootlist[rootindex]? with
  | none => pure (.leave (none, rootindex, rootlist))
  | some candidate =>
      if (← d.get candidate).visitcount = -1 then
        pure (.leave (some candidate, rootindex + 1, rootlist))
      else
        pure (.again (rootindex, rootlist.eraseIdx rootindex))

/-- The first block that was not visited yet, and the last one if there is
none. -/
def chooseBlock (d : Blocks) : List BlockId → BlockId → Outcome BlockId
  | [], chosen => pure chosen
  | child :: rest, _ => do
      if (← d.get child).visitcount = -1 then pure child else chooseBlock d rest child

/-- The number of passes of the innermost loop: one for each edge and one for
each block. -/
def walkFuel (d : Blocks) (list : List BlockId) : Nat :=
  (list.map fun b => (blk d b).outofthis.length + 1).sum + 1

/-- The body of the loop that starts a new tree. -/
def treePass (list : List BlockId) (s : Spanning × Nat × Bool) :
    Outcome (Pass (Spanning × Nat × Bool) (Spanning × Bool)) := do
  let (s, rootindex, extraroots) := s
  if s.preorder.length < list.length then
    let (startbl, rootindex, rootlist) ← loop (rootPass s.d) (s.rootlist.length + 1) (rootindex, s.rootlist)
    match startbl with
    | some startbl =>
        let s ← Spanning.enter { s with rootlist } startbl
        pure (.again (← loop Spanning.walkPass (walkFuel s.d list) s, rootindex, extraroots))
    | none =>
        let chosen ← chooseBlock s.d list (← getIdx list 0)
        let s ← Spanning.enter { s with rootlist := rootlist ++ [chosen] } chosen
        pure (.again (← loop Spanning.walkPass (walkFuel s.d list) s, rootindex + 1, true))
  else
    pure (.leave (s, extraroots))

/-- One of the two rounds: all blocks are visited, starting from the roots.
The result says whether further roots had to be found. -/
def spanRound (graph : BlockId) (list : List BlockId) (s : Spanning) : Outcome (Spanning × Bool) := do
  let d ← blockClearEdgeFlags s.d graph spanFlags
  loop (treePass list) (list.length + 1) ({ s with d, rpostcount := list.length }, 0, false)

def unvisit (child : BlockId) (b : FlowBlock) : FlowBlock :=
  { b with index := -1, visitcount := -1, copymap := some child }

/-- The first loop, which collects the blocks without in edges. -/
def collectRoots (s : Blocks × List BlockId) (child : BlockId) : Outcome (Blocks × List BlockId) := do
  let (d, rootlist) := s
  let d ← d.modify child (unvisit child)
  if (← d.get child).intothis.length = 0 then pure (d, rootlist ++ [child]) else pure (d, rootlist)

/-- The first root changes places with the last one. -/
def swapRoots (rootlist : List BlockId) : Outcome (List BlockId) :=
  if rootlist.length > 1 then swapIdx rootlist 0 (rootlist.length - 1) else pure rootlist

/-- The second round starts from the roots that the first one has found. -/
def spanAgain (graph : BlockId) (list : List BlockId) (origrootpos : Nat) (s : Spanning) : Outcome Spanning := do
  let rootlist ← swapIdx s.rootlist (s.rootlist.length - 1) origrootpos
  let d ← list.foldlM (fun d child => d.modify child (unvisit child)) s.d
  let (s, extraroots) ← spanRound graph list { s with d, rootlist, preorder := [], state := [], istate := [] }
  if extraroots then throw (.lowlevel "Could not generate spanning tree") else pure s

/-- The loop over the two rounds, written out. -/
def spanRounds (graph : BlockId) (list : List BlockId) (s : Spanning) : Outcome Spanning := do
  let origrootpos := s.rootlist.length - 1
  let (s, extraroots) ← spanRound graph list s
  if extraroots then spanAgain graph list origrootpos s else pure s

/-- The roots of the first round: the blocks without in edges, or the first
block if there are none. -/
def firstRoots (list rootlist : List BlockId) : Outcome (List BlockId) := do
  if rootlist = [] then pure [← getIdx list 0] else swapRoots rootlist

def blockFindSpanningTree (d : Blocks) (graph : BlockId) (preorder rootlist : List BlockId) :
    Outcome (Blocks × List BlockId × List BlockId) := do
  let list := (← d.get graph).list
  if list = [] then pure (d, preorder, rootlist)
  else
    let (d, rootlist) ← list.foldlM collectRoots (d, rootlist)
    let rootlist ← firstRoots list rootlist
    let s ← spanRounds graph list ⟨d, preorder, rootlist, List.replicate list.length none, list.length, [], []⟩
    let rootlist ← swapRoots s.rootlist
    let newlist ← s.rpostorder.mapM expect
    let d ← s.d.modify graph fun b => { b with list := newlist }
    pure (d, s.preorder, rootlist)

end GhidraDecompiler.Block
