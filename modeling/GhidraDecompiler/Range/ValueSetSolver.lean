import Mathlib.Algebra.Order.Monoid.Unbundled.WithTop
import Mathlib.Data.Nat.Cast.WithTop
import GhidraDecompiler.Lib.Fallible

namespace GhidraDecompiler.Range

open Fallible

/-- The parts of the function that the edges between value sets are read from. -/
structure Funcdata where
  descend : Nat → List Nat
  getOut : Nat → Option Nat
  isMark : Nat → Bool
  getValueSet : Nat → Option Nat

/-- A vertex of the data-flow graph. Its count is 0 before it is visited, then its
depth-first index, and the largest integer, here the top element, from the time at
which it is known where it belongs in the order. -/
structure ValueSet where
  count : WithTop Nat
  vn : Option Nat
  partHead : Option Nat
  next : Option Nat
  deriving DecidableEq

def ValueSet.newEmpty : ValueSet := { count := 0, vn := none, partHead := none, next := none }

structure Partition where
  startNode : Option Nat
  stopNode : Option Nat
  isDirty : Bool
  deriving DecidableEq

def Partition.new : Partition := { startNode := none, stopNode := none, isDirty := false }

structure ValueSetEdge where
  useRoots : Bool
  rootPos : Nat
  vn : Option Nat
  iter : Nat

namespace ValueSetEdge

/-- The first reader from here on whose output is marked, as the value set of that
output and the position after it. -/
def scan (data : Funcdata) : List Nat → Nat → Option Nat × Nat
  | [], iter => (none, iter)
  | op :: ops, iter =>
      match data.getOut op with
      | some outVn => if data.isMark outVn then (data.getValueSet outVn, iter + 1) else scan data ops (iter + 1)
      | none => scan data ops (iter + 1)

def getNext (e : ValueSetEdge) (roots : List Nat) (data : Funcdata) : Option Nat × ValueSetEdge :=
  match e.vn with
  | none =>
      if e.useRoots then
        match roots[e.rootPos]? with
        | some res => (some res, { e with rootPos := e.rootPos + 1 })
        | none => (none, e)
      else (none, e)
  | some vn =>
      let (res, iter) := scan data ((data.descend vn).drop e.iter) e.iter
      (res, { e with iter := iter })

/-- What the marked outputs of a list of readers give, up to the first that has no
value set. -/
def marked (data : Funcdata) : List Nat → List Nat
  | [] => []
  | op :: ops =>
      match data.getOut op with
      | some outVn =>
          if data.isMark outVn then
            match data.getValueSet outVn with
            | some valueSet => valueSet :: marked data ops
            | none => []
          else marked data ops
      | none => marked data ops

/-- The values that `get_next` still returns before it returns none. -/
def remaining (e : ValueSetEdge) (roots : List Nat) (data : Funcdata) : List Nat :=
  match e.vn with
  | none => if e.useRoots then roots.drop e.rootPos else []
  | some vn => marked data ((data.descend vn).drop e.iter)

theorem scan_marked (data : Funcdata) (ops all : List Nat) (iter : Nat) (h : all.drop iter = ops) :
    marked data ops = match scan data ops iter with
      | (some valueSet, iter) => valueSet :: marked data (all.drop iter)
      | (none, _) => [] := by
  induction ops generalizing iter with
  | nil => rfl
  | cons op ops ih =>
      have hrest : all.drop (iter + 1) = ops := by
        rw [← List.tail_drop, h, List.tail_cons]
      simp only [scan, marked]
      cases data.getOut op with
      | none => exact ih (iter + 1) hrest
      | some outVn =>
          by_cases hm : data.isMark outVn
          · cases hv : data.getValueSet outVn <;> simp [hm, hv, hrest]
          · simpa [hm] using ih (iter + 1) hrest

/-- Every call of `get_next` takes the first of the remaining values. -/
theorem remaining_getNext (e : ValueSetEdge) (roots : List Nat) (data : Funcdata) :
    e.remaining roots data = match e.getNext roots data with
      | (some valueSet, e') => valueSet :: e'.remaining roots data
      | (none, _) => [] := by
  obtain ⟨useRoots, rootPos, vn, iter⟩ := e
  cases vn with
  | none =>
      cases useRoots with
      | false => simp [remaining, getNext]
      | true =>
          cases hr : roots[rootPos]? with
          | none => simp [remaining, getNext, hr, List.getElem?_eq_none_iff.mp hr]
          | some res =>
              obtain ⟨hlt, rfl⟩ := List.getElem?_eq_some_iff.mp hr
              simp [remaining, getNext, hr]
  | some vn =>
      have h := scan_marked data _ (data.descend vn) iter rfl
      simp only [remaining, getNext, h]
      rcases scan data ((data.descend vn).drop iter) iter with ⟨_ | valueSet, iter'⟩ <;> rfl

end ValueSetEdge

structure ValueSetSolver where
  valueNodes : List ValueSet
  orderPartition : Partition
  recordStorage : List Partition
  rootNodes : List Nat
  nodeStack : List Nat
  depthFirstIndex : Nat
  deriving DecidableEq

namespace ValueSetSolver

/-- An assignment to a field of a value set. -/
def assign (s : ValueSetSolver) (node : Nat) (f : ValueSet → ValueSet) : Outcome ValueSetSolver :=
  if node < s.valueNodes.length then .ok { s with valueNodes := s.valueNodes.modify node f } else .error .panic

/-- The value sets that an edge iterator for the vertex runs through. -/
def edges (s : ValueSetSolver) (data : Funcdata) (node : Nat) : Outcome (List Nat) := do
  let valueSet ← getIdx s.valueNodes node
  let edge : ValueSetEdge :=
    { useRoots := valueSet.vn.isNone, rootPos := 0, vn := valueSet.vn, iter := 0 }
  pure (edge.remaining s.rootNodes data)

def partitionPrepend (s : ValueSetSolver) (vertex : Nat) (part : Partition) :
    Outcome (ValueSetSolver × Partition) := do
  let s ← s.assign vertex (fun v => { v with next := part.startNode })
  let part := { part with startNode := some vertex }
  pure (s, if part.stopNode.isNone then { part with stopNode := some vertex } else part)

def partitionPrependPartition (s : ValueSetSolver) (head part : Partition) :
    Outcome (ValueSetSolver × Partition) := do
  let stop ← expect head.stopNode
  let s ← s.assign stop (fun v => { v with next := part.startNode })
  let part := { part with startNode := head.startNode }
  pure (s, if part.stopNode.isNone then { part with stopNode := head.stopNode } else part)

def partitionSurround (s : ValueSetSolver) (part : Partition) : Outcome ValueSetSolver := do
  let s := { s with recordStorage := s.recordStorage ++ [part] }
  let start ← expect part.startNode
  s.assign start (fun v => { v with partHead := some (s.recordStorage.length - 1) })

/-- The vertices above the given one are taken from the stack and can be visited
again. -/
def popAbove (vertex : Nat) : List Nat → ValueSetSolver → Outcome ValueSetSolver
  | [], _ => .error .panic
  | element :: stack, s =>
      if element = vertex then .ok { s with nodeStack := stack }
      else do
        let s ← s.assign element (fun v => { v with count := 0 })
        popAbove vertex stack s

section Traversal

variable (data : Funcdata)
  (visit : Nat → ValueSetSolver → Partition → Outcome (ValueSetSolver × Partition × WithTop Nat))

def componentEdge (st : ValueSetSolver × Partition) (successor : Nat) : Outcome (ValueSetSolver × Partition) := do
  let valueSet ← getIdx st.1.valueNodes successor
  if valueSet.count = 0 then do
    let (s, part, _) ← visit successor st.1 st.2
    pure (s, part)
  else pure st

def component (vertex : Nat) (s : ValueSetSolver) (part : Partition) : Outcome (ValueSetSolver × Partition) := do
  let successors ← s.edges data vertex
  let (s, part) ← successors.foldlM (componentEdge visit) (s, part)
  let (s, part) ← s.partitionPrepend vertex part
  let s ← s.partitionSurround part
  pure (s, part)

/-- The variables of the loop over the successors in `visit`. -/
structure Scan where
  solver : ValueSetSolver
  part : Partition
  head : WithTop Nat
  loopFound : Bool

def visitEdge (st : Scan) (successor : Nat) : Outcome Scan := do
  let valueSet ← getIdx st.solver.valueNodes successor
  let (s, part, min) ←
    if valueSet.count = 0 then visit successor st.solver st.part
    else pure (st.solver, st.part, valueSet.count)
  if min ≤ st.head then pure { solver := s, part := part, head := min, loopFound := true }
  else pure { st with solver := s, part := part }

/-- The end of `visit`: when no successor led below the vertex, it and what is above
it on the stack get their place. -/
def finish (vertex : Nat) (st : Scan) : Outcome (ValueSetSolver × Partition × WithTop Nat) := do
  let valueSet ← getIdx st.solver.valueNodes vertex
  if st.head = valueSet.count then do
    let s ← st.solver.assign vertex (fun v => { v with count := ⊤ })
    if st.loopFound then do
      let s ← popAbove vertex s.nodeStack s
      let (s, compPart) ← component data visit vertex s Partition.new
      let (s, part) ← s.partitionPrependPartition compPart st.part
      pure (s, part, st.head)
    else
      match s.nodeStack with
      | [] => .error .panic
      | _ :: stack => do
          let (s, part) ← partitionPrepend { s with nodeStack := stack } vertex st.part
          pure (s, part, st.head)
  else pure (st.solver, st.part, st.head)

end Traversal

def visit (data : Funcdata) :
    Nat → Nat → ValueSetSolver → Partition → Outcome (ValueSetSolver × Partition × WithTop Nat)
  | 0, _, _, _ => .error .outOfFuel
  | fuel + 1, vertex, s, part => do
      let index := s.depthFirstIndex + 1
      let s := { s with nodeStack := vertex :: s.nodeStack, depthFirstIndex := index }
      let s ← s.assign vertex (fun v => { v with count := index })
      let successors ← s.edges data vertex
      let st ← successors.foldlM (visitEdge (visit data fuel))
        { solver := s, part := part, head := index, loopFound := false }
      finish data (visit data fuel) vertex st

/-- Every visit turns a vertex that was not visited into one that is, so that the
number of vertices is fuel enough. -/
def establishTopologicalOrder (data : Funcdata) (s : ValueSetSolver) : Outcome ValueSetSolver := do
  let reset := s.valueNodes.map (fun v => { v with count := 0, next := none, partHead := none })
  let rootNode := reset.length
  let orderPartition := s.orderPartition
  let s := { s with
    valueNodes := reset ++ [ValueSet.newEmpty], depthFirstIndex := 0, orderPartition := Partition.new }
  let (s, orderPartition, _) ← visit data s.valueNodes.length rootNode s orderPartition
  let start ← expect orderPartition.startNode
  let valueSet ← getIdx s.valueNodes start
  let orderPartition := { orderPartition with startNode := valueSet.next }
  let orderPartition :=
    if orderPartition.stopNode = some rootNode then { orderPartition with stopNode := none } else orderPartition
  pure { s with valueNodes := s.valueNodes.dropLast, orderPartition := orderPartition }

end ValueSetSolver

end GhidraDecompiler.Range
