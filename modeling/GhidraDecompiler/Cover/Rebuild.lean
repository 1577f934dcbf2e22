import GhidraDecompiler.Cover.CoverBlock
import GhidraDecompiler.Lib.Fallible

namespace GhidraDecompiler.LiveRange

open CoverBlock Fallible

namespace Cover

def isMultiequal (data : Funcdata) : CoverPoint → Bool
  | .op id => (data.op id).code = .multiequal
  | _ => false

/-- Writes back the entry of a block, which is made when there is none. -/
def setBlock (c : Cover) (index : Int) (block : CoverBlock) : Cover := ⟨c.cover.insert index block⟩

/-- The depth of the recursion is bounded by the fuel. -/
def addRefRecurse (data : Funcdata) : Nat → Cover → Nat → Outcome Cover
  | 0, _, _ => .error .outOfFuel
  | fuel + 1, c, bl =>
      let flow := data.block bl
      let block := c.getCoverBlock flow.index
      if block.empty then
        flow.ins.foldlM (addRefRecurse data fuel) (c.setBlock flow.index setAll)
      else
        let op := block.stop
        let ustart := getUIndex data block.start
        let ustop := getUIndex data op
        let c := if ustop ≠ 2 ^ 32 - 1 ∧ ustop ≥ ustart then c.setBlock flow.index (block.setEnd .finish) else c
        if ustop = 0 ∧ block.start = .begin ∧ isMultiequal data op then
          flow.ins.foldlM (addRefRecurse data fuel) c
        else pure c

/-- Each block is entered at most twice below another one. -/
def recurseFuel (data : Funcdata) : Nat := 2 * data.blocks.length + 1

def addRefIns (data : Funcdata) (c : Cover) (bl : Nat) : Outcome Cover :=
  (data.block bl).ins.foldlM (addRefRecurse data (recurseFuel data)) c

def addRefSlot (data : Funcdata) (bl reference vn : Nat) (c : Cover) (slot : Nat) : Outcome Cover :=
  if (data.op reference).getIn slot = vn then do
    let pred ← getIdx (data.block bl).ins slot
    addRefRecurse data (recurseFuel data) c pred
  else pure c

/-- The blocks from which a `MULTIEQUAL` reads a varnode. -/
def addRefSlots (data : Funcdata) (c : Cover) (bl reference vn : Nat) : Outcome Cover :=
  (List.range (data.op reference).inputs.length).foldlM (addRefSlot data bl reference vn) c

def addDefPoint (data : Funcdata) (vn : Nat) : Cover :=
  match (data.vn vn).defOp with
  | some d =>
      Cover.setBlock ⟨SortedMap.empty⟩ (data.block (data.op d).parent).index
        ((CoverBlock.new.setBegin (.op d)).setEnd (.op d))
  | none =>
      if (data.vn vn).input then
        Cover.setBlock ⟨SortedMap.empty⟩ 0 ((CoverBlock.new.setBegin .input).setEnd .input)
      else ⟨SortedMap.empty⟩

def addRefPoint (data : Funcdata) (c : Cover) (reference vn : Nat) : Outcome Cover :=
  let refOp := data.op reference
  let bl := refOp.parent
  let flow := data.block bl
  let block := c.getCoverBlock flow.index
  let behind (c : Cover) : Outcome Cover :=
    if refOp.code = .multiequal then addRefSlots data c bl reference vn else addRefIns data c bl
  if block.empty then behind (c.setBlock flow.index (block.setEnd (.op reference)))
  else if block.contain data (.op reference) then
    if refOp.code ≠ .multiequal then pure c else behind c
  else
    let op := block.stop
    let startop := block.start
    let c := c.setBlock flow.index (block.setEnd (.op reference))
    if getUIndex data (.op reference) ≥ getUIndex data startop then
      if isMultiequal data op ∧ startop = .begin then addRefIns data c bl else pure c
    else behind c

/-- The varnodes whose uses are still to be added, with the implied outputs of those
uses behind them. -/
def rebuildPath (data : Funcdata) (vn : Nat) : Nat → List Nat → Cover → Outcome Cover
  | 0, _, _ => .error .outOfFuel
  | _ + 1, [], c => pure c
  | fuel + 1, curVn :: path, c => do
      let descend := (data.vn curVn).descend
      let c ← descend.foldlM (fun c op => addRefPoint data c op vn) c
      let implied := descend.filterMap fun op => (data.op op).out.filter fun out => (data.vn out).implied
      rebuildPath data vn fuel (path ++ implied) c

def rebuild (data : Funcdata) (fuel : Nat) (vn : Nat) : Outcome Cover :=
  rebuildPath data vn fuel [vn] (addDefPoint data vn)

def contain (data : Funcdata) (c : Cover) (op : Nat) (max : Int) : Bool :=
  match c.cover.lookup (data.block (data.op op).parent).index with
  | none => false
  | some block =>
      if block.contain data (.op op) then
        if max = 1 then true else block.boundary data (.op op) = 0
      else false

end Cover

/-- Control flow from one position to another, with the operations it passes. A position
is before the operation at its index in its block, or behind the last one. -/
inductive Flow (data : Funcdata) : Nat × Nat → List Nat → Nat × Nat → Prop
  | refl (p : Nat × Nat) : Flow data p [] p
  | op {bl i id : Nat} {ids : List Nat} {q : Nat × Nat} (hop : (data.block bl).ops[i]? = some id)
      (h : Flow data (bl, i + 1) ids q) : Flow data (bl, i) (id :: ids) q
  | edge {bl bl' : Nat} {ids : List Nat} {q : Nat × Nat} (hin : bl ∈ (data.block bl').ins)
      (hmem : bl' ∈ data.blocks) (h : Flow data (bl', 0) ids q) : Flow data (bl, (data.block bl).ops.length) ids q

/-- Where an operation reads a varnode: a `MULTIEQUAL` does at the end of the block that
comes in on a slot of the varnode. -/
def UsedAt (data : Funcdata) (vn use : Nat) (q : Nat × Nat) : Prop :=
  if (data.op use).code = .multiequal then
    ∃ slot : Nat, (data.op use).inputs[slot]? = some vn ∧ (data.block (data.op use).parent).ins[slot]? = some q.1 ∧
      q.2 = (data.block q.1).ops.length
  else q.1 = (data.op use).parent ∧ (data.block q.1).ops[q.2]? = some use

/-- Where the value of a varnode is first there: behind its definition, or at the entry
of the function. -/
def DefinedAt (data : Funcdata) (entry vn : Nat) (p : Nat × Nat) : Prop :=
  match (data.vn vn).defOp with
  | some d => p.1 = (data.op d).parent ∧ ∃ k, p.2 = k + 1 ∧ (data.block p.1).ops[k]? = some d
  | none => (data.vn vn).input = true ∧ p = (entry, 0)

/-- The operation that an `INDIRECT` stands in front of. -/
def iop (data : Funcdata) (id : Nat) : Nat := getOpFromConst (data.vn ((data.op id).getIn 1))

/-- A function in static single assignment form, laid out as inserting operations keeps
it: the orders in a block are positive and increase, every `MULTIEQUAL` is before the
other operations, and the `INDIRECT`s of an operation are right before it. -/
structure Ssa (data : Funcdata) (entry : Nat) : Prop where
  entry_mem : entry ∈ data.blocks
  entry_index : (data.block entry).index = 0
  entry_ins : (data.block entry).ins = []
  index_inj : ∀ b ∈ data.blocks, ∀ b' ∈ data.blocks, (data.block b).index = (data.block b').index → b = b'
  ins_mem : ∀ b ∈ data.blocks, ∀ p ∈ (data.block b).ins, p ∈ data.blocks
  parent : ∀ b ∈ data.blocks, ∀ id ∈ (data.block b).ops, (data.op id).parent = b
  marker : ∀ b ∈ data.blocks, ∀ id ∈ (data.block b).ops,
    (data.op id).marker = true ↔ (data.op id).code = .multiequal ∨ (data.op id).code = .indirect
  order_pos : ∀ b ∈ data.blocks, ∀ id ∈ (data.block b).ops, 0 < (data.op id).order
  orders : ∀ b ∈ data.blocks, (data.block b).ops.Pairwise fun x y => (data.op x).order < (data.op y).order
  multiequals : ∀ b ∈ data.blocks, (data.block b).ops.Pairwise fun x y =>
    (data.op y).code = .multiequal → (data.op x).code = .multiequal
  slots : ∀ b ∈ data.blocks, ∀ id ∈ (data.block b).ops, (data.op id).code = .multiequal →
    (data.op id).inputs.length = (data.block b).ins.length
  indirects : ∀ b ∈ data.blocks, ∀ i id : Nat, (data.block b).ops[i]? = some id → (data.op id).code = .indirect →
    ∃ t : Nat, i < t ∧ (data.block b).ops[t]? = some (iop data id) ∧ (data.op (iop data id)).marker = false ∧
      ∀ j : Nat, i < j → j < t → ∃ x, (data.block b).ops[j]? = some x ∧ (data.op x).code = .indirect ∧
        iop data x = iop data id
  descend : ∀ vn id, id ∈ (data.vn vn).descend ↔
    (∃ b ∈ data.blocks, id ∈ (data.block b).ops) ∧ vn ∈ (data.op id).inputs
  defs : ∀ vn d, (data.vn vn).defOp = some d → ∃ b ∈ data.blocks, d ∈ (data.block b).ops
  reachable : ∀ b ∈ data.blocks, ∃ ids, Flow data (entry, 0) ids (b, 0)
  dominates : ∀ vn d, (data.vn vn).defOp = some d → ∀ use ∈ (data.vn vn).descend, ∀ q, UsedAt data vn use q →
    ∀ ids, Flow data (entry, 0) ids q → d ∈ ids

end GhidraDecompiler.LiveRange
