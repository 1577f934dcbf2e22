import GhidraDecompiler.Lib.Arena
import GhidraDecompiler.Lib.Flags
import GhidraDecompiler.OpCode

namespace GhidraDecompiler.Block

open Fallible

abbrev BlockId := Nat

abbrev OpId := Nat

/-- The flag words are machine words of 32 bits. -/
abbrev Flags := BitVec 32

structure BlockEdge where
  label : Flags
  point : BlockId
  reverseIndex : Nat
  deriving DecidableEq

inductive BlockKind
  | plain
  | basic (op : List OpId)
  | graph
  | copy (copy : Option BlockId)
  | goto (gototarget : BlockId) (gototype : Flags)
  | multiGoto (gotoedges : List BlockId) (defaultswitch : Bool)
  | list
  | condition (opc : OpCode)
  | if
  | ifElse
  | ifNoExit
  | ifGoto (gototype : Flags) (gototarget : BlockId)
  | whileDo
  | doWhile
  | infLoop
  | switch
  deriving DecidableEq

structure FlowBlock where
  parent : Option BlockId
  immedDom : Option BlockId
  copymap : Option BlockId
  intothis : List BlockEdge
  outofthis : List BlockEdge
  flags : Flags
  index : Int
  visitcount : Int
  numdesc : Int
  leafCount : Int
  structureDepth : Int
  list : List BlockId
  kind : BlockKind
  deriving DecidableEq

namespace FlowBlock

def fSwitchOut : Flags := 0x10
def fMark : Flags := 0x80
def fMark2 : Flags := 0x100
def fInteriorGotoout : Flags := 0x400
def fInteriorGotoin : Flags := 0x800
def fFlipPath : Flags := 0x10000

def fGotoEdge : Flags := 1
def fLoopEdge : Flags := 2
def fIrreducible : Flags := 8
def fTreeEdge : Flags := 0x10
def fForwardEdge : Flags := 0x20
def fCrossEdge : Flags := 0x40
def fBackEdge : Flags := 0x80
def fLoopExitEdge : Flags := 0x100

def new (kind : BlockKind) : FlowBlock where
  parent := none
  immedDom := none
  copymap := none
  intothis := []
  outofthis := []
  flags := 0
  index := 0
  visitcount := 0
  numdesc := 0
  leafCount := 1
  structureDepth := 0
  list := []
  kind := kind

def newGraphKind (kind : BlockKind) : FlowBlock := { new kind with leafCount := 0 }

instance : Inhabited FlowBlock := ⟨new .plain⟩

def isMark (b : FlowBlock) : Bool := b.flags &&& fMark != 0#32

def setMark (b : FlowBlock) : FlowBlock := { b with flags := b.flags ||| fMark }

theorem isMark_setMark (b : FlowBlock) : b.setMark.isMark = true := by
  rw [isMark, bne_iff_ne]
  exact Flags.set_and_ne_zero (by decide)

def clearMark (b : FlowBlock) : FlowBlock := { b with flags := b.flags &&& ~~~fMark }

def setFlag (fl : Flags) (b : FlowBlock) : FlowBlock := { b with flags := b.flags ||| fl }

def clearFlag (fl : Flags) (b : FlowBlock) : FlowBlock := { b with flags := b.flags &&& ~~~fl }

def isSwitchOut (b : FlowBlock) : Bool := b.flags &&& fSwitchOut != 0#32

def isInteriorGotoTarget (b : FlowBlock) : Bool := b.flags &&& fInteriorGotoin != 0#32

end FlowBlock

/-- The two edge lists of a block. Most edge operations come in pairs that
differ only by which of the lists they start from. -/
inductive Dir
  | into
  | outof
  deriving DecidableEq

def Dir.op : Dir → Dir
  | .into => .outof
  | .outof => .into

@[simp] theorem Dir.op_into : Dir.into.op = .outof := rfl

@[simp] theorem Dir.op_outof : Dir.outof.op = .into := rfl

@[simp] theorem Dir.op_op (dir : Dir) : dir.op.op = dir := by cases dir <;> rfl

@[simp] theorem Dir.op_ne (dir : Dir) : dir.op ≠ dir := by cases dir <;> simp [Dir.op]

@[simp] theorem Dir.ne_op (dir : Dir) : dir ≠ dir.op := dir.op_ne.symm

theorem Dir.eq_or_eq_op (dir dir' : Dir) : dir' = dir ∨ dir' = dir.op := by
  cases dir <;> cases dir' <;> simp [Dir.op]

namespace FlowBlock

def edges (b : FlowBlock) : Dir → List BlockEdge
  | .into => b.intothis
  | .outof => b.outofthis

def setEdges (b : FlowBlock) (dir : Dir) (l : List BlockEdge) : FlowBlock :=
  match dir with
  | .into => { b with intothis := l }
  | .outof => { b with outofthis := l }

/-- Everything in a block except its two edge lists. -/
def core (b : FlowBlock) : FlowBlock := { b with intothis := [], outofthis := [] }

theorem edges_setEdges (b : FlowBlock) (dir dir' : Dir) (l : List BlockEdge) :
    (b.setEdges dir l).edges dir' = if dir' = dir then l else b.edges dir' := by
  cases dir <;> cases dir' <;> rfl

@[simp] theorem edges_setEdges_self (b : FlowBlock) (dir : Dir) (l : List BlockEdge) :
    (b.setEdges dir l).edges dir = l := by simp [edges_setEdges]

@[simp] theorem core_setEdges (b : FlowBlock) (dir : Dir) (l : List BlockEdge) :
    (b.setEdges dir l).core = b.core := by cases dir <;> rfl

@[simp] theorem edges_default (dir : Dir) : (default : FlowBlock).edges dir = [] := by cases dir <;> rfl

end FlowBlock

/-- All blocks of a function. The operations below are methods of the
function that read and write only this part of it. -/
abbrev Blocks := Arena FlowBlock

/-- The block behind an identifier, and a block without edges behind a stale
one. Statements about states use this total view of the arena. -/
def blk (d : Blocks) (b : BlockId) : FlowBlock := (d.get? b).getD default

theorem get_of_live {d : Blocks} {b : BlockId} (h : d.Live b) : d.get b = .ok (blk d b) := by
  obtain ⟨v, hv⟩ := Option.isSome_iff_exists.mp h
  simp [Arena.get, blk, hv]

theorem blk_of_not_live {d : Blocks} {b : BlockId} (h : ¬ d.Live b) : blk d b = default := by
  simp only [Arena.Live, Bool.not_eq_true, Option.isSome_eq_false_iff, Option.isNone_iff_eq_none] at h
  simp [blk, h]

theorem blk_update {d : Blocks} {b : BlockId} (h : d.Live b) (f : FlowBlock → FlowBlock) (c : BlockId) :
    blk (d.update b f) c = if c = b then f (blk d b) else blk d c := by
  obtain ⟨v, hv⟩ := Option.isSome_iff_exists.mp h
  by_cases hc : c = b <;> simp [blk, Arena.get?_update, hv, hc]

@[simp] theorem blk_update_self {d : Blocks} {b : BlockId} (h : d.Live b) (f : FlowBlock → FlowBlock) :
    blk (d.update b f) b = f (blk d b) := by simp [blk_update h]

theorem blk_update_ne {d : Blocks} {b c : BlockId} (h : c ≠ b) (f : FlowBlock → FlowBlock) :
    blk (d.update b f) c = blk d c := by
  simp [blk, Arena.get?_update, h]

/-- The edge stored in one slot of one of the two lists of a block. -/
def edge? (d : Blocks) (dir : Dir) (b : BlockId) (i : Nat) : Option BlockEdge := ((blk d b).edges dir)[i]?

theorem live_of_edge? {d : Blocks} {dir : Dir} {b : BlockId} {i : Nat} {e : BlockEdge}
    (h : edge? d dir b i = some e) : d.Live b := by
  by_contra hn
  simp [edge?, blk_of_not_live hn] at h

end GhidraDecompiler.Block
