import GhidraDecompiler.Address
import GhidraDecompiler.Lib.Fallible
import GhidraDecompiler.Lib.Tiling

namespace GhidraDecompiler.Heritage

open Fallible Tiling

/-- The storage of a varnode, or of a part of the memory that heritage covers. -/
structure Storage where
  addr : Address
  size : Nat
  deriving DecidableEq

end GhidraDecompiler.Heritage

namespace GhidraDecompiler.Address

open GhidraDecompiler

/-- The address some bytes further on. -/
def add (a : Address) (off : Nat) : Address := ⟨a.space, a.space.wrapOffset ((a.offset + off) % 2 ^ 64)⟩

theorem add_offset {a : Address} {n : Nat} (h : a.offset + n ≤ a.space.highest) : (a.add n).offset = a.offset + n := by
  have hmax : a.space.highest < 2 ^ 64 := Nat.mod_lt _ (by decide)
  rw [add, Nat.mod_eq_of_lt (by omega), AddrSpace.wrapOffset, if_pos h]

end GhidraDecompiler.Address

namespace GhidraDecompiler.Heritage

open Fallible Tiling

def buildStep (addr : Address) (refine : List Nat) (vn : Storage) : Outcome (List Nat) := do
  let diff := (vn.addr.offset + 2 ^ 64 - addr.offset) % 2 ^ 64 % 2 ^ 32
  let refine ← setIdx refine diff 1
  setIdx refine (diff + vn.size) 1

def buildRefinement (refine : List Nat) (addr : Address) (vnlist : List Storage) : Outcome (List Nat) :=
  vnlist.foldlM (buildStep addr) refine

/-- The position of an address in the range at `addr`. -/
def wrapDiff (addr curaddr : Address) : Nat :=
  curaddr.space.wrapOffset ((curaddr.offset + 2 ^ 64 - addr.offset) % 2 ^ 64) % 2 ^ 32

structure Splitting where
  curaddr : Address
  sz : Nat
  cutsz : Nat
  split : List Storage

def splitPass (addr : Address) (refine : List Nat) (st : Splitting) : Outcome (Pass Splitting (List Storage)) :=
  if st.sz = 0 then pure (.leave st.split)
  else do
    let curaddr := st.curaddr.add st.cutsz
    let found ← getIdx refine (wrapDiff addr curaddr)
    let cutsz := if st.sz < found then st.sz else found
    pure (.again ⟨curaddr, st.sz - cutsz, cutsz, st.split ++ [⟨curaddr, cutsz⟩]⟩)

/-- The pieces that the varnode is cut into, or none when it fits a cell. -/
def splitByRefinement (vn : Storage) (addr : Address) (refine : List Nat) : Outcome (List Storage) := do
  let cutsz ← getIdx refine (wrapDiff addr vn.addr)
  if vn.size ≤ cutsz then pure []
  else loop (splitPass addr refine) (vn.size + 1) ⟨vn.addr, vn.size - cutsz, cutsz, [⟨vn.addr, cutsz⟩]⟩

structure Fusing where
  refine : List Nat
  pos : Nat
  lastsize : Nat

def remove13Pass (st : Fusing) : Outcome (Pass Fusing (List Nat)) :=
  if st.pos < st.refine.length then do
    let cursize ← getIdx st.refine st.pos
    if cursize = 0 then pure (.leave st.refine)
    else if st.lastsize = 1 ∧ cursize = 3 ∨ st.lastsize = 3 ∧ cursize = 1 then do
      let refine ← setIdx st.refine (st.pos - st.lastsize) 4
      pure (.again ⟨refine, st.pos + cursize, 4⟩)
    else pure (.again ⟨st.refine, st.pos + cursize, cursize⟩)
  else pure (.leave st.refine)

def remove13Refinement (refine : List Nat) : Outcome (List Nat) :=
  if refine = [] then pure refine
  else do
    let lastsize ← getIdx refine 0
    loop remove13Pass (refine.length + 1) ⟨refine, lastsize, lastsize⟩

/-- One pass of the loop that writes the sizes of the cells over their marks. -/
def sizeStep (st : List Nat × Nat) (curpos : Nat) : Outcome (List Nat × Nat) := do
  let mark ← getIdx st.1 curpos
  if mark ≠ 0 then do
    let refine ← setIdx st.1 st.2 (curpos - st.2)
    pure (refine, curpos)
  else pure st

structure Covering where
  addr : Address
  cut : Nat
  cells : List Storage

def coverPass (size : Nat) (refine : List Nat) (st : Covering) : Outcome (Pass Covering (List Storage)) :=
  if st.cut < size then do
    let sz ← getIdx refine st.cut
    pure (.again ⟨st.addr.add sz, st.cut + sz, st.cells ++ [⟨st.addr, sz⟩]⟩)
  else pure (.leave st.cells)

/-- The cells that replace a range in the global cover. -/
def coverCells (addr : Address) (size : Nat) (refine : List Nat) : Outcome (List Storage) := do
  let sz ← getIdx refine 0
  loop (coverPass size refine) (size + 1) ⟨addr.add sz, sz, [⟨addr, sz⟩]⟩

structure Refined where
  reads : List (List Storage)
  writes : List (List Storage)
  inputs : List (List Storage)
  cells : List Storage
  deriving DecidableEq

/-- The refinement array of a range, or none when there is nothing to refine. -/
def refineArray (addr : Address) (size : Nat) (readvars writevars inputvars : List Storage) :
    Outcome (Option (List Nat)) :=
  if size > 1024 then pure none
  else do
    let refine ← buildRefinement (List.replicate (size + 1) 0) addr readvars
    let refine ← buildRefinement refine addr writevars
    let refine ← buildRefinement refine addr inputvars
    let (refine, lastpos) ← (List.range' 1 (size - 1)).foldlM sizeStep (refine.dropLast, 0)
    if lastpos = 0 then pure none
    else do
      let refine ← setIdx refine lastpos (size - lastpos)
      let refine ← remove13Refinement refine
      pure (some refine)

def refinement (addr : Address) (size : Nat) (readvars writevars inputvars : List Storage) :
    Outcome (Option Refined) := do
  match ← refineArray addr size readvars writevars inputvars with
  | none => pure none
  | some refine => do
      let reads ← readvars.mapM (splitByRefinement · addr refine)
      let writes ← writevars.mapM (splitByRefinement · addr refine)
      let inputs ← inputvars.mapM (splitByRefinement · addr refine)
      let cells ← coverCells addr size refine
      pure (some ⟨reads, writes, inputs, cells⟩)

end GhidraDecompiler.Heritage
