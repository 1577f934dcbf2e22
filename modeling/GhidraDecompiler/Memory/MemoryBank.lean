import GhidraDecompiler.Pcode.OpBehavior
import GhidraDecompiler.Lib.ByteLanes

namespace GhidraDecompiler.Memory

open Pcode ByteLanes

/-- A bank of words; what is below the two accesses to whole words is left open. -/
structure MemoryBank (σ ε : Type) where
  wordsize : Int
  isBigEndian : Bool
  insert : σ → Word → Word → Except ε σ
  find : σ → Word → Except ε (Word × σ)

namespace MemoryBank

variable {σ ε : Type}

/-- The second half of `set_value`: the bytes of `val` are put into the words
`val1` and `val2`. -/
def spliceValue (bank : MemoryBank σ ε) (s : σ) (ind : Word) (skip size1 size2 gap : Int) (val1 val2 val : Word) :
    Except ε σ :=
  let skip := skip * 8
  let gap := gap * 8
  if bank.isBigEndian then
    if size2 = 0 then
      bank.insert s ind (val1 &&& ~~~wrappingShl (Pcode.calcMask size1) gap ||| wrappingShl val gap)
    else do
      let s ← bank.insert s ind (val1 &&& wrappingShl (~~~0) (8 * size1) ||| wrappingShr val (8 * size2))
      bank.insert s (ind + cxxInt bank.wordsize) (val2 &&& wrappingShr (~~~0) (8 * size2) ||| wrappingShl val gap)
  else if size2 = 0 then
    bank.insert s ind (val1 &&& ~~~wrappingShl (Pcode.calcMask size1) skip ||| wrappingShl val skip)
  else do
    let s ← bank.insert s ind (val1 &&& wrappingShr (~~~0) (8 * size1) ||| wrappingShl val skip)
    bank.insert s (ind + cxxInt bank.wordsize) (val2 &&& wrappingShl (~~~0) (8 * size2) ||| wrappingShr val (8 * size1))

def setValue (bank : MemoryBank σ ε) (s : σ) (offset : Word) (size : Int) (val : Word) : Except ε σ :=
  let wordsize := bank.wordsize
  let alignmask := cxxInt wordsize - 1
  let ind := offset &&& ~~~alignmask
  let skip := ((offset &&& alignmask).setWidth 32).toInt
  let size1 := wordsize - skip
  if size > size1 then do
    let size2 := size - size1
    let (val1, s) ← bank.find s ind
    let (val2, s) ← bank.find s (ind + cxxInt wordsize)
    spliceValue bank s ind skip size1 size2 (wordsize - size2) val1 val2 val
  else if size = wordsize then bank.insert s ind val
  else do
    let (val1, s) ← bank.find s ind
    spliceValue bank s ind skip size 0 (size1 - size) val1 0 val

def getValue (bank : MemoryBank σ ε) (s : σ) (offset : Word) (size : Int) : Except ε (Word × σ) :=
  let wordsize := bank.wordsize
  let alignmask := cxxInt wordsize - 1
  let ind := offset &&& ~~~alignmask
  let skip := ((offset &&& alignmask).setWidth 32).toInt
  let size1 := wordsize - skip
  if size > size1 then do
    let size2 := size - size1
    let (val1, s) ← bank.find s ind
    let (val2, s) ← bank.find s (ind + cxxInt wordsize)
    let gap := wordsize - size2
    let res :=
      if bank.isBigEndian then wrappingShl val1 (8 * size2) ||| wrappingShr val2 (8 * gap)
      else wrappingShr val1 (skip * 8) ||| wrappingShl val2 (size1 * 8)
    .ok (res &&& Pcode.calcMask size, s)
  else do
    let (val1, s) ← bank.find s ind
    if size = wordsize then .ok (val1, s)
    else
      let gap := size1 - size
      let res := if bank.isBigEndian then wrappingShr val1 (8 * gap) else wrappingShr val1 (skip * 8)
      .ok (res &&& Pcode.calcMask size, s)

end MemoryBank

/-- The sizes of a word. -/
def WordSize (ws : Nat) : Prop := ws = 1 ∨ ws = 2 ∨ ws = 4 ∨ ws = 8

instance (ws : Nat) : Decidable (WordSize ws) := inferInstanceAs (Decidable (_ ∨ _))

/-- The place in a value of `n` bytes of the byte with the `k`-th address. -/
def laneIndex (isBigEndian : Bool) (n k : Nat) : Nat := if isBigEndian then n - 1 - k else k

/-- The byte of a value of `n` bytes with the `k`-th address. -/
def byteOf (isBigEndian : Bool) (n : Nat) (v : Word) (k : Nat) : BitVec 8 := lane v (laneIndex isBigEndian n k)

/-- The address of the word that holds the byte at an address. -/
def align (ws : Nat) (a : Word) : Word := a - BitVec.ofNat 64 (a.toNat % ws)

/-- The bytes of a memory that is given by its words. -/
def byteAt (isBigEndian : Bool) (ws : Nat) (words : Word → Word) (a : Word) : BitVec 8 :=
  byteOf isBigEndian ws (words (align ws a)) (a.toNat % ws)

/-- A memory of bytes after `size` of them, from `offset` on, are replaced by those
of a value. -/
def written (isBigEndian : Bool) (bytes : Word → BitVec 8) (offset : Word) (size : Nat) (val : Word) (a : Word) :
    BitVec 8 :=
  if (a - offset).toNat < size then byteOf isBigEndian size val (a - offset).toNat else bytes a

/-- What is kept of a value that may be larger than a word: all of it, or what
has room in the word. -/
def keep (raw : Bool) (ws : Nat) (v : Word) : Word := if raw then v else v &&& Pcode.calcMask ws

/-- The accesses to whole words, at the addresses of words, are those of a map. -/
structure IsMap {σ ε : Type} (bank : MemoryBank σ ε) (ws : Nat) (raw : Bool) (words : σ → Word → Word) : Prop where
  wordsize : bank.wordsize = ws
  find : ∀ s a, a.toNat % ws = 0 → ∃ s', bank.find s a = .ok (words s a, s') ∧ words s' = words s
  insert : ∀ s a v, a.toNat % ws = 0 →
    ∃ s', bank.insert s a v = .ok s' ∧ words s' = Function.update (words s) a (keep raw ws v)

/-- Every read gives the bytes of a memory. -/
def Reads {σ ε : Type} (bank : MemoryBank σ ε) (ws : Nat) (s : σ) (bytes : Word → BitVec 8) : Prop :=
  ∀ (o : Word) (n : Nat), 1 ≤ n → n ≤ ws → ∃ v s', bank.getValue s o n = .ok (v, s') ∧ v.toNat < 2 ^ (8 * n) ∧
    ∀ k < n, byteOf bank.isBigEndian n v k = bytes (o + BitVec.ofNat 64 k)

end GhidraDecompiler.Memory
