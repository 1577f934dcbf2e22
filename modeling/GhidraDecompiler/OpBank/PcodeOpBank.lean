import GhidraDecompiler.OpCode
import GhidraDecompiler.Lib.SortedMap
import GhidraDecompiler.OpBank.IntrusiveList
import Mathlib.Data.Prod.Lex
import Mathlib.Algebra.Group.Nat.Defs

namespace GhidraDecompiler

open Fallible IntrusiveList

inductive BankList
  | dead | alive | store | load | return | userop
  deriving DecidableEq

/-- The dead list and the alive list are linked through one slot of an op, and the lists by opcode through another. -/
def BankList.slot : BankList → Nat
  | .dead | .alive => 0
  | .store | .load | .return | .userop => 1

/-- Sequence numbers are ordered by address, and then by time. -/
abbrev SeqKey (A : Type) := A ×ₗ Nat

/-- What the bank reads of an op, besides its links. -/
structure BankOp (A : Type) where
  start : SeqKey A
  opcode : OpCode
  dead : Bool

structure PcodeOpBank (A : Type) [LinearOrder A] where
  ops : Arena (BankOp A)
  lists : IntrusiveList.Lists BankList
  optree : SortedMap (SeqKey A) Nat
  alttree : SortedMap (SeqKey A) Nat
  deadandgone : List Nat
  uniqid : Nat

namespace PcodeOpBank

variable {A : Type} [LinearOrder A]

def new : PcodeOpBank A := ⟨⟨[]⟩, start BankList.slot, .empty, .empty, [], 0⟩

def codeList : OpCode → Option BankList
  | .store => some .store
  | .load => some .load
  | .return => some .return
  | .callother => some .userop
  | _ => none

def addToCodeList (bank : PcodeOpBank A) (op : Nat) : Outcome (PcodeOpBank A) := do
  let o ← bank.ops.get op
  match codeList o.opcode with
  | some l => do
      let lists ← IntrusiveList.perform bank.lists (.pushBack l op)
      pure { bank with lists := lists }
  | none => pure bank

def removeFromCodeList (bank : PcodeOpBank A) (op : Nat) : Outcome (PcodeOpBank A) := do
  let o ← bank.ops.get op
  match codeList o.opcode with
  | some l => do
      let lists ← IntrusiveList.perform bank.lists (.remove l op)
      pure { bank with lists := lists }
  | none => pure bank

/-- No identifier of the arena is used again. -/
def clear (bank : PcodeOpBank A) : PcodeOpBank A where
  ops := ⟨bank.ops.slots.map fun _ => none⟩
  lists := ⟨⟨bank.lists.nodes.slots.map fun _ => none⟩, fun l => IntrusiveList.new l.slot⟩
  optree := .empty
  alttree := .empty
  deadandgone := []
  uniqid := 0

def setUniqId (bank : PcodeOpBank A) (val : Nat) : PcodeOpBank A := { bank with uniqid := val }

def createDead (bank : PcodeOpBank A) (sq : SeqKey A) (indirect : Bool) : Outcome (Nat × PcodeOpBank A) := do
  let (ops, op) := bank.ops.alloc ⟨sq, .blank, false⟩
  let lists ← IntrusiveList.perform bank.lists .alloc
  let bank := if indirect then { bank with alttree := bank.alttree.insert sq op }
    else { bank with optree := bank.optree.insert sq op }
  let ops ← ops.modify op fun o => { o with dead := true }
  let lists ← IntrusiveList.perform lists (.pushBack .dead op)
  pure (op, { bank with ops := ops, lists := lists })

def wrappingSucc (n : Nat) : Nat := (n + 1) % 2 ^ 32

def create (bank : PcodeOpBank A) (pc : A) : Outcome (Nat × PcodeOpBank A) :=
  createDead { bank with uniqid := wrappingSucc bank.uniqid } (toLex (pc, bank.uniqid)) false

def createSeq (bank : PcodeOpBank A) (sq : SeqKey A) : Outcome (Nat × PcodeOpBank A) :=
  let time := (ofLex sq).2
  createDead (if bank.uniqid ≤ time then { bank with uniqid := wrappingSucc time } else bank) sq false

def createIndirect (bank : PcodeOpBank A) (pc : A) : Outcome (Nat × PcodeOpBank A) :=
  createDead { bank with uniqid := wrappingSucc bank.uniqid } (toLex (pc, bank.uniqid)) true

def destroy (bank : PcodeOpBank A) (op : Nat) : Outcome (PcodeOpBank A) := do
  let o ← bank.ops.get op
  if ¬o.dead then .error (.lowlevel "Deleting integrated op") else
    let bank := if o.opcode = .indirect then { bank with alttree := bank.alttree.remove o.start }
      else { bank with optree := bank.optree.remove o.start }
    let lists ← IntrusiveList.perform bank.lists (.remove .dead op)
    let bank ← removeFromCodeList { bank with lists := lists } op
    pure { bank with deadandgone := bank.deadandgone ++ [op] }

/-- One pass over the dead list: the link onwards is read before the op is destroyed. An error of the call panics. -/
def destroyFront (s : PcodeOpBank A × Option Nat) : Outcome (Pass (PcodeOpBank A × Option Nat) (PcodeOpBank A)) :=
  match s.2 with
  | none => .ok (.leave s.1)
  | some op => do
      let next ← (s.1.lists.lists .dead).next s.1.lists.nodes op
      match s.1.destroy op with
      | .ok bank => pure (.again (bank, next))
      | .error _ => .error .panic

def destroyDead (bank : PcodeOpBank A) : Outcome (PcodeOpBank A) :=
  loop destroyFront ((bank.lists.lists .dead).len + 1) (bank, (bank.lists.lists .dead).front)

/-- The part of `changeOpcode` for an op that has an opcode already. -/
def dropOpcode (bank : PcodeOpBank A) (op : Nat) (o : BankOp A) : Outcome (PcodeOpBank A) :=
  if o.opcode = .blank then pure bank else do
    let bank ← removeFromCodeList bank op
    if o.opcode = .indirect then
      pure { bank with alttree := bank.alttree.remove o.start, optree := bank.optree.insert o.start op }
    else pure bank

def changeOpcode (bank : PcodeOpBank A) (op : Nat) (newopc : OpCode) : Outcome (PcodeOpBank A) := do
  let o ← bank.ops.get op
  let bank ← dropOpcode bank op o
  let ops ← bank.ops.modify op fun o => { o with opcode := newopc }
  addToCodeList { bank with ops := ops } op

def markAlive (bank : PcodeOpBank A) (op : Nat) : Outcome (PcodeOpBank A) := do
  let lists ← IntrusiveList.perform bank.lists (.remove .dead op)
  let ops ← bank.ops.modify op fun o => { o with dead := false }
  let lists ← IntrusiveList.perform lists (.pushBack .alive op)
  pure { bank with ops := ops, lists := lists }

def markDead (bank : PcodeOpBank A) (op : Nat) : Outcome (PcodeOpBank A) := do
  let lists ← IntrusiveList.perform bank.lists (.remove .alive op)
  let ops ← bank.ops.modify op fun o => { o with dead := true }
  let lists ← IntrusiveList.perform lists (.pushBack .dead op)
  pure { bank with ops := ops, lists := lists }

def insertAfterDead (bank : PcodeOpBank A) (op prev : Nat) : Outcome (PcodeOpBank A) := do
  let o ← bank.ops.get op
  let p ← bank.ops.get prev
  if ¬o.dead ∨ ¬p.dead then .error (.lowlevel "Dead move called on ops which aren't dead") else
    let lists ← IntrusiveList.perform bank.lists (.remove .dead op)
    let lists ← IntrusiveList.perform lists (.insertAfter .dead prev op)
    pure { bank with lists := lists }

def moveSequenceDead (bank : PcodeOpBank A) (firstop lastop prev : Nat) : Outcome (PcodeOpBank A) := do
  let enditer ← (bank.lists.lists .dead).next bank.lists.nodes lastop
  let previter ← (bank.lists.lists .dead).next bank.lists.nodes prev
  if previter = some firstop then pure bank else
    let lists ← IntrusiveList.perform bank.lists (.spliceRange .dead previter firstop enditer)
    pure { bank with lists := lists }

def findOp (bank : PcodeOpBank A) (num : SeqKey A) : Option Nat := bank.optree.lookup num

def treeLowerBound (tree : SortedMap (SeqKey A) Nat) (key : SeqKey A) : Option (SeqKey A) :=
  (tree.entries.find? fun x => key ≤ x.1).map Prod.fst

def treeUpperBound (tree : SortedMap (SeqKey A) Nat) (key : SeqKey A) : Option (SeqKey A) :=
  (tree.entries.find? fun x => key < x.1).map Prod.fst

def treeRange (tree : SortedMap (SeqKey A) Nat) (first last : Option (SeqKey A)) : List Nat :=
  match first with
  | none => []
  | some start =>
      if ∃ key ∈ last, key < start then []
      else (tree.entries.filter fun x => start ≤ x.1 ∧ ∀ key ∈ last, x.1 < key).map Prod.snd

def beginMainAddr (bank : PcodeOpBank A) (addr : A) : Option (SeqKey A) := treeLowerBound bank.optree (toLex (addr, 0))

def endMainAddr (bank : PcodeOpBank A) (addr : A) : Option (SeqKey A) :=
  treeUpperBound bank.optree (toLex (addr, 2 ^ 32 - 1))

def beginIndirectAddr (bank : PcodeOpBank A) (addr : A) : Option (SeqKey A) :=
  treeLowerBound bank.alttree (toLex (addr, 0))

def endIndirectAddr (bank : PcodeOpBank A) (addr : A) : Option (SeqKey A) :=
  treeUpperBound bank.alttree (toLex (addr, 2 ^ 32 - 1))

def toVec (bank : PcodeOpBank A) (l : BankList) : Outcome (List Nat) := (bank.lists.lists l).toVec bank.lists.nodes

inductive Operation (A : Type)
  | create (pc : A)
  | createSeq (sq : SeqKey A)
  | createIndirect (pc : A)
  | setUniqId (val : Nat)
  | changeOpcode (op : Nat) (newopc : OpCode)
  | markAlive (op : Nat)
  | markDead (op : Nat)
  | insertAfterDead (op prev : Nat)
  | moveSequenceDead (firstop lastop prev : Nat)
  | destroy (op : Nat)
  | destroyDead
  | clear

def perform (bank : PcodeOpBank A) : Operation A → Outcome (PcodeOpBank A)
  | .create pc => Prod.snd <$> bank.create pc
  | .createSeq sq => Prod.snd <$> bank.createSeq sq
  | .createIndirect pc => Prod.snd <$> bank.createIndirect pc
  | .setUniqId val => pure (bank.setUniqId val)
  | .changeOpcode op newopc => bank.changeOpcode op newopc
  | .markAlive op => bank.markAlive op
  | .markDead op => bank.markDead op
  | .insertAfterDead op prev => bank.insertAfterDead op prev
  | .moveSequenceDead firstop lastop prev => bank.moveSequenceDead firstop lastop prev
  | .destroy op => bank.destroy op
  | .destroyDead => bank.destroyDead
  | .clear => pure bank.clear

/-- The op at an identifier, unless it was destroyed. -/
def current (bank : PcodeOpBank A) (op : Nat) : Option (BankOp A) :=
  if op ∈ bank.deadandgone then none else bank.ops.get? op

/-- The lists that an op is to be in. -/
def belongs (o : BankOp A) : BankList → Prop
  | .dead => o.dead = true
  | .alive => o.dead = false
  | l => codeList o.opcode = some l

/-- The tree that `destroy` removes an op from is the one that the op is in. -/
def Removable (bank : PcodeOpBank A) (op : Nat) (o : BankOp A) : Prop :=
  o.opcode = .indirect ↔ (o.start, op) ∈ bank.alttree.entries

/-- The calls that the bank is made for: they name ops that are in the bank and dead or alive as the call needs it, new
sequence numbers are not in use, and times do not reach their limit. -/
def Allowed (bank : PcodeOpBank A) : Operation A → Prop
  | .create _ | .createIndirect _ => bank.uniqid + 1 < 2 ^ 32
  | .createSeq sq => (ofLex sq).2 + 1 < 2 ^ 32 ∧ ∀ op < bank.ops.nextId, ∀ o ∈ bank.current op, o.start ≠ sq
  | .setUniqId val => bank.uniqid ≤ val ∧ val < 2 ^ 32
  | .changeOpcode op _ => (bank.current op).isSome
  | .markAlive op => ∃ o ∈ bank.current op, o.dead = true
  | .markDead op => ∃ o ∈ bank.current op, o.dead = false
  | .insertAfterDead op prev => op ≠ prev ∧ (∃ o ∈ bank.current op, o.dead = true) ∧ ∃ o ∈ bank.current prev, o.dead = true
  | .moveSequenceDead firstop lastop prev => (∃ o ∈ bank.current firstop, o.dead = true) ∧
      (∃ o ∈ bank.current prev, o.dead = true) ∧ ∀ seq ∈ (bank.toVec .dead).toOption, lastop ∈ seq.dropWhile (· ≠ firstop)
  | .destroy op => ∃ o ∈ bank.current op, o.dead = true ∧ bank.Removable op o
  | .destroyDead => ∀ op < bank.ops.nextId, ∀ o ∈ bank.current op, o.dead = true → bank.Removable op o
  | .clear => True

/-- Every step of a run is a call that the bank is made for. -/
def Permitted (bank : PcodeOpBank A) : List (Operation A) → Prop
  | [] => True
  | operation :: operations =>
      Allowed bank operation ∧ ∀ bank' ∈ (bank.perform operation).toOption, Permitted bank' operations

instance (bank : PcodeOpBank A) (op : Nat) (o : BankOp A) : Decidable (bank.Removable op o) :=
  inferInstanceAs (Decidable (_ ↔ _))

instance (bank : PcodeOpBank A) : (operation : Operation A) → Decidable (Allowed bank operation)
  | .create _ | .createIndirect _ => inferInstanceAs (Decidable (bank.uniqid + 1 < 2 ^ 32))
  | .createSeq sq => inferInstanceAs (Decidable (_ ∧ ∀ op < bank.ops.nextId, ∀ o ∈ bank.current op, o.start ≠ sq))
  | .setUniqId _ => inferInstanceAs (Decidable (_ ∧ _))
  | .changeOpcode op _ => inferInstanceAs (Decidable ((bank.current op).isSome = true))
  | .markAlive op => inferInstanceAs (Decidable (∃ o ∈ bank.current op, o.dead = true))
  | .markDead op => inferInstanceAs (Decidable (∃ o ∈ bank.current op, o.dead = false))
  | .insertAfterDead op prev => inferInstanceAs (Decidable (op ≠ prev ∧ (∃ o ∈ bank.current op, o.dead = true) ∧
      ∃ o ∈ bank.current prev, o.dead = true))
  | .moveSequenceDead firstop lastop prev => inferInstanceAs (Decidable ((∃ o ∈ bank.current firstop, o.dead = true) ∧
      (∃ o ∈ bank.current prev, o.dead = true) ∧ ∀ seq ∈ (bank.toVec .dead).toOption, lastop ∈ seq.dropWhile (· ≠ firstop)))
  | .destroy op => inferInstanceAs (Decidable (∃ o ∈ bank.current op, o.dead = true ∧ bank.Removable op o))
  | .destroyDead =>
      inferInstanceAs (Decidable (∀ op < bank.ops.nextId, ∀ o ∈ bank.current op, o.dead = true → bank.Removable op o))
  | .clear => inferInstanceAs (Decidable True)

instance : (bank : PcodeOpBank A) → (operations : List (Operation A)) → Decidable (Permitted bank operations)
  | _, [] => inferInstanceAs (Decidable True)
  | bank, operation :: operations =>
      have (bank' : PcodeOpBank A) : Decidable (Permitted bank' operations) := instDecidablePermitted bank' operations
      inferInstanceAs (Decidable (_ ∧ ∀ bank' ∈ (bank.perform operation).toOption, Permitted bank' operations))

section Lists

variable {lists : IntrusiveList.Lists BankList} {c : Contents BankList} {l : BankList} {op : Nat}

/-- Lists over the same nodes with other members. -/
structure Relisted (c : Contents BankList) (lists' : IntrusiveList.Lists BankList) (member : BankList → Nat → Prop)
    (c' : Contents BankList) :
    Prop where
  lists : Refines BankList.slot lists' c'
  nextId : c'.nextId = c.nextId
  live : c'.live = c.live
  member : ∀ k x, x ∈ c'.seqs k ↔ member k x

theorem Relisted.trans {lists₁ lists₂ : IntrusiveList.Lists BankList} {c₁ c₂ : Contents BankList}
    {member₁ member₂ : BankList → Nat → Prop}
    (h₁ : Relisted c lists₁ member₁ c₁) (h₂ : Relisted c₁ lists₂ member₂ c₂) : Relisted c lists₂ member₂ c₂ :=
  ⟨h₂.lists, h₂.nextId.trans h₁.nextId, h₂.live.trans h₁.live, h₂.member⟩

theorem relisted_pushBack (h : Refines BankList.slot lists c) (hfree : c.Free BankList.slot l.slot op) :
    ∃ lists' c', IntrusiveList.perform lists (.pushBack l op) = .ok lists' ∧
      Relisted c lists' (fun k x => x ∈ c.seqs k ∨ k = l ∧ x = op) c' := by
  obtain ⟨lists', hrun, h'⟩ := h.step (.pushBack l op) hfree
  refine ⟨lists', _, hrun, h', rfl, rfl, fun k x => ?_⟩
  by_cases hk : k = l
  · subst hk
    simp [Contents.perform]
  · simp [Contents.perform, hk]

theorem relisted_remove (h : Refines BankList.slot lists c) (hmem : op ∈ c.seqs l) :
    ∃ lists' c', IntrusiveList.perform lists (.remove l op) = .ok lists' ∧
      Relisted c lists' (fun k x => x ∈ c.seqs k ∧ ¬(k = l ∧ x = op)) c' ∧
      c'.seqs = Function.update c.seqs l ((c.seqs l).filter (· ≠ op)) := by
  obtain ⟨lists', hrun, h'⟩ := h.step (.remove l op) hmem
  refine ⟨lists', _, hrun, ⟨h', rfl, rfl, fun k x => ?_⟩, rfl⟩
  by_cases hk : k = l
  · subst hk
    simp [Contents.perform]
  · simp [Contents.perform, hk]

theorem mem_placedAfter {seq : List Nat} {p x : Nat} (hp : p ∈ seq) :
    x ∈ placedAfter seq p op ↔ x ∈ seq ∨ x = op := by
  simp only [placedAfter, List.mem_flatMap]
  constructor
  · rintro ⟨y, hy, hx⟩
    split at hx
    · rw [List.mem_pair] at hx
      exact hx.imp_left fun he => by rwa [he]
    · rw [List.mem_singleton] at hx
      exact Or.inl (hx ▸ hy)
  · rintro (hx | rfl)
    · refine ⟨x, hx, ?_⟩
      split <;> simp_all
    · exact ⟨p, hp, by simp⟩

theorem relisted_insertAfter {prev : Nat} (h : Refines BankList.slot lists c) (hprev : prev ∈ c.seqs l)
    (hfree : c.Free BankList.slot l.slot op) :
    ∃ lists' c', IntrusiveList.perform lists (.insertAfter l prev op) = .ok lists' ∧
      Relisted c lists' (fun k x => x ∈ c.seqs k ∨ k = l ∧ x = op) c' := by
  obtain ⟨lists', hrun, h'⟩ := h.step (.insertAfter l prev op) ⟨hprev, hfree⟩
  refine ⟨lists', _, hrun, h', rfl, rfl, fun k x => ?_⟩
  by_cases hk : k = l
  · subst hk
    simp [Contents.perform, mem_placedAfter hprev]
  · simp [Contents.perform, hk]

theorem mem_spliced {seq : List Nat} {pos : Option Nat} {first x : Nat} {last : Option Nat} (hpos : ∀ p ∈ pos, p ∈ seq) :
    x ∈ spliced seq pos first last ↔ x ∈ seq := by
  have hsegment {y : Nat} (hy : y ∈ segment seq first last) : y ∈ seq :=
    (List.dropWhile_sublist _).subset ((List.takeWhile_sublist _).subset hy)
  rw [spliced]
  split
  · rfl
  · rename_i hout
    cases pos with
    | none =>
        simp only [placed, List.mem_append, List.mem_filter, decide_eq_true_eq]
        by_cases hx : x ∈ segment seq first last
        · simp [hx, hsegment hx]
        · simp [hx]
    | some p =>
        have hp : p ∈ seq.filter (· ∉ segment seq first last) :=
          List.mem_filter.mpr ⟨hpos p rfl, decide_eq_true fun hm => hout ⟨p, hm, rfl⟩⟩
        simp only [placed, List.mem_flatMap]
        constructor
        · rintro ⟨y, hy, hx⟩
          split at hx
          · rw [List.mem_append, List.mem_singleton] at hx
            obtain hx | rfl := hx
            · exact hsegment hx
            · exact (List.mem_filter.mp hy).1
          · rw [List.mem_singleton] at hx
            exact hx ▸ (List.mem_filter.mp hy).1
        · intro hx
          by_cases hin : x ∈ segment seq first last
          · exact ⟨p, hp, by simp [hin]⟩
          · refine ⟨x, List.mem_filter.mpr ⟨hx, decide_eq_true hin⟩, ?_⟩
            split <;> simp

end Lists

section Trees

variable {optree alttree : SortedMap (SeqKey A) Nat} {starts : Nat → Option (SeqKey A)} {uniqid op : Nat} {k : SeqKey A}

/-- Each op is in one of the trees, at its sequence number, and its time was handed out before. -/
structure TreesConform (optree alttree : SortedMap (SeqKey A) Nat) (starts : Nat → Option (SeqKey A)) (uniqid : Nat) :
    Prop where
  trees : ∀ k op, (k, op) ∈ optree.entries ∨ (k, op) ∈ alttree.entries ↔ starts op = some k
  apart : ∀ x ∈ optree.entries, x ∉ alttree.entries
  unique : ∀ op op' k, starts op = some k → starts op' = some k → op = op'
  times : ∀ op k, starts op = some k → (ofLex k).2 < uniqid

theorem TreesConform.raise {val : Nat} (h : TreesConform optree alttree starts uniqid) (hval : uniqid ≤ val) :
    TreesConform optree alttree starts val :=
  ⟨h.trees, h.apart, h.unique, fun op k hk => (h.times op k hk).trans_le hval⟩

theorem TreesConform.not_mem (h : TreesConform optree alttree starts uniqid) (hk : ∀ op, starts op ≠ some k) (x : Nat) :
    (k, x) ∉ optree.entries ∧ (k, x) ∉ alttree.entries :=
  not_or.mp fun hmem => hk x ((h.trees k x).mp hmem)

/-- A new op, in either tree. -/
theorem TreesConform.insert (h : TreesConform optree alttree starts uniqid) (hop : starts op = none)
    (hk : ∀ x, starts x ≠ some k) (htime : (ofLex k).2 < uniqid) (indirect : Bool) :
    TreesConform (if indirect then optree else optree.insert k op) (if indirect then alttree.insert k op else alttree)
      (Function.update starts op (some k)) uniqid := by
  have hstarts (x : Nat) (key : SeqKey A) :
      Function.update starts op (some k) x = some key ↔ (key, x) = (k, op) ∨ starts x = some key := by
    rw [Function.update_apply, Prod.mk.injEq]
    split
    · rename_i hx
      simp [hx, hop, eq_comm]
    · rename_i hx
      simp [hx]
  have hkey {tree : SortedMap (SeqKey A) Nat} (hnot : ∀ x, (k, x) ∉ tree.entries) (x : SeqKey A × Nat) :
      x ∈ (tree.insert k op).entries ↔ x = (k, op) ∨ x ∈ tree.entries := by
    rw [SortedMap.mem_insert]
    refine or_congr_right (and_iff_left_of_imp fun hx he => hnot x.2 ?_)
    rwa [← he]
  have hoptree := hkey fun x => (h.not_mem hk x).1
  have halttree := hkey fun x => (h.not_mem hk x).2
  refine ⟨fun key x => ?_, fun x hx => ?_, fun x y key hx hy => ?_, fun x key hx => ?_⟩
  · rw [hstarts, ← h.trees]
    cases indirect
    · simp only [Bool.false_eq_true, if_false, hoptree, or_assoc]
    · simp only [if_true, halttree]
      exact or_left_comm
  · cases indirect
    · simp only [Bool.false_eq_true, if_false, hoptree] at hx ⊢
      obtain rfl | hx := hx
      · exact (h.not_mem hk op).2
      · exact h.apart x hx
    · simp only [if_true, halttree] at hx ⊢
      rintro (rfl | hx')
      · exact (h.not_mem hk op).1 hx
      · exact h.apart x hx hx'
  · rw [hstarts, Prod.mk.injEq] at hx hy
    obtain ⟨rfl, rfl⟩ | hx := hx
    · obtain ⟨-, rfl⟩ | hy := hy
      · rfl
      · exact absurd hy (hk y)
    · obtain ⟨rfl, rfl⟩ | hy := hy
      · exact absurd hx (hk x)
      · exact h.unique x y key hx hy
  · rw [hstarts, Prod.mk.injEq] at hx
    obtain ⟨rfl, rfl⟩ | hx := hx
    · exact htime
    · exact h.times x key hx

/-- An op goes over to the main tree, or stays there. -/
theorem TreesConform.move (h : TreesConform optree alttree starts uniqid) (hop : starts op = some k) :
    TreesConform (optree.insert k op) (alttree.remove k) starts uniqid := by
  have hsame {x : Nat} (hx : starts x = some k) : x = op := h.unique x op k hx hop
  refine ⟨fun key x => ?_, fun x hx => ?_, h.unique, h.times⟩
  · rw [SortedMap.mem_insert, SortedMap.mem_remove, Prod.mk.injEq]
    by_cases hkey : key = k
    · subst hkey
      simp only [ne_eq, not_true_eq_false, and_false, or_false, true_and]
      exact ⟨fun he => he ▸ hop, hsame⟩
    · simp [hkey, h.trees]
  · rw [SortedMap.mem_insert] at hx
    rw [SortedMap.mem_remove, not_and_not_right]
    obtain rfl | hx := hx
    · exact fun _ => rfl
    · exact fun hx' => absurd hx' (h.apart x hx.1)

/-- An op is removed from the tree that it is in. -/
theorem TreesConform.remove (h : TreesConform optree alttree starts uniqid) (hop : starts op = some k) {indirect : Prop}
    [Decidable indirect] (hindirect : indirect ↔ (k, op) ∈ alttree.entries) :
    TreesConform (if indirect then optree else optree.remove k) (if indirect then alttree.remove k else alttree)
      (Function.update starts op none) uniqid := by
  have hstarts (x : Nat) (key : SeqKey A) : Function.update starts op none x = some key ↔ starts x = some key ∧ key ≠ k := by
    rw [Function.update_apply]
    split
    · rename_i hx
      simp [hx, hop, eq_comm]
    · rename_i hx
      refine ⟨fun hkey => ⟨hkey, ?_⟩, And.left⟩
      rintro rfl
      exact hx (h.unique x op key hkey hop)
  refine ⟨fun key x => ?_, fun x hx => ?_, fun x y key hx hy => ?_, fun x key hx => ?_⟩
  · -- the other tree has no op at the key
    have hother {x : Nat} (hmem : (k, x) ∈ optree.entries ∨ (k, x) ∈ alttree.entries) : x = op :=
      h.unique x op k ((h.trees k x).mp hmem) hop
    rw [hstarts, ← h.trees]
    by_cases hin : indirect
    · simp only [hin, if_true, SortedMap.mem_remove]
      have hopt (hmem : (key, x) ∈ optree.entries) : key ≠ k := by
        rintro rfl
        rw [hother (Or.inl hmem)] at hmem
        exact h.apart _ hmem (hindirect.mp hin)
      grind
    · simp only [hin, if_false, SortedMap.mem_remove]
      have halt (hmem : (key, x) ∈ alttree.entries) : key ≠ k := by
        rintro rfl
        rw [hother (Or.inr hmem)] at hmem
        exact hin (hindirect.mpr hmem)
      grind
  · by_cases hin : indirect
    · simp only [hin, if_true] at hx ⊢
      exact fun hx' => h.apart x hx (SortedMap.mem_remove.mp hx').1
    · simp only [hin, if_false] at hx ⊢
      exact h.apart x (SortedMap.mem_remove.mp hx).1
  · exact h.unique x y key ((hstarts x key).mp hx).1 ((hstarts y key).mp hy).1
  · exact h.times x key ((hstarts x key).mp hx).1

end Trees

section Steps

variable {bank : PcodeOpBank A} {c : Contents BankList} {op x : Nat} {o : BankOp A}

def starts (bank : PcodeOpBank A) (op : Nat) : Option (SeqKey A) := (bank.current op).map BankOp.start

/-- The lists are those of the ops that belong to them. -/
structure Listed (bank : PcodeOpBank A) (c : Contents BankList) : Prop where
  lists : Refines BankList.slot bank.lists c
  nextId : bank.ops.nextId = c.nextId
  live : ∀ op, bank.ops.Live op ↔ op ∈ c.live
  gone : ∀ op ∈ bank.deadandgone, op < bank.ops.nextId
  member : ∀ l op, op ∈ c.seqs l ↔ ∃ o, bank.current op = some o ∧ belongs o l

/-- The ops of the bank are where their states say. -/
structure Conforms (bank : PcodeOpBank A) : Prop where
  listed : ∃ c, Listed bank c
  trees : TreesConform bank.optree bank.alttree bank.starts bank.uniqid
  uniqid : bank.uniqid < 2 ^ 32

theorem get?_of_current (h : bank.current op = some o) : bank.ops.get? op = some o ∧ op ∉ bank.deadandgone := by
  rw [current] at h
  split at h
  · cases h
  · rename_i hgone
    exact ⟨h, hgone⟩

theorem lt_of_current (h : bank.current op = some o) : op < bank.ops.nextId :=
  Arena.lt_of_live (Arena.live_of_get? (get?_of_current h).1)

theorem starts_of_current (h : bank.current op = some o) : bank.starts op = some o.start := by
  rw [starts, h]
  rfl

theorem Listed.live_of_current (h : Listed bank c) (hop : bank.current op = some o) : op ∈ c.live :=
  (h.live op).mp (Arena.live_of_get? (get?_of_current hop).1)

/-- The bank with the data of an op rewritten, and other lists and trees. -/
def rewritten (bank : PcodeOpBank A) (op : Nat) (f : BankOp A → BankOp A) (lists : IntrusiveList.Lists BankList)
    (optree alttree : SortedMap (SeqKey A) Nat) : PcodeOpBank A :=
  { bank with ops := bank.ops.update op f, lists := lists, optree := optree, alttree := alttree }

theorem current_rewritten (op : Nat) (f : BankOp A → BankOp A) (lists : IntrusiveList.Lists BankList)
    (optree alttree : SortedMap (SeqKey A) Nat) :
    (bank.rewritten op f lists optree alttree).current = Function.update bank.current op ((bank.current op).map f) := by
  funext x
  rw [Function.update_apply]
  simp only [current, rewritten, Arena.get?_update]
  by_cases hx : x = op
  · subst hx
    simp only [if_true]
    split <;> rfl
  · simp [hx]

/-- One op is another one than before, and the lists are brought in line with it. -/
theorem Listed.of_update {bank' : PcodeOpBank A} {o' : Option (BankOp A)} {c' : Contents BankList}
    {member : BankList → Nat → Prop} (h : Listed bank c) (hlists : Relisted c bank'.lists member c')
    (hnextId : bank'.ops.nextId = bank.ops.nextId) (hlive : ∀ x, bank'.ops.Live x ↔ bank.ops.Live x)
    (hgone : ∀ x ∈ bank'.deadandgone, x < bank.ops.nextId) (hcurrent : bank'.current = Function.update bank.current op o')
    (hsame : ∀ l x, x ≠ op → (member l x ↔ x ∈ c.seqs l)) (hmember : ∀ l, member l op ↔ ∃ o, o' = some o ∧ belongs o l) :
    Listed bank' c' := by
  refine ⟨hlists.lists, ?_, fun x => ?_, fun x hx => hnextId ▸ hgone x hx, fun l x => ?_⟩
  · rw [hlists.nextId, hnextId, h.nextId]
  · rw [hlists.live, hlive, h.live]
  · rw [hlists.member, hcurrent, Function.update_apply]
    by_cases hx : x = op
    · subst hx
      rw [if_pos rfl, hmember]
    · rw [if_neg hx, hsame l x hx, h.member]

/-- The data of an op is rewritten, and the lists with it. -/
theorem Listed.of_rewritten {f : BankOp A → BankOp A} {lists' : IntrusiveList.Lists BankList} {c' : Contents BankList}
    {member : BankList → Nat → Prop} {optree alttree : SortedMap (SeqKey A) Nat} (h : Listed bank c)
    (hop : bank.current op = some o) (hlists : Relisted c lists' member c')
    (hsame : ∀ l x, x ≠ op → (member l x ↔ x ∈ c.seqs l)) (hmember : ∀ l, member l op ↔ belongs (f o) l) :
    Listed (bank.rewritten op f lists' optree alttree) c' :=
  h.of_update hlists (Arena.nextId_update _ _ _) (fun x => Arena.live_update _ _ _ x) h.gone
    (current_rewritten op f lists' optree alttree) hsame fun l => by simp [hmember, hop]

theorem starts_rewritten {f : BankOp A → BankOp A} (hf : ∀ o, (f o).start = o.start) (op : Nat)
    (lists' : IntrusiveList.Lists BankList)
    (optree alttree : SortedMap (SeqKey A) Nat) : (bank.rewritten op f lists' optree alttree).starts = bank.starts := by
  funext x
  rw [starts, current_rewritten, Function.update_apply, starts]
  split
  · rename_i hx
    rw [hx]
    cases bank.current op with
    | none => rfl
    | some o => exact congrArg some (hf o)
  · rfl

theorem codeList_slot {opc : OpCode} {l : BankList} (h : codeList opc = some l) : l.slot = 1 := by
  unfold codeList at h
  split at h <;> cases h <;> rfl

omit [LinearOrder A] in
theorem belongs_codeList {opc : OpCode} {l : BankList} (h : codeList opc = some l) (o : BankOp A) :
    belongs o l ↔ codeList o.opcode = some l := by
  unfold codeList at h
  split at h <;> cases h <;> rfl

theorem removeFromCodeList_ok (bank : PcodeOpBank A) (h : Refines BankList.slot bank.lists c) (hget : bank.ops.get? op = some o)
    (hmem : ∀ l, codeList o.opcode = some l → op ∈ c.seqs l) :
    ∃ lists' c', bank.removeFromCodeList op = .ok { bank with lists := lists' } ∧
      Relisted c lists' (fun k x => x ∈ c.seqs k ∧ ¬(codeList o.opcode = some k ∧ x = op)) c' ∧
      ∀ k : BankList, k.slot = 0 → c'.seqs k = c.seqs k := by
  cases hl : codeList o.opcode with
  | none =>
      exact ⟨bank.lists, c, by simp [removeFromCodeList, Arena.get_eq hget, hl], ⟨h, rfl, rfl, by simp⟩, fun _ _ => rfl⟩
  | some l =>
      obtain ⟨lists', c', hrun, hrelisted, hseqs⟩ := relisted_remove h (hmem l hl)
      refine ⟨lists', c', by simp [removeFromCodeList, Arena.get_eq hget, hl, hrun],
        ⟨hrelisted.lists, hrelisted.nextId, hrelisted.live, fun k x => ?_⟩, fun k hk => ?_⟩
      · rw [hrelisted.member, Option.some.injEq, eq_comm]
      · rw [hseqs, Function.update_of_ne]
        rintro rfl
        rw [codeList_slot hl] at hk
        cases hk

/-- An op that is in no list by opcode is added to the one for its opcode. -/
theorem addToCodeList_ok (bank : PcodeOpBank A) (h : Refines BankList.slot bank.lists c) (hget : bank.ops.get? op = some o)
    (hlive : op ∈ c.live)
    (hfree : ∀ l, l.slot = 1 → op ∉ c.seqs l) :
    ∃ lists' c', bank.addToCodeList op = .ok { bank with lists := lists' } ∧
      Relisted c lists' (fun k x => x ∈ c.seqs k ∨ codeList o.opcode = some k ∧ x = op) c' := by
  cases hl : codeList o.opcode with
  | none => exact ⟨bank.lists, c, by simp [addToCodeList, Arena.get_eq hget, hl], h, rfl, rfl, by simp⟩
  | some l =>
      obtain ⟨lists', c', hrun, hrelisted⟩ := relisted_pushBack (l := l) h ⟨hlive, codeList_slot hl ▸ hfree⟩
      refine ⟨lists', c', by simp [addToCodeList, Arena.get_eq hget, hl, hrun], hrelisted.lists, hrelisted.nextId,
        hrelisted.live, ?_⟩
      intro k x
      rw [hrelisted.member, Option.some.injEq, eq_comm]

theorem Listed.member_iff (h : Listed bank c) (hop : bank.current op = some o) (l : BankList) :
    op ∈ c.seqs l ↔ belongs o l := by
  rw [h.member, hop]
  simp

theorem modify_ok (hop : bank.current op = some o) (f : BankOp A → BankOp A) :
    bank.ops.modify op f = .ok (bank.ops.update op f) :=
  Arena.modify_eq f (Arena.live_of_get? (get?_of_current hop).1)

def stateList (dead : Bool) : BankList := if dead then .dead else .alive

/-- An op goes from one of the two lists by state over to the other one. -/
theorem Conforms.mark (h : Conforms bank) (dead : Bool) (hop : bank.current op = some o) (hdead : o.dead = !dead) :
    ∃ lists₁ lists₂, IntrusiveList.perform bank.lists (.remove (stateList !dead) op) = .ok lists₁ ∧
      IntrusiveList.perform lists₁ (.pushBack (stateList dead) op) = .ok lists₂ ∧
      Conforms (bank.rewritten op (fun o => { o with dead := dead }) lists₂ bank.optree bank.alttree) := by
  obtain ⟨c, hlisted⟩ := h.listed
  have hmem : op ∈ c.seqs (stateList !dead) := by
    rw [hlisted.member_iff hop]
    cases dead <;> simpa [stateList, belongs] using hdead
  obtain ⟨lists₁, c₁, hrun₁, h₁, -⟩ := relisted_remove hlisted.lists hmem
  have hfree (k : BankList) (hk : k.slot = (stateList dead).slot) : op ∉ c₁.seqs k := by
    rw [h₁.member, hlisted.member_iff hop]
    cases dead <;> cases k <;> simp_all [stateList, belongs, BankList.slot]
  obtain ⟨lists₂, c₂, hrun₂, h₂⟩ := relisted_pushBack h₁.lists ⟨h₁.live ▸ hlisted.live_of_current hop, hfree⟩
  refine ⟨lists₁, lists₂, hrun₁, hrun₂, ⟨c₂, hlisted.of_rewritten hop (h₁.trans h₂) (fun k x hx => ?_) fun k => ?_⟩, ?_,
    h.uniqid⟩
  · simp [h₁.member, hx]
  · rw [h₁.member, hlisted.member_iff hop]
    cases dead <;> cases k <;> simp [stateList, belongs, hdead]
  · rw [starts_rewritten (by exact fun _ => rfl)]
    exact h.trees

theorem Conforms.markAlive (h : Conforms bank) (hop : bank.current op = some o) (hdead : o.dead = true) :
    ∃ bank', bank.markAlive op = .ok bank' ∧ Conforms bank' := by
  obtain ⟨lists₁, lists₂, hrun₁, hrun₂, h'⟩ := h.mark false hop hdead
  refine ⟨_, ?_, h'⟩
  simp only [PcodeOpBank.markAlive, stateList, Bool.not_false, if_true, Bool.false_eq_true, if_false] at hrun₁ hrun₂ ⊢
  simp only [hrun₁, hrun₂, modify_ok hop, ok_bind, pure_eq_ok]
  rfl

theorem Conforms.markDead (h : Conforms bank) (hop : bank.current op = some o) (hdead : o.dead = false) :
    ∃ bank', bank.markDead op = .ok bank' ∧ Conforms bank' := by
  obtain ⟨lists₁, lists₂, hrun₁, hrun₂, h'⟩ := h.mark true hop hdead
  refine ⟨_, ?_, h'⟩
  simp only [PcodeOpBank.markDead, stateList, Bool.not_true, if_true, Bool.false_eq_true, if_false] at hrun₁ hrun₂ ⊢
  simp only [hrun₁, hrun₂, modify_ok hop, ok_bind, pure_eq_ok]
  rfl

omit [LinearOrder A] in
theorem belongs_of_slot {l : BankList} (hl : l.slot = 1) (o : BankOp A) : belongs o l ↔ codeList o.opcode = some l := by
  cases l <;> first | rfl | cases hl

/-- A blank op is in no list by opcode, so the calls that are skipped for it would change nothing. -/
theorem dropOpcode_ok (h : Listed bank c) (htrees : TreesConform bank.optree bank.alttree bank.starts bank.uniqid)
    (hop : bank.current op = some o) :
    ∃ lists' optree' alttree' c',
      bank.dropOpcode op o = .ok { bank with lists := lists', optree := optree', alttree := alttree' } ∧
      Relisted c lists' (fun k x => x ∈ c.seqs k ∧ ¬(codeList o.opcode = some k ∧ x = op)) c' ∧
      TreesConform optree' alttree' bank.starts bank.uniqid := by
  by_cases hblank : o.opcode = .blank
  · refine ⟨bank.lists, bank.optree, bank.alttree, c, ?_, ⟨h.lists, rfl, rfl, fun k x => by simp [hblank, codeList]⟩, htrees⟩
    rw [dropOpcode, if_pos hblank]
    rfl
  · obtain ⟨lists', c', hrun, hlists, -⟩ := removeFromCodeList_ok bank h.lists (get?_of_current hop).1 fun l hl =>
      (h.member_iff hop l).mpr ((belongs_codeList hl o).mpr hl)
    by_cases hindirect : o.opcode = .indirect
    · refine ⟨lists', _, _, c', ?_, hlists, htrees.move (starts_of_current hop)⟩
      rw [dropOpcode, if_neg hblank, hrun, ok_bind, if_pos hindirect]
      rfl
    · refine ⟨lists', _, _, c', ?_, hlists, htrees⟩
      rw [dropOpcode, if_neg hblank, hrun, ok_bind, if_neg hindirect]
      rfl

theorem Conforms.changeOpcode (h : Conforms bank) (hop : bank.current op = some o) (newopc : OpCode) :
    ∃ bank', bank.changeOpcode op newopc = .ok bank' ∧ Conforms bank' := by
  obtain ⟨c, hlisted⟩ := h.listed
  obtain ⟨lists₁, optree', alttree', c₁, hrun₁, h₁, htrees⟩ := dropOpcode_ok hlisted h.trees hop
  have hget := (get?_of_current hop).1
  have hfree (l : BankList) (hl : l.slot = 1) : op ∉ c₁.seqs l := by
    rw [h₁.member, hlisted.member_iff hop, belongs_of_slot hl]
    simp
  obtain ⟨lists₂, c₂, hrun₂, h₂⟩ := addToCodeList_ok
    (bank.rewritten op (fun o => { o with opcode := newopc }) lists₁ optree' alttree') h₁.lists
    (by rw [rewritten, Arena.get?_update, if_pos rfl, hget]; rfl) (h₁.live ▸ hlisted.live_of_current hop) hfree
  refine ⟨bank.rewritten op (fun o => { o with opcode := newopc }) lists₂ optree' alttree', ?_,
    ⟨c₂, hlisted.of_rewritten hop (h₁.trans h₂) (fun k x hx => ?_) fun k => ?_⟩, ?_, h.uniqid⟩
  · simp only [PcodeOpBank.changeOpcode, Arena.get_eq hget, ok_bind, hrun₁, modify_ok hop]
    exact hrun₂
  · simp [h₁.member, hx]
  · rw [h₁.member, hlisted.member_iff hop]
    by_cases hk : k.slot = 1
    · simp [belongs_of_slot hk]
    · have hcode (opc : OpCode) : codeList opc ≠ some k := fun hl => hk (codeList_slot hl)
      cases k <;> first | exact absurd rfl hk | simp [belongs, hcode]
  · rw [starts_rewritten (by exact fun _ => rfl)]
    exact htrees

theorem toVec_eq (h : Listed bank c) (l : BankList) : bank.toVec l = .ok (c.seqs l) := (h.lists.holds l).toVec

theorem Conforms.destroy (h : Conforms bank) (hop : bank.current op = some o) (hdead : o.dead = true)
    (hremovable : bank.Removable op o) :
    ∃ bank', bank.destroy op = .ok bank' ∧ Conforms bank' ∧ bank'.current = Function.update bank.current op none ∧
      (∀ x, x.2 ≠ op → (x ∈ bank'.alttree.entries ↔ x ∈ bank.alttree.entries)) ∧
      ∀ seq, bank.toVec .dead = .ok seq → bank'.toVec .dead = .ok (seq.filter (· ≠ op)) := by
  obtain ⟨c, hlisted⟩ := h.listed
  have hget := (get?_of_current hop).1
  obtain ⟨lists₁, c₁, hrun₁, h₁, hseqs₁⟩ := relisted_remove hlisted.lists ((hlisted.member_iff hop .dead).mpr hdead)
  have htrees := h.trees.remove (starts_of_current hop) hremovable
  generalize hoptree : (if o.opcode = .indirect then bank.optree else bank.optree.remove o.start) = optree' at htrees
  generalize halttree : (if o.opcode = .indirect then bank.alttree.remove o.start else bank.alttree) = alttree' at htrees
  obtain ⟨lists₂, c₂, hrun₂, h₂, hseqs₂⟩ :=
    removeFromCodeList_ok { bank with lists := lists₁, optree := optree', alttree := alttree' }
    h₁.lists hget fun l hl => by
      have hslot := codeList_slot hl
      rw [h₁.member, hlisted.member_iff hop, belongs_codeList hl]
      exact ⟨hl, fun he => by rw [he.1] at hslot; cases hslot⟩
  have hcurrent : current { bank with
      lists := lists₂, optree := optree', alttree := alttree', deadandgone := bank.deadandgone ++ [op] } =
      Function.update bank.current op none := by
    funext x
    rw [Function.update_apply]
    by_cases hx : x = op <;> simp [current, hx]
  refine ⟨{ bank with lists := lists₂, optree := optree', alttree := alttree', deadandgone := bank.deadandgone ++ [op] }, ?_,
    ⟨⟨c₂, hlisted.of_update (h₁.trans h₂) rfl (fun _ => Iff.rfl) (fun x hx => ?_) hcurrent (fun k x hx => ?_) fun k => ?_⟩,
      ?_, h.uniqid⟩, hcurrent, fun x hne => ?_, fun seq hseq => ?_⟩
  · simp only [PcodeOpBank.destroy, Arena.get_eq hget, ok_bind, hdead]
    by_cases hindirect : o.opcode = .indirect
    · simp only [hindirect, if_true] at hoptree halttree
      subst hoptree halttree
      simp [hindirect, hrun₁, hrun₂]
    · simp only [hindirect, if_false] at hoptree halttree
      subst hoptree halttree
      simp [hindirect, hrun₁, hrun₂]
  · rw [List.mem_append, List.mem_singleton] at hx
    exact hx.elim (hlisted.gone x) fun he => he ▸ Arena.lt_of_live (Arena.live_of_get? hget)
  · simp [h₁.member, hx]
  · simp only [h₁.member, hlisted.member_iff hop, and_true, reduceCtorEq, false_and, exists_false, iff_false, not_and,
      not_not]
    intro ⟨hbelongs, hk⟩
    cases k with
    | dead => exact absurd rfl hk
    | alive =>
        rw [belongs, hdead] at hbelongs
        cases hbelongs
    | _ => exact hbelongs
  · have hstarts : starts { bank with
        lists := lists₂, optree := optree', alttree := alttree', deadandgone := bank.deadandgone ++ [op] } =
        Function.update bank.starts op none := by
      funext x
      rw [starts, hcurrent, Function.update_apply, Function.update_apply]
      split <;> rfl
    rw [hstarts]
    exact htrees
  · rw [← halttree]
    split
    · refine SortedMap.mem_remove.trans (and_iff_left_of_imp fun hx hk => hne ?_)
      exact h.trees.unique x.2 op o.start (hk ▸ (h.trees.trees x.1 x.2).mp (Or.inr hx)) (starts_of_current hop)
    · rfl
  · rw [toVec_eq hlisted, Except.ok.injEq] at hseq
    refine ((h₂.lists.holds .dead).toVec).trans ?_
    rw [hseqs₂ .dead rfl, hseqs₁, Function.update_self, hseq]

/-- The lists of a bank and no more are brought in line with the same ops. -/
theorem Conforms.relisted {lists' : IntrusiveList.Lists BankList} {c c' : Contents BankList} (h : Conforms bank)
    (hlisted : Listed bank c)
    (hlists : Relisted c lists' (fun k x => x ∈ c.seqs k) c') : Conforms { bank with lists := lists' } :=
  ⟨⟨c', hlists.lists, hlists.nextId ▸ hlisted.nextId, fun x => hlists.live ▸ hlisted.live x, hlisted.gone,
    fun l x => (hlists.member l x).trans (hlisted.member l x)⟩, h.trees, h.uniqid⟩

theorem Conforms.insertAfterDead {prev : Nat} {p : BankOp A} (h : Conforms bank) (hne : op ≠ prev)
    (hop : bank.current op = some o) (hdead : o.dead = true) (hprev : bank.current prev = some p) (hpdead : p.dead = true) :
    ∃ bank', bank.insertAfterDead op prev = .ok bank' ∧ Conforms bank' := by
  obtain ⟨c, hlisted⟩ := h.listed
  have hmem := (hlisted.member_iff hop .dead).mpr hdead
  obtain ⟨lists₁, c₁, hrun₁, h₁, -⟩ := relisted_remove hlisted.lists hmem
  have hprevmem : prev ∈ c₁.seqs .dead :=
    (h₁.member _ _).mpr ⟨(hlisted.member_iff hprev .dead).mpr hpdead, fun he => hne he.2.symm⟩
  have hfree (k : BankList) (hk : k.slot = BankList.dead.slot) : op ∉ c₁.seqs k := by
    rw [h₁.member, hlisted.member_iff hop]
    cases k <;> simp_all [belongs, BankList.slot]
  obtain ⟨lists₂, c₂, hrun₂, h₂⟩ := relisted_insertAfter h₁.lists hprevmem ⟨h₁.live ▸ hlisted.live_of_current hop, hfree⟩
  have hlists := h₁.trans h₂
  refine ⟨{ bank with lists := lists₂ }, ?_, h.relisted hlisted ⟨hlists.lists, hlists.nextId, hlists.live, ?_⟩⟩
  · simp [PcodeOpBank.insertAfterDead, Arena.get_eq (get?_of_current hop).1, Arena.get_eq (get?_of_current hprev).1, hdead,
      hpdead, hrun₁, hrun₂]
  · intro k x
    rw [hlists.member, h₁.member]
    by_cases hx : k = .dead ∧ x = op
    · simp [hx, hmem]
    · simp [hx]

theorem Conforms.moveSequenceDead {firstop lastop prev : Nat} {p : BankOp A} (h : Conforms bank)
    (hfirst : bank.current firstop = some o) (hdead : o.dead = true) (hprev : bank.current prev = some p)
    (hpdead : p.dead = true) (hlast : ∀ seq, bank.toVec .dead = .ok seq → lastop ∈ seq.dropWhile (· ≠ firstop)) :
    ∃ bank', bank.moveSequenceDead firstop lastop prev = .ok bank' ∧ Conforms bank' := by
  obtain ⟨c, hlisted⟩ := h.listed
  have hholds := hlisted.lists.holds .dead
  obtain ⟨A, B, hdrop⟩ := List.append_of_mem (hlast _ (toVec_eq hlisted .dead))
  have hsplit : c.seqs .dead = (c.seqs .dead).takeWhile (· ≠ firstop) ++ A ++ lastop :: B := by
    rw [List.append_assoc, ← hdrop, List.takeWhile_append_dropWhile]
  obtain ⟨A', B', hsplit'⟩ := List.append_of_mem ((hlisted.member_iff hprev .dead).mpr hpdead)
  have henditer := hholds.shows.next _ _ _ hsplit
  have hpreviter := hholds.shows.next _ _ _ hsplit'
  by_cases hsame : B'.head? = some firstop
  · exact ⟨bank, by simp [PcodeOpBank.moveSequenceDead, henditer, hpreviter, hsame], h⟩
  · have hpos : ∀ q ∈ B'.head?, q ∈ c.seqs .dead := fun q hq => by
      rw [hsplit']
      simp [List.mem_of_head? hq]
    have hend : ∀ q ∈ B.head?, q ∈ (c.seqs .dead).dropWhile (· ≠ firstop) := fun q hq => by
      rw [hdrop]
      simp [List.mem_of_head? hq]
    obtain ⟨lists', hrun, hlists⟩ := hlisted.lists.step (.spliceRange .dead B'.head? firstop B.head?)
      ⟨(hlisted.member_iff hfirst .dead).mpr hdead, hpos, hend⟩
    refine ⟨{ bank with lists := lists' }, ?_, h.relisted hlisted ⟨hlists, rfl, rfl, fun k x => ?_⟩⟩
    · simp [PcodeOpBank.moveSequenceDead, henditer, hpreviter, hsame, hrun]
    · by_cases hk : k = .dead
      · subst hk
        simp [Contents.perform, mem_spliced hpos]
      · simp [Contents.perform, hk]

/-- A new op is dead and blank. -/
theorem Conforms.createDead {sq : SeqKey A} (h : Conforms bank) (hfresh : ∀ x, bank.starts x ≠ some sq)
    (htime : (ofLex sq).2 < bank.uniqid) (indirect : Bool) :
    ∃ bank', bank.createDead sq indirect = .ok (bank.ops.nextId, bank') ∧ Conforms bank' := by
  obtain ⟨c, hlisted⟩ := h.listed
  obtain ⟨lists₁, hrun₁, h₁⟩ := hlisted.lists.step .alloc trivial
  have hnone : bank.ops.get? bank.ops.nextId = none := Arena.get?_nextId _
  have hnot (l : BankList) : bank.ops.nextId ∉ c.seqs l := fun hmem => by
    obtain ⟨o, ho, -⟩ := (hlisted.member l _).mp hmem
    rw [(get?_of_current ho).1] at hnone
    cases hnone
  have hfree : (c.perform .alloc).Free BankList.slot BankList.dead.slot bank.ops.nextId :=
    ⟨by simp [Contents.perform, hlisted.nextId], fun k _ => hnot k⟩
  obtain ⟨lists₂, c₂, hrun₂, h₂⟩ := relisted_pushBack h₁ hfree
  have hget (x : Nat) :
      ((bank.ops.alloc ⟨sq, .blank, false⟩).1.update bank.ops.nextId fun o => { o with dead := true }).get? x =
      if x = bank.ops.nextId then some ⟨sq, .blank, true⟩ else bank.ops.get? x := by
    rw [Arena.get?_update, Arena.get?_alloc, Arena.get?_alloc, if_pos rfl]
    split <;> rfl
  have hgone : bank.ops.nextId ∉ bank.deadandgone := fun hmem => Nat.lt_irrefl _ (hlisted.gone _ hmem)
  let bank' : PcodeOpBank A := { bank with
    ops := (bank.ops.alloc ⟨sq, .blank, false⟩).1.update bank.ops.nextId fun o => { o with dead := true }
    lists := lists₂
    optree := if indirect then bank.optree else bank.optree.insert sq bank.ops.nextId
    alttree := if indirect then bank.alttree.insert sq bank.ops.nextId else bank.alttree }
  have hcurrent : bank'.current = Function.update bank.current bank.ops.nextId (some ⟨sq, .blank, true⟩) := by
    funext x
    rw [Function.update_apply, current, current, hget]
    by_cases hx : x = bank.ops.nextId
    · simp [hx, bank', hgone]
    · simp [hx, bank']
  have hstarts : bank'.starts = Function.update bank.starts bank.ops.nextId (some sq) := by
    funext x
    rw [starts, hcurrent, Function.update_apply, Function.update_apply]
    split <;> rfl
  have hlive : (bank.ops.alloc ⟨sq, .blank, false⟩).1.Live bank.ops.nextId := by simp [Arena.Live, Arena.get?_alloc]
  have hnextId : bank'.ops.nextId = bank.ops.nextId + 1 := by
    rw [Arena.nextId_update]
    simp [Arena.alloc, Arena.nextId]
  refine ⟨bank', ?_, ⟨c₂, h₂.lists, ?_, fun x => ?_, fun x hx => ?_, fun l x => ?_⟩, ?_, h.uniqid⟩
  · have hmodify := Arena.modify_eq (fun o : BankOp A => { o with dead := true }) hlive
    have hop : (bank.ops.alloc (⟨sq, .blank, false⟩ : BankOp A)).2 = bank.ops.nextId := rfl
    simp only [PcodeOpBank.createDead, hop, hrun₁, hrun₂, hmodify, ok_bind, pure_eq_ok]
    cases indirect <;> rfl
  · rw [h₂.nextId, hnextId, hlisted.nextId]
    rfl
  · rw [h₂.live, Arena.Live, hget, Contents.perform, List.mem_cons, ← hlisted.nextId, ← hlisted.live]
    split <;> simp_all [Arena.Live]
  · rw [hnextId]
    exact (hlisted.gone x hx).trans (Nat.lt_succ_self _)
  · rw [h₂.member, hcurrent, Function.update_apply]
    by_cases hx : x = bank.ops.nextId
    · subst hx
      cases l <;> simp [Contents.perform, hnot, belongs, codeList]
    · simp [Contents.perform, hx, hlisted.member]
  · rw [hstarts]
    exact h.trees.insert (by rw [starts, current, if_neg hgone, hnone]; rfl) hfresh htime indirect

/-- The state of the pass over the dead list, with the ops that are left on it. -/
structure Destroying (bank : PcodeOpBank A) (s : PcodeOpBank A × Option Nat) (seq : List Nat) : Prop where
  conforms : Conforms s.1
  toVec : s.1.toVec .dead = .ok seq
  front : s.2 = seq.head?
  removable : ∀ op o, s.1.current op = some o → o.dead = true → s.1.Removable op o
  kept : ∀ op, (s.1.current op).filter (fun o => !o.dead) = (bank.current op).filter fun o => !o.dead

theorem Destroying.leave {s : PcodeOpBank A × Option Nat} (h : Destroying bank s []) :
    destroyFront s = .ok (.leave s.1) ∧ ∀ op, s.1.current op = (bank.current op).filter fun o => !o.dead := by
  obtain ⟨c, hlisted⟩ := h.conforms.listed
  have hempty : c.seqs .dead = [] := Except.ok.inj ((toVec_eq hlisted .dead).symm.trans h.toVec)
  refine ⟨by rw [destroyFront, h.front]; rfl, fun op => ?_⟩
  rw [← h.kept]
  cases hop : s.1.current op with
  | none => rfl
  | some o =>
      have hnot : ¬belongs o .dead := fun hbelongs => by
        have hmem := (hlisted.member_iff hop .dead).mpr hbelongs
        rw [hempty] at hmem
        cases hmem
      simp [Option.filter, Bool.eq_false_of_not_eq_true hnot]

theorem Destroying.again {s : PcodeOpBank A × Option Nat} {op : Nat} {seq : List Nat} (h : Destroying bank s (op :: seq)) :
    ∃ s', destroyFront s = .ok (.again s') ∧ Destroying bank s' seq := by
  obtain ⟨c, hlisted⟩ := h.conforms.listed
  have hseq : c.seqs .dead = op :: seq := Except.ok.inj ((toVec_eq hlisted .dead).symm.trans h.toVec)
  have hholds : Holds s.1.lists.nodes (s.1.lists.lists .dead) (op :: seq) := hseq ▸ hlisted.lists.holds .dead
  obtain ⟨o, hop, hdead⟩ := (hlisted.member .dead op).mp (hseq ▸ List.mem_cons_self)
  obtain ⟨bank', hrun, hconforms, hcurrent, halttree, htoVec⟩ := h.conforms.destroy hop hdead (h.removable op o hop hdead)
  have hnext := hholds.shows.next [] op seq rfl
  have hfilter : (op :: seq).filter (· ≠ op) = seq := by
    obtain ⟨hop, -⟩ := List.nodup_cons.mp hholds.nodup
    have hne {x : Nat} (hx : x ∈ seq) : x ≠ op := fun he => hop (he ▸ hx)
    rw [List.filter_cons_of_neg (by simp), List.filter_eq_self.mpr fun x hx => decide_eq_true (hne hx)]
  refine ⟨(bank', seq.head?), ?_, hconforms, hfilter ▸ htoVec _ h.toVec, rfl, fun x p hx hp => ?_, fun x => ?_⟩
  · rw [destroyFront, h.front]
    simp [hnext, hrun]
  · rw [hcurrent, Function.update_apply] at hx
    split at hx
    · cases hx
    · rename_i hne
      exact (h.removable x p hx hp).trans (halttree (p.start, x) hne).symm
  · rw [← h.kept, hcurrent, Function.update_apply]
    split
    · rename_i hx
      simp [hx, hop, Option.filter, show o.dead = true from hdead]
    · rfl

/-- Every op of the dead list is destroyed, and no other. -/
theorem Conforms.destroyDead (h : Conforms bank)
    (hremovable : ∀ op o, bank.current op = some o → o.dead = true → bank.Removable op o) :
    ∃ bank', bank.destroyDead = .ok bank' ∧
      (Conforms bank' ∧ ∀ op, bank'.current op = (bank.current op).filter fun o => !o.dead) := by
  obtain ⟨c, hlisted⟩ := h.listed
  have hholds := hlisted.lists.holds .dead
  have hstart : Destroying bank (bank, (bank.lists.lists .dead).front) (c.seqs .dead) :=
    ⟨h, toVec_eq hlisted .dead, hholds.head, hremovable, fun _ => rfl⟩
  refine loop_bounded (fun n s => ∃ seq, seq.length = n ∧ Destroying bank s seq) _ (fun n s hs => ?_) ⟨_, rfl, hstart⟩
    (by rw [hholds.len]; exact Nat.lt_succ_self _)
  obtain ⟨seq, hlen, hs⟩ := hs
  cases seq with
  | nil => exact .inl ⟨s.1, hs.leave.1, hs.conforms, hs.leave.2⟩
  | cons op seq =>
      obtain ⟨s', hrun, hs'⟩ := hs.again
      exact .inr ⟨s', seq.length, hrun, by rw [← hlen, List.length_cons]; exact Nat.lt_succ_self _, seq, rfl, hs'⟩

theorem trees_empty (starts : Nat → Option (SeqKey A)) (h : ∀ op, starts op = none) (uniqid : Nat) :
    TreesConform .empty .empty starts uniqid :=
  ⟨fun k op => by simp [h], fun x hx => absurd hx List.not_mem_nil, fun op op' k hk => by simp [h] at hk,
    fun op k hk => by simp [h] at hk⟩

theorem Conforms.clear (h : Conforms bank) : Conforms bank.clear := by
  obtain ⟨c, hlisted⟩ := h.listed
  have hget (op : Nat) : bank.clear.ops.get? op = none := by
    simp only [PcodeOpBank.clear, Arena.get?, List.getElem?_map]
    cases bank.ops.slots[op]? <;> rfl
  have hnodes (op : Nat) : bank.clear.lists.nodes.get? op = none := by
    simp only [PcodeOpBank.clear, Arena.get?, List.getElem?_map]
    cases bank.lists.nodes.slots[op]? <;> rfl
  have hcurrent (op : Nat) : bank.clear.current op = none := by rw [current, hget, ite_self]
  have hnextId : bank.clear.lists.nodes.nextId = c.nextId := by
    rw [← hlisted.lists.nextId]
    exact List.length_map _
  refine ⟨⟨⟨c.nextId, [], fun _ => []⟩, ⟨fun _ => rfl, hnextId, fun x => ?_, fun l => ?_, ?_, fun slot x _ => ?_⟩, ?_,
    fun op => ?_,
    fun op hop => absurd hop List.not_mem_nil, fun l op => ?_⟩, trees_empty _ (fun op => ?_) 0, Nat.pow_pos (by decide)⟩
  · simp [Arena.Live, hnodes]
  · exact ⟨rfl, rfl, rfl, List.nodup_nil, fun _ hx => absurd hx List.not_mem_nil, trivial⟩
  · exact fun _ _ _ _ _ hx => absurd hx List.not_mem_nil
  · rw [linksOf, hnodes]
    rfl
  · exact (List.length_map _).trans hlisted.nextId
  · simp [Arena.Live, hget]
  · simp [hcurrent]
  · rw [starts, hcurrent]
    rfl

theorem Conforms.setUniqId {val : Nat} (h : Conforms bank) (hle : bank.uniqid ≤ val) (hval : val < 2 ^ 32) :
    Conforms (bank.setUniqId val) := by
  obtain ⟨c, hlisted⟩ := h.listed
  exact ⟨⟨c, hlisted.lists, hlisted.nextId, hlisted.live, hlisted.gone, hlisted.member⟩, h.trees.raise hle, hval⟩

theorem Conforms.create (h : Conforms bank) (hfew : bank.uniqid + 1 < 2 ^ 32) (pc : A) (indirect : Bool) :
    ∃ bank', PcodeOpBank.createDead { bank with uniqid := wrappingSucc bank.uniqid } (toLex (pc, bank.uniqid)) indirect =
      .ok (bank.ops.nextId, bank') ∧ Conforms bank' := by
  have hsucc : wrappingSucc bank.uniqid = bank.uniqid + 1 := Nat.mod_eq_of_lt hfew
  have h₁ : Conforms (bank.setUniqId (bank.uniqid + 1)) := h.setUniqId (Nat.le_succ _) hfew
  rw [hsucc]
  refine h₁.createDead (fun x hx => ?_) (Nat.lt_succ_self _) indirect
  exact Nat.lt_irrefl _ (h.trees.times x _ hx)

theorem Conforms.createSeq {sq : SeqKey A} (h : Conforms bank) (hfew : (ofLex sq).2 + 1 < 2 ^ 32)
    (hfresh : ∀ op, ∀ o ∈ bank.current op, o.start ≠ sq) :
    ∃ bank', bank.createSeq sq = .ok (bank.ops.nextId, bank') ∧ Conforms bank' := by
  have hstarts (x : Nat) : bank.starts x ≠ some sq := fun hx => by
    obtain ⟨o, ho, hstart⟩ := Option.map_eq_some_iff.mp hx
    exact hfresh x o ho hstart
  rw [PcodeOpBank.createSeq]
  split
  · rename_i hle
    have hsucc : wrappingSucc (ofLex sq).2 = (ofLex sq).2 + 1 := Nat.mod_eq_of_lt hfew
    have h₁ : Conforms (bank.setUniqId ((ofLex sq).2 + 1)) := h.setUniqId (Nat.le_succ_of_le hle) hfew
    rw [hsucc]
    exact h₁.createDead hstarts (Nat.lt_succ_self _) false
  · rename_i hlt
    exact h.createDead hstarts (Nat.lt_of_not_le hlt) false

theorem snd_ok {run : Outcome (Nat × PcodeOpBank A)} (h : ∃ bank', run = .ok (op, bank') ∧ Conforms bank') :
    ∃ bank', Prod.snd <$> run = .ok bank' ∧ Conforms bank' := by
  obtain ⟨bank', hrun, h'⟩ := h
  exact ⟨bank', by rw [hrun]; rfl, h'⟩

theorem Conforms.step (h : Conforms bank) (operation : Operation A) (hallowed : Allowed bank operation) :
    ∃ bank', bank.perform operation = .ok bank' ∧ Conforms bank' := by
  cases operation with
  | create pc => exact snd_ok (h.create hallowed pc false)
  | createSeq sq => exact snd_ok (h.createSeq hallowed.1 fun op o hop => hallowed.2 op (lt_of_current hop) o hop)
  | createIndirect pc => exact snd_ok (h.create hallowed pc true)
  | setUniqId val => exact ⟨_, rfl, h.setUniqId hallowed.1 hallowed.2⟩
  | changeOpcode op newopc =>
      obtain ⟨o, hop⟩ := Option.isSome_iff_exists.mp hallowed
      exact h.changeOpcode hop newopc
  | markAlive op =>
      obtain ⟨o, hop, hdead⟩ := hallowed
      exact h.markAlive hop hdead
  | markDead op =>
      obtain ⟨o, hop, hdead⟩ := hallowed
      exact h.markDead hop hdead
  | insertAfterDead op prev =>
      obtain ⟨hne, ⟨o, hop, hdead⟩, p, hprev, hpdead⟩ := hallowed
      exact h.insertAfterDead hne hop hdead hprev hpdead
  | moveSequenceDead firstop lastop prev =>
      obtain ⟨⟨o, hop, hdead⟩, ⟨p, hprev, hpdead⟩, hlast⟩ := hallowed
      exact h.moveSequenceDead hop hdead hprev hpdead fun seq hseq => hlast seq (by rw [hseq]; rfl)
  | destroy op =>
      obtain ⟨o, hop, hdead, hremovable⟩ := hallowed
      obtain ⟨bank', hrun, h', -⟩ := h.destroy hop hdead hremovable
      exact ⟨bank', hrun, h'⟩
  | destroyDead =>
      obtain ⟨bank', hrun, h', -⟩ := h.destroyDead fun op o hop => hallowed op (lt_of_current hop) o hop
      exact ⟨bank', hrun, h'⟩
  | clear => exact ⟨_, rfl, h.clear⟩

theorem conforms_new : Conforms (new : PcodeOpBank A) := by
  have hcurrent (op : Nat) : (new : PcodeOpBank A).current op = none := by simp [current, new, Arena.get?]
  refine ⟨⟨.empty, refines_start BankList.slot, rfl, fun op => ?_, fun op hop => absurd hop List.not_mem_nil, fun l op => ?_⟩,
    trees_empty _ (fun op => ?_) 0, Nat.pow_pos (by decide)⟩
  · simp [Arena.Live, Arena.get?, new, Contents.empty]
  · simp [hcurrent, Contents.empty]
  · rw [starts, hcurrent]
    rfl

theorem Conforms.run (operations : List (Operation A)) (h : Conforms bank) (hpermitted : Permitted bank operations) :
    ∃ bank', operations.foldlM perform bank = .ok bank' ∧ Conforms bank' := by
  induction operations generalizing bank with
  | nil => exact ⟨bank, rfl, h⟩
  | cons operation operations ih =>
      obtain ⟨bank₁, hrun₁, h₁⟩ := h.step operation hpermitted.1
      obtain ⟨bank₂, hrun₂, h₂⟩ := ih h₁ (hpermitted.2 bank₁ (by rw [hrun₁]; rfl))
      exact ⟨bank₂, by rw [List.foldlM_cons, hrun₁, ok_bind, hrun₂], h₂⟩

end Steps

section Ranges

variable {m : SortedMap (SeqKey A) Nat} {p : SeqKey A → Prop} [DecidablePred p] {k : SeqKey A}

/-- The first entry with a property that passes on to greater keys is a bound for the entries with it. -/
theorem le_iff_of_find? (hp : ∀ a b, p a → a ≤ b → p b) (h : (m.entries.find? fun x => p x.1).map Prod.fst = some k)
    {x : SeqKey A × Nat} (hx : x ∈ m.entries) : k ≤ x.1 ↔ p x.1 := by
  obtain ⟨y, hy, rfl⟩ := Option.map_eq_some_iff.mp h
  obtain ⟨hpy, before, after, hsplit, hbefore⟩ := List.find?_eq_some_iff_append.mp hy
  have hsorted := m.sorted
  rw [hsplit, List.pairwise_append, List.pairwise_cons] at hsorted
  refine ⟨fun hle => hp _ _ (of_decide_eq_true hpy) hle, fun hpx => ?_⟩
  rw [hsplit, List.mem_append, List.mem_cons] at hx
  obtain hx | rfl | hx := hx
  · exact absurd (decide_eq_true hpx) (by simpa using hbefore x hx)
  · exact le_rfl
  · exact (hsorted.2.1.1 x hx).le

theorem treeRange_bounds (m : SortedMap (SeqKey A) Nat) (lower upper : SeqKey A) :
    treeRange m (treeLowerBound m lower) (treeUpperBound m upper) =
      (m.entries.filter fun x => lower ≤ x.1 ∧ x.1 ≤ upper).map Prod.snd := by
  have hupper (x : SeqKey A × Nat) (hx : x ∈ m.entries) : (∀ key ∈ treeUpperBound m upper, x.1 < key) ↔ x.1 ≤ upper := by
    cases hbound : treeUpperBound m upper with
    | none =>
        rw [treeUpperBound, Option.map_eq_none_iff, List.find?_eq_none] at hbound
        simpa using hbound x hx
    | some key =>
        have hkey := le_iff_of_find? (p := (upper < ·)) (fun a b ha hab => ha.trans_le hab) hbound hx
        simp [← not_le, hkey]
  cases hbound : treeLowerBound m lower with
  | none =>
      rw [treeLowerBound, Option.map_eq_none_iff, List.find?_eq_none] at hbound
      rw [treeRange, List.filter_eq_nil_iff.mpr fun x hx => by simpa using fun hle => absurd hle (by simpa using hbound x hx)]
      rfl
  | some start =>
      have hlower {x : SeqKey A × Nat} (hx : x ∈ m.entries) : start ≤ x.1 ↔ lower ≤ x.1 :=
        le_iff_of_find? (p := (lower ≤ ·)) (fun a b ha hab => ha.trans hab) hbound hx
      have hfilter : (m.entries.filter fun x => start ≤ x.1 ∧ ∀ key ∈ treeUpperBound m upper, x.1 < key) =
          m.entries.filter fun x => lower ≤ x.1 ∧ x.1 ≤ upper :=
        List.filter_congr fun x hx => decide_eq_decide.mpr (and_congr (hlower hx) (hupper x hx))
      rw [treeRange]
      split
      · rename_i hempty
        obtain ⟨key, hkey, hlt⟩ := hempty
        have hnone (x : SeqKey A × Nat) : ¬(start ≤ x.1 ∧ ∀ key ∈ treeUpperBound m upper, x.1 < key) := fun hx =>
          lt_irrefl _ ((hx.2 key hkey).trans (hlt.trans_le hx.1))
        rw [← hfilter, List.filter_eq_nil_iff.mpr fun x _ hx => hnone x (of_decide_eq_true hx)]
        rfl
      · rw [hfilter]

/-- Between the bounds for an address there are the ops at the address, in the order of their times. -/
theorem treeRange_addr (m : SortedMap (SeqKey A) Nat) (hm : ∀ x ∈ m.entries, (ofLex x.1).2 < 2 ^ 32) (addr : A) :
    treeRange m (treeLowerBound m (toLex (addr, 0))) (treeUpperBound m (toLex (addr, 2 ^ 32 - 1))) =
      (m.entries.filter fun x => (ofLex x.1).1 = addr).map Prod.snd := by
  rw [treeRange_bounds]
  congr 1
  refine List.filter_congr fun x hx => decide_eq_decide.mpr ?_
  have htime := hm x hx
  rw [Prod.Lex.le_iff, Prod.Lex.le_iff]
  constructor
  · rintro ⟨hlow | ⟨heq, -⟩, hhigh | ⟨heq', -⟩⟩
    · exact absurd (hlow.trans hhigh) (lt_irrefl _)
    · exact heq'
    · exact heq.symm
    · exact heq'
  · intro heq
    exact ⟨Or.inr ⟨heq.symm, Nat.zero_le _⟩, Or.inr ⟨heq, Nat.le_sub_one_of_lt htime⟩⟩

end Ranges

/-- What the users of a bank rely on: each list has the ops that belong to it, each once, each op is found in one of the
trees by its own sequence number, and walking over an address meets the ops there. -/
structure Consistent (bank : PcodeOpBank A) : Prop where
  lists : ∀ l, ∃ seq, bank.toVec l = .ok seq ∧ seq.Nodup ∧ ∀ op, op ∈ seq ↔ ∃ o, bank.current op = some o ∧ belongs o l
  trees : ∀ k op, bank.optree.lookup k = some op ∨ bank.alttree.lookup k = some op ↔
    ∃ o, bank.current op = some o ∧ o.start = k
  apart : ∀ k op, bank.optree.lookup k = some op → bank.alttree.lookup k ≠ some op
  unique : ∀ op op' o o', bank.current op = some o → bank.current op' = some o' → o.start = o'.start → op = op'
  times : ∀ op o, bank.current op = some o → (ofLex o.start).2 < bank.uniqid
  main : ∀ addr, treeRange bank.optree (bank.beginMainAddr addr) (bank.endMainAddr addr) =
    (bank.optree.entries.filter fun x => (ofLex x.1).1 = addr).map Prod.snd
  indirect : ∀ addr, treeRange bank.alttree (bank.beginIndirectAddr addr) (bank.endIndirectAddr addr) =
    (bank.alttree.entries.filter fun x => (ofLex x.1).1 = addr).map Prod.snd

theorem Conforms.consistent {bank : PcodeOpBank A} (h : Conforms bank) : Consistent bank := by
  obtain ⟨c, hlisted⟩ := h.listed
  have hstarts (op : Nat) (k : SeqKey A) : bank.starts op = some k ↔ ∃ o, bank.current op = some o ∧ o.start = k :=
    Option.map_eq_some_iff
  have htimes {x : SeqKey A × Nat} (hx : x ∈ bank.optree.entries ∨ x ∈ bank.alttree.entries) : (ofLex x.1).2 < 2 ^ 32 :=
    (h.trees.times x.2 x.1 ((h.trees.trees x.1 x.2).mp hx)).trans h.uniqid
  refine ⟨fun l => ⟨c.seqs l, toVec_eq hlisted l, (hlisted.lists.holds l).nodup, hlisted.member l⟩, fun k op => ?_,
    fun k op hk => ?_,
    fun op op' o o' hop hop' he => ?_, fun op o hop => h.trees.times op o.start (starts_of_current hop), fun addr => ?_,
    fun addr => ?_⟩
  · rw [SortedMap.lookup_eq_some, SortedMap.lookup_eq_some, h.trees.trees, hstarts]
  · rw [SortedMap.lookup_eq_some] at hk
    rw [Ne, SortedMap.lookup_eq_some]
    exact h.trees.apart _ hk
  · exact h.trees.unique op op' o.start (starts_of_current hop) (he ▸ starts_of_current hop')
  · exact treeRange_addr bank.optree (fun x hx => htimes (Or.inl hx)) addr
  · exact treeRange_addr bank.alttree (fun x hx => htimes (Or.inr hx)) addr

/-- The bank is consistent after any run of calls it is made for, and its dead ops can then be destroyed together. -/
theorem run_consistent (operations : List (Operation A)) (h : Permitted new operations) :
    ∃ bank, operations.foldlM perform new = .ok bank ∧ Consistent bank ∧
      ((∀ op o, bank.current op = some o → o.dead = true → bank.Removable op o) →
        ∃ bank', bank.destroyDead = .ok bank' ∧ Consistent bank' ∧
          ∀ op, bank'.current op = (bank.current op).filter fun o => !o.dead) := by
  obtain ⟨bank, hrun, hbank⟩ := conforms_new.run operations h
  refine ⟨bank, hrun, hbank.consistent, fun hremovable => ?_⟩
  obtain ⟨bank', hrun', hbank', hcurrent⟩ := hbank.destroyDead hremovable
  exact ⟨bank', hrun', hbank'.consistent, hcurrent⟩

def sample : List (Operation Nat) :=
  [.create 16, .createIndirect 16, .create 20, .createSeq (toLex (16, 7)), .changeOpcode 0 .store, .changeOpcode 1 .indirect,
    .changeOpcode 2 .copy, .insertAfterDead 0 2, .moveSequenceDead 1 2 3, .markAlive 0, .markAlive 1, .markDead 0,
    .changeOpcode 1 .load, .destroy 2]

theorem run_consistent_sample : ∃ bank, sample.foldlM perform new = .ok bank ∧ Consistent bank := by
  obtain ⟨bank, hrun, hbank, -⟩ := run_consistent sample (by decide +kernel)
  exact ⟨bank, hrun, hbank⟩

end PcodeOpBank

end GhidraDecompiler
