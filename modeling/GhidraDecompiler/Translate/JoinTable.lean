import Mathlib.Data.List.Nodup
import Mathlib.Logic.Relation
import GhidraDecompiler.Address
import GhidraDecompiler.Lib.BinarySearch
import Mathlib.Algebra.GroupWithZero.Nat

namespace GhidraDecompiler.Translate

open Fallible

/-- A piece of storage. Spaces are compared by their indices. -/
structure VarnodeData where
  space : Option Int
  offset : Nat
  size : Nat
  deriving DecidableEq

structure Location where
  space : Option Int
  offset : Nat
  deriving DecidableEq

structure JoinRecord where
  pieces : List VarnodeData
  unifiedSpace : Option Int
  unifiedOffset : Nat
  unifiedSize : Nat
  deriving DecidableEq

/-- The map `splitset` is used for lookups only: it is the list of its entries. -/
structure JoinTable where
  joinallocate : Nat
  splitset : List ((Nat × List VarnodeData) × JoinRecord)
  splitlist : List JoinRecord
  joinSpace : Option Int
  deriving DecidableEq

namespace JoinRecord

/-- The piece that holds an offset, from the first one on, as the offset in the piece
and its position. -/
def seek : List VarnodeData → Int → Nat → Int × Nat
  | [], smallOff, pos => (smallOff, pos)
  | piece :: pieces, smallOff, pos =>
      let pieceSize := asI32 piece.size
      if smallOff < pieceSize then (smallOff, pos) else seek pieces (asI32 (smallOff - pieceSize)) (pos + 1)

def getEquivalentAddress (bigEndian : Int → Bool) (r : JoinRecord) (offset : Nat) : Outcome (Location × Int) :=
  if offset < r.unifiedOffset then pure (⟨none, 0⟩, -1)
  else
    let smallOff := asI32 (offset - r.unifiedOffset)
    let big := match r.pieces.head? with
      | some piece => piece.space.any bigEndian
      | none => false
    let count := r.pieces.length
    let (smallOff, pos) : Int × Int :=
      if big then
        let (smallOff, pos) := seek r.pieces smallOff 0
        (smallOff, pos)
      else
        let (smallOff, steps) := seek r.pieces.reverse smallOff 0
        (smallOff, count - 1 - steps)
    if pos < 0 ∨ pos = count then pure (⟨none, 0⟩, pos)
    else do
      let piece ← getAt r.pieces pos
      pure (⟨piece.space, (piece.offset + asU64 smallOff) % 2 ^ 64⟩, pos)

end JoinRecord

namespace JoinTable

def new (joinSpace : Option Int) : JoinTable :=
  { joinallocate := 0, splitset := [], splitlist := [], joinSpace := joinSpace }

def totalSize (pieces : List VarnodeData) (logicalsize : Nat) : Outcome Nat :=
  if pieces.isEmpty then .error (.lowlevel "Cannot create a join without pieces")
  else if pieces.length = 1 ∧ logicalsize = 0 then
    .error (.lowlevel "Cannot create a single piece join without a logical size")
  else if logicalsize ≠ 0 then
    if pieces.length ≠ 1 then .error (.lowlevel "Cannot specify logical size for multiple piece join")
    else .ok logicalsize
  else
    let sum := pieces.foldl (fun accum piece => (accum + piece.size) % 2 ^ 32) 0
    if sum = 0 then .error (.lowlevel "Cannot create a zero size join") else .ok sum

/-- Sizes are rounded up to a multiple of 16. -/
def roundSize (totalsize : Nat) : Nat := ((totalsize + 15) % 2 ^ 32) / 16 * 16

def getSplit (t : JoinTable) (key : Nat × List VarnodeData) : Option JoinRecord :=
  (t.splitset.find? fun entry => entry.1 = key).map Prod.snd

def findAddJoin (t : JoinTable) (pieces : List VarnodeData) (logicalsize : Nat) :
    Outcome (JoinRecord × JoinTable) := do
  let totalsize ← totalSize pieces logicalsize
  let key := (totalsize, pieces)
  match t.getSplit key with
  | some existing => pure (existing, t)
  | none =>
      let record : JoinRecord :=
        { pieces := pieces, unifiedSpace := t.joinSpace, unifiedOffset := t.joinallocate, unifiedSize := totalsize }
      pure (record, { t with
        joinallocate := (t.joinallocate + roundSize totalsize) % 2 ^ 64
        splitset := t.splitset ++ [(key, record)]
        splitlist := t.splitlist ++ [record] })

/-- Where an offset lies from a record: the search goes on behind a record whose end is
not above it. -/
def compareInternal (offset : Nat) (r : JoinRecord) : Ordering :=
  if (r.unifiedOffset + r.unifiedSize) % 2 ^ 64 ≤ offset then .lt
  else if offset < r.unifiedOffset then .gt
  else .eq

def findJoinInternal (t : JoinTable) (offset : Nat) : Outcome (Option JoinRecord) :=
  BinarySearch.search asI32 (compareInternal offset) t.splitlist

def compareStart (offset : Nat) (r : JoinRecord) : Ordering :=
  if r.unifiedOffset = offset then .eq else if r.unifiedOffset < offset then .lt else .gt

def findJoin (t : JoinTable) (offset : Nat) : Outcome JoinRecord := do
  match ← BinarySearch.search asI32 (compareStart offset) t.splitlist with
  | some r => pure r
  | none => .error (.lowlevel "Unlinked join address")

/-- The pieces from one position to another, with the first and the last of them cut. -/
def slicePieces (pieces : List VarnodeData) (start stop : Int) : Outcome (List VarnodeData) :=
  (List.range (stop + 1 - start).toNat).mapM fun i => getAt pieces (start + i)

def modifyHead (pieces : List VarnodeData) (f : VarnodeData → VarnodeData) : List VarnodeData := pieces.modify 0 f

def modifyLast (pieces : List VarnodeData) (f : VarnodeData → VarnodeData) : List VarnodeData :=
  pieces.modify (pieces.length - 1) f

def shrink (trunc : Int) (piece : VarnodeData) : VarnodeData :=
  { piece with size := ((piece.size + 2 ^ 32 - (trunc % 2 ^ 32).toNat) % 2 ^ 32) }

/-- The pieces of a part of a record that is not in one piece. -/
def renormalizedPieces (pieces : List VarnodeData) (addr1 addr2 : Location) (pos1 pos2 : Int) :
    Outcome (List VarnodeData) := do
  let piece1 ← getAt pieces pos1
  let piece2 ← getAt pieces pos2
  let sizeTrunc1 := asI32 ((addr1.offset : Int) - piece1.offset)
  let sizeTrunc2 := asI32 (asI32 piece2.size - asI32 ((addr2.offset : Int) - piece2.offset) - 1)
  if pos2 < pos1 then do
    let newPieces ← slicePieces pieces pos2 pos1
    let newPieces := modifyLast newPieces (fun piece => shrink sizeTrunc1 { piece with offset := addr1.offset })
    pure (modifyHead newPieces (shrink sizeTrunc2))
  else do
    let newPieces ← slicePieces pieces pos1 pos2
    let newPieces := modifyHead newPieces (fun piece => shrink sizeTrunc1 { piece with offset := addr1.offset })
    pure (modifyLast newPieces (shrink sizeTrunc2))

def renormalizeJoinAddress (bigEndian : Int → Bool) (t : JoinTable) (addr : Location) (size : Int) :
    Outcome (Location × JoinTable) := do
  match ← t.findJoinInternal addr.offset with
  | none => .error (.lowlevel "Join address not covered by a JoinRecord")
  | some joinRecord =>
      if addr.offset = joinRecord.unifiedOffset ∧ (size % 2 ^ 32).toNat = joinRecord.unifiedSize then pure (addr, t)
      else do
        let (addr1, pos1) ← joinRecord.getEquivalentAddress bigEndian addr.offset
        let (addr2, pos2) ← joinRecord.getEquivalentAddress bigEndian ((addr.offset + asU64 (size - 1)) % 2 ^ 64)
        if addr2.space.isNone then .error (.lowlevel "Join address range not covered")
        else if pos1 = pos2 then pure (addr1, t)
        else do
          let newPieces ← renormalizedPieces joinRecord.pieces addr1 addr2 pos1 pos2
          let (newJoinRecord, t) ← t.findAddJoin newPieces 0
          pure (⟨newJoinRecord.unifiedSpace, newJoinRecord.unifiedOffset⟩, t)

/-- A call that returns, with total sizes below 2^31; a call that fails leaves the
table as it is. -/
inductive Step (bigEndian : Int → Bool) : JoinTable → JoinTable → Prop
  | add {t t' : JoinTable} {pieces : List VarnodeData} {logicalsize : Nat} {r : JoinRecord}
      (h : t.findAddJoin pieces logicalsize = .ok (r, t')) (hs : r.unifiedSize < 2 ^ 31) : Step bigEndian t t'
  | renormalize {t t' : JoinTable} {addr addr' : Location} {size : Int}
      (h : t.renormalizeJoinAddress bigEndian addr size = .ok (addr', t'))
      (hs : ∀ r ∈ t'.splitlist, r.unifiedSize < 2 ^ 31) : Step bigEndian t t'

def Run (bigEndian : Int → Bool) : JoinTable → JoinTable → Prop := Relation.ReflTransGen (Step bigEndian)

/-- The tables that calls can build. -/
def Reached (bigEndian : Int → Bool) (t : JoinTable) : Prop := ∃ joinSpace, Run bigEndian (new joinSpace) t

def roundSum (l : List JoinRecord) : Nat := (l.map fun r => roundSize r.unifiedSize).sum

/-- The sum of the rounded sizes of all records. -/
def allocated (t : JoinTable) : Nat := roundSum t.splitlist

def keyOf (r : JoinRecord) : Nat × List VarnodeData := (r.unifiedSize, r.pieces)

/-- The map and the list hold the same records, each with an offset behind the records
before it. -/
structure Stored (t : JoinTable) : Prop where
  splitset : t.splitset = t.splitlist.map fun r => (keyOf r, r)
  keys : (t.splitlist.map keyOf).Nodup
  counter : t.joinallocate = t.allocated % 2 ^ 64
  offsets : ∀ pre r post, t.splitlist = pre ++ r :: post → r.unifiedOffset = roundSum pre % 2 ^ 64
  sizes : ∀ r ∈ t.splitlist, 0 < r.unifiedSize ∧ r.unifiedSize < 2 ^ 31

/-- The search computes with `i32` positions, whose sums stay in range up to this many
records. -/
def Small (t : JoinTable) : Prop := t.splitlist.length ≤ 2 ^ 30

variable {bigEndian : Int → Bool} {t t' t₁ t₂ : JoinTable} {pieces : List VarnodeData} {logicalsize total : Nat}
  {r r' : JoinRecord}

@[simp] theorem roundSum_append (l₁ l₂ : List JoinRecord) : roundSum (l₁ ++ l₂) = roundSum l₁ + roundSum l₂ := by
  simp [roundSum]

@[simp] theorem roundSum_cons (r : JoinRecord) (l : List JoinRecord) :
    roundSum (r :: l) = roundSize r.unifiedSize + roundSum l := by
  simp [roundSum]

@[simp] theorem roundSum_nil : roundSum [] = 0 := rfl

theorem le_roundSize {n : Nat} (h : n < 2 ^ 31) : n ≤ roundSize n := by
  simp only [roundSize]
  omega

theorem totalSize_pos (h : totalSize pieces logicalsize = .ok total) : 0 < total := by
  simp only [totalSize] at h
  split_ifs at h with h₁ h₂ h₃ h₄ h₅
  · cases h
    omega
  · cases h
    omega

theorem getSplit_some (h : t.Stored) (hr : t.getSplit (total, pieces) = some r) :
    r ∈ t.splitlist ∧ keyOf r = (total, pieces) := by
  obtain ⟨e, he, rfl⟩ := Option.map_eq_some_iff.mp hr
  have hk : e.1 = (total, pieces) := by simpa using List.find?_some he
  have hmem := List.mem_of_find?_eq_some he
  rw [h.splitset, List.mem_map] at hmem
  obtain ⟨x, hx, rfl⟩ := hmem
  exact ⟨hx, hk⟩

theorem getSplit_none (h : t.Stored) (hr : t.getSplit (total, pieces) = none) :
    (total, pieces) ∉ t.splitlist.map keyOf := by
  rw [getSplit, Option.map_eq_none_iff, List.find?_eq_none] at hr
  rw [List.mem_map]
  rintro ⟨x, hx, hk⟩
  have hmem : (keyOf x, x) ∈ t.splitset := by
    rw [h.splitset]
    exact List.mem_map.mpr ⟨x, hx, rfl⟩
  exact hr _ hmem (by simpa using hk)

/-- What a call of `find_add_join` does: it returns the record with the key, which it
appends when there is none. -/
theorem findAddJoin_cases (h : t.Stored) (hr : t.findAddJoin pieces logicalsize = .ok (r, t')) :
    ∃ total, totalSize pieces logicalsize = .ok total ∧ keyOf r = (total, pieces) ∧
      ((t' = t ∧ r ∈ t.splitlist) ∨
        (keyOf r ∉ t.splitlist.map keyOf ∧ r.unifiedOffset = t.joinallocate ∧
          t'.joinallocate = (t.joinallocate + roundSize total) % 2 ^ 64 ∧
          t'.splitset = t.splitset ++ [(keyOf r, r)] ∧ t'.splitlist = t.splitlist ++ [r])) := by
  rw [findAddJoin, bind_eq_ok] at hr
  obtain ⟨total, htotal, hr⟩ := hr
  refine ⟨total, htotal, ?_⟩
  cases hget : t.getSplit (total, pieces) with
  | some existing =>
      simp only [hget, pure_eq_ok, Except.ok.injEq, Prod.mk.injEq] at hr
      obtain ⟨rfl, rfl⟩ := hr
      obtain ⟨hmem, hkey⟩ := getSplit_some h hget
      exact ⟨hkey, .inl ⟨rfl, hmem⟩⟩
  | none =>
      simp only [hget, pure_eq_ok, Except.ok.injEq, Prod.mk.injEq] at hr
      obtain ⟨rfl, rfl⟩ := hr
      exact ⟨rfl, .inr ⟨getSplit_none h hget, rfl, rfl, rfl, rfl⟩⟩

theorem Stored.findAddJoin (h : t.Stored) (hr : t.findAddJoin pieces logicalsize = .ok (r, t'))
    (hs : r.unifiedSize < 2 ^ 31) : t'.Stored ∧ r ∈ t'.splitlist ∧ t.splitlist <+: t'.splitlist := by
  obtain ⟨total, htotal, hkey, ⟨rfl, hmem⟩ | ⟨hnew, hoff, hcount, hset, hlist⟩⟩ := findAddJoin_cases h hr
  · exact ⟨h, hmem, List.prefix_refl _⟩
  · have hsize : r.unifiedSize = total := congrArg Prod.fst hkey
    refine ⟨⟨?_, ?_, ?_, fun pre x post hsplit => ?_, fun x hx => ?_⟩, by simp [hlist], hlist ▸ List.prefix_append _ _⟩
    · rw [hset, hlist, h.splitset, List.map_append]
      rfl
    · rw [hlist, List.map_append, List.map_singleton]
      exact List.nodup_append.mpr ⟨h.keys, by simp, fun a ha b hb hab => by
        obtain rfl := List.mem_singleton.mp hb
        exact hnew (hab ▸ ha)⟩
    · rw [hcount, h.counter, allocated, allocated, hlist, roundSum_append, roundSum_cons, roundSum_nil, hsize]
      omega
    · -- the new record is the last one
      rw [hlist] at hsplit
      rcases List.append_eq_append_iff.mp hsplit with ⟨mid, hpre, hpost⟩ | ⟨mid, hpre, hpost⟩
      · cases mid with
        | nil =>
            simp only [List.nil_append, List.cons.injEq] at hpost
            rw [hpre, List.append_nil, ← hpost.1, hoff, h.counter]
            rfl
        | cons y mid =>
            have := congrArg List.length hpost
            simp at this
      · cases mid with
        | nil =>
            simp only [List.nil_append, List.cons.injEq] at hpost
            rw [List.append_nil] at hpre
            rw [hpost.1, hoff, h.counter, allocated, hpre]
        | cons y mid =>
            simp only [List.cons_append, List.cons.injEq] at hpost
            exact h.offsets pre x mid (by rw [hpre, hpost.1])
    · rw [hlist, List.mem_append, List.mem_singleton] at hx
      rcases hx with hx | rfl
      · exact h.sizes x hx
      · exact ⟨hsize ▸ totalSize_pos htotal, hs⟩

/-- Renormalizing either leaves the table alone or adds the join of the new pieces. -/
theorem renormalize_cases {addr addr' : Location} {size : Int}
    (hr : t.renormalizeJoinAddress bigEndian addr size = .ok (addr', t')) :
    t' = t ∨ ∃ pieces r, t.findAddJoin pieces 0 = .ok (r, t') := by
  rw [renormalizeJoinAddress, bind_eq_ok] at hr
  obtain ⟨found, -, hr⟩ := hr
  cases found with
  | none => cases hr
  | some joinRecord =>
      simp only at hr
      split at hr
      · cases hr
        exact .inl rfl
      · obtain ⟨⟨addr1, pos1⟩, -, hr⟩ := bind_eq_ok.mp hr
        obtain ⟨⟨addr2, pos2⟩, -, hr⟩ := bind_eq_ok.mp hr
        simp only at hr
        split at hr
        · cases hr
        · split at hr
          · cases hr
            exact .inl rfl
          · obtain ⟨newPieces, -, hr⟩ := bind_eq_ok.mp hr
            obtain ⟨⟨newRecord, t₁⟩, hadd, hr⟩ := bind_eq_ok.mp hr
            cases hr
            exact .inr ⟨newPieces, newRecord, hadd⟩

theorem mem_findAddJoin (h : t.Stored) (hr : t.findAddJoin pieces logicalsize = .ok (r, t')) : r ∈ t'.splitlist := by
  obtain ⟨total, -, -, ⟨rfl, hmem⟩ | ⟨-, -, -, -, hlist⟩⟩ := findAddJoin_cases h hr
  · exact hmem
  · simp [hlist]

theorem Stored.step (h : t.Stored) (hs : Step bigEndian t t') : t'.Stored ∧ t.splitlist <+: t'.splitlist := by
  cases hs with
  | add hadd hs =>
      obtain ⟨h', -, hp⟩ := h.findAddJoin hadd hs
      exact ⟨h', hp⟩
  | renormalize hren hs =>
      rcases renormalize_cases hren with rfl | ⟨pieces, r, hadd⟩
      · exact ⟨h, List.prefix_refl _⟩
      · obtain ⟨h', -, hp⟩ := h.findAddJoin hadd (hs r (mem_findAddJoin h hadd))
        exact ⟨h', hp⟩

theorem Stored.run (h : t.Stored) (hr : Run bigEndian t t') : t'.Stored ∧ t.splitlist <+: t'.splitlist := by
  induction hr with
  | refl => exact ⟨h, List.prefix_refl _⟩
  | tail _ hs ih =>
      obtain ⟨h', hp⟩ := ih.1.step hs
      exact ⟨h', ih.2.trans hp⟩

theorem Stored.new (joinSpace : Option Int) : (JoinTable.new joinSpace).Stored where
  splitset := rfl
  keys := List.nodup_nil
  counter := rfl
  offsets pre r post h := by simp [JoinTable.new] at h
  sizes r hr := by simp [JoinTable.new] at hr

theorem Reached.stored (h : Reached bigEndian t) : t.Stored := by
  obtain ⟨joinSpace, hr⟩ := h
  exact ((Stored.new joinSpace).run hr).1

/-- While the counter does not wrap, records follow each other without overlap. -/
theorem Stored.ordered (h : t.Stored) (hfit : t.allocated < 2 ^ 64) :
    t.splitlist.Pairwise (fun x y => x.unifiedOffset + x.unifiedSize ≤ y.unifiedOffset) ∧
      ∀ x ∈ t.splitlist, x.unifiedOffset + x.unifiedSize < 2 ^ 64 := by
  have hoff : ∀ pre x post, t.splitlist = pre ++ x :: post →
      x.unifiedOffset = roundSum pre ∧ roundSum pre + roundSize x.unifiedSize + roundSum post < 2 ^ 64 := by
    intro pre x post hsplit
    have hsum : roundSum pre + roundSize x.unifiedSize + roundSum post < 2 ^ 64 := by
      rw [allocated, hsplit, roundSum_append, roundSum_cons] at hfit
      omega
    refine ⟨?_, hsum⟩
    rw [h.offsets pre x post hsplit]
    exact Nat.mod_eq_of_lt (by omega)
  have hround : ∀ x ∈ t.splitlist, x.unifiedSize ≤ roundSize x.unifiedSize := fun x hx =>
    le_roundSize (h.sizes x hx).2
  constructor
  · rw [List.pairwise_iff_forall_sublist]
    intro x y hxy
    obtain ⟨l₁, l₂, hsplit, hx, hy⟩ := List.cons_sublist_iff.mp hxy
    obtain ⟨p, q, rfl⟩ := List.append_of_mem hx
    obtain ⟨p', q', rfl⟩ := List.append_of_mem (List.singleton_sublist.mp hy)
    have hx' := (hoff p x (q ++ p' ++ y :: q') (by simp [hsplit])).1
    have hy' := (hoff (p ++ x :: q ++ p') y q' (by simp [hsplit])).1
    have := hround x (by simp [hsplit])
    simp only [roundSum_append, roundSum_cons] at hy'
    omega
  · intro x hx
    obtain ⟨pre, post, hsplit⟩ := List.append_of_mem hx
    obtain ⟨hx₁, hx₂⟩ := hoff pre x post hsplit
    have := hround x hx
    omega

theorem Stored.divided (h : t.Stored) (hfit : t.allocated < 2 ^ 64) (offset : Nat) :
    BinarySearch.Divided (compareInternal offset) t.splitlist ∧
      BinarySearch.Divided (compareStart offset) t.splitlist := by
  obtain ⟨hp, hend⟩ := h.ordered hfit
  constructor
  · refine (List.Pairwise.and_mem.mp hp).imp ?_
    rintro x y ⟨hx, hy, hxy⟩
    have hmx := Nat.mod_eq_of_lt (hend x hx)
    have hmy := Nat.mod_eq_of_lt (hend y hy)
    have := (h.sizes x hx).1
    simp only [compareInternal, hmx, hmy]
    refine ⟨fun hc => ?_, fun hc => ?_⟩
    · have : y.unifiedOffset + y.unifiedSize ≤ offset := by
        by_contra hn
        rw [if_neg hn] at hc
        split at hc <;> cases hc
      rw [if_pos (by omega)]
    · have hn : ¬ x.unifiedOffset + x.unifiedSize ≤ offset := fun hle => by
        rw [if_pos hle] at hc
        cases hc
      have hlt : offset < x.unifiedOffset := by
        by_contra hge
        rw [if_neg hn, if_neg hge] at hc
        cases hc
      rw [if_neg (by omega), if_pos (by omega)]
  · refine (List.Pairwise.and_mem.mp hp).imp ?_
    rintro x y ⟨hx, hy, hxy⟩
    have := (h.sizes x hx).1
    simp only [compareStart]
    refine ⟨fun hc => ?_, fun hc => ?_⟩
    · have hne : ¬ y.unifiedOffset = offset := fun he => by
        rw [if_pos he] at hc
        cases hc
      have hlt : y.unifiedOffset < offset := by
        by_contra hge
        rw [if_neg hne, if_neg hge] at hc
        cases hc
      rw [if_neg (by omega), if_pos (by omega)]
    · have hne : ¬ x.unifiedOffset = offset := fun he => by
        rw [if_pos he] at hc
        cases hc
      have hge : ¬ x.unifiedOffset < offset := fun hlt => by
        rw [if_neg hne, if_pos hlt] at hc
        cases hc
      rw [if_neg (by omega), if_neg (by omega)]

theorem compareInternal_eq {offset : Nat} (h : r.unifiedOffset + r.unifiedSize < 2 ^ 64) :
    compareInternal offset r = .eq ↔ r.unifiedOffset ≤ offset ∧ offset < r.unifiedOffset + r.unifiedSize := by
  rw [compareInternal, Nat.mod_eq_of_lt h]
  split_ifs <;> simp <;> omega

theorem compareStart_eq {offset : Nat} : compareStart offset r = .eq ↔ r.unifiedOffset = offset := by
  rw [compareStart]
  split_ifs with h₁ h₂ <;> simp [h₁]

/-- Two different records have ranges apart. -/
theorem Stored.apart (h : t.Stored) (hfit : t.allocated < 2 ^ 64) (hr : r ∈ t.splitlist) (hr' : r' ∈ t.splitlist)
    (hne : r ≠ r') :
    r.unifiedOffset + r.unifiedSize ≤ r'.unifiedOffset ∨ r'.unifiedOffset + r'.unifiedSize ≤ r.unifiedOffset := by
  have hp := (h.ordered hfit).1
  obtain ⟨i, hi, rfl⟩ := List.mem_iff_getElem.mp hr
  obtain ⟨j, hj, rfl⟩ := List.mem_iff_getElem.mp hr'
  rw [List.pairwise_iff_getElem] at hp
  rcases Nat.lt_trichotomy i j with hij | rfl | hij
  · exact .inl (hp i j hi hj hij)
  · exact absurd rfl hne
  · exact .inr (hp j i hj hi hij)

theorem roundSum_le {l : List JoinRecord} (h : ∀ r ∈ l, r.unifiedSize < 2 ^ 31) : roundSum l ≤ l.length * 2 ^ 31 := by
  induction l with
  | nil => simp
  | cons r l ih =>
      have hr := h r (List.mem_cons_self ..)
      have hl := ih fun x hx => h x (List.mem_cons_of_mem _ hx)
      have hround : roundSize r.unifiedSize ≤ 2 ^ 31 := by
        simp only [roundSize]
        omega
      rw [roundSum_cons, List.length_cons]
      omega

/-- The counter of a small table has not wrapped. -/
theorem Stored.allocated_lt (h : t.Stored) (hs : t.Small) : t.allocated < 2 ^ 64 := by
  have hle := roundSum_le fun r hr => (h.sizes r hr).2
  have hlen : t.splitlist.length ≤ 2 ^ 30 := hs
  rw [allocated]
  omega

theorem Small.fits (hs : t.Small) : BinarySearch.Fits asI32 t.splitlist := by
  have hlen : t.splitlist.length ≤ 2 ^ 30 := hs
  constructor
  · simp only [asI32, Int.bmod_def]
    omega
  · intro x _ _
    simp only [asI32, Int.bmod_def]
    omega

theorem Stored.findJoinInternal (h : t.Stored) (hs : t.Small) (offset : Nat) :
    ∃ found, t.findJoinInternal offset = .ok found ∧ ∀ r, found = some r ↔
      r ∈ t.splitlist ∧ r.unifiedOffset ≤ offset ∧ offset < r.unifiedOffset + r.unifiedSize := by
  have hfit := h.allocated_lt hs
  obtain ⟨found, hfound, hsome, hnone⟩ := BinarySearch.search_spec hs.fits (h.divided hfit offset).1
  have hend := (h.ordered hfit).2
  refine ⟨found, hfound, fun r => ⟨fun hr => ?_, fun ⟨hr, ho⟩ => ?_⟩⟩
  · obtain ⟨hmem, heq⟩ := hsome r hr
    exact ⟨hmem, (compareInternal_eq (hend r hmem)).mp heq⟩
  · cases hc : found with
    | none => exact absurd ((compareInternal_eq (hend r hr)).mpr ho) (hnone hc r hr)
    | some x =>
        obtain ⟨hmem, heq⟩ := hsome x hc
        have hx := (compareInternal_eq (hend x hmem)).mp heq
        by_contra hne
        have := h.apart hfit hmem hr (fun he => hne (congrArg some he))
        omega

theorem Stored.findJoin (h : t.Stored) (hs : t.Small) (offset : Nat) :
    t.findJoin offset = .ok r ↔ r ∈ t.splitlist ∧ r.unifiedOffset = offset := by
  have hfit := h.allocated_lt hs
  obtain ⟨found, hfound, hsome, hnone⟩ := BinarySearch.search_spec hs.fits (h.divided hfit offset).2
  rw [JoinTable.findJoin, hfound]
  cases found with
  | none =>
      have hno := hnone rfl
      constructor
      · intro hc
        cases hc
      · rintro ⟨hmem, ho⟩
        exact absurd (compareStart_eq.mpr ho) (hno r hmem)
  | some x =>
      obtain ⟨hmem, heq⟩ := hsome x rfl
      rw [compareStart_eq] at heq
      constructor
      · intro hc
        cases hc
        exact ⟨hmem, heq⟩
      · rintro ⟨hr, ho⟩
        by_contra hne
        have hd : x ≠ r := fun he => hne (congrArg Except.ok he)
        have := (h.sizes x hmem).1
        have := (h.sizes r hr).1
        have := h.apart hfit hmem hr hd
        omega

/-- Records are told apart by their keys. -/
theorem Stored.eq_of_keyOf (h : t.Stored) (hr : r ∈ t.splitlist) (hr' : r' ∈ t.splitlist)
    (hk : keyOf r = keyOf r') : r = r' :=
  List.inj_on_of_nodup_map h.keys hr hr' hk

/-- The records are in order and apart, and the two searches find them by their offsets
and by their ranges. -/
structure Lookup (t : JoinTable) : Prop where
  sorted : t.splitlist.Pairwise fun x y => x.unifiedOffset < y.unifiedOffset
  disjoint : t.splitlist.Pairwise fun x y => ∀ offset,
    ¬ ((x.unifiedOffset ≤ offset ∧ offset < x.unifiedOffset + x.unifiedSize) ∧
      y.unifiedOffset ≤ offset ∧ offset < y.unifiedOffset + y.unifiedSize)
  findJoin : ∀ offset,
    (∃ r, t.findJoin offset = .ok r) ↔ ∃ r ∈ t.splitlist, r.unifiedOffset = offset
  findJoin_offset : ∀ offset r, t.findJoin offset = .ok r → r ∈ t.splitlist ∧ r.unifiedOffset = offset
  findJoinInternal : ∀ offset, ∃ found, t.findJoinInternal offset = .ok found ∧ ∀ r, found = some r ↔
    r ∈ t.splitlist ∧ r.unifiedOffset ≤ offset ∧ offset < r.unifiedOffset + r.unifiedSize

theorem Stored.lookup (h : t.Stored) (hs : t.Small) : t.Lookup := by
  obtain ⟨hp, -⟩ := h.ordered (h.allocated_lt hs)
  refine ⟨?_, ?_, fun offset => ?_, fun offset r hr => (h.findJoin hs offset).mp hr, h.findJoinInternal hs⟩
  · refine (List.Pairwise.and_mem.mp hp).imp ?_
    rintro x y ⟨hx, -, hxy⟩
    have := (h.sizes x hx).1
    omega
  · refine hp.imp ?_
    rintro x y hxy offset ⟨hx, hy⟩
    omega
  · constructor
    · rintro ⟨r, hr⟩
      exact ⟨r, (h.findJoin hs offset).mp hr⟩
    · rintro ⟨r, hr⟩
      exact ⟨r, (h.findJoin hs offset).mpr hr⟩

/-- In a table of at most 2^30 records joins are interned: two calls return one record
for one key and records at different offsets for different keys, and the searches find
exactly the records. -/
theorem reached_interning {t : JoinTable} (h : Reached bigEndian t) (hs : t.Small) :
    t.Lookup ∧ ∀ (t₀ t₁ t₂ : JoinTable) (pieces pieces' : List VarnodeData) (logicalsize logicalsize' : Nat)
      (r r' : JoinRecord), Reached bigEndian t₀ → t₀.findAddJoin pieces logicalsize = .ok (r, t₁) →
      r.unifiedSize < 2 ^ 31 → Run bigEndian t₁ t₂ → t₂.findAddJoin pieces' logicalsize' = .ok (r', t) →
      (pieces = pieces' ∧ totalSize pieces logicalsize = totalSize pieces' logicalsize' → r = r') ∧
      (¬ (pieces = pieces' ∧ totalSize pieces logicalsize = totalSize pieces' logicalsize') →
        r.unifiedOffset ≠ r'.unifiedOffset) := by
  have hst := h.stored
  refine ⟨hst.lookup hs, ?_⟩
  intro t₀ t₁ t₂ pieces pieces' logicalsize logicalsize' r r' h₀ hadd hsize hrun hadd'
  obtain ⟨h₁, hmem, -⟩ := h₀.stored.findAddJoin hadd hsize
  obtain ⟨h₂, hpre⟩ := h₁.run hrun
  have hmem' := mem_findAddJoin h₂ hadd'
  obtain ⟨total, htotal, hkey, -⟩ := findAddJoin_cases h₀.stored hadd
  obtain ⟨total', htotal', hkey', hcases⟩ := findAddJoin_cases h₂ hadd'
  have hr : r ∈ t.splitlist := by
    have hmem₂ := hpre.subset hmem
    rcases hcases with ⟨rfl, -⟩ | ⟨-, -, -, -, hlist⟩
    · exact hmem₂
    · rw [hlist]
      exact List.mem_append_left _ hmem₂
  rw [htotal, htotal']
  constructor
  · rintro ⟨rfl, htot⟩
    cases htot
    exact hst.eq_of_keyOf hr hmem' (hkey.trans hkey'.symm)
  · intro hne hoff
    have heq : r = r' := by
      by_contra hd
      have := hst.apart (hst.allocated_lt hs) hr hmem' hd
      have := (hst.sizes r hr).1
      have := (hst.sizes r' hmem').1
      omega
    rw [heq, hkey', Prod.mk.injEq] at hkey
    exact hne ⟨hkey.2.symm, by rw [hkey.1]⟩

theorem reached_interning_two :
    let piece (k : Nat) : VarnodeData := ⟨some 0, k, 8⟩
    ∃ t₁ t r r', (new (some 1)).findAddJoin [piece 0] 8 = .ok (r, t₁) ∧
      t₁.findAddJoin [piece 0, piece 8] 0 = .ok (r', t) ∧ t.Lookup ∧ r.unifiedOffset ≠ r'.unifiedOffset := by
  intro piece
  let r₁ : JoinRecord := ⟨[piece 0], some 1, 0, 8⟩
  let r₂ : JoinRecord := ⟨[piece 0, piece 8], some 1, 16, 16⟩
  let t₁ : JoinTable := ⟨16, [((8, [piece 0]), r₁)], [r₁], some 1⟩
  let t₂ : JoinTable := ⟨32, [((8, [piece 0]), r₁), ((16, [piece 0, piece 8]), r₂)], [r₁, r₂], some 1⟩
  have hadd₁ : (new (some 1)).findAddJoin [piece 0] 8 = .ok (r₁, t₁) := by decide
  have hadd₂ : t₁.findAddJoin [piece 0, piece 8] 0 = .ok (r₂, t₂) := by decide
  have h₀ : Reached (fun _ => false) (new (some 1)) := ⟨some 1, .refl⟩
  have h₂ : Reached (fun _ => false) t₂ := ⟨some 1, (Relation.ReflTransGen.single (.add hadd₁ (by decide))).tail
    (.add hadd₂ (by decide))⟩
  obtain ⟨hlook, hcalls⟩ := reached_interning h₂ (show [r₁, r₂].length ≤ 2 ^ 30 by decide)
  refine ⟨t₁, t₂, r₁, r₂, hadd₁, hadd₂, hlook, ?_⟩
  exact (hcalls _ t₁ t₁ _ _ _ _ r₁ r₂ h₀ hadd₁ (by decide) .refl hadd₂).2 (by decide)

/-- The record of the join of one piece at an offset. -/
def filledRecord (k : Nat) : JoinRecord := ⟨[⟨some 0, k, 8⟩], none, 16 * k, 8⟩

/-- The table after the joins of one piece at the offsets below a number. -/
def filled (n : Nat) : JoinTable where
  joinallocate := 16 * n
  splitset := (List.range n).map fun k => (keyOf (filledRecord k), filledRecord k)
  splitlist := (List.range n).map filledRecord
  joinSpace := none

theorem filled_succ {n : Nat} (hn : n < 2 ^ 32) :
    (filled n).findAddJoin [⟨some 0, n, 8⟩] 8 = .ok (filledRecord n, filled (n + 1)) := by
  have htotal : totalSize [⟨some 0, n, 8⟩] 8 = .ok 8 := rfl
  have hget : (filled n).getSplit (8, [⟨some 0, n, 8⟩]) = none := by
    rw [getSplit, Option.map_eq_none_iff, List.find?_eq_none]
    intro entry hentry
    obtain ⟨k, hk, rfl⟩ := List.mem_map.mp hentry
    have hne : k ≠ n := by
      have := List.mem_range.mp hk
      omega
    simpa [keyOf, filledRecord] using hne
  have hcount : (16 * n + roundSize 8) % 2 ^ 64 = 16 * (n + 1) := by
    have : roundSize 8 = 16 := rfl
    omega
  rw [JoinTable.findAddJoin, htotal, ok_bind]
  simp only [hget]
  rw [show (filled n).joinallocate = 16 * n from rfl, hcount]
  simp [filled, filledRecord, keyOf, List.range_succ]

theorem reached_filled {n : Nat} (hn : n ≤ 2 ^ 32) : Reached (fun _ => false) (filled n) := by
  refine ⟨none, ?_⟩
  induction n with
  | zero => exact .refl
  | succ n ih => exact (ih (by omega)).tail (.add (filled_succ (by omega)) (show 8 < 2 ^ 31 by decide))

theorem filled_getElem? {n k : Nat} (hk : k < n) : (filled n).splitlist[k]? = some (filledRecord k) := by
  simp only [filled]
  rw [List.getElem?_map, List.getElem?_range hk]
  rfl

/-- The middle of two `i32` positions is never the last of 2^30 + 1 positions: the sum
of the bounds overflows when they meet there. -/
theorem middle_lt {n : Nat} (hn : n = 2 ^ 30) {min : Int} (h₀ : 0 ≤ min) (h₁ : min ≤ n) :
    (asI32 (min + n)).tdiv 2 < n := by
  rcases Int.lt_or_le min n with hlt | hge
  · have hsum : asI32 (min + n) = min + n := by
      simp only [asI32, Int.bmod_def]
      omega
    rw [hsum, Int.tdiv_eq_ediv_of_nonneg (by omega)]
    omega
  · obtain rfl : min = n := by omega
    subst hn
    decide

/-- A search for the last of 2^30 + 1 records only goes to higher positions. -/
theorem filled_halve {n : Nat} (hn : n = 2 ^ 30) {min : Int} (h₀ : 0 ≤ min)
    {pass : Pass (Int × Int) (Option JoinRecord)}
    (h : BinarySearch.halve asI32 (compareStart (16 * n)) (filled (n + 1)).splitlist (min, n) = .ok pass) :
    (∃ min', 0 ≤ min' ∧ pass = .again (min', n)) ∨ pass = .leave none := by
  rw [BinarySearch.halve] at h
  split at h
  · rename_i hle
    have hmid := middle_lt hn h₀ hle
    simp only at h
    generalize (asI32 (min + n)).tdiv 2 = mid at h hmid
    obtain ⟨y, hy, h⟩ := bind_eq_ok.mp h
    rw [getAt] at hy
    split at hy
    · cases hy
    · rw [getIdx_ok_iff, filled_getElem? (by omega)] at hy
      cases hy
      have hne : ¬ (filledRecord mid.toNat).unifiedOffset = 16 * n := by
        simp only [filledRecord]
        omega
      have hlt : (filledRecord mid.toNat).unifiedOffset < 16 * n := by
        simp only [filledRecord]
        omega
      have hcmp : compareStart (16 * n) (filledRecord mid.toNat) = .lt := by
        rw [compareStart, if_neg hne, if_pos hlt]
      rw [hcmp] at h
      cases h
      exact .inl ⟨mid + 1, by omega, rfl⟩
  · cases h
    exact .inr rfl

theorem filled_findJoin {n : Nat} (hn : n = 2 ^ 30) : (filled (n + 1)).findJoin (16 * n) ≠ .ok r := by
  intro h
  have hinit : asI32 (((filled (n + 1)).splitlist.length : Int) - 1) = n := by
    have hlen : (filled (n + 1)).splitlist.length = n + 1 := by simp [filled]
    simp only [hlen, asI32, Int.bmod_def]
    omega
  rw [JoinTable.findJoin, bind_eq_ok] at h
  obtain ⟨found, hfound, h⟩ := h
  cases found with
  | none => cases h
  | some x =>
      obtain ⟨⟨min, max⟩, ⟨hmax, h₀⟩, hleave⟩ :=
        BinarySearch.search_some hfound (fun st => st.2 = n ∧ 0 ≤ st.1) ⟨hinit, Int.le_refl _⟩ (by
          rintro ⟨min, max⟩ st' ⟨hmax, h₀⟩ hagain
          simp only at hmax h₀
          subst hmax
          rcases filled_halve hn h₀ hagain with ⟨min', h', hst⟩ | hst <;> cases hst
          exact ⟨rfl, h'⟩)
      simp only at hmax h₀
      subst hmax
      rcases filled_halve hn h₀ hleave with ⟨min', -, hst⟩ | hst <;> cases hst

theorem filled_last_unfound : Reached (fun _ => false) (filled (2 ^ 30 + 1)) ∧
    (∃ r ∈ (filled (2 ^ 30 + 1)).splitlist, r.unifiedOffset = 2 ^ 34) ∧
    ¬ ∃ r, (filled (2 ^ 30 + 1)).findJoin (2 ^ 34) = .ok r := by
  generalize hn : 2 ^ 30 = n
  have hoff : 2 ^ 34 = 16 * n := by omega
  rw [hoff]
  refine ⟨reached_filled (by omega), ⟨filledRecord n, ?_, rfl⟩, ?_⟩
  · exact List.mem_map.mpr ⟨n, List.mem_range.mpr (by omega), rfl⟩
  · rintro ⟨r, hr⟩
    exact filled_findJoin hn.symm hr

end JoinTable

end GhidraDecompiler.Translate
