import Mathlib.Data.List.Perm.Basic
import Mathlib.Order.Defs.Unbundled
import GhidraDecompiler.Lib.Fallible

namespace GhidraDecompiler.StdSort

open Fallible

variable {α : Type}

def sortThreshold : Nat := 16

/-- Positions are unsigned: their difference panics below zero. -/
def minus (a b : Nat) : Outcome Nat := if b ≤ a then .ok (a - b) else .error .panic

/-- The entries from `first` to `last` are turned by one to the right. -/
def rotateRight (slice : List α) (first last : Nat) : Outcome (List α) :=
  if first ≤ last then do
    let value ← getIdx slice last
    pure (slice.take first ++ value :: ((slice.drop first).take (last - first) ++ slice.drop (last + 1)))
  else .error .panic

section Definitions

variable (less : α → α → Bool)

/-- The larger child is moved up into the hole, as long as there are two. The position of the
second child is the one of the hole again at the end of a pass. -/
def siftDown (first len : Nat) : List α × Nat → Outcome (Pass (List α × Nat) (List α × Nat))
  | (slice, hole) =>
      if hole < (len - 1) / 2 then do
        let right ← getIdx slice (first + 2 * (hole + 1))
        let left ← getIdx slice (first + (2 * (hole + 1) - 1))
        let child := if less right left then 2 * (hole + 1) - 1 else 2 * (hole + 1)
        let slice ← setIdx slice (first + hole) (← getIdx slice (first + child))
        pure (.again (slice, child))
      else pure (.leave (slice, hole))

/-- The parents that are less than the value are moved down. -/
def pushUp (first top : Nat) (value : α) : List α × Nat → Outcome (Pass (List α × Nat) (List α × Nat))
  | (slice, hole) =>
      if top < hole then do
        let above ← getIdx slice (first + (hole - 1) / 2)
        if less above value then
          let slice ← setIdx slice (first + hole) above
          pure (.again (slice, (hole - 1) / 2))
        else pure (.leave (slice, hole))
      else pure (.leave (slice, hole))

/-- With an even length the last parent has one child only. -/
def lastChild (first len : Nat) : List α × Nat → Outcome (List α × Nat)
  | (slice, hole) =>
      if 2 * (hole + 1) = len then do
        let slice ← setIdx slice (first + hole) (← getIdx slice (first + (2 * (hole + 1) - 1)))
        pure (slice, 2 * (hole + 1) - 1)
      else pure (slice, hole)

def adjustHeap (slice : List α) (first hole len : Nat) (value : α) : Outcome (List α) := do
  let s ← loop (siftDown less first len) (len + 1) (slice, hole)
  let s ← lastChild first len s
  let s ← loop (pushUp less first hole value) (s.2 + 1) s
  setIdx s.1 (first + s.2) value

/-- The parents from the last one down to the root. -/
def makeHeap (first len : Nat) : Nat → List α → Outcome (List α)
  | 0, slice => .ok slice
  | parent + 1, slice => do
      let value ← getIdx slice (first + parent)
      let slice ← adjustHeap less slice first parent len value
      makeHeap first len parent slice

/-- The root goes to the end of the heap, which gets shorter by one. -/
def popHeap (first : Nat) : Nat → List α → Outcome (List α)
  | n + 2, slice => do
      let value ← getIdx slice (first + (n + 1))
      let slice ← setIdx slice (first + (n + 1)) (← getIdx slice first)
      let slice ← adjustHeap less slice first 0 (n + 1) value
      popHeap first (n + 1) slice
  | _, slice => .ok slice

def heapSortRange (slice : List α) (first last : Nat) : Outcome (List α) := do
  let len ← minus last first
  let slice ← (if 2 ≤ len then makeHeap less first len ((len - 2) / 2 + 1) slice else pure slice)
  popHeap less first len slice

def scanUp (slice : List α) (pivot first : Nat) : Outcome Nat :=
  loop (fun first => do
    if less (← getIdx slice first) (← getIdx slice pivot) then pure (.again (first + 1)) else pure (.leave first))
    (slice.length + 1) first

def scanDown (slice : List α) (pivot last : Nat) : Outcome Nat :=
  loop (fun last => do
    if less (← getIdx slice pivot) (← getIdx slice last) then pure (.again (← minus last 1)) else pure (.leave last))
    (last + 1) last

def partitionPass (pivot : Nat) : List α × Nat × Nat → Outcome (Pass (List α × Nat × Nat) (List α × Nat))
  | (slice, first, last) => do
      let first ← scanUp less slice pivot first
      let last ← minus last 1
      let last ← scanDown less slice pivot last
      if last ≤ first then pure (.leave (slice, first))
      else
        let slice ← swapIdx slice first last
        pure (.again (slice, first + 1, last))

def unguardedPartition (slice : List α) (first last pivot : Nat) : Outcome (List α × Nat) :=
  loop (partitionPass less pivot) (last + 1) (slice, first, last)

def moveMedianToFirst (slice : List α) (result firstPos midPos lastPos : Nat) : Outcome (List α) := do
  let a ← getIdx slice firstPos
  let b ← getIdx slice midPos
  let c ← getIdx slice lastPos
  if less a b then
    if less b c then swapIdx slice result midPos
    else if less a c then swapIdx slice result lastPos
    else swapIdx slice result firstPos
  else if less a c then swapIdx slice result firstPos
  else if less b c then swapIdx slice result lastPos
  else swapIdx slice result midPos

def unguardedPartitionPivot (slice : List α) (first last : Nat) : Outcome (List α × Nat) := do
  let slice ← moveMedianToFirst less slice first (first + 1) (first + (last - first) / 2) (last - 1)
  unguardedPartition less slice (first + 1) last first

def introsortLoop : Nat → List α → Nat → Nat → Outcome (List α)
  | depthLimit, slice, first, last => do
      let len ← minus last first
      if sortThreshold < len then
        match depthLimit with
        | 0 => heapSortRange less slice first last
        | depthLimit + 1 =>
            let (slice, cut) ← unguardedPartitionPivot less slice first last
            let slice ← introsortLoop depthLimit slice cut last
            introsortLoop depthLimit slice first cut
      else pure slice

def unguardedLinearInsert (slice : List α) (last lowerBound : Nat) : Outcome (List α) := do
  let value ← getIdx slice last
  let hole ← loop (fun hole => do
    if lowerBound < hole then
      if less value (← getIdx slice (hole - 1)) then pure (.again (hole - 1)) else pure (.leave hole)
    else pure (.leave hole)) (last + 1) last
  rotateRight slice hole last

def insertOne (first : Nat) (slice : List α) (position : Nat) : Outcome (List α) := do
  if less (← getIdx slice position) (← getIdx slice first) then rotateRight slice first position
  else unguardedLinearInsert less slice position first

def insertionSort (slice : List α) (first last : Nat) : Outcome (List α) :=
  if first = last then .ok slice
  else (List.range' (first + 1) (last - (first + 1))).foldlM (insertOne less first) slice

def finalInsertionSort (slice : List α) (first last : Nat) : Outcome (List α) := do
  let len ← minus last first
  if sortThreshold < len then
    let slice ← insertionSort less slice first (first + sortThreshold)
    (List.range' (first + sortThreshold) (last - (first + sortThreshold))).foldlM
      (fun slice position => unguardedLinearInsert less slice position first) slice
  else insertionSort less slice first last

def stdSort (slice : List α) : Outcome (List α) :=
  if slice.length = 0 then .ok slice
  else do
    let sorted ← introsortLoop less (2 * Nat.log2 slice.length) slice 0 slice.length
    finalInsertionSort less sorted 0 slice.length

def stdPartialSortFull (slice : List α) : Outcome (List α) := heapSortRange less slice 0 slice.length

end Definitions

section Positions

variable {slice slice' base : List α} {i j k n : Nat} {x : α}

theorem minus_eq {a b : Nat} (h : b ≤ a) : minus a b = .ok (a - b) := if_pos h

theorem exists_getElem? (slice : List α) {i : Nat} (h : i < slice.length) : ∃ x, slice[i]? = some x :=
  ⟨_, List.getElem?_eq_getElem h⟩

/-- Moving an entry into the hole and the hole to its place. -/
theorem set_move_perm (hij : i ≠ j) (hi : i < slice.length) (hx : slice[j]? = some x) (value : α) :
    ((slice.set i x).set j value).Perm (slice.set i value) := by
  obtain ⟨hj, rfl⟩ := List.getElem?_eq_some_iff.mp hx
  have hswap := List.set_set_perm (show i < (slice.set i value).length by simpa using hi)
    (show j < (slice.set i value).length by simpa using hj)
  rwa [List.getElem_set_self, List.getElem_set_ne hij, List.set_set] at hswap

/-- A rearrangement within a segment brings its entries from there. -/
theorem perm_segment {lo hi : Nat} (hp : slice'.Perm slice) (hbefore : ∀ j < lo, slice'[j]? = slice[j]?)
    (hafter : ∀ j, hi ≤ j → slice'[j]? = slice[j]?) (hlo : lo ≤ i) (hhi : i < hi) (hx : slice'[i]? = some x) :
    ∃ k, lo ≤ k ∧ k < hi ∧ slice[k]? = some x := by
  have htake : slice'.take lo = slice.take lo := by
    refine List.ext_getElem? fun j => ?_
    rw [List.getElem?_take, List.getElem?_take]
    split
    · exact hbefore j ‹_›
    · rfl
  have hdrop : slice'.drop hi = slice.drop hi := by
    refine List.ext_getElem? fun j => ?_
    rw [List.getElem?_drop, List.getElem?_drop, hafter _ (Nat.le_add_right _ _)]
  have hcut : ∀ l : List α, l = l.take lo ++ ((l.drop lo).take (hi - lo) ++ l.drop hi) := by
    intro l
    have hrest : (l.drop lo).drop (hi - lo) = l.drop hi := by
      rw [List.drop_drop]
      congr 1
      omega
    rw [← hrest, List.take_append_drop, List.take_append_drop]
  rw [hcut slice', hcut slice, htake, hdrop, List.perm_append_left_iff, List.perm_append_right_iff] at hp
  have hmem : x ∈ (slice'.drop lo).take (hi - lo) := by
    refine List.mem_of_getElem? (i := i - lo) ?_
    rw [List.getElem?_take_of_lt (by omega), List.getElem?_drop, Nat.add_sub_cancel' hlo, hx]
  obtain ⟨k, hk⟩ := List.mem_iff_getElem?.mp (hp.mem_iff.mp hmem)
  rw [List.getElem?_take] at hk
  split at hk
  · exact ⟨lo + k, by omega, by omega, by rwa [List.getElem?_drop] at hk⟩
  · cases hk

end Positions

section Heaps

variable {less : α → α → Bool} {slice slice' base : List α} {first len top hole child i j k n : Nat} {x y value : α}

/-- The entry at the first position is not less than the one at the second. -/
def NotLess (less : α → α → Bool) (slice : List α) (i j : Nat) : Prop :=
  ∀ x y, slice[i]? = some x → slice[j]? = some y → less x y = false

theorem NotLess.set_of_ne (h : NotLess less slice i j) (hi : k ≠ i) (hj : k ≠ j) : NotLess less (slice.set k x) i j := by
  intro a b ha hb
  rw [List.getElem?_set_ne hi] at ha
  rw [List.getElem?_set_ne hj] at hb
  exact h a b ha hb

/-- The positions of the heap below one of them, with itself. -/
inductive Under (top : Nat) : Nat → Prop
  | refl : Under top top
  | step {k : Nat} (h : Under top ((k - 1) / 2)) (hk : 0 < k) : Under top k

theorem Under.le (h : Under top k) : top ≤ k := by
  induction h with
  | refl => exact Nat.le_refl _
  | step _ hk ih => omega

theorem Under.parent (h : Under top k) (hne : k ≠ top) : Under top ((k - 1) / 2) := by
  cases h with
  | refl => exact absurd rfl hne
  | step h _ => exact h

/-- From some position on no parent is less than its child. -/
def HeapFrom (less : α → α → Bool) (slice : List α) (first len top : Nat) : Prop :=
  ∀ k, 0 < k → k < len → top ≤ (k - 1) / 2 → NotLess less slice (first + (k - 1) / 2) (first + k)

/-- The entries of a heap where one is missing. -/
structure Sifted (base : List α) (first len top : Nat) (value : α) (slice : List α) (hole : Nat) : Prop where
  perm : (slice.set (first + hole) value).Perm base
  length : slice.length = base.length
  before : ∀ j < first, slice[j]? = base[j]?
  after : ∀ j, first + len ≤ j → slice[j]? = base[j]?
  under : Under top hole
  lt : hole < len

/-- The order of a heap where one is missing: around the hole, its parent and its children are
in order. -/
structure Open (less : α → α → Bool) (slice : List α) (first len top hole : Nat) : Prop where
  heap : ∀ k, 0 < k → k < len → top ≤ (k - 1) / 2 → k ≠ hole → (k - 1) / 2 ≠ hole →
    NotLess less slice (first + (k - 1) / 2) (first + k)
  bridge : ∀ k, 0 < k → k < len → (k - 1) / 2 = hole → hole ≠ top → NotLess less slice (first + (hole - 1) / 2) (first + k)

theorem Sifted.move (h : Sifted base first len top value slice hole) (hlen : first + len ≤ base.length)
    (hunder : Under top child)
    (hlt : child < len) (hne : child ≠ hole) (hx : slice[first + child]? = some x) :
    Sifted base first len top value (slice.set (first + hole) x) child where
  perm := (set_move_perm (by omega) (by have := h.lt; have := h.length; omega) hx value).trans h.perm
  length := by rw [List.length_set, h.length]
  before j hj := by rw [List.getElem?_set_ne (by omega), h.before j hj]
  after j hj := by rw [List.getElem?_set_ne (by have := h.lt; omega), h.after j hj]
  under := hunder
  lt := hlt

/-- The hole goes down to a child that is less than no other child. -/
theorem Open.down (h : Open less slice first len top hole) (hunder : Under top hole) (hk : 0 < child) (hc : child < len)
    (hparent : (child - 1) / 2 = hole) (hx : slice[first + child]? = some x)
    (hbest : ∀ k, 0 < k → k < len → (k - 1) / 2 = hole → NotLess less slice (first + child) (first + k)) :
    Open less (slice.set (first + hole) x) first len top child := by
  have htop := hunder.le
  have hself : ∀ z, (slice.set (first + hole) x)[first + hole]? = some z → slice[first + child]? = some z := by
    intro z hz
    rw [List.getElem?_set] at hz
    split at hz
    · split at hz
      · rw [hx, hz]
      · cases hz
    · exact absurd rfl ‹_›
  constructor
  · intro k hk hlt htk hkc hpc
    by_cases hkh : k = hole
    · subst hkh
      intro a b ha hb
      rw [List.getElem?_set_ne (by omega)] at ha
      exact h.bridge child (by omega) hc hparent (by omega) a b ha (hself b hb)
    · by_cases hph : (k - 1) / 2 = hole
      · rw [hph]
        intro a b ha hb
        rw [List.getElem?_set_ne (by omega)] at hb
        exact hbest k hk hlt hph a b (hself a ha) hb
      · exact (h.heap k hk hlt htk hkh hph).set_of_ne (by omega) (by omega)
  · intro k hk hlt hpk _
    rw [hparent]
    intro a b ha hb
    rw [List.getElem?_set_ne (by omega)] at hb
    have hpair := h.heap k hk hlt (by omega) (by omega) (by omega)
    rw [hpk] at hpair
    exact hpair a b (hself a ha) hb

variable [order : IsStrictWeakOrder α fun x y => less x y = true]

theorem less_self (x : α) : less x x = false := Bool.eq_false_iff.mpr (order.irrefl x)

theorem less_asymm (h : less x y = true) : less y x = false :=
  Bool.eq_false_iff.mpr fun h' => order.irrefl x (order.trans x y x h h')

theorem notLess_trans {z : α} (h : less x y = false) (h' : less y z = false) : less x z = false := by
  refine Bool.eq_false_iff.mpr fun hxz => ?_
  by_cases hyx : less y x = true
  · exact Bool.eq_false_iff.mp h' (order.trans y x z hyx hxz)
  · by_cases hzy : less z y = true
    · exact Bool.eq_false_iff.mp h (order.trans x z y hxz hzy)
    · exact (order.incomp_trans x y z ⟨Bool.eq_false_iff.mp h, hyx⟩ ⟨Bool.eq_false_iff.mp h', hzy⟩).1 hxz

theorem NotLess.trans (h : NotLess less slice i j) (h' : NotLess less slice j k) (hj : slice[j]? = some y) :
    NotLess less slice i k := fun a b ha hb => notLess_trans (h a y ha hj) (h' y b hj hb)

/-- The value goes up to its place, and no parent in the rest of the heap is less than a child. -/
theorem Open.up (h : Open less slice first len top hole) (hs : Sifted base first len top value slice hole) (htop : top < hole)
    (hx : slice[first + (hole - 1) / 2]? = some x) (hless : less x value = true)
    (hchildren : ∀ k, 0 < k → k < len → (k - 1) / 2 = hole → ∀ y, slice[first + k]? = some y → less value y = false) :
    Open less (slice.set (first + hole) x) first len top ((hole - 1) / 2) ∧
      ∀ k, 0 < k → k < len → (k - 1) / 2 = (hole - 1) / 2 → ∀ y, (slice.set (first + hole) x)[first + k]? = some y →
        less value y = false := by
  have hunder := (hs.under.parent (by omega)).le
  have hself : ∀ z, (slice.set (first + hole) x)[first + hole]? = some z → z = x := by
    intro z hz
    rw [List.getElem?_set] at hz
    split at hz
    · split at hz
      · exact (Option.some.inj hz).symm
      · cases hz
    · exact absurd rfl ‹_›
  -- the parent is not less than the other children
  have hsibling : ∀ k, 0 < k → k < len → (k - 1) / 2 = (hole - 1) / 2 → k ≠ hole →
      NotLess less slice (first + (hole - 1) / 2) (first + k) := by
    intro k hk hlt hp hne
    have hpair := h.heap k hk hlt (by omega) hne (by omega)
    rwa [hp] at hpair
  refine ⟨⟨?_, ?_⟩, ?_⟩
  · intro k hk hlt htk hkp hpp
    by_cases hkh : (k - 1) / 2 = hole
    · rw [hkh]
      intro a b ha hb
      rw [hself a ha]
      rw [List.getElem?_set_ne (by omega)] at hb
      exact h.bridge k hk hlt hkh (by omega) x b hx hb
    · have hne : k ≠ hole := fun heq => hpp (by rw [heq])
      exact (h.heap k hk hlt htk hne hkh).set_of_ne (by omega) (by omega)
  · intro k hk hlt hp hpne
    have habove : NotLess less slice (first + ((hole - 1) / 2 - 1) / 2) (first + (hole - 1) / 2) :=
      h.heap _ (by omega) (by have := hs.lt; omega) ((hs.under.parent (by omega)).parent hpne).le (by omega) (by omega)
    intro a b ha hb
    rw [List.getElem?_set_ne (by omega)] at ha
    by_cases hkh : k = hole
    · subst hkh
      rw [hself b hb]
      exact habove a x ha hx
    · rw [List.getElem?_set_ne (by omega)] at hb
      exact notLess_trans (habove a x ha hx) (hsibling k hk hlt hp hkh x b hx hb)
  · intro k hk hlt hp b hb
    by_cases hkh : k = hole
    · subst hkh
      rw [hself b hb]
      exact less_asymm hless
    · rw [List.getElem?_set_ne (by omega)] at hb
      exact notLess_trans (less_asymm hless) (hsibling k hk hlt hp hkh x b hx hb)

theorem siftDown_spec (hlen : first + len ≤ base.length) (hs : Sifted base first len top value slice hole)
    (ho : Open less slice first len top hole) :
    ∃ s, loop (siftDown less first len) (len + 1) (slice, hole) = .ok s ∧ (Sifted base first len top value s.1 s.2 ∧
      Open less s.1 first len top s.2 ∧ len ≤ 2 * (s.2 + 1)) := by
  refine loop_total (fun s => Sifted base first len top value s.1 s.2 ∧ Open less s.1 first len top s.2) _ (fun s => len - s.2)
    (fun s hi => ?_) ⟨hs, ho⟩ (show len - hole < len + 1 by omega)
  obtain ⟨slice, hole⟩ := s
  obtain ⟨hs, ho⟩ := hi
  dsimp only at hs ho ⊢
  have hbound := hs.length
  by_cases hhole : hole < (len - 1) / 2
  · right
    obtain ⟨right, hright⟩ := exists_getElem? slice (show first + 2 * (hole + 1) < slice.length by omega)
    obtain ⟨left, hleft⟩ := exists_getElem? slice (show first + (2 * (hole + 1) - 1) < slice.length by omega)
    obtain ⟨child, hchild⟩ : ∃ c, (if less right left then 2 * (hole + 1) - 1 else 2 * (hole + 1)) = c := ⟨_, rfl⟩
    have hcases : child = 2 * (hole + 1) - 1 ∧ less right left = true ∨ child = 2 * (hole + 1) ∧ less right left = false := by
      rw [← hchild]
      cases less right left with
      | true => exact .inl ⟨if_pos rfl, rfl⟩
      | false => exact .inr ⟨if_neg (by decide), rfl⟩
    obtain ⟨x, hx⟩ := exists_getElem? slice (show first + child < slice.length by omega)
    have hbest : ∀ k, 0 < k → k < len → (k - 1) / 2 = hole → NotLess less slice (first + child) (first + k) := by
      intro k hk hlt hp a b ha hb
      rcases hcases with ⟨rfl, hless⟩ | ⟨rfl, hless⟩
      · obtain rfl : a = left := Option.some.inj (ha.symm.trans hleft)
        obtain rfl | rfl : k = 2 * (hole + 1) - 1 ∨ k = 2 * (hole + 1) := by omega
        · rw [Option.some.inj (hb.symm.trans ha)]
          exact less_self a
        · rw [Option.some.inj (hb.symm.trans hright)]
          exact less_asymm hless
      · obtain rfl : a = right := Option.some.inj (ha.symm.trans hright)
        obtain rfl | rfl : k = 2 * (hole + 1) - 1 ∨ k = 2 * (hole + 1) := by omega
        · rw [Option.some.inj (hb.symm.trans hleft)]
          exact hless
        · rw [Option.some.inj (hb.symm.trans ha)]
          exact less_self a
    have hunder : Under top child := .step (by rw [show (child - 1) / 2 = hole by omega]; exact hs.under) (by omega)
    refine ⟨(slice.set (first + hole) x, child), ?_, ⟨hs.move hlen hunder (by omega) (by omega) hx,
      ho.down hs.under (by omega) (by omega) (by omega) hx hbest⟩, by omega⟩
    rw [siftDown, if_pos hhole, getIdx_eq hright, ok_bind, getIdx_eq hleft, ok_bind]
    simp only [hchild]
    rw [getIdx_eq hx, ok_bind, setIdx_eq x (by omega), ok_bind]
    rfl
  · exact .inl ⟨(slice, hole), by rw [siftDown, if_neg hhole]; rfl, hs, ho, by omega⟩

theorem lastChild_spec (hlen : first + len ≤ base.length) (hs : Sifted base first len top value slice hole)
    (ho : Open less slice first len top hole) (hend : len ≤ 2 * (hole + 1)) :
    ∃ s, lastChild first len (slice, hole) = .ok s ∧ Sifted base first len top value s.1 s.2 ∧
      Open less s.1 first len top s.2 ∧ len ≤ 2 * s.2 + 1 := by
  have hbound := hs.length
  by_cases heven : 2 * (hole + 1) = len
  · have hlast : 2 * (hole + 1) - 1 < len := by omega
    obtain ⟨x, hx⟩ := exists_getElem? slice (show first + (2 * (hole + 1) - 1) < slice.length by omega)
    have hunder : Under top (2 * (hole + 1) - 1) :=
      .step (by rw [show (2 * (hole + 1) - 1 - 1) / 2 = hole by omega]; exact hs.under) (by omega)
    have hbest : ∀ k, 0 < k → k < len → (k - 1) / 2 = hole →
        NotLess less slice (first + (2 * (hole + 1) - 1)) (first + k) := by
      intro k hk hlt hp a b ha hb
      obtain rfl : k = 2 * (hole + 1) - 1 := by omega
      rw [Option.some.inj (hb.symm.trans ha)]
      exact less_self a
    refine ⟨(slice.set (first + hole) x, 2 * (hole + 1) - 1), ?_, hs.move hlen hunder hlast (by omega) hx,
      ho.down hs.under (by omega) hlast (by omega) hx hbest, by dsimp only; omega⟩
    rw [lastChild, if_pos heven, getIdx_eq hx, ok_bind, setIdx_eq x (by have := hs.lt; omega), ok_bind]
    rfl
  · exact ⟨(slice, hole), by rw [lastChild, if_neg heven]; rfl, hs, ho, by dsimp only; omega⟩

theorem pushUp_spec (hlen : first + len ≤ base.length) (hs : Sifted base first len top value slice hole)
    (ho : Open less slice first len top hole) (hleaf : len ≤ 2 * hole + 1) :
    ∃ s, loop (pushUp less first top value) (hole + 1) (slice, hole) = .ok s ∧ (Sifted base first len top value s.1 s.2 ∧
      HeapFrom less (s.1.set (first + s.2) value) first len top) := by
  refine loop_total (fun s => Sifted base first len top value s.1 s.2 ∧ Open less s.1 first len top s.2 ∧
    ∀ k, 0 < k → k < len → (k - 1) / 2 = s.2 → ∀ y, s.1[first + k]? = some y → less value y = false) _ (fun s => s.2)
    (fun s hi => ?_) ⟨hs, ho, fun k hk hlt hp => by dsimp only at hp; omega⟩ (Nat.lt_succ_self _)
  obtain ⟨slice, hole⟩ := s
  obtain ⟨hs, ho, hchildren⟩ := hi
  dsimp only at hs ho hchildren ⊢
  have hbound := hs.length
  have hlt := hs.lt
  -- the value is in order with the parent of the hole, and stays there
  have hplace : (hole ≠ top → ∀ x, slice[first + (hole - 1) / 2]? = some x → less x value = false) →
      HeapFrom less (slice.set (first + hole) value) first len top := by
    intro hparent k hk hklt htk
    by_cases hkh : k = hole
    · subst hkh
      intro a b ha hb
      rw [List.getElem?_set_ne (by omega)] at ha
      rw [List.getElem?_set_self (by omega)] at hb
      rw [← Option.some.inj hb]
      exact hparent (by omega) a ha
    · by_cases hph : (k - 1) / 2 = hole
      · rw [hph]
        intro a b ha hb
        rw [List.getElem?_set_self (by omega)] at ha
        rw [List.getElem?_set_ne (by omega)] at hb
        rw [← Option.some.inj ha]
        exact hchildren k hk hklt hph b hb
      · exact (ho.heap k hk hklt htk hkh hph).set_of_ne (by omega) (by omega)
  by_cases htop : top < hole
  · obtain ⟨x, hx⟩ := exists_getElem? slice (show first + (hole - 1) / 2 < slice.length by omega)
    cases hless : less x value with
    | true =>
        obtain ⟨hopen, hbelow⟩ := ho.up hs htop hx hless hchildren
        refine .inr ⟨(slice.set (first + hole) x, (hole - 1) / 2), ?_,
          ⟨hs.move hlen (hs.under.parent (by omega)) (by omega) (by omega) hx, hopen, hbelow⟩, by omega⟩
        rw [pushUp, if_pos htop, getIdx_eq hx, ok_bind, hless, if_pos rfl, setIdx_eq x (by omega), ok_bind]
        rfl
    | false =>
        refine .inl ⟨(slice, hole), ?_, hs, hplace fun _ y hy => ?_⟩
        · rw [pushUp, if_pos htop, getIdx_eq hx, ok_bind, hless, if_neg (by decide)]
          rfl
        · rw [Option.some.inj (hy.symm.trans hx)]
          exact hless
  · refine .inl ⟨(slice, hole), by rw [pushUp, if_neg htop]; rfl, hs, hplace fun hne => ?_⟩
    have := hs.under.le
    omega

/-- What a step of the heap sort leaves: the entries of a segment in another order. -/
structure Segment (slice base : List α) (lo hi : Nat) : Prop where
  perm : slice.Perm base
  before : ∀ j < lo, slice[j]? = base[j]?
  after : ∀ j, hi ≤ j → slice[j]? = base[j]?

theorem Segment.rfl' {lo hi : Nat} : Segment slice slice lo hi := ⟨.refl _, fun _ _ => rfl, fun _ _ => rfl⟩

theorem Segment.trans {lo hi : Nat} (h : Segment slice slice' lo hi) (h' : Segment slice' base lo hi) :
    Segment slice base lo hi :=
  ⟨h.perm.trans h'.perm, fun j hj => (h.before j hj).trans (h'.before j hj), fun j hj => (h.after j hj).trans (h'.after j hj)⟩

theorem Segment.widen {lo hi hi' : Nat} (h : Segment slice base lo hi) (hle : hi ≤ hi') : Segment slice base lo hi' :=
  ⟨h.perm, h.before, fun j hj => h.after j (Nat.le_trans hle hj)⟩

/-- A value is put into a heap at a position below which there is one already. -/
theorem adjustHeap_spec (hlen : first + len ≤ slice.length) (hhole : hole < len)
    (hheap : HeapFrom less slice first len (hole + 1)) (value : α) :
    ∃ slice', adjustHeap less slice first hole len value = .ok slice' ∧
      Segment slice' (slice.set (first + hole) value) first (first + len) ∧ HeapFrom less slice' first len hole := by
  have hbase : first + len ≤ (slice.set (first + hole) value).length := by rwa [List.length_set]
  have hs : Sifted (slice.set (first + hole) value) first len hole value slice hole :=
    ⟨.refl _, List.length_set.symm, fun j hj => (List.getElem?_set_ne (by omega)).symm,
      fun j hj => (List.getElem?_set_ne (by omega)).symm, .refl, hhole⟩
  have ho : Open less slice first len hole hole :=
    ⟨fun k hk hlt htk _ hp => hheap k hk hlt (by omega), fun _ _ _ _ hne => absurd rfl hne⟩
  obtain ⟨s₁, hdown, hs₁, ho₁, hend₁⟩ := siftDown_spec hbase hs ho
  obtain ⟨s₂, hlast, hs₂, ho₂, hend₂⟩ := lastChild_spec hbase hs₁ ho₁ hend₁
  obtain ⟨s₃, hup, hs₃, hdone⟩ := pushUp_spec hbase hs₂ ho₂ hend₂
  have hbound := hs₃.length
  have hlt := hs₃.lt
  refine ⟨s₃.1.set (first + s₃.2) value, ?_, ⟨hs₃.perm, fun j hj => ?_, fun j hj => ?_⟩, hdone⟩
  · rw [adjustHeap, hdown, ok_bind, hlast, ok_bind, hup, ok_bind, setIdx_eq value (by omega)]
  · rw [List.getElem?_set_ne (by omega), hs₃.before j hj]
  · rw [List.getElem?_set_ne (by omega), hs₃.after j hj]

theorem makeHeap_spec (hlen : first + len ≤ slice.length) (hn : n ≤ len) (hheap : HeapFrom less slice first len n) :
    ∃ slice', makeHeap less first len n slice = .ok slice' ∧ Segment slice' slice first (first + len) ∧
      HeapFrom less slice' first len 0 := by
  induction n generalizing slice with
  | zero => exact ⟨slice, rfl, .rfl', hheap⟩
  | succ parent ih =>
      obtain ⟨value, hvalue⟩ := exists_getElem? slice (show first + parent < slice.length by omega)
      obtain ⟨slice₁, hadjust, hseg, hheap₁⟩ := adjustHeap_spec hlen (by omega) hheap value
      obtain ⟨hlt, rfl⟩ := List.getElem?_eq_some_iff.mp hvalue
      rw [List.set_getElem_self] at hseg
      obtain ⟨slice₂, hrest, hseg₂, hheap₂⟩ := ih (by rw [hseg.perm.length_eq]; exact hlen) (by omega) hheap₁
      exact ⟨slice₂, by rw [makeHeap, getIdx_eq hvalue, ok_bind, hadjust, ok_bind, hrest], hseg₂.trans hseg, hheap₂⟩

/-- The root of a heap is less than no entry. -/
theorem HeapFrom.root (h : HeapFrom less slice first len 0) (hlen : first + len ≤ slice.length) (hk : k < len) :
    NotLess less slice first (first + k) := by
  induction k using Nat.strongRecOn with
  | ind k ih =>
      by_cases hzero : k = 0
      · subst hzero
        intro a b ha hb
        rw [Option.some.inj (hb.symm.trans ha)]
        exact less_self a
      · obtain ⟨y, hy⟩ := exists_getElem? slice (show first + (k - 1) / 2 < slice.length by omega)
        exact (ih _ (by omega) (by omega)).trans (h k (by omega) hk (Nat.zero_le _)) hy

/-- The heap is a segment, and what follows it is sorted and not less than the heap. -/
def Popped (less : α → α → Bool) (slice : List α) (first len n : Nat) : Prop :=
  ∀ i j, first ≤ i → i < j → first + n ≤ j → j < first + len → NotLess less slice j i

theorem popHeap_spec (hlen : first + len ≤ slice.length) (hn : n ≤ len) (hheap : HeapFrom less slice first n 0)
    (hpop : Popped less slice first len n) :
    ∃ slice', popHeap less first n slice = .ok slice' ∧ Segment slice' slice first (first + len) ∧
      Popped less slice' first len 1 := by
  induction n using Nat.strongRecOn generalizing slice with
  | ind n ih =>
      match n with
      | 0 => exact ⟨slice, rfl, .rfl', fun i j hi hij hj hlt => hpop i j hi hij (by omega) hlt⟩
      | 1 => exact ⟨slice, rfl, .rfl', hpop⟩
      | n + 2 =>
          obtain ⟨value, hvalue⟩ := exists_getElem? slice (show first + (n + 1) < slice.length by omega)
          obtain ⟨root, hroot⟩ := exists_getElem? slice (show first < slice.length by omega)
          have hlen₁ : first + (n + 1) ≤ (slice.set (first + (n + 1)) root).length := by
            rw [List.length_set]
            omega
          have hheap₁ : HeapFrom less (slice.set (first + (n + 1)) root) first (n + 1) (0 + 1) := fun k hk hlt htk =>
            (hheap k hk (by omega) (Nat.zero_le _)).set_of_ne (by omega) (by omega)
          obtain ⟨slice₁, hadjust, hseg, hheap₂⟩ := adjustHeap_spec hlen₁ (Nat.succ_pos _) hheap₁ value
          rw [Nat.add_zero] at hseg
          -- the value and the root have changed places
          have hswap : ((slice.set (first + (n + 1)) root).set first value).Perm slice := by
            have hmove := set_move_perm (i := first + (n + 1)) (j := first) (by omega) (by omega) hroot value
            obtain ⟨hlt, rfl⟩ := List.getElem?_eq_some_iff.mp hvalue
            rwa [List.set_getElem_self] at hmove
          have hend : slice₁[first + (n + 1)]? = some root := by
            rw [hseg.after _ (Nat.le_refl _), List.getElem?_set_ne (by omega), List.getElem?_set_self (by omega)]
          have hseg₁ : Segment slice₁ slice first (first + (n + 2)) := by
            refine ⟨hseg.perm.trans hswap, fun j hj => ?_, fun j hj => ?_⟩
            · rw [hseg.before j hj, List.getElem?_set_ne (by omega), List.getElem?_set_ne (by omega)]
            · rw [hseg.after j (by omega), List.getElem?_set_ne (by omega), List.getElem?_set_ne (by omega)]
          have hpop₁ : Popped less slice₁ first len (n + 1) := by
            intro i j hi hij hj hlt
            obtain rfl | hj : j = first + (n + 1) ∨ first + (n + 2) ≤ j := by omega
            · intro a b ha hb
              obtain rfl := Option.some.inj (ha.symm.trans hend)
              obtain ⟨k, hlo, hhi, hk⟩ := perm_segment hseg₁.perm hseg₁.before hseg₁.after hi (by omega) hb
              obtain ⟨d, rfl⟩ := Nat.exists_eq_add_of_le hlo
              exact hheap.root (by omega) (by omega) a b hroot hk
            · intro a b ha hb
              rw [hseg₁.after j hj] at ha
              by_cases hin : i < first + (n + 2)
              · obtain ⟨k, hlo, hhi, hk⟩ := perm_segment hseg₁.perm hseg₁.before hseg₁.after hi hin hb
                exact hpop k j hlo (by omega) hj hlt a b ha hk
              · rw [hseg₁.after i (by omega)] at hb
                exact hpop i j hi hij hj hlt a b ha hb
          obtain ⟨slice₂, hrest, hseg₂, hdone⟩ := ih (n + 1) (by omega) (by rw [hseg₁.perm.length_eq]; exact hlen) (by omega)
            hheap₂ hpop₁
          refine ⟨slice₂, ?_, hseg₂.trans (hseg₁.widen (by omega)), hdone⟩
          rw [popHeap, getIdx_eq hvalue, ok_bind, getIdx_eq hroot, ok_bind, setIdx_eq root (by omega), ok_bind, hadjust,
            ok_bind, hrest]

theorem heapSortRange_spec (less : α → α → Bool) [IsStrictWeakOrder α fun x y => less x y = true] {last : Nat}
    (hle : first ≤ last) (hlast : last ≤ slice.length) :
    ∃ slice', heapSortRange less slice first last = .ok slice' ∧ Segment slice' slice first last ∧
      Popped less slice' first (last - first) 1 := by
  have hlen : first + (last - first) ≤ slice.length := by omega
  have hmake : ∃ slice₁, (if 2 ≤ last - first then makeHeap less first (last - first) ((last - first - 2) / 2 + 1) slice
      else pure slice) = .ok slice₁ ∧ Segment slice₁ slice first (first + (last - first)) ∧
      HeapFrom less slice₁ first (last - first) 0 := by
    split
    · exact makeHeap_spec hlen (by omega) fun k hk hlt htk => by omega
    · exact ⟨slice, rfl, .rfl', fun k hk hlt htk => by omega⟩
  obtain ⟨slice₁, hmade, hseg₁, hheap⟩ := hmake
  obtain ⟨slice₂, hpopped, hseg₂, hdone⟩ := popHeap_spec (by rw [hseg₁.perm.length_eq]; exact hlen) (Nat.le_refl _) hheap
    fun i j hi hij hj hlt => by omega
  have hseg := hseg₂.trans hseg₁
  rw [Nat.add_sub_cancel' hle] at hseg
  exact ⟨slice₂, by rw [heapSortRange, minus_eq hle, ok_bind, hmade, ok_bind, hpopped], hseg, hdone⟩

end Heaps

section Partition

variable {less : α → α → Bool} {slice base : List α} {first last pivot i j : Nat} {p x y : α}

/-- The scan stops at the latest at an entry that is not less than the pivot. -/
theorem scanUp_spec (slice : List α) (hp : slice[pivot]? = some p) (hfirst : first ≤ i) (hx : slice[i]? = some x)
    (hstop : less x p = false) :
    ∃ k, scanUp less slice pivot first = .ok k ∧ (first ≤ k ∧ k ≤ i ∧ ∃ y, slice[k]? = some y ∧ less y p = false) := by
  have hi := (List.getElem?_eq_some_iff.mp hx).1
  refine loop_total (fun k => first ≤ k ∧ k ≤ i) _ (fun k => i - k) (fun k hk => ?_) ⟨Nat.le_refl _, hfirst⟩
    (show i - first < slice.length + 1 by omega)
  obtain ⟨y, hy⟩ := exists_getElem? slice (show k < slice.length by omega)
  rw [getIdx_eq hy, ok_bind, getIdx_eq hp, ok_bind]
  cases hless : less y p with
  | true =>
      have hne : k ≠ i := by
        rintro rfl
        rw [Option.some.inj (hx.symm.trans hy), hless] at hstop
        cases hstop
      exact .inr ⟨k + 1, rfl, ⟨by omega, by omega⟩, by omega⟩
  | false => exact .inl ⟨k, rfl, hk.1, hk.2, y, hy, hless⟩

theorem scanDown_spec (slice : List α) (last : Nat) (hp : slice[pivot]? = some p) (hlast : j ≤ last)
    (hbound : last < slice.length) (hy : slice[j]? = some y)
    (hstop : less p y = false) :
    ∃ k, scanDown less slice pivot last = .ok k ∧ (j ≤ k ∧ k ≤ last ∧ ∃ x, slice[k]? = some x ∧ less p x = false) := by
  refine loop_total (fun k => j ≤ k ∧ k ≤ last) _ (fun k => k) (fun k hk => ?_) ⟨hlast, Nat.le_refl _⟩ (Nat.lt_succ_self _)
  obtain ⟨x, hx⟩ := exists_getElem? slice (show k < slice.length by omega)
  rw [getIdx_eq hp, ok_bind, getIdx_eq hx, ok_bind]
  cases hless : less p x with
  | true =>
      have hne : k ≠ j := by
        rintro rfl
        rw [Option.some.inj (hy.symm.trans hx), hless] at hstop
        cases hstop
      refine .inr ⟨k - 1, ?_, ⟨by omega, by omega⟩, by omega⟩
      rw [if_pos rfl, minus_eq (by omega), ok_bind]
      rfl
  | false => exact .inl ⟨k, rfl, hk.1, hk.2, x, hx, hless⟩

/-- The pivot keeps its place, and on either side there is an entry that stops the scan. -/
structure Partitioned (less : α → α → Bool) (base : List α) (pivot : Nat) (p : α) (lo hi : Nat) (s : List α × Nat × Nat) :
    Prop where
  perm : s.1.Perm base
  pivot_eq : s.1[pivot]? = some p
  lo_le : lo ≤ s.2.1
  le_hi : s.2.2 ≤ hi
  above : ∃ i x, s.2.1 ≤ i ∧ i < hi ∧ s.1[i]? = some x ∧ less x p = false
  below : ∃ j y, lo ≤ j ∧ j < s.2.2 ∧ s.1[j]? = some y ∧ less p y = false

theorem swapIdx_spec (hx : slice[i]? = some x) (hy : slice[j]? = some y) :
    ∃ slice', swapIdx slice i j = .ok slice' ∧ slice'.Perm slice ∧ slice'[j]? = some x ∧ slice'[i]? = some y ∧
      ∀ k, k ≠ i → k ≠ j → slice'[k]? = slice[k]? := by
  obtain ⟨hi, hxi⟩ := List.getElem?_eq_some_iff.mp hx
  obtain ⟨hj, hyj⟩ := List.getElem?_eq_some_iff.mp hy
  refine ⟨(slice.set i y).set j x, ?_, ?_, List.getElem?_set_self (by simpa using hj), ?_, fun k hki hkj => ?_⟩
  · rw [swapIdx, getIdx_eq hx, ok_bind, getIdx_eq hy, ok_bind]
    rfl
  · rw [← hxi, ← hyj]
    exact List.set_set_perm hi hj
  · by_cases hij : j = i
    · subst hij
      rw [List.getElem?_set_self (by simpa using hj), ← hx, hy]
    · rw [List.getElem?_set_ne hij, List.getElem?_set_self hi]
  · rw [List.getElem?_set_ne (Ne.symm hkj), List.getElem?_set_ne (Ne.symm hki)]

theorem unguardedPartition_spec {lo hi : Nat} (hpivot : pivot < lo) (hhi : hi ≤ slice.length)
    (hinit : Partitioned less slice pivot p lo hi (slice, lo, hi)) :
    ∃ r, unguardedPartition less slice lo hi pivot = .ok r ∧ (r.1.Perm slice ∧ lo ≤ r.2 ∧ r.2 ≤ hi) := by
  refine loop_total (Partitioned less slice pivot p lo hi) _ (fun s => s.2.2) (fun s hs => ?_) hinit (Nat.lt_succ_self _)
  obtain ⟨now, first, last⟩ := s
  obtain ⟨i, x, hfirst, hi', hx, hxp⟩ := hs.above
  obtain ⟨j, y, hlo, hj, hy, hpy⟩ := hs.below
  have hlen := hs.perm.length_eq
  have hle := hs.le_hi
  have hlole := hs.lo_le
  dsimp only at hfirst hx hj hy hlen hle hlole
  obtain ⟨up, hup, hup₁, hup₂, u, hu, hup⟩ := scanUp_spec now hs.pivot_eq hfirst hx hxp
  obtain ⟨down, hdown, hdown₁, hdown₂, d, hd, hpd⟩ := scanDown_spec now (last - 1) hs.pivot_eq (by omega)
    (by omega) hy hpy
  rw [partitionPass, ‹scanUp less now pivot first = .ok up›, ok_bind, minus_eq (by omega), ok_bind, hdown, ok_bind]
  by_cases hmeet : down ≤ up
  · exact .inl ⟨(now, up), by rw [if_pos hmeet]; rfl, hs.perm, by dsimp only; omega, by dsimp only; omega⟩
  · obtain ⟨next, hswap, hperm, hnext₁, hnext₂, hrest⟩ := swapIdx_spec hu hd
    refine .inr ⟨(next, up + 1, down), ?_, ⟨hperm.trans hs.perm, ?_, ?_, ?_, ?_, ?_⟩, by dsimp only; omega⟩
    · rw [if_neg hmeet, hswap, ok_bind]
      rfl
    · exact (hrest pivot (by omega) (by omega)).trans hs.pivot_eq
    · dsimp only
      omega
    · dsimp only
      omega
    · exact ⟨down, u, by dsimp only; omega, by omega, hnext₁, hup⟩
    · exact ⟨up, d, by omega, by dsimp only; omega, hnext₂, hpd⟩

variable [order : IsStrictWeakOrder α fun x y => less x y = true]

/-- The median of three entries goes to the front, so that one of the other two is not less and
one not greater. -/
theorem moveMedianToFirst_spec (less : α → α → Bool) [IsStrictWeakOrder α fun x y => less x y = true] {result a b c : Nat}
    (hr : result < a) (hab : a < b) (hbc : b < c) (hc : c < slice.length) :
    ∃ slice' p, moveMedianToFirst less slice result a b c = .ok slice' ∧ slice'.Perm slice ∧ slice'[result]? = some p ∧
      (∃ i x, a ≤ i ∧ i ≤ c ∧ slice'[i]? = some x ∧ less x p = false) ∧
      ∃ j y, a ≤ j ∧ j ≤ c ∧ slice'[j]? = some y ∧ less p y = false := by
  obtain ⟨r, hr'⟩ := exists_getElem? slice (show result < slice.length by omega)
  obtain ⟨x, hx⟩ := exists_getElem? slice (show a < slice.length by omega)
  obtain ⟨y, hy⟩ := exists_getElem? slice (show b < slice.length by omega)
  obtain ⟨z, hz⟩ := exists_getElem? slice hc
  -- the entry at `m` is the median, with `lo` on one side and `hi` on the other
  have hswap : ∀ (lo hi : Nat) {m : Nat} {med low high : α}, a ≤ lo → lo ≤ c → a ≤ hi → hi ≤ c → lo ≠ m → hi ≠ m → a ≤ m →
      slice[m]? = some med → slice[lo]? = some low → slice[hi]? = some high → less med low = false → less high med = false →
      ∃ slice' p, swapIdx slice result m = .ok slice' ∧ slice'.Perm slice ∧ slice'[result]? = some p ∧
        (∃ i x, a ≤ i ∧ i ≤ c ∧ slice'[i]? = some x ∧ less x p = false) ∧
        ∃ j y, a ≤ j ∧ j ≤ c ∧ slice'[j]? = some y ∧ less p y = false := by
    intro lo hi m med low high h₁ h₂ h₃ h₄ hlo hhi hm hmed hlow hhigh hml hhm
    obtain ⟨slice', hok, hperm, -, hres, hrest⟩ := swapIdx_spec hr' hmed
    exact ⟨slice', med, hok, hperm, hres, ⟨hi, high, h₃, h₄, (hrest hi (by omega) hhi).trans hhigh, hhm⟩,
      ⟨lo, low, h₁, h₂, (hrest lo (by omega) hlo).trans hlow, hml⟩⟩
  rw [moveMedianToFirst, getIdx_eq hx, ok_bind, getIdx_eq hy, ok_bind, getIdx_eq hz, ok_bind]
  cases hxy : less x y with
  | true =>
      rw [if_pos rfl]
      cases hyz : less y z with
      | true =>
          rw [if_pos rfl]
          exact hswap a c (by omega) (by omega) (by omega) (by omega) (by omega) (by omega) (by omega) hy hx hz
            (less_asymm hxy) (less_asymm hyz)
      | false =>
          rw [if_neg (by decide)]
          cases hxz : less x z with
          | true =>
              rw [if_pos rfl]
              exact hswap a b (by omega) (by omega) (by omega) (by omega) (by omega) (by omega) (by omega) hz hx hy
                (less_asymm hxz) hyz
          | false =>
              rw [if_neg (by decide)]
              exact hswap c b (by omega) (by omega) (by omega) (by omega) (by omega) (by omega) (by omega) hx hz hy
                hxz (less_asymm hxy)
  | false =>
      rw [if_neg (by decide)]
      cases hxz : less x z with
      | true =>
          rw [if_pos rfl]
          exact hswap b c (by omega) (by omega) (by omega) (by omega) (by omega) (by omega) (by omega) hx hy hz
            hxy (less_asymm hxz)
      | false =>
          rw [if_neg (by decide)]
          cases hyz : less y z with
          | true =>
              rw [if_pos rfl]
              exact hswap b a (by omega) (by omega) (by omega) (by omega) (by omega) (by omega) (by omega) hz hy hx
                (less_asymm hyz) hxz
          | false =>
              rw [if_neg (by decide)]
              exact hswap c a (by omega) (by omega) (by omega) (by omega) (by omega) (by omega) (by omega) hy hz hx
                hyz hxy

theorem unguardedPartitionPivot_spec (less : α → α → Bool) [IsStrictWeakOrder α fun x y => less x y = true]
    (hlong : sortThreshold < last - first) (hlast : last ≤ slice.length) :
    ∃ r, unguardedPartitionPivot less slice first last = .ok r ∧ r.1.Perm slice ∧ first ≤ r.2 ∧ r.2 ≤ last := by
  rw [sortThreshold] at hlong
  obtain ⟨moved, p, hmove, hperm, hp, ⟨i, x, hi₁, hi₂, hx, hxp⟩, j, y, hj₁, hj₂, hy, hpy⟩ :=
    moveMedianToFirst_spec less (show first < first + 1 by omega) (show first + 1 < first + (last - first) / 2 by omega)
      (show first + (last - first) / 2 < last - 1 by omega) (show last - 1 < slice.length by omega)
  obtain ⟨r, hr, hrperm, hlo, hhi⟩ := unguardedPartition_spec (show first < first + 1 by omega)
    (show last ≤ moved.length by rw [hperm.length_eq]; exact hlast)
    ⟨.refl _, hp, Nat.le_refl _, Nat.le_refl _, ⟨i, x, hi₁, by omega, hx, hxp⟩, ⟨j, y, hj₁, by dsimp only; omega, hy, hpy⟩⟩
  exact ⟨r, by rw [unguardedPartitionPivot, hmove, ok_bind, hr], hrperm.trans hperm, by omega, hhi⟩

/-- Whatever the limit of the depth is, the entries are only rearranged. -/
theorem introsortLoop_spec (less : α → α → Bool) [IsStrictWeakOrder α fun x y => less x y = true] (depthLimit : Nat)
    (hfirst : first ≤ last) (hlast : last ≤ slice.length) :
    ∃ slice', introsortLoop less depthLimit slice first last = .ok slice' ∧ slice'.Perm slice := by
  induction depthLimit generalizing slice first last with
  | zero =>
      rw [introsortLoop, minus_eq hfirst, ok_bind]
      split
      · obtain ⟨slice', hok, hseg, -⟩ := heapSortRange_spec less hfirst hlast
        exact ⟨slice', hok, hseg.perm⟩
      · exact ⟨slice, rfl, .refl _⟩
  | succ depthLimit ih =>
      rw [introsortLoop, minus_eq hfirst, ok_bind]
      split
      · obtain ⟨⟨slice₁, cut⟩, hpart, hperm₁, hlo, hhi⟩ := unguardedPartitionPivot_spec less ‹_› hlast
        dsimp only at hperm₁ hlo hhi
        obtain ⟨slice₂, hright, hperm₂⟩ := ih hhi (by rw [hperm₁.length_eq]; exact hlast)
        obtain ⟨slice₃, hleft, hperm₃⟩ := ih hlo (by
          rw [hperm₂.length_eq, hperm₁.length_eq]
          exact Nat.le_trans hhi hlast)
        refine ⟨slice₃, ?_, hperm₃.trans (hperm₂.trans hperm₁)⟩
        rw [hpart, ok_bind]
        dsimp only
        rw [hright, ok_bind, hleft]
      · exact ⟨slice, rfl, .refl _⟩

end Partition

section Insertion

variable {less : α → α → Bool} {slice pre rest : List α} {x y : α}

/-- The entries up to a position, in front of the rest, are sorted. -/
abbrev Sorted (less : α → α → Bool) (l : List α) : Prop := l.Pairwise fun x y => less y x = false

theorem rotateRight_eq (A B C : List α) (x : α) :
    rotateRight (A ++ B ++ x :: C) A.length (A.length + B.length) = .ok (A ++ x :: B ++ C) := by
  have hx : (A ++ B ++ x :: C)[A.length + B.length]? = some x := by
    rw [← List.length_append, List.getElem?_append_right (Nat.le_refl _), Nat.sub_self, List.getElem?_cons_zero]
  have hdrop : (A ++ B ++ x :: C).drop (A.length + B.length + 1) = C := by
    rw [← List.length_append, ← List.drop_drop, List.drop_left, List.drop_succ_cons, List.drop_zero]
  rw [rotateRight, if_pos (Nat.le_add_right _ _), getIdx_eq hx, ok_bind, pure_eq_ok, hdrop, List.append_assoc A B,
    List.take_left, List.drop_left, Nat.add_sub_cancel_left, List.take_left, List.append_assoc, List.cons_append]

/-- A pass over positions that inserts each entry into the sorted ones in front of it. -/
theorem insertAll_spec {f : List α → Nat → Outcome (List α)}
    (hf : ∀ {pre : List α} (x : α) (rest : List α), Sorted less pre → pre ≠ [] →
      ∃ pre', f (pre ++ x :: rest) pre.length = .ok (pre' ++ rest) ∧ Sorted less pre' ∧ pre'.Perm (pre ++ [x]))
    (seg rest : List α) (hsorted : Sorted less pre) (hpre : pre ≠ []) :
    ∃ pre', (List.range' pre.length seg.length).foldlM f (pre ++ (seg ++ rest)) = .ok (pre' ++ rest) ∧ Sorted less pre' ∧
      pre'.Perm (pre ++ seg) := by
  induction seg generalizing pre with
  | nil => exact ⟨pre, rfl, hsorted, by rw [List.append_nil]⟩
  | cons x seg ih =>
      obtain ⟨pre₁, hone, hsorted₁, hperm₁⟩ := hf x (seg ++ rest) hsorted hpre
      have hlen : pre₁.length = pre.length + 1 := by rw [hperm₁.length_eq, List.length_append, List.length_singleton]
      obtain ⟨pre₂, hall, hsorted₂, hperm₂⟩ := ih hsorted₁ (List.ne_nil_of_length_eq_add_one hlen)
      refine ⟨pre₂, ?_, hsorted₂, hperm₂.trans ?_⟩
      · rw [List.length_cons, List.range'_succ, List.foldlM_cons, List.cons_append, hone, ok_bind, ← hlen, hall]
      · have hcat : (pre ++ [x]) ++ seg = pre ++ x :: seg := by rw [List.append_assoc, List.singleton_append]
        rw [← hcat]
        exact hperm₁.append_right seg

variable [order : IsStrictWeakOrder α fun x y => less x y = true]

/-- The scan for the place of an entry passes the ones that it is less than. -/
theorem unguardedLinearInsert_spec (less : α → α → Bool) [IsStrictWeakOrder α fun x y => less x y = true] (x : α)
    (rest : List α) (hsorted : Sorted less pre) :
    ∃ pre', unguardedLinearInsert less (pre ++ x :: rest) pre.length 0 = .ok (pre' ++ rest) ∧ Sorted less pre' ∧
      pre'.Perm (pre ++ [x]) := by
  have hx : (pre ++ x :: rest)[pre.length]? = some x := by
    rw [List.getElem?_append_right (Nat.le_refl _), Nat.sub_self, List.getElem?_cons_zero]
  have hscan : ∃ hole, loop (fun hole => do
      if 0 < hole then
        if less x (← getIdx (pre ++ x :: rest) (hole - 1)) then pure (.again (hole - 1)) else pure (.leave hole)
      else pure (.leave hole)) (pre.length + 1) pre.length = .ok hole ∧
      ((∀ y ∈ pre.drop hole, less x y = true) ∧ hole ≤ pre.length ∧
        ∀ y, 0 < hole → pre[hole - 1]? = some y → less x y = false) := by
    refine loop_total (fun hole => (∀ y ∈ pre.drop hole, less x y = true) ∧ hole ≤ pre.length) _ (fun hole => hole)
      (fun hole hh => ?_) ⟨by rw [List.drop_length]; exact fun y hy => (List.not_mem_nil hy).elim, Nat.le_refl _⟩
      (Nat.lt_succ_self _)
    by_cases hpos : 0 < hole
    · obtain ⟨y, hy⟩ := exists_getElem? pre (show hole - 1 < pre.length by omega)
      have hread : (pre ++ x :: rest)[hole - 1]? = some y := by
        rw [List.getElem?_append_left (by omega), hy]
      rw [if_pos hpos, getIdx_eq hread, ok_bind]
      cases hless : less x y with
      | true =>
          refine .inr ⟨hole - 1, rfl, ⟨?_, by omega⟩, by omega⟩
          obtain ⟨hlt, rfl⟩ := List.getElem?_eq_some_iff.mp hy
          rw [List.drop_eq_getElem_cons hlt, Nat.sub_add_cancel hpos]
          intro z hz
          obtain rfl | hz := List.mem_cons.mp hz
          · exact hless
          · exact hh.1 z hz
      | false => exact .inl ⟨hole, rfl, hh.1, hh.2, fun z _ hz => by rw [Option.some.inj (hz.symm.trans hy)]; exact hless⟩
    · exact .inl ⟨hole, by rw [if_neg hpos]; rfl, hh.1, hh.2, fun _ hpos' => absurd hpos' hpos⟩
  obtain ⟨hole, hrun, hpassed, hle, hstop⟩ := hscan
  obtain ⟨A, B, hpre, hA⟩ : ∃ A B, pre = A ++ B ∧ A.length = hole :=
    ⟨pre.take hole, pre.drop hole, (List.take_append_drop _ _).symm, by rw [List.length_take]; omega⟩
  have hB : pre.drop hole = B := by rw [hpre, List.drop_left' hA]
  rw [hB] at hpassed
  have hAB : A.length + B.length = pre.length := by rw [hpre, List.length_append]
  refine ⟨A ++ x :: B, ?_, ?_, ?_⟩
  · rw [unguardedLinearInsert, getIdx_eq hx, ok_bind, hrun, ok_bind, ← hA, ← hAB, hpre]
    exact rotateRight_eq A B rest x
  · rw [hpre, Sorted, List.pairwise_append] at hsorted
    obtain ⟨hsA, hsB, hcross⟩ := hsorted
    have hAx : ∀ y ∈ A, less x y = false := by
      intro y hy
      have hpos : 0 < A.length := List.length_pos_of_mem hy
      have hlast : pre[hole - 1]? = some (A.getLast (List.ne_nil_of_mem hy)) := by
        rw [hpre, List.getElem?_append_left (by omega), ← hA, ← List.getLast?_eq_getElem?, List.getLast?_eq_getLast_of_ne_nil]
      have hxl := hstop _ (by omega) hlast
      obtain ⟨front, hfront⟩ : ∃ front, A = front ++ [A.getLast (List.ne_nil_of_mem hy)] :=
        ⟨A.dropLast, (List.dropLast_append_getLast _).symm⟩
      rw [hfront] at hy
      obtain hy | hy := List.mem_append.mp hy
      · rw [hfront, List.pairwise_append] at hsA
        exact notLess_trans hxl (hsA.2.2 y hy _ (List.mem_singleton.mpr rfl))
      · rw [List.mem_singleton.mp hy]
        exact hxl
    rw [Sorted, List.pairwise_append]
    refine ⟨hsA, List.pairwise_cons.mpr ⟨fun y hy => less_asymm (hpassed y hy), hsB⟩, fun a ha b hb => ?_⟩
    obtain rfl | hb := List.mem_cons.mp hb
    · exact hAx a ha
    · exact hcross a ha b hb
  · rw [hpre, List.append_assoc]
    exact List.Perm.append_left A (List.perm_append_singleton x B).symm

theorem insertOne_spec (less : α → α → Bool) [IsStrictWeakOrder α fun x y => less x y = true] (x : α) (rest : List α)
    (hsorted : Sorted less pre) (hpre : pre ≠ []) :
    ∃ pre', insertOne less 0 (pre ++ x :: rest) pre.length = .ok (pre' ++ rest) ∧ Sorted less pre' ∧
      pre'.Perm (pre ++ [x]) := by
  obtain ⟨y, l, rfl⟩ := List.exists_cons_of_ne_nil hpre
  have hx : (y :: l ++ x :: rest)[(y :: l).length]? = some x := by
    rw [List.getElem?_append_right (Nat.le_refl _), Nat.sub_self, List.getElem?_cons_zero]
  have hy : (y :: l ++ x :: rest)[0]? = some y := rfl
  rw [insertOne, getIdx_eq hx, ok_bind, getIdx_eq hy, ok_bind]
  cases hless : less x y with
  | true =>
      refine ⟨x :: y :: l, ?_, List.pairwise_cons.mpr ⟨fun z hz => ?_, hsorted⟩, (List.perm_append_singleton x (y :: l)).symm⟩
      · rw [if_pos rfl]
        have hrotate := rotateRight_eq [] (y :: l) rest x
        rwa [List.length_nil, Nat.zero_add] at hrotate
      · obtain rfl | hz := List.mem_cons.mp hz
        · exact less_asymm hless
        · exact notLess_trans ((List.pairwise_cons.mp hsorted).1 z hz) (less_asymm hless)
  | false =>
      rw [if_neg (by decide)]
      exact unguardedLinearInsert_spec less x rest hsorted

theorem insertionSort_spec (less : α → α → Bool) [IsStrictWeakOrder α fun x y => less x y = true] (l rest : List α) :
    ∃ l', insertionSort less (l ++ rest) 0 l.length = .ok (l' ++ rest) ∧ Sorted less l' ∧
    l'.Perm l := by
  cases l with
  | nil => exact ⟨[], rfl, .nil, .refl _⟩
  | cons x l =>
      obtain ⟨l', hall, hsorted, hperm⟩ := insertAll_spec (insertOne_spec less) l rest
        (List.pairwise_singleton _ _) (List.cons_ne_nil _ _)
      refine ⟨l', ?_, hsorted, hperm⟩
      rw [insertionSort, if_neg (by rw [List.length_cons]; exact Nat.zero_ne_add_one _), List.length_cons, Nat.zero_add,
        Nat.add_sub_cancel]
      exact hall

theorem finalInsertionSort_spec (less : α → α → Bool) [IsStrictWeakOrder α fun x y => less x y = true] (l : List α) :
    ∃ l', finalInsertionSort less l 0 l.length = .ok l' ∧ Sorted less l' ∧ l'.Perm l := by
  rw [finalInsertionSort, minus_eq (Nat.zero_le _), ok_bind, Nat.sub_zero]
  split
  · rename_i hlong
    obtain ⟨A, B, rfl, hA⟩ : ∃ A B, l = A ++ B ∧ A.length = sortThreshold :=
      ⟨l.take sortThreshold, l.drop sortThreshold, (List.take_append_drop _ _).symm, by rw [List.length_take]; omega⟩
    obtain ⟨A', hfirst, hsortedA, hpermA⟩ := insertionSort_spec less A B
    have hlen : A'.length = sortThreshold := by rw [hpermA.length_eq, hA]
    obtain ⟨l', hall, hsorted, hperm⟩ := insertAll_spec
      (f := fun slice position => unguardedLinearInsert less slice position 0)
      (fun x rest hs _ => unguardedLinearInsert_spec less x rest hs) B [] hsortedA
      (List.ne_nil_of_length_pos (by rw [hlen]; exact Nat.succ_pos 15))
    refine ⟨l', ?_, hsorted, hperm.trans (hpermA.append_right B)⟩
    rw [Nat.zero_add, ← hA, hfirst, ok_bind, List.length_append, Nat.add_sub_cancel_left, hA, ← hlen]
    rw [List.append_nil, List.append_nil] at hall
    exact hall
  · obtain ⟨l', hok, hsorted, hperm⟩ := insertionSort_spec less l []
    rw [List.append_nil, List.append_nil] at hok
    exact ⟨l', hok, hsorted, hperm⟩

end Insertion

/-- No entry is less than the one in front of it. -/
def InOrder (less : α → α → Bool) (l : List α) : Prop :=
  ∀ i x y, l[i]? = some x → l[i + 1]? = some y → less y x = false

/-- The result of sorting: the entries are rearranged, and in order. -/
def Sorts (less : α → α → Bool) (sort : List α → Outcome (List α)) (slice : List α) : Prop :=
  ∃ sorted, sort slice = .ok sorted ∧ sorted.Perm slice ∧ InOrder less sorted

theorem Sorted.inOrder {less : α → α → Bool} {l : List α} (h : Sorted less l) : InOrder less l := by
  intro i x y hx hy
  obtain ⟨hi, rfl⟩ := List.getElem?_eq_some_iff.mp hx
  obtain ⟨hi', rfl⟩ := List.getElem?_eq_some_iff.mp hy
  exact List.pairwise_iff_getElem.mp h i (i + 1) hi hi' (Nat.lt_succ_self i)

theorem sorts_slice (less : α → α → Bool) [IsStrictWeakOrder α fun x y => less x y = true] (slice : List α) :
    Sorts less (stdSort less) slice ∧ Sorts less (stdPartialSortFull less) slice := by
  constructor
  · cases slice with
    | nil => exact ⟨[], rfl, .refl _, Sorted.inOrder .nil⟩
    | cons x l =>
        obtain ⟨mid, hloop, hmid⟩ := introsortLoop_spec less (2 * Nat.log2 (x :: l).length) (Nat.zero_le _)
          (Nat.le_refl (x :: l).length)
        obtain ⟨sorted, hfinal, hsorted, hperm⟩ := finalInsertionSort_spec less mid
        refine ⟨sorted, ?_, hperm.trans hmid, hsorted.inOrder⟩
        rw [stdSort, if_neg (by rw [List.length_cons]; exact Nat.succ_ne_zero _), hloop, ok_bind, ← hmid.length_eq, hfinal]
  · obtain ⟨sorted, hok, hseg, hpop⟩ := heapSortRange_spec less (Nat.zero_le _) (Nat.le_refl slice.length)
    refine ⟨sorted, hok, hseg.perm, fun i x y hx hy => ?_⟩
    have hlt := (List.getElem?_eq_some_iff.mp hy).1
    rw [hseg.perm.length_eq] at hlt
    exact hpop i (i + 1) (Nat.zero_le _) (Nat.lt_succ_self _) (by omega) (by omega) y x hy hx

theorem sorts_slice_numbers : Sorts (fun x y : Nat => decide (x < y)) (stdSort fun x y => decide (x < y)) [2, 3, 1] ∧
    Sorts (fun x y : Nat => decide (x < y)) (stdPartialSortFull fun x y => decide (x < y)) [2, 3, 1] :=
  have : IsStrictWeakOrder Nat fun x y => decide (x < y) = true :=
    { irrefl := fun x => by simp
      trans := fun x y z hxy hyz => by simp at *; omega
      incomp_trans := fun x y z => by simp; omega }
  sorts_slice (fun x y : Nat => decide (x < y)) [2, 3, 1]

end GhidraDecompiler.StdSort
