import GhidraDecompiler.Lib.Rings

namespace GhidraDecompiler.PrettyPrint

/-- A ring of at least two places. The places are one more than `max`
entries apart both when there is no entry and when there are `max` of them. -/
structure CircularQueue (T : Type) where
  cache : List T
  left : Nat
  right : Nat
  two_le : 2 ≤ cache.length
  left_lt : left < cache.length
  right_lt : right < cache.length
  deriving DecidableEq

namespace CircularQueue

variable {T : Type} {q : CircularQueue T} {l l' : List T} {x : T} {f : T → T} {fuel index amount sz reference i : Nat}

def getMax (q : CircularQueue T) : Nat := q.cache.length

theorem getMax_pos (q : CircularQueue T) : 0 < q.getMax := Nat.lt_of_lt_of_le Nat.zero_lt_two q.two_le

theorem left_mod (q : CircularQueue T) : q.left % q.getMax = q.left := Nat.mod_eq_of_lt q.left_lt

theorem right_mod (q : CircularQueue T) : q.right % q.getMax = q.right := Nat.mod_eq_of_lt q.right_lt

section

variable [Inhabited T]

def new (sz : Nat) (h : 2 ≤ sz) : CircularQueue T where
  cache := List.replicate sz default
  left := 1
  right := 0
  two_le := by rwa [List.length_replicate]
  left_lt := by rw [List.length_replicate]; omega
  right_lt := by rw [List.length_replicate]; omega

def clear (q : CircularQueue T) : CircularQueue T where
  cache := q.cache
  left := 1
  right := 0
  two_le := q.two_le
  left_lt := q.two_le
  right_lt := q.getMax_pos

def setMax (q : CircularQueue T) (sz : Nat) (h : 2 ≤ sz) : CircularQueue T := if q.getMax ≠ sz then new sz h else q.clear

def empty (q : CircularQueue T) : Bool := q.left = (q.right + 1) % q.getMax

def topref (q : CircularQueue T) : Nat := q.right

def bottomref (q : CircularQueue T) : Nat := q.left

def refAt (q : CircularQueue T) (reference : Nat) : T := q.cache.getD reference default

/-- A write through the reference that `ref_at` returns. -/
def modifyAt (q : CircularQueue T) (reference : Nat) (f : T → T) : CircularQueue T where
  cache := q.cache.modify reference f
  left := q.left
  right := q.right
  two_le := by rw [List.length_modify]; exact q.two_le
  left_lt := by rw [List.length_modify]; exact q.left_lt
  right_lt := by rw [List.length_modify]; exact q.right_lt

def top (q : CircularQueue T) : T := q.refAt q.right

def bottom (q : CircularQueue T) : T := q.refAt q.left

/-- The next place, with the write through the reference that is returned. The
old entry of the place is what the write starts from. -/
def push (q : CircularQueue T) (f : T → T) : CircularQueue T where
  cache := q.cache.modify ((q.right + 1) % q.getMax) f
  left := q.left
  right := (q.right + 1) % q.getMax
  two_le := by rw [List.length_modify]; exact q.two_le
  left_lt := by rw [List.length_modify]; exact q.left_lt
  right_lt := by rw [List.length_modify]; exact Nat.mod_lt _ q.getMax_pos

def pop (q : CircularQueue T) : CircularQueue T :=
  { q with right := (q.right + q.getMax - 1) % q.getMax, right_lt := Nat.mod_lt _ q.getMax_pos }

def popbottom (q : CircularQueue T) : CircularQueue T :=
  { q with left := (q.left + 1) % q.getMax, left_lt := Nat.mod_lt _ q.getMax_pos }

/-- The loop of `expand`, which copies at least one entry. -/
def copied (q : CircularQueue T) : Nat → Nat → List T
  | 0, _ => []
  | fuel + 1, index => q.refAt index :: if index = q.right then [] else q.copied fuel ((index + 1) % q.getMax)

theorem length_copied_le : (q.copied fuel index).length ≤ fuel := by
  induction fuel generalizing index with
  | zero => exact Nat.zero_le _
  | succ fuel ih =>
      rw [copied, List.length_cons]
      split
      · exact Nat.succ_le_succ (Nat.zero_le _)
      · exact Nat.succ_le_succ ih

theorem length_copied_pos (h : 0 < fuel) : 0 < (q.copied fuel index).length := by
  cases fuel with
  | zero => exact absurd h (Nat.lt_irrefl 0)
  | succ fuel => exact Nat.succ_pos _

theorem length_expanded (q : CircularQueue T) (amount : Nat) :
    (q.copied q.getMax q.left ++
      List.replicate (q.getMax + amount - (q.copied q.getMax q.left).length) (default : T)).length = q.getMax + amount := by
  have hle : (q.copied q.getMax q.left).length ≤ q.getMax := length_copied_le
  rw [List.length_append, List.length_replicate]
  omega

def expand (q : CircularQueue T) (amount : Nat) : CircularQueue T where
  cache := q.copied q.getMax q.left ++ List.replicate (q.getMax + amount - (q.copied q.getMax q.left).length) default
  left := 0
  right := (q.copied q.getMax q.left).length - 1
  two_le := by
    have htwo : 2 ≤ q.getMax := q.two_le
    rw [length_expanded]
    omega
  left_lt := by
    have hpos := q.getMax_pos
    rw [length_expanded]
    omega
  right_lt := by
    have hle : (q.copied q.getMax q.left).length ≤ q.getMax := length_copied_le
    have hpos := q.getMax_pos
    rw [length_expanded]
    omega

end

@[simp] theorem getMax_modifyAt : (q.modifyAt reference f).getMax = q.getMax := List.length_modify f _ _

@[simp] theorem getMax_push : (q.push f).getMax = q.getMax := List.length_modify f _ _

@[simp] theorem getMax_pop : q.pop.getMax = q.getMax := rfl

@[simp] theorem getMax_popbottom : q.popbottom.getMax = q.getMax := rfl

@[simp] theorem getMax_clear : q.clear.getMax = q.getMax := rfl

section

variable [Inhabited T]

@[simp] theorem getMax_new {h : 2 ≤ sz} : (new sz h : CircularQueue T).getMax = sz := List.length_replicate

@[simp] theorem getMax_setMax {h : 2 ≤ sz} : (q.setMax sz h).getMax = sz := by
  rw [setMax]
  split
  · exact getMax_new
  · rename_i heq
    exact Decidable.not_not.mp heq

@[simp] theorem getMax_expand : (q.expand amount).getMax = q.getMax + amount := length_expanded q amount

end

/-- The place of an entry that is some steps from the bottom. -/
def slot (q : CircularQueue T) (i : Nat) : Nat := (q.left + i) % q.getMax

/-- The entries from the bottom to the top. -/
def Holds (q : CircularQueue T) (l : List T) : Prop := Rings.Holds q.cache q.left l ∧ q.slot l.length = (q.right + 1) % q.getMax

theorem Holds.length_le (h : q.Holds l) : l.length ≤ q.getMax := h.1.length_le

theorem slot_zero (q : CircularQueue T) : q.slot 0 = q.left := q.left_mod

@[simp] theorem slot_modifyAt : (q.modifyAt reference f).slot i = q.slot i := by
  rw [slot, getMax_modifyAt]
  rfl

@[simp] theorem slot_push : (q.push f).slot i = q.slot i := by
  rw [slot, getMax_push]
  rfl

@[simp] theorem slot_pop : q.pop.slot i = q.slot i := rfl

theorem slot_popbottom : q.popbottom.slot i = q.slot (i + 1) := by
  rw [slot, slot, getMax_popbottom, CircularQueue.popbottom, Nat.mod_add_mod, Nat.add_comm i 1, Nat.add_assoc]

theorem slot_lt (q : CircularQueue T) (i : Nat) : q.slot i < q.getMax := Nat.mod_lt _ q.getMax_pos

/-- The condition for a queue without entries is also that for a full one. -/
theorem Holds.empty_iff (h : q.Holds l) : q.empty = true ↔ l = [] ∨ l.length = q.getMax := by
  have hle := h.length_le
  have hpos := q.getMax_pos
  rw [empty, decide_eq_true_eq, ← h.2, ← List.length_eq_zero_iff]
  by_cases hfull : l.length = q.getMax
  · rw [hfull, slot, Nat.add_mod_right, left_mod]
    simp
  · conv_lhs => rw [← q.slot_zero]
    rw [slot, slot, Rings.slot_inj hpos (by omega)]
    omega

theorem holds_empty (h : q.empty = true) : q.Holds [] := by
  refine ⟨Rings.holds_nil, ?_⟩
  rw [List.length_nil, slot_zero]
  simpa [empty] using h

theorem Holds.right (h : q.Holds (l ++ [x])) : q.right = q.slot l.length := by
  have hend := h.2
  rw [List.length_append, List.length_singleton, slot, ← Nat.add_assoc] at hend
  have hmod : q.left + l.length ≡ q.right [MOD q.getMax] := Nat.ModEq.add_right_cancel' 1 hend
  rw [slot, hmod, right_mod]

section

variable [Inhabited T]

theorem Holds.refAt (h : q.Holds (l ++ x :: l')) : q.refAt (q.slot l.length) = x := by
  rw [CircularQueue.refAt, List.getD_eq_getElem?_getD, slot, getMax, h.1.at]
  rfl

theorem Holds.top (h : q.Holds (l ++ [x])) : q.top = x := by
  rw [CircularQueue.top, h.right, h.refAt]

theorem Holds.bottom (h : q.Holds (x :: l)) : q.bottom = x := by
  rw [CircularQueue.bottom, ← q.slot_zero]
  exact h.refAt (l := [])

end

theorem Holds.modifyAt (h : q.Holds (l ++ x :: l')) : (q.modifyAt (q.slot l.length) f).Holds (l ++ f x :: l') := by
  refine ⟨h.1.modify, ?_⟩
  have hend := h.2
  rw [List.length_append, List.length_cons] at hend ⊢
  rw [slot_modifyAt, getMax_modifyAt]
  exact hend

theorem Holds.push (h : q.Holds l) (hroom : l.length < q.getMax) (f : T → T) : ∃ x, (q.push f).Holds (l ++ [f x]) := by
  obtain ⟨x, hx⟩ := h.1.push (f := f) hroom
  have hplace : (q.right + 1) % q.getMax = (q.left + l.length) % q.cache.length := h.2.symm
  refine ⟨x, ?_, ?_⟩
  · rw [CircularQueue.push]
    dsimp only
    rwa [hplace]
  · rw [List.length_append, List.length_singleton, slot_push, getMax_push, CircularQueue.push]
    dsimp only
    rw [← h.2, slot, slot, Nat.mod_add_mod, Nat.add_assoc]

theorem Holds.pop (h : q.Holds (l ++ [x])) : q.pop.Holds l := by
  have hpos := q.getMax_pos
  refine ⟨h.1.init, ?_⟩
  have hright : (q.right + q.getMax - 1) % q.getMax + 1 = q.pop.right + 1 := rfl
  rw [slot_pop, getMax_pop, ← hright, Nat.mod_add_mod, Nat.sub_add_cancel (by omega), Nat.add_mod_right, right_mod, h.right]

theorem Holds.popbottom (h : q.Holds (x :: l)) : q.popbottom.Holds l := by
  refine ⟨h.1.drop_head, ?_⟩
  rw [getMax_popbottom, slot_popbottom]
  exact h.2

theorem holds_clear : q.clear.Holds [] := by
  have htwo : 1 < q.getMax := q.two_le
  refine ⟨Rings.holds_nil, ?_⟩
  rw [List.length_nil, slot_zero, getMax_clear, CircularQueue.clear]
  dsimp only
  rw [Nat.zero_add, Nat.mod_eq_of_lt htwo]

section

variable [Inhabited T]

theorem holds_new {h : 2 ≤ sz} : (new sz h : CircularQueue T).Holds [] := by
  refine ⟨Rings.holds_nil, ?_⟩
  rw [List.length_nil, slot_zero, getMax_new, new]
  dsimp only
  rw [Nat.zero_add, Nat.mod_eq_of_lt h]

theorem holds_setMax {h : 2 ≤ sz} : (q.setMax sz h).Holds [] := by
  rw [setMax]
  split
  · exact holds_new
  · exact holds_clear

omit [Inhabited T] in
theorem Holds.right_eq (h : q.Holds l) (hne : l ≠ []) : q.right = q.slot (l.length - 1) := by
  rw [← List.dropLast_append_getLast hne] at h
  rw [h.right, List.length_dropLast]

theorem Holds.copied (h : q.Holds (l ++ x :: l')) (hfuel : l'.length < fuel) : q.copied fuel (q.slot l.length) = x :: l' := by
  induction l' generalizing l x fuel with
  | nil =>
      obtain ⟨fuel, rfl⟩ : ∃ n, fuel = n + 1 := ⟨fuel - 1, by omega⟩
      rw [CircularQueue.copied, h.refAt, if_pos h.right.symm]
  | cons y l' ih =>
      obtain ⟨fuel, rfl⟩ : ∃ n, fuel = n + 1 := ⟨fuel - 1, by omega⟩
      have hle := h.length_le
      have hright := h.right_eq (by simp)
      rw [List.length_append, List.length_cons, List.length_cons] at hle hright
      have hne : q.slot l.length ≠ q.right := by
        rw [hright, slot, slot, Ne, Rings.slot_inj (by omega) (by omega)]
        omega
      have hnext : (q.slot l.length + 1) % q.getMax = q.slot (l ++ [x]).length := by
        rw [slot, Nat.mod_add_mod, List.length_append, List.length_singleton]
        rfl
      rw [List.length_cons] at hfuel
      rw [CircularQueue.copied, h.refAt, if_neg hne, hnext, ih (by rwa [List.append_assoc]) (by omega)]

/-- The entries stay the same ones, from the first place on. -/
theorem Holds.expand (h : q.Holds l) (hne : l ≠ []) : (q.expand amount).Holds l := by
  have hpos := q.getMax_pos
  have hle := h.length_le
  have hcopied : q.copied q.getMax q.left = l := by
    obtain ⟨x, l', rfl⟩ := List.exists_cons_of_ne_nil hne
    rw [List.length_cons] at hle
    rw [← q.slot_zero]
    exact h.copied (l := []) (by omega)
  have hlen : 0 < l.length := List.length_pos_iff.mpr hne
  refine ⟨?_, ?_⟩
  · rw [CircularQueue.expand]
    dsimp only
    rw [hcopied]
    exact Rings.holds_front l _
  · rw [slot, getMax_expand, CircularQueue.expand]
    dsimp only
    rw [hcopied, Nat.zero_add, Nat.sub_add_cancel hlen]

/-- The number of entries that the indices give to a queue with a free place. -/
def count (q : CircularQueue T) : Nat := (q.right + 1 + (q.getMax - q.left)) % q.getMax

/-- A number of entries, from the bottom on. -/
def items (q : CircularQueue T) (n : Nat) : List T := (List.range n).map fun i => q.refAt (q.slot i)

def contents (q : CircularQueue T) : List T := q.items q.count

omit [Inhabited T] in
theorem Holds.count (h : q.Holds l) (hroom : l.length < q.getMax) : q.count = l.length := by
  have hlt : q.left < q.getMax := q.left_lt
  have hend := h.2
  rw [slot] at hend
  rw [CircularQueue.count, ← Nat.mod_add_mod, ← hend, Nat.mod_add_mod]
  have hround : q.left + l.length + (q.getMax - q.left) = l.length + q.getMax := by omega
  rw [hround, Nat.add_mod_right, Nat.mod_eq_of_lt hroom]

theorem Holds.items (h : q.Holds l) : q.items l.length = l := by
  refine List.ext_getElem? fun i => ?_
  rw [CircularQueue.items, List.getElem?_map]
  by_cases hi : i < l.length
  · rw [List.getElem?_range hi, Option.map_some, CircularQueue.refAt, List.getD_eq_getElem?_getD, slot, getMax, h.1.get hi,
      List.getElem?_eq_getElem hi]
    rfl
  · rw [List.getElem?_eq_none (by rw [List.length_range]; omega), List.getElem?_eq_none (by omega)]
    rfl

theorem Holds.contents (h : q.Holds l) (hroom : l.length < q.getMax) : q.contents = l := by
  rw [CircularQueue.contents, h.count hroom, h.items]

end

/-- A write to the first places of a queue. -/
theorem modifyAt_range (q : CircularQueue T) (f : T → T) (n : Nat) :
    ((List.range n).foldl (fun queue index => queue.modifyAt index f) q).left = q.left ∧
      ((List.range n).foldl (fun queue index => queue.modifyAt index f) q).right = q.right ∧
      ((List.range n).foldl (fun queue index => queue.modifyAt index f) q).getMax = q.getMax ∧
      ∀ j, ((List.range n).foldl (fun queue index => queue.modifyAt index f) q).cache[j]? =
        if j < n then q.cache[j]?.map f else q.cache[j]? := by
  induction n with
  | zero => exact ⟨rfl, rfl, rfl, fun j => by rw [if_neg (Nat.not_lt_zero j)]; rfl⟩
  | succ n ih =>
      obtain ⟨hleft, hright, hmax, hcache⟩ := ih
      rw [List.range_succ, List.foldl_append, List.foldl_cons, List.foldl_nil]
      refine ⟨hleft, hright, getMax_modifyAt.trans hmax, fun j => ?_⟩
      rw [CircularQueue.modifyAt]
      dsimp only
      by_cases hj : n = j
      · subst hj
        rw [List.getElem?_modify_eq, hcache, if_neg (Nat.lt_irrefl n), if_pos (Nat.lt_succ_self n)]
        rfl
      · rw [List.getElem?_modify_ne _ _ hj, hcache]
        by_cases hlt : j < n
        · rw [if_pos hlt, if_pos (by omega)]
        · rw [if_neg hlt, if_neg (by omega)]

theorem Holds.modifyAll (h : q.Holds l) :
    ((List.range q.getMax).foldl (fun queue index => queue.modifyAt index f) q).Holds (l.map f) := by
  obtain ⟨hleft, hright, hmax, hcache⟩ := modifyAt_range q f q.getMax
  have hlen := h.length_le
  refine ⟨⟨?_, fun i hi => ?_⟩, ?_⟩
  · rw [List.length_map]
    exact hlen.trans (Nat.le_of_eq hmax.symm)
  · rw [List.length_map] at hi
    have hplace : (q.left + i) % q.getMax < q.getMax := Nat.mod_lt _ q.getMax_pos
    have hget := h.1.get hi
    rw [hleft, show List.length _ = q.getMax from hmax, hcache, if_pos hplace, List.getElem?_map, ← hget]
    rfl
  · rw [List.length_map, slot, hleft, hright, hmax]
    exact h.2

end CircularQueue

end GhidraDecompiler.PrettyPrint
