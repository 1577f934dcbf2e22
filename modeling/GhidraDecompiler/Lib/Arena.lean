import GhidraDecompiler.Lib.Fallible

namespace GhidraDecompiler

open Fallible

variable {α : Type}

/-- A vector of slots. An identifier is a position in it, and a slot that was
emptied is never used again. -/
structure Arena (α : Type) where
  slots : List (Option α)
  deriving DecidableEq

namespace Arena

def get? (a : Arena α) (id : Nat) : Option α := a.slots[id]?.join

/-- Access through a stale identifier panics. -/
def get (a : Arena α) (id : Nat) : Outcome α := expect (a.get? id)

def Live (a : Arena α) (id : Nat) : Prop := (a.get? id).isSome

instance (a : Arena α) (id : Nat) : Decidable (a.Live id) := inferInstanceAs (Decidable (_ = true))

/-- The identifier that the next allocation hands out. -/
def nextId (a : Arena α) : Nat := a.slots.length

def alloc (a : Arena α) (value : α) : Arena α × Nat := (⟨a.slots ++ [some value]⟩, a.slots.length)

/-- The effect of an assignment through `get_mut`. -/
def update (a : Arena α) (id : Nat) (f : α → α) : Arena α := ⟨a.slots.modify id (Option.map f)⟩

def modify (a : Arena α) (id : Nat) (f : α → α) : Outcome (Arena α) :=
  if a.Live id then .ok (a.update id f) else .error .panic

/-- The arena with an empty slot in the place of a value. -/
def erase (a : Arena α) (id : Nat) : Arena α := ⟨a.slots.set id none⟩

def remove (a : Arena α) (id : Nat) : Outcome (Arena α) :=
  if a.Live id then .ok (a.erase id) else .error .panic

theorem get_eq {a : Arena α} {id : Nat} {v : α} (h : a.get? id = some v) : a.get id = .ok v := by
  simp [get, h]

theorem live_of_get? {a : Arena α} {id : Nat} {v : α} (h : a.get? id = some v) : a.Live id := by
  simp [Live, h]

theorem lt_of_live {a : Arena α} {id : Nat} (h : a.Live id) : id < a.nextId := by
  by_contra hlt
  have hn : a.slots[id]? = none := List.getElem?_eq_none (Nat.le_of_not_lt hlt)
  simp [Live, get?, hn] at h

theorem modify_eq {a : Arena α} {id : Nat} (f : α → α) (h : a.Live id) :
    a.modify id f = .ok (a.update id f) := by
  simp [modify, h]

theorem get?_update (a : Arena α) (id : Nat) (f : α → α) (j : Nat) :
    (a.update id f).get? j = if j = id then (a.get? id).map f else a.get? j := by
  by_cases h : j = id
  · subst h
    cases hs : a.slots[j]? <;> simp [get?, update, hs]
  · simp [get?, update, Ne.symm h, h]

@[simp] theorem live_update (a : Arena α) (id : Nat) (f : α → α) (j : Nat) :
    (a.update id f).Live j ↔ a.Live j := by
  by_cases h : j = id
  · subst h; simp [Live, get?_update]
  · simp [Live, get?_update, h]

@[simp] theorem nextId_update (a : Arena α) (id : Nat) (f : α → α) :
    (a.update id f).nextId = a.nextId := by
  simp [nextId, update]

theorem get?_erase (a : Arena α) (id j : Nat) : (a.erase id).get? j = if j = id then none else a.get? j := by
  simp only [get?, erase, List.getElem?_set]
  by_cases h : id = j
  · subst h
    by_cases hlt : id < a.slots.length <;> simp [hlt]
  · simp [h, Ne.symm h]

theorem get?_alloc (a : Arena α) (v : α) (j : Nat) :
    (a.alloc v).1.get? j = if j = a.nextId then some v else a.get? j := by
  simp only [get?, alloc, nextId]
  by_cases h : j < a.slots.length
  · rw [List.getElem?_append_left h]
    simp [Nat.ne_of_lt h]
  · by_cases he : j = a.slots.length
    · simp [he]
    · rw [List.getElem?_append_right (by omega)]
      simp only [he, if_false]
      rw [List.getElem?_eq_none (by simp; omega), List.getElem?_eq_none (by omega)]

theorem get?_nextId (a : Arena α) : a.get? a.nextId = none := by
  simp [get?, nextId]

theorem ext_get? {a b : Arena α} (hl : a.nextId = b.nextId) (h : ∀ i, a.get? i = b.get? i) : a = b := by
  obtain ⟨s⟩ := a
  obtain ⟨t⟩ := b
  simp only [nextId, get?] at hl h
  congr 1
  refine List.ext_getElem hl fun i hs ht => ?_
  have := h i
  rwa [List.getElem?_eq_getElem hs, List.getElem?_eq_getElem ht, Option.join_some, Option.join_some] at this

end Arena

end GhidraDecompiler
