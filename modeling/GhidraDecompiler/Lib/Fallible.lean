import Mathlib.Data.List.Basic

namespace GhidraDecompiler.Fallible

variable {α β σ ρ : Type}

/-- The ways in which a call can fail to return a value: a panic, an error
value with its text, or a loop that the fuel of the model cuts off. -/
inductive Failure
  | panic
  | lowlevel (message : String)
  | outOfFuel
  deriving DecidableEq

abbrev Outcome (α : Type) := Except Failure α

instance [DecidableEq α] : DecidableEq (Outcome α) := fun x y =>
  match x, y with
  | .ok a, .ok b => decidable_of_iff (a = b) (by simp)
  | .error a, .error b => decidable_of_iff (a = b) (by simp)
  | .ok _, .error _ => isFalse (by simp)
  | .error _, .ok _ => isFalse (by simp)

/-- Unwrapping an optional value panics when there is none. -/
def expect : Option α → Outcome α
  | some a => .ok a
  | none => .error .panic

/-- Reading a vector panics when the position is out of range. -/
def getIdx (l : List α) (i : Nat) : Outcome α := expect l[i]?

/-- A signed position is cast to an unsigned one, so a negative position is
out of range for every vector. -/
def getAt (l : List α) (i : Int) : Outcome α := if i < 0 then .error .panic else getIdx l i.toNat

/-- Writing to a vector panics when the position is out of range. -/
def setIdx (l : List α) (i : Nat) (a : α) : Outcome (List α) :=
  if i < l.length then .ok (l.set i a) else .error .panic

/-- Exchanging two entries of a vector panics when a position is out of range. -/
def swapIdx (l : List α) (i j : Nat) : Outcome (List α) := do
  let a ← getIdx l i
  let b ← getIdx l j
  pure ((l.set i b).set j a)

@[simp] theorem ok_bind (a : α) (f : α → Outcome β) : ((.ok a : Outcome α) >>= f) = f a := rfl

@[simp] theorem pure_eq_ok (a : α) : (pure a : Outcome α) = .ok a := rfl

@[simp] theorem error_bind (e : Failure) (f : α → Outcome β) :
    ((.error e : Outcome α) >>= f) = .error e := rfl

@[simp] theorem expect_some (a : α) : expect (some a) = .ok a := rfl

@[simp] theorem expect_none : expect (none : Option α) = .error .panic := rfl

theorem bind_eq_ok {x : Outcome α} {f : α → Outcome β} {b : β} :
    (x >>= f) = .ok b ↔ ∃ a, x = .ok a ∧ f a = .ok b := by
  cases x <;> simp

theorem getIdx_eq {l : List α} {i : Nat} {a : α} (h : l[i]? = some a) : getIdx l i = .ok a := by
  simp [getIdx, h]

theorem getIdx_ok_iff {l : List α} {i : Nat} {a : α} : getIdx l i = .ok a ↔ l[i]? = some a := by
  cases h : l[i]? <;> simp [getIdx, h]

theorem getAt_eq {l : List α} {i : Nat} {a : α} (h : l[i]? = some a) : getAt l (i : Int) = .ok a := by
  simp [getAt, getIdx_eq h]

theorem setIdx_eq {l : List α} {i : Nat} (a : α) (h : i < l.length) : setIdx l i a = .ok (l.set i a) := by
  simp [setIdx, h]

theorem getIdx_at {l p r : List α} {a : α} {i : Nat} (h : l = p ++ a :: r) (hi : p.length = i) : getIdx l i = .ok a := by
  subst h hi
  rw [getIdx_ok_iff, List.getElem?_append_right (Nat.le_refl _), Nat.sub_self, List.getElem?_cons_zero]

theorem setIdx_at {l p r : List α} {a : α} {i : Nat} (b : α) (h : l = p ++ a :: r) (hi : p.length = i) :
    setIdx l i b = .ok (p ++ b :: r) := by
  subst h hi
  rw [setIdx_eq b (by simp), List.set_append_right _ _ (Nat.le_refl _), Nat.sub_self, List.set_cons_zero]

theorem swapIdx_perm {l : List α} {i j : Nat} (hi : i < l.length) (hj : j < l.length) :
    ∃ l', swapIdx l i j = .ok l' ∧ l'.Perm l ∧ l'[j]? = l[i]? := by
  refine ⟨(l.set i l[j]).set j l[i], ?_, List.set_set_perm hi hj, ?_⟩
  · simp [swapIdx, getIdx, List.getElem?_eq_getElem hi, List.getElem?_eq_getElem hj]
  · rw [List.getElem?_set_self (by simpa using hj), List.getElem?_eq_getElem hi]

/-- One pass through the body of a loop either leaves the loop with a result
or goes round again with a new state. -/
inductive Pass (σ ρ : Type)
  | leave (result : ρ)
  | again (state : σ)

def loop (body : σ → Outcome (Pass σ ρ)) : Nat → σ → Outcome ρ
  | 0, _ => .error .outOfFuel
  | fuel + 1, s => do
      match ← body s with
      | .leave r => pure r
      | .again s => loop body fuel s

theorem loop_succ_leave {body : σ → Outcome (Pass σ ρ)} {s : σ} {r : ρ}
    (h : body s = .ok (.leave r)) (fuel : Nat) : loop body (fuel + 1) s = .ok r := by
  simp [loop, h]

theorem loop_succ_again {body : σ → Outcome (Pass σ ρ)} {s s' : σ}
    (h : body s = .ok (.again s')) (fuel : Nat) : loop body (fuel + 1) s = loop body fuel s' := by
  simp [loop, h]

/-- Total correctness of a loop: from a state with a bound on the number of
further passes, a pass either leaves with the postcondition or lowers the
bound. Fuel above the bound is then enough. -/
theorem loop_bounded {f : σ → Outcome (Pass σ ρ)} (Inv : Nat → σ → Prop) (Post : ρ → Prop)
    (hbody : ∀ n s, Inv n s → (∃ r, f s = .ok (.leave r) ∧ Post r) ∨
      ∃ s' m, f s = .ok (.again s') ∧ m < n ∧ Inv m s')
    {k n : Nat} {s : σ} (hs : Inv n s) (hf : n < k) : ∃ r, loop f k s = .ok r ∧ Post r := by
  induction k generalizing n s with
  | zero => omega
  | succ k ih =>
      rcases hbody n s hs with ⟨r, hr, hp⟩ | ⟨s', m, hs', hm, hi⟩
      · exact ⟨r, loop_succ_leave hr k, hp⟩
      · obtain ⟨r, hr, hp⟩ := ih hi (by omega)
        exact ⟨r, by rw [loop_succ_again hs', hr], hp⟩

/-- The same with a bound that can be read off the state. -/
theorem loop_total {f : σ → Outcome (Pass σ ρ)} (Inv : σ → Prop) (Post : ρ → Prop)
    (variant : σ → Nat)
    (hbody : ∀ s, Inv s → (∃ r, f s = .ok (.leave r) ∧ Post r) ∨
      ∃ s', f s = .ok (.again s') ∧ Inv s' ∧ variant s' < variant s)
    {k : Nat} {s : σ} (hs : Inv s) (hf : variant s < k) :
    ∃ r, loop f k s = .ok r ∧ Post r := by
  refine loop_bounded (fun n s => Inv s ∧ variant s = n) Post (fun n s h => ?_) ⟨hs, rfl⟩ hf
  obtain ⟨hi, rfl⟩ := h
  rcases hbody s hi with hleave | ⟨s', hs', hi', hv⟩
  · exact .inl hleave
  · exact .inr ⟨s', variant s', hs', hv, hi', rfl⟩

/-- A traversal of a list in which every step succeeds and keeps an invariant
indexed by the part of the list already visited. -/
theorem foldlM_total {f : σ → α → Outcome σ} (Inv : List α → σ → Prop) (l : List α)
    (hstep : ∀ before a after, l = before ++ a :: after → ∀ s, Inv before s →
      ∃ s', f s a = .ok s' ∧ Inv (before ++ [a]) s')
    {s : σ} (hs : Inv [] s) : ∃ s', l.foldlM f s = .ok s' ∧ Inv l s' := by
  suffices h : ∀ after before s, l = before ++ after → Inv before s →
      ∃ s', after.foldlM f s = .ok s' ∧ Inv l s' from h l [] s rfl hs
  intro after
  induction after with
  | nil =>
      intro before s hl hi
      rw [List.append_nil] at hl
      exact ⟨s, rfl, hl ▸ hi⟩
  | cons a after ih =>
      intro before s hl hi
      obtain ⟨s', hs', hi'⟩ := hstep before a after hl s hi
      obtain ⟨t, ht, hp⟩ := ih (before ++ [a]) s' (by simp [hl]) hi'
      exact ⟨t, by simp [List.foldlM_cons, hs', ht], hp⟩

/-- A counting loop, with the invariant indexed by the number of passes. -/
theorem foldlM_range'_total {f : σ → Nat → Outcome σ} (Inv : Nat → σ → Prop) (start n : Nat)
    (hstep : ∀ k, k < n → ∀ s, Inv k s → ∃ s', f s (start + k) = .ok s' ∧ Inv (k + 1) s')
    {s : σ} (hs : Inv 0 s) : ∃ s', (List.range' start n).foldlM f s = .ok s' ∧ Inv n s' := by
  induction n generalizing start s Inv with
  | zero => exact ⟨s, rfl, hs⟩
  | succ n ih =>
      obtain ⟨s', hs', hi⟩ := hstep 0 (by omega) s hs
      rw [Nat.add_zero] at hs'
      obtain ⟨t, ht, hp⟩ := ih (fun k => Inv (k + 1)) (start + 1)
        (fun k hk s hi => by
          obtain ⟨s', hs', hi'⟩ := hstep (k + 1) (by omega) s hi
          exact ⟨s', by rwa [Nat.add_assoc, Nat.add_comm 1], hi'⟩)
        hi
      exact ⟨t, by rw [List.range'_succ, List.foldlM_cons, hs', ok_bind, ht], hp⟩

/-- Mapping a list with a function that succeeds on each of its entries. -/
theorem mapM_total {f : α → Outcome β} (R : α → β → Prop) {l : List α} (h : ∀ a ∈ l, ∃ b, f a = .ok b ∧ R a b) :
    ∃ bs, l.mapM f = .ok bs ∧ List.Forall₂ R l bs := by
  induction l with
  | nil => exact ⟨[], rfl, .nil⟩
  | cons a l ih =>
      obtain ⟨b, hb, hab⟩ := h a List.mem_cons_self
      obtain ⟨bs, hbs, hall⟩ := ih fun a' ha' => h a' (List.mem_cons_of_mem a ha')
      exact ⟨b :: bs, by simp [List.mapM_cons, hb, hbs], .cons hab hall⟩

end GhidraDecompiler.Fallible
