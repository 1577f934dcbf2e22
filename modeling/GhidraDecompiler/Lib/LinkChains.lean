import Mathlib.Data.List.Nodup
import Mathlib.Logic.Function.Basic

namespace GhidraDecompiler.LinkChains

variable {α β : Type}

/-- The entries are linked to one another in both directions, the first one
back to `p` and the last one on to `n`. -/
def Linked (prev next : α → Option α) : Option α → List α → Option α → Prop
  | _, [], _ => True
  | p, x :: xs, n => prev x = p ∧ next x = xs.head?.or n ∧ Linked prev next (some x) xs n

variable {prev next prev' next' : α → Option α} {p n : Option α} {A B l : List α} {x : α}

theorem linked_append :
    Linked prev next p (A ++ B) n ↔
      Linked prev next p A (B.head?.or n) ∧ Linked prev next (A.getLast?.or p) B n := by
  induction A generalizing p with
  | nil => simp [Linked]
  | cons a A ih =>
      have hlast : A.getLast?.or (some a) = (a :: A).getLast?.or p := by
        rw [List.getLast?_cons]
        cases A.getLast? <;> rfl
      have hhead : (A ++ B).head?.or n = A.head?.or (B.head?.or n) := by
        rw [List.head?_append, Option.or_assoc]
      rw [List.cons_append, Linked, Linked, ih, hlast, hhead]
      tauto

theorem Linked.congr (h : Linked prev next p l n) (hprev : ∀ x ∈ l, prev' x = prev x) (hnext : ∀ x ∈ l, next' x = next x) :
    Linked prev' next' p l n := by
  induction l generalizing p with
  | nil => trivial
  | cons x l ih =>
      obtain ⟨hp, hn, hl⟩ := h
      refine ⟨(hprev x List.mem_cons_self).trans hp, (hnext x List.mem_cons_self).trans hn, ?_⟩
      exact ih hl (fun y hy => hprev y (List.mem_cons_of_mem x hy)) fun y hy => hnext y (List.mem_cons_of_mem x hy)

/-- The neighbours of an entry. -/
theorem Linked.neighbours (h : Linked prev next p (A ++ x :: B) n) : prev x = A.getLast?.or p ∧ next x = B.head?.or n := by
  obtain ⟨-, hp, hn, -⟩ := linked_append.mp h
  exact ⟨hp, hn⟩

theorem disjoint_ends (hnodup : (A ++ B).Nodup) (hx : x ∈ B) : A.getLast? ≠ some x :=
  fun he => List.disjoint_of_nodup_append hnodup (List.mem_of_getLast? he) hx

theorem disjoint_starts (hnodup : (A ++ B).Nodup) (hx : x ∈ A) : B.head? ≠ some x :=
  fun he => List.disjoint_of_nodup_append hnodup hx (List.mem_of_head? he)

variable [DecidableEq α]

/-- The function with a new value at a place, if there is one. -/
def putAt (f : α → β) (place : Option α) (b : β) : α → β := place.elim f fun a => Function.update f a b

theorem putAt_of_ne {f : α → β} {place : Option α} {b : β} (h : place ≠ some x) : putAt f place b x = f x := by
  cases place with
  | none => rfl
  | some a => exact Function.update_of_ne (fun he => h (congrArg some he.symm)) _ _

theorem putAt_self {f : α → β} {b : β} : putAt f (some x) b x = b := Function.update_self _ _ _

/-- The last entry can be linked on to another one. -/
theorem Linked.relinkLast (h : Linked prev next p l n) (hnodup : l.Nodup) (n' : Option α) :
    Linked prev (putAt next l.getLast? n') p l n' := by
  induction l generalizing p with
  | nil => trivial
  | cons x l ih =>
      obtain ⟨hp, hn, hl⟩ := h
      obtain ⟨hx, hnodup⟩ := List.nodup_cons.mp hnodup
      cases l with
      | nil => exact ⟨hp, putAt_self, trivial⟩
      | cons y l =>
          rw [List.getLast?_cons_cons]
          refine ⟨hp, ?_, ih hl hnodup⟩
          rw [putAt_of_ne fun he => hx (List.mem_of_getLast? he), hn]
          rfl

/-- The first entry can be linked back to another one. -/
theorem Linked.relinkFirst (h : Linked prev next p l n) (hnodup : l.Nodup) (p' : Option α) :
    Linked (putAt prev l.head? p') next p' l n := by
  cases l with
  | nil => trivial
  | cons x l =>
      obtain ⟨-, hn, hl⟩ := h
      obtain ⟨hx, -⟩ := List.nodup_cons.mp hnodup
      refine ⟨putAt_self, hn, hl.congr (fun y hy => ?_) fun _ _ => rfl⟩
      exact putAt_of_ne fun he => hx (Option.some.inj he ▸ hy)

/-- A new entry is linked in between two parts of a sequence. -/
theorem Linked.insert (h : Linked prev next none (A ++ B) none) (hnodup : (A ++ B).Nodup) (hx : x ∉ A ++ B) :
    Linked (putAt (Function.update prev x A.getLast?) B.head? (some x))
      (putAt (Function.update next x B.head?) A.getLast? (some x)) none (A ++ x :: B) none := by
  rw [linked_append, Option.or_none, Option.or_none] at h
  obtain ⟨hA, hB⟩ := h
  obtain ⟨hnodupA, hnodupB, -⟩ := List.nodup_append.mp hnodup
  obtain ⟨hxA, hxB⟩ : x ∉ A ∧ x ∉ B := ⟨fun h => hx (List.mem_append_left _ h), fun h => hx (List.mem_append_right _ h)⟩
  have hne {l : List α} (hxl : x ∉ l) {y : α} (hy : y ∈ l) : y ≠ x := fun he => hxl (he ▸ hy)
  rw [linked_append]
  refine ⟨?_, ?_, ?_, ?_⟩
  · refine (hA.relinkLast hnodupA (some x)).congr (fun y hy => ?_) fun y hy => ?_
    · rw [putAt_of_ne (disjoint_starts hnodup hy), Function.update_of_ne (hne hxA hy)]
    · by_cases hlast : A.getLast? = some y
      · rw [hlast, putAt_self, putAt_self]
      · rw [putAt_of_ne hlast, putAt_of_ne hlast, Function.update_of_ne (hne hxA hy)]
  · rw [putAt_of_ne fun he => hxB (List.mem_of_head? he), Function.update_self, Option.or_none]
  · rw [putAt_of_ne fun he => hxA (List.mem_of_getLast? he), Function.update_self, Option.or_none]
  · refine (hB.relinkFirst hnodupB (some x)).congr (fun y hy => ?_) fun y hy => ?_
    · by_cases hhead : B.head? = some y
      · rw [hhead, putAt_self, putAt_self]
      · rw [putAt_of_ne hhead, putAt_of_ne hhead, Function.update_of_ne (hne hxB hy)]
    · rw [putAt_of_ne (disjoint_ends hnodup hy), Function.update_of_ne (hne hxB hy)]

/-- The two neighbours of an entry are linked to each other instead. -/
theorem Linked.remove (h : Linked prev next none (A ++ x :: B) none) (hnodup : (A ++ x :: B).Nodup) :
    Linked (Function.update (putAt prev B.head? A.getLast?) x none) (Function.update (putAt next A.getLast? B.head?) x none)
      none (A ++ B) none := by
  rw [linked_append, Option.or_none, Option.or_none] at h
  obtain ⟨hA, -, -, hB⟩ := h
  obtain ⟨hx, hnodup⟩ := List.nodup_cons.mp (List.nodup_middle.mp hnodup)
  obtain ⟨hnodupA, hnodupB, -⟩ := List.nodup_append.mp hnodup
  have hne {y : α} (hy : y ∈ A ++ B) : y ≠ x := fun he => hx (he ▸ hy)
  rw [linked_append, Option.or_none, Option.or_none]
  constructor
  · refine (hA.relinkLast hnodupA B.head?).congr (fun y hy => ?_) fun y hy => ?_
    · rw [Function.update_of_ne (hne (List.mem_append_left _ hy)), putAt_of_ne (disjoint_starts hnodup hy)]
    · rw [Function.update_of_ne (hne (List.mem_append_left _ hy))]
  · refine (hB.relinkFirst hnodupB A.getLast?).congr (fun y hy => ?_) fun y hy => ?_
    · rw [Function.update_of_ne (hne (List.mem_append_right _ hy))]
    · rw [Function.update_of_ne (hne (List.mem_append_right _ hy)), putAt_of_ne (disjoint_ends hnodup hy)]

end GhidraDecompiler.LinkChains
