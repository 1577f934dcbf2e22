import Mathlib.Data.List.Basic
import GhidraDecompiler.Lib.Fallible

/-! Binary search with a comparison that says on which side of an element the search
goes on. -/

namespace GhidraDecompiler.BinarySearch

open Fallible

variable {α : Type} {wrap : Int → Int} {cmp : α → Ordering} {l : List α}

/-- One halving of the closed interval of positions. Positions are machine integers, and
`wrap` takes a sum of two of them back into their range. -/
def halve (wrap : Int → Int) (cmp : α → Ordering) (l : List α) (st : Int × Int) :
    Outcome (Pass (Int × Int) (Option α)) :=
  if st.1 ≤ st.2 then do
    let mid := (wrap (st.1 + st.2)).tdiv 2
    let x ← getAt l mid
    match cmp x with
    | .lt => pure (.again (mid + 1, st.2))
    | .gt => pure (.again (st.1, mid - 1))
    | .eq => pure (.leave (some x))
  else pure (.leave none)

def search (wrap : Int → Int) (cmp : α → Ordering) (l : List α) : Outcome (Option α) :=
  loop (halve wrap cmp l) (l.length + 1) (0, wrap ((l.length : Int) - 1))

/-- The sums of two positions of a list are machine integers. -/
def Fits (wrap : Int → Int) (l : List α) : Prop :=
  wrap ((l.length : Int) - 1) = (l.length : Int) - 1 ∧ ∀ x : Int, 0 ≤ x → x ≤ 2 * (l.length - 1) → wrap x = x

/-- Elements before the place that is searched come first, those behind it last. -/
def Divided (cmp : α → Ordering) (l : List α) : Prop :=
  l.Pairwise fun x y => (cmp y = .lt → cmp x = .lt) ∧ (cmp x = .gt → cmp y = .gt)

theorem Divided.of_le (h : Divided cmp l) {i j : Nat} {x y : α} (hij : i ≤ j) (hx : l[i]? = some x)
    (hy : l[j]? = some y) : (cmp y = .lt → cmp x = .lt) ∧ (cmp x = .gt → cmp y = .gt) := by
  rcases Nat.lt_or_eq_of_le hij with hlt | rfl
  · obtain ⟨hi, rfl⟩ := List.getElem?_eq_some_iff.mp hx
    obtain ⟨hj, rfl⟩ := List.getElem?_eq_some_iff.mp hy
    exact List.pairwise_iff_getElem.mp h i j hi hj hlt
  · rw [hx] at hy
    cases hy
    exact ⟨id, id⟩

/-- The positions outside of the interval are decided. -/
structure Narrowed (cmp : α → Ordering) (l : List α) (st : Int × Int) : Prop where
  lower : 0 ≤ st.1
  upper : st.2 < l.length
  order : st.1 ≤ st.2 + 1
  left : ∀ (i : Nat) x, (i : Int) < st.1 → l[i]? = some x → cmp x = .lt
  right : ∀ (i : Nat) x, st.2 < (i : Int) → l[i]? = some x → cmp x = .gt

theorem halve_spec (hw : Fits wrap l) (h : Divided cmp l) {st : Int × Int} (hs : Narrowed cmp l st) :
    (∃ r, halve wrap cmp l st = .ok (.leave r) ∧ (∀ x, r = some x → x ∈ l ∧ cmp x = .eq) ∧
      (r = none → ∀ x ∈ l, cmp x ≠ .eq)) ∨
    ∃ st', halve wrap cmp l st = .ok (.again st') ∧ Narrowed cmp l st' ∧
      (st'.2 + 1 - st'.1).toNat < (st.2 + 1 - st.1).toNat := by
  obtain ⟨min, max⟩ := st
  obtain ⟨hlow, hup, hord, hleft, hright⟩ := hs
  simp only at hlow hup hord hleft hright
  by_cases hle : min ≤ max
  · obtain ⟨mid, hmid⟩ : ∃ mid : Nat, (min + max) / 2 = (mid : Int) := ⟨((min + max) / 2).toNat, by omega⟩
    have hwrap : (wrap (min + max)).tdiv 2 = (mid : Int) := by
      rw [hw.2 _ (by omega) (by omega), Int.tdiv_eq_ediv_of_nonneg (by omega), hmid]
    have hlt : mid < l.length := by omega
    have hx : l[mid]? = some l[mid] := List.getElem?_eq_getElem hlt
    have hhalve : ∀ r, (match cmp l[mid] with
        | .lt => (.ok (.again ((mid : Int) + 1, max)) : Outcome (Pass (Int × Int) (Option α)))
        | .gt => .ok (.again (min, (mid : Int) - 1))
        | .eq => .ok (.leave (some l[mid]))) = r → halve wrap cmp l (min, max) = r := by
      rintro r rfl
      simp only [halve, if_pos hle, hwrap, getAt_eq hx, ok_bind, pure_eq_ok]
    cases hc : cmp l[mid] with
    | lt =>
        refine .inr ⟨(mid + 1, max), hhalve _ (by rw [hc]), ⟨by omega, hup, by omega, fun i x hi hix => ?_, hright⟩, ?_⟩
        · exact (h.of_le (by omega) hix hx).1 hc
        · simp only
          omega
    | gt =>
        refine .inr ⟨(min, mid - 1), hhalve _ (by rw [hc]), ⟨hlow, by omega, by omega, hleft, fun i x hi hix => ?_⟩, ?_⟩
        · exact (h.of_le (by omega) hx hix).2 hc
        · simp only
          omega
    | eq =>
        refine .inl ⟨some l[mid], hhalve _ (by rw [hc]), fun x hx' => ?_, fun hn => by cases hn⟩
        cases hx'
        exact ⟨List.getElem_mem hlt, hc⟩
  · refine .inl ⟨none, by simp [halve, hle], by simp, fun _ x hx he => ?_⟩
    obtain ⟨i, hi⟩ := List.mem_iff_getElem?.mp hx
    rcases Int.lt_or_le (i : Int) min with hlt | hge
    · rw [hleft i x hlt hi] at he
      cases he
    · rw [hright i x (by omega) hi] at he
      cases he

/-- The search finds an element at the place if there is one. -/
theorem search_spec (hw : Fits wrap l) (h : Divided cmp l) : ∃ r, search wrap cmp l = .ok r ∧
    (∀ x, r = some x → x ∈ l ∧ cmp x = .eq) ∧ (r = none → ∀ x ∈ l, cmp x ≠ .eq) := by
  rw [search, hw.1]
  refine loop_total (Narrowed cmp l) _ (fun st => (st.2 + 1 - st.1).toNat) (fun st hs => halve_spec hw h hs) ?_ ?_
  · refine ⟨Int.le_refl _, by omega, by omega, fun i x hi => ?_, fun i x hi hx => ?_⟩
    · simp only at hi
      omega
    · obtain ⟨hlt, -⟩ := List.getElem?_eq_some_iff.mp hx
      simp only at hi
      omega
  · simp only
    omega

/-- What is found is in the list, at the middle of an interval of positions that are
searched. -/
theorem search_some {x : α} (h : search wrap cmp l = .ok (some x)) (Inv : Int × Int → Prop)
    (hinit : Inv (0, wrap ((l.length : Int) - 1)))
    (hstep : ∀ st st', Inv st → halve wrap cmp l st = .ok (.again st') → Inv st') :
    ∃ st, Inv st ∧ halve wrap cmp l st = .ok (.leave (some x)) := by
  rw [search] at h
  generalize l.length + 1 = fuel at h
  generalize ((0, wrap ((l.length : Int) - 1)) : Int × Int) = st at h hinit
  induction fuel generalizing st with
  | zero => cases h
  | succ fuel ih =>
      rw [loop, bind_eq_ok] at h
      obtain ⟨pass, hpass, h⟩ := h
      cases pass with
      | leave r =>
          cases h
          exact ⟨st, hinit, hpass⟩
      | again st' => exact ih st' h (hstep st st' hinit hpass)

end GhidraDecompiler.BinarySearch
