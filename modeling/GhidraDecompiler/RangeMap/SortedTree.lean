import GhidraDecompiler.RangeMap.Basic
import Mathlib.Data.List.TakeWhile
import Mathlib.Data.List.InsertIdx

namespace GhidraDecompiler.RangeMap

open Fallible

/-- Where a property of the elements of a list is lost for good, the prefix that
has it can be split off. -/
theorem dropWhile_not {α : Type} {p : α → Bool} {l : List α} (h : l.Pairwise fun x y => p y = true → p x = true) :
    ∀ x ∈ l.dropWhile p, p x = false := by
  induction l with
  | nil => simp
  | cons a l ih =>
      obtain ⟨ha, hl⟩ := List.pairwise_cons.1 h
      by_cases hp : p a = true
      · rw [List.dropWhile_cons_of_pos hp]
        exact ih hl
      · rw [List.dropWhile_cons_of_neg hp]
        intro x hx
        rcases List.mem_cons.1 hx with rfl | hx
        · exact Bool.eq_false_iff.2 hp
        · exact Bool.eq_false_iff.2 fun hpx => hp (ha x hx hpx)

theorem insertIdx_append {α : Type} (before after : List α) (a : α) :
    (before ++ after).insertIdx before.length a = before ++ a :: after := by
  induction before with
  | nil => rfl
  | cons b before ih => simp [ih]

section Tree

variable {L S : Type} [LinearOrder L] [LinearOrder S] {tree : List (AddrRange L S)} {e f range : AddrRange L S}
  {last : L} {subsort : S}

def key (e : AddrRange L S) : L ×ₗ S := toLex (e.last, e.subsort)

theorem compareKey_lt_iff : compareKey e last subsort = .lt ↔ key e < toLex (last, subsort) := by
  rw [compareKey, key, Prod.Lex.toLex_lt_toLex]
  rcases lt_trichotomy e.last last with h | h | h
  · simp [compare_lt_iff_lt.2 h, h, h.ne]
  · simp [h, compare_lt_iff_lt]
  · simp [compare_gt_iff_gt.2 h, h.not_gt, h.ne']

theorem compareKey_gt_iff : compareKey e last subsort = .gt ↔ toLex (last, subsort) < key e := by
  rw [compareKey, key, Prod.Lex.toLex_lt_toLex]
  rcases lt_trichotomy e.last last with h | h | h
  · simp [compare_lt_iff_lt.2 h, h.not_gt, h.ne']
  · simp [h, compare_gt_iff_gt]
  · simp [compare_gt_iff_gt.2 h, h]

theorem less_iff : less e f = true ↔ key e < key f := by
  rw [less, decide_eq_true_iff, compareKey_lt_iff]
  rfl

theorem last_le_of_key_le (h : key e ≤ key f) : e.last ≤ f.last := by
  rcases Prod.Lex.toLex_le_toLex.1 h with h | h
  · exact h.le
  · exact h.1.le

theorem key_le_of_subsort_le (hlast : e.last = last) (hs : e.subsort ≤ subsort) : key e ≤ toLex (last, subsort) :=
  Prod.Lex.toLex_le_toLex.2 (.inr ⟨hlast, hs⟩)

/-- The tree is in the order of its keys. -/
def Sorted (tree : List (AddrRange L S)) : Prop := tree.Pairwise fun e f => key e ≤ key f

theorem Sorted.lowerBound_split (h : Sorted tree) (last : L) (subsort : S) :
    ∃ before after, tree = before ++ after ∧ before.length = lowerBound tree last subsort ∧
      (∀ e ∈ before, key e < toLex (last, subsort)) ∧ ∀ e ∈ after, toLex (last, subsort) ≤ key e := by
  refine ⟨_, _, (List.takeWhile_append_dropWhile (p := fun e => compareKey e last subsort = .lt)).symm, rfl,
    fun e he => ?_, fun e he => ?_⟩
  · have hp := List.mem_takeWhile_imp he
    exact compareKey_lt_iff.1 (of_decide_eq_true hp)
  · have hlost := dropWhile_not (h.imp fun hef hf => ?_) e he
    · exact not_lt.1 (mt compareKey_lt_iff.2 (of_decide_eq_false hlost))
    · exact decide_eq_true (compareKey_lt_iff.2 (hef.trans_lt (compareKey_lt_iff.1 (of_decide_eq_true hf))))

theorem Sorted.upperBound_split (h : Sorted tree) (last : L) (subsort : S) :
    ∃ before after, tree = before ++ after ∧ before.length = upperBound tree last subsort ∧
      (∀ e ∈ before, key e ≤ toLex (last, subsort)) ∧ ∀ e ∈ after, toLex (last, subsort) < key e := by
  refine ⟨_, _, (List.takeWhile_append_dropWhile (p := fun e => compareKey e last subsort ≠ .gt)).symm, rfl,
    fun e he => ?_, fun e he => ?_⟩
  · have hp := List.mem_takeWhile_imp he
    exact not_lt.1 (mt compareKey_gt_iff.2 (of_decide_eq_true hp))
  · have hlost := dropWhile_not (h.imp fun hef hf => ?_) e he
    · exact compareKey_gt_iff.1 (not_not.1 (of_decide_eq_false hlost))
    · refine decide_eq_true fun hgt => ?_
      exact of_decide_eq_true hf (compareKey_gt_iff.2 ((compareKey_gt_iff.1 hgt).trans_le hef))

/-- The place splits the tree into the ranges that go before the new one and those
that go behind it. -/
def Fits (tree : List (AddrRange L S)) (range : AddrRange L S) (pos : Nat) : Prop :=
  ∃ before after, tree = before ++ after ∧ before.length = pos ∧ (∀ e ∈ before, key e ≤ key range) ∧
    ∀ e ∈ after, key range ≤ key e

theorem Sorted.fits_lowerBound (h : Sorted tree) (range : AddrRange L S) :
    Fits tree range (lowerBound tree range.last range.subsort) := by
  obtain ⟨before, after, htree, hlen, hbefore, hafter⟩ := h.lowerBound_split range.last range.subsort
  exact ⟨before, after, htree, hlen, fun e he => (hbefore e he).le, hafter⟩

theorem Sorted.fits_upperBound (h : Sorted tree) (range : AddrRange L S) :
    Fits tree range (upperBound tree range.last range.subsort) := by
  obtain ⟨before, after, htree, hlen, hbefore, hafter⟩ := h.upperBound_split range.last range.subsort
  exact ⟨before, after, htree, hlen, hbefore, fun e he => (hafter e he).le⟩

/-- Between two neighbours that are in order with it the new range fits. -/
theorem Sorted.fits_between (h : Sorted tree) {pos : Nat} (hpos : pos ≤ tree.length)
    (hleft : pos = 0 ∨ ∃ hlt : pos - 1 < tree.length, key tree[pos - 1] ≤ key range)
    (hright : pos = tree.length ∨ ∃ hlt : pos < tree.length, key range ≤ key tree[pos]) : Fits tree range pos := by
  have hget := List.pairwise_iff_getElem.1 h
  refine ⟨tree.take pos, tree.drop pos, (List.take_append_drop pos tree).symm, List.length_take_of_le hpos,
    fun e he => ?_, fun e he => ?_⟩
  · obtain ⟨i, hi, rfl⟩ := List.mem_take_iff_getElem.1 he
    obtain ⟨hlt, hprev⟩ := hleft.resolve_left (by omega)
    rcases Nat.lt_or_ge i (pos - 1) with hip | hip
    · exact (hget i (pos - 1) (by omega) hlt hip).trans hprev
    · obtain rfl : i = pos - 1 := by omega
      exact hprev
  · obtain ⟨i, hi, rfl⟩ := List.mem_drop_iff_getElem.1 he
    obtain ⟨hlt, hnext⟩ := hright.resolve_left (by omega)
    rcases Nat.eq_zero_or_pos i with rfl | hi0
    · exact hnext
    · exact hnext.trans (hget pos (pos + i) hlt (by omega) (by omega))

/-- Whatever the hint, the place found for the new range fits. -/
theorem Sorted.hintedPos_fits (h : Sorted tree) {hint : Nat} (hhint : hint ≤ tree.length) (range : AddrRange L S) :
    ∃ pos, hintedPos tree hint range = .ok pos ∧ Fits tree range pos := by
  have hread {i : Nat} (hi : i < tree.length) : getIdx tree i = .ok tree[i] := getIdx_eq (List.getElem?_eq_getElem hi)
  have hle {e f : AddrRange L S} (hless : ¬ less e f = true) : key f ≤ key e := not_lt.1 (mt less_iff.2 hless)
  rw [hintedPos]
  by_cases hend : hint = tree.length
  · rw [if_pos hend]
    by_cases hlen : 0 < tree.length
    · rw [if_pos hlen, hread (by omega), ok_bind]
      by_cases hless : less range tree[tree.length - 1] = true
      · rw [if_neg (not_not.2 hless)]
        exact ⟨_, rfl, h.fits_upperBound range⟩
      · rw [if_pos hless]
        exact ⟨_, rfl, h.fits_between le_rfl (.inr ⟨by omega, hle hless⟩) (.inl rfl)⟩
    · rw [if_neg hlen]
      exact ⟨_, rfl, h.fits_upperBound range⟩
  · have hlt : hint < tree.length := by omega
    rw [if_neg hend, hread hlt, ok_bind]
    by_cases hless : less tree[hint] range = true
    · rw [if_neg (not_not.2 hless)]
      have hhere := (less_iff.1 hless).le
      by_cases hlast : hint = tree.length - 1
      · rw [if_pos hlast]
        subst hlast
        exact ⟨_, rfl, h.fits_between le_rfl (.inr ⟨hlt, hhere⟩) (.inl rfl)⟩
      · rw [if_neg hlast, hread (show hint + 1 < tree.length by omega), ok_bind]
        by_cases hnext : less tree[hint + 1] range = true
        · rw [if_neg (not_not.2 hnext)]
          exact ⟨_, rfl, h.fits_lowerBound range⟩
        · rw [if_pos hnext]
          exact ⟨_, rfl, h.fits_between (by omega) (.inr ⟨hlt, hhere⟩) (.inr ⟨by omega, hle hnext⟩)⟩
    · rw [if_pos hless]
      by_cases hzero : hint = 0
      · rw [if_pos hzero]
        subst hzero
        exact ⟨_, rfl, h.fits_between (Nat.zero_le _) (.inl rfl) (.inr ⟨hlt, hle hless⟩)⟩
      · rw [if_neg hzero, hread (show hint - 1 < tree.length by omega), ok_bind]
        by_cases hprev : less range tree[hint - 1] = true
        · rw [if_neg (not_not.2 hprev)]
          exact ⟨_, rfl, h.fits_upperBound range⟩
        · rw [if_pos hprev]
          exact ⟨_, rfl, h.fits_between hhint (.inr ⟨by omega, hle hprev⟩) (.inr ⟨hlt, hle hless⟩)⟩

theorem Sorted.of_fits {before after : List (AddrRange L S)} (h : Sorted (before ++ after))
    (hbefore : ∀ e ∈ before, key e ≤ key range) (hafter : ∀ e ∈ after, key range ≤ key e) :
    Sorted (before ++ range :: after) := by
  obtain ⟨hb, ha, hba⟩ := List.pairwise_append.1 h
  refine List.pairwise_append.2 ⟨hb, List.pairwise_cons.2 ⟨hafter, ha⟩, fun e he f hf => ?_⟩
  rcases List.mem_cons.1 hf with rfl | hf
  · exact hbefore e he
  · exact hba e he f hf

theorem insertAt_fits {pos : Nat} (h : Sorted tree) (hfits : Fits tree range pos) :
    ∃ before after, tree = before ++ after ∧ insertAt tree pos range = .ok (before ++ range :: after) ∧
      before.length = pos ∧ Sorted (before ++ range :: after) ∧ (∀ e ∈ before, key e ≤ key range) ∧
      ∀ e ∈ after, key range ≤ key e := by
  obtain ⟨before, after, rfl, rfl, hbefore, hafter⟩ := hfits
  refine ⟨before, after, rfl, ?_, rfl, h.of_fits hbefore hafter, hbefore, hafter⟩
  rw [insertAt, if_pos (by simp), insertIdx_append]

/-- An insertion near a hint keeps the order. -/
theorem insertHint_spec (h : Sorted tree) (hint : Nat) (hhint : hint ≤ tree.length) (range : AddrRange L S) :
    ∃ before after, tree = before ++ after ∧
      insertHint tree hint range = .ok (before ++ range :: after, before.length) ∧
      Sorted (before ++ range :: after) ∧ (∀ e ∈ before, key e ≤ key range) ∧ ∀ e ∈ after, key range ≤ key e := by
  obtain ⟨pos, hpos, hfits⟩ := h.hintedPos_fits hhint range
  obtain ⟨before, after, htree, hins, hlen, hsorted, hbefore, hafter⟩ := insertAt_fits h hfits
  exact ⟨before, after, htree, by rw [insertHint, hpos, ok_bind, hins, ok_bind, hlen]; rfl, hsorted, hbefore, hafter⟩

theorem insertPlain_spec (h : Sorted tree) (range : AddrRange L S) :
    ∃ before after, tree = before ++ after ∧
      insertPlain tree range = .ok (before ++ range :: after, before.length) ∧ Sorted (before ++ range :: after) := by
  obtain ⟨before, after, htree, hins, hlen, hsorted, -, -⟩ := insertAt_fits h (h.fits_upperBound range)
  exact ⟨before, after, htree, by simp only [insertPlain, hins, ok_bind, hlen]; rfl, hsorted⟩

end Tree

end GhidraDecompiler.RangeMap
