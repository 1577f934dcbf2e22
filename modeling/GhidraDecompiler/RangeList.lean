import Mathlib.Data.Prod.Lex
import Mathlib.Order.Nat
import Mathlib.Algebra.Order.Ring.Int
import GhidraDecompiler.Lib.SortedMap

namespace GhidraDecompiler

/-- The ranges of a list: the last offset of each, by the index of its space and its
first offset, which are what ranges are compared by. -/
structure RangeList where
  tree : SortedMap (Int ×ₗ Nat) Nat

namespace RangeList

abbrev Range := (Int ×ₗ Nat) × Nat

def Range.spc (r : Range) : Int := (ofLex r.1).1

def Range.first (r : Range) : Nat := (ofLex r.1).2

def Range.last (r : Range) : Nat := r.2

def key (spc : Int) (first : Nat) : Int ×ₗ Nat := toLex (spc, first)

def empty : RangeList := ⟨SortedMap.empty⟩

/-- A set keeps the range that is there when one with the same key is inserted. -/
def insertNew (t : RangeList) (spc : Int) (first last : Nat) : RangeList :=
  if (t.tree.lookup (key spc first)).isSome then t else ⟨t.tree.insert (key spc first) last⟩

def drop (t : RangeList) (r : Range) : RangeList := ⟨t.tree.remove r.1⟩

def upperBound (t : RangeList) (k : Int ×ₗ Nat) : Option Range := (t.tree.entries.filter fun x => k < x.1).head?

def beforeUpperBound (t : RangeList) (k : Int ×ₗ Nat) : Option Range := t.tree.floor k

def getRange (t : RangeList) (spc : Int) (offset : Nat) : Option Range :=
  if t.tree.entries.isEmpty then none
  else
    match t.beforeUpperBound (key spc offset) with
    | none => none
    | some found =>
        if found.spc ≠ spc then none
        else if found.last ≥ offset then some found
        else none

def overlappingStart (t : RangeList) (spc : Int) (first : Nat) : Option Range :=
  match t.beforeUpperBound (key spc first) with
  | some prev => if prev.spc = spc ∧ prev.last ≥ first then some prev else t.upperBound (key spc first)
  | none => t.upperBound (key spc first)

def collectSpan (t : RangeList) (spc : Int) (first last : Nat) : List Range :=
  match t.overlappingStart spc first with
  | none => []
  | some start =>
      if key spc last < start.1 then []
      else t.tree.entries.filter fun x => start.1 ≤ x.1 ∧ x.1 ≤ key spc last

/-- One pass of the loop of `insert_range`: the limits grow to those of a range that is
taken away. -/
def absorb (st : RangeList × Nat × Nat) (range : Range) : RangeList × Nat × Nat :=
  let first := if range.first < st.2.1 then range.first else st.2.1
  let last := if range.last > st.2.2 then range.last else st.2.2
  (st.1.drop range, first, last)

def insertRange (t : RangeList) (spc : Int) (first last : Nat) : RangeList :=
  let (t, first, last) := (t.collectSpan spc first last).foldl absorb (t, first, last)
  t.insertNew spc first last

/-- One pass of the loop of `remove_range`: what is left of a range on both sides. -/
def cut (spc : Int) (first last : Nat) (t : RangeList) (range : Range) : RangeList :=
  let lower := range.first
  let upper := range.last
  let t := t.drop range
  let t := if lower < first then t.insertNew spc lower ((first + (2 ^ 64 - 1)) % 2 ^ 64) else t
  if upper > last then t.insertNew spc ((last + 1) % 2 ^ 64) upper else t

def removeRange (t : RangeList) (spc : Int) (first last : Nat) : RangeList :=
  if t.tree.entries.isEmpty then t
  else (t.collectSpan spc first last).foldl (cut spc first last) t

def merge (t op2 : RangeList) : RangeList :=
  op2.tree.entries.foldl (fun t (range : Range) => t.insertRange range.spc range.first range.last) t

/-- A byte of a range. -/
def Range.Holds (r : Range) (spc : Int) (offset : Nat) : Prop := r.spc = spc ∧ r.first ≤ offset ∧ offset ≤ r.last

/-- The bytes of a list. -/
def Covers (t : RangeList) (spc : Int) (offset : Nat) : Prop := ∃ r ∈ t.tree.entries, Range.Holds r spc offset

/-- The ranges are not empty, fit into 64 bits and do not meet. -/
structure WellFormed (t : RangeList) : Prop where
  nonempty : ∀ r ∈ t.tree.entries, Range.first r ≤ Range.last r
  bounded : ∀ r ∈ t.tree.entries, Range.last r < 2 ^ 64
  disjoint : ∀ r ∈ t.tree.entries, ∀ r' ∈ t.tree.entries, r ≠ r' → Range.spc r = Range.spc r' →
    Range.last r < Range.first r' ∨ Range.last r' < Range.first r

variable {t t' : RangeList} {spc : Int} {first last : Nat} {r r' : Range}

theorem fst_eq_key (r : Range) : r.1 = key r.spc r.first := rfl

@[simp] theorem spc_mk (spc : Int) (first last : Nat) : Range.spc (key spc first, last) = spc := rfl

@[simp] theorem first_mk (spc : Int) (first last : Nat) : Range.first (key spc first, last) = first := rfl

@[simp] theorem last_mk (spc : Int) (first last : Nat) : Range.last (key spc first, last) = last := rfl

theorem key_le_key {s s' : Int} {a b : Nat} : key s a ≤ key s' b ↔ s < s' ∨ s = s' ∧ a ≤ b := Prod.Lex.toLex_le_toLex

theorem key_lt_key {s s' : Int} {a b : Nat} : key s a < key s' b ↔ s < s' ∨ s = s' ∧ a < b := Prod.Lex.toLex_lt_toLex

theorem eq_of_key (hr : r ∈ t.tree.entries) (hr' : r' ∈ t.tree.entries) (hs : r.spc = r'.spc)
    (hf : r.first = r'.first) : r = r' := by
  refine SortedMap.eq_of_key_eq hr hr' ?_
  rw [fst_eq_key, fst_eq_key, hs, hf]

theorem mem_drop : r' ∈ (t.drop r).tree.entries ↔ r' ∈ t.tree.entries ∧ r'.1 ≠ r.1 := SortedMap.mem_remove

/-- A range whose key is not there is put in. -/
theorem mem_insertNew (h : ∀ x ∈ t.tree.entries, x.1 ≠ key spc first) :
    r ∈ (t.insertNew spc first last).tree.entries ↔ r = (key spc first, last) ∨ r ∈ t.tree.entries := by
  have hnone : ¬ (t.tree.lookup (key spc first)).isSome = true := by
    intro hs
    obtain ⟨v, hv⟩ := Option.isSome_iff_exists.mp hs
    exact h _ (SortedMap.lookup_eq_some.mp hv) rfl
  rw [insertNew, if_neg hnone, SortedMap.mem_insert]
  constructor
  · rintro (he | ⟨hr, -⟩)
    · exact .inl he
    · exact .inr hr
  · rintro (he | hr)
    · exact .inl he
    · exact .inr ⟨hr, h r hr⟩

/-- The range up to a place is the one that holds it, if any does. -/
theorem floor_of_holds (h : t.WellFormed) {offset : Nat} (hr : r ∈ t.tree.entries) (hh : Range.Holds r spc offset) :
    t.beforeUpperBound (key spc offset) = some r := by
  obtain ⟨hs, hle, hge⟩ := hh
  refine SortedMap.floor_eq_some.mpr ⟨hr, ?_, fun y hy hyk => ?_⟩
  · rw [fst_eq_key, key_le_key]
    exact .inr ⟨hs, hle⟩
  · by_cases hyr : y = r
    · rw [hyr]
    · rw [fst_eq_key, fst_eq_key, key_le_key] at *
      rcases hyk with hyk | ⟨hys, hyo⟩
      · exact .inl (hs ▸ hyk)
      · have hd := h.disjoint r hr y hy (Ne.symm hyr) (hs.trans hys.symm)
        have := h.nonempty y hy
        exact .inr ⟨hys.trans hs.symm, by omega⟩

theorem getRange_eq_some_iff (h : t.WellFormed) {offset : Nat} :
    t.getRange spc offset = some r ↔ r ∈ t.tree.entries ∧ Range.Holds r spc offset := by
  constructor
  · intro hg
    rw [getRange] at hg
    split at hg
    · cases hg
    · cases hf : t.beforeUpperBound (key spc offset) with
      | none => simp [hf] at hg
      | some found =>
          simp only [hf] at hg
          split at hg
          · cases hg
          · next hs =>
            split at hg
            · next hl =>
              cases hg
              obtain ⟨hmem, hle, -⟩ := SortedMap.floor_eq_some.mp hf
              rw [fst_eq_key, key_le_key] at hle
              have hs : Range.spc r = spc := of_not_not hs
              refine ⟨hmem, hs, ?_, hl⟩
              rcases hle with hle | hle
              · exact absurd hs hle.ne
              · exact hle.2
            · cases hg
  · rintro ⟨hr, hh⟩
    have hne : ¬ t.tree.entries.isEmpty = true := by
      rw [List.isEmpty_iff]
      exact List.ne_nil_of_mem hr
    rw [getRange, if_neg hne, floor_of_holds h hr hh]
    simp [hh.1, hh.2.2]

theorem head?_filter_cases (t : RangeList) (k : Int ×ₗ Nat) :
    (t.upperBound k = none ∧ ∀ x ∈ t.tree.entries, x.1 ≤ k) ∨
      ∃ y, t.upperBound k = some y ∧ y ∈ t.tree.entries ∧ k < y.1 ∧ ∀ x ∈ t.tree.entries, k < x.1 → y.1 ≤ x.1 := by
  have hsorted : (t.tree.entries.filter fun x => k < x.1).Pairwise fun x y => x.1 < y.1 := t.tree.sorted.filter _
  have hmem : ∀ x, x ∈ (t.tree.entries.filter fun x => k < x.1) ↔ x ∈ t.tree.entries ∧ k < x.1 := by
    intro x
    simp [List.mem_filter]
  rw [upperBound]
  cases hl : t.tree.entries.filter fun x => k < x.1 with
  | nil =>
      refine .inl ⟨rfl, fun x hx => le_of_not_gt fun hlt => ?_⟩
      have := (hmem x).mpr ⟨hx, hlt⟩
      rw [hl] at this
      cases this
  | cons y l =>
      rw [hl] at hsorted hmem
      obtain ⟨hy, hky⟩ := (hmem y).mp (by simp)
      refine .inr ⟨y, rfl, hy, hky, fun x hx hkx => ?_⟩
      rcases List.mem_cons.mp ((hmem x).mpr ⟨hx, hkx⟩) with rfl | hx
      · exact le_refl _
      · exact ((List.pairwise_cons.mp hsorted).1 x hx).le

/-- The ranges of a span are those that meet it. -/
theorem mem_collectSpan (h : t.WellFormed) (hfl : first ≤ last) :
    r ∈ t.collectSpan spc first last ↔
      r ∈ t.tree.entries ∧ r.spc = spc ∧ r.first ≤ last ∧ first ≤ r.last := by
  have hcollect : ∀ start, t.overlappingStart spc first = some start →
      (r ∈ t.collectSpan spc first last ↔ r ∈ t.tree.entries ∧ start.1 ≤ r.1 ∧ r.1 ≤ key spc last) := by
    intro start hs
    simp only [collectSpan, hs]
    split
    · next hlt =>
      constructor
      · intro hr
        cases hr
      · rintro ⟨-, h₁, h₂⟩
        exact absurd (h₁.trans h₂) (not_le.mpr hlt)
    · simp [List.mem_filter]
  -- with no range at the start, the span begins with the first range behind it
  have hbehind : t.overlappingStart spc first = t.upperBound (key spc first) →
      (∀ x ∈ t.tree.entries, ¬ Range.Holds x spc first) → (r ∈ t.collectSpan spc first last ↔
      r ∈ t.tree.entries ∧ r.spc = spc ∧ r.first ≤ last ∧ first ≤ r.last) := by
    intro hstart hno
    have hiff : ∀ x : Range, x ∈ t.tree.entries → (key spc first < x.1 ∧ x.1 ≤ key spc last ↔
        x.spc = spc ∧ x.first ≤ last ∧ first ≤ x.last) := by
      intro x hx
      have hne := h.nonempty x hx
      have hx' := hno x hx
      rw [fst_eq_key, key_lt_key, key_le_key]
      constructor
      · rintro ⟨h₁, h₂⟩
        have hspc : x.spc = spc := by omega
        omega
      · rintro ⟨hspc, h₁, h₂⟩
        have : first < x.first := by
          by_contra hle
          exact hx' ⟨hspc, by omega, h₂⟩
        omega
    rcases head?_filter_cases t (key spc first) with ⟨hnone, hall⟩ | ⟨y, hsome, hy, hky, hmin⟩
    · have hnil : t.collectSpan spc first last = [] := by
        rw [collectSpan, hstart, hnone]
      rw [hnil]
      constructor
      · intro hr
        cases hr
      · rintro ⟨hr, hrest⟩
        exact absurd (hall r hr) (not_le.mpr ((hiff r hr).mpr hrest).1)
    · rw [hcollect y (hstart.trans hsome)]
      refine and_congr_right fun hr => ?_
      rw [← hiff r hr]
      exact and_congr_left fun _ => ⟨fun hle => hky.trans_le hle, fun hlt => hmin r hr hlt⟩
  cases hf : t.beforeUpperBound (key spc first) with
  | none =>
      refine hbehind (by simp [overlappingStart, hf]) fun x hx hh => ?_
      rw [floor_of_holds h hx hh] at hf
      cases hf
  | some prev =>
      by_cases hp : prev.spc = spc ∧ prev.last ≥ first
      · obtain ⟨hmem, hle, hmax⟩ := SortedMap.floor_eq_some.mp hf
        rw [hcollect prev (by simp [overlappingStart, hf, hp])]
        refine and_congr_right fun hr => ?_
        rw [fst_eq_key prev, fst_eq_key r, key_le_key, key_le_key]
        rw [fst_eq_key, key_le_key] at hle
        have hne := h.nonempty r hr
        by_cases heq : r = prev
        · subst heq
          omega
        · constructor
          · rintro ⟨h₁, h₂⟩
            have hspc : r.spc = spc := by omega
            have := h.disjoint r hr prev hmem heq (hspc.trans hp.1.symm)
            omega
          · rintro ⟨hspc, h₁, h₂⟩
            have := h.disjoint r hr prev hmem heq (hspc.trans hp.1.symm)
            omega
      · refine hbehind (by simp only [overlappingStart, hf, if_neg hp]) fun x hx hh => hp ?_
        rw [floor_of_holds h hx hh] at hf
        cases hf
        exact ⟨hh.1, hh.2.2⟩

theorem WellFormed.drop (h : t.WellFormed) (r : Range) : (t.drop r).WellFormed where
  nonempty x hx := h.nonempty x (mem_drop.mp hx).1
  bounded x hx := h.bounded x (mem_drop.mp hx).1
  disjoint x hx y hy := h.disjoint x (mem_drop.mp hx).1 y (mem_drop.mp hy).1

theorem mem_drop_of_ne (hr : r ∈ t.tree.entries) (hr' : r' ∈ t.tree.entries) (hne : r' ≠ r) :
    r' ∈ (t.drop r).tree.entries := mem_drop.mpr ⟨hr', fun he => hne (SortedMap.eq_of_key_eq hr' hr he)⟩

theorem covers_drop (hr : r ∈ t.tree.entries) {s : Int} {p : Nat} :
    t.Covers s p ↔ (t.drop r).Covers s p ∨ Range.Holds r s p := by
  constructor
  · rintro ⟨x, hx, hh⟩
    by_cases hxr : x = r
    · exact .inr (hxr ▸ hh)
    · exact .inl ⟨x, mem_drop_of_ne hr hx hxr, hh⟩
  · rintro (⟨x, hx, hh⟩ | hh)
    · exact ⟨x, (mem_drop.mp hx).1, hh⟩
    · exact ⟨r, hr, hh⟩

/-- All ranges of the space are clear of the interval. -/
def Clear (t : RangeList) (spc : Int) (first last : Nat) : Prop :=
  ∀ x ∈ t.tree.entries, Range.spc x = spc → Range.last x < first ∨ last < Range.first x

section Insert

variable (h : t.WellFormed) (hc : t.Clear spc first last) (hfl : first ≤ last)

include h hc hfl

theorem mem_insertNew_of_clear :
    r ∈ (t.insertNew spc first last).tree.entries ↔ r = (key spc first, last) ∨ r ∈ t.tree.entries := by
  refine mem_insertNew fun x hx he => ?_
  have hspc : Range.spc x = spc := congrArg (fun k => (ofLex k).1) he
  have hfirst : Range.first x = first := congrArg (fun k => (ofLex k).2) he
  have hx' := hc x hx hspc
  have hne := h.nonempty x hx
  omega

theorem WellFormed.insertNew (hl : last < 2 ^ 64) : (t.insertNew spc first last).WellFormed := by
  have hmem : ∀ x, x ∈ (t.insertNew spc first last).tree.entries ↔ x = (key spc first, last) ∨ x ∈ t.tree.entries :=
    fun x => mem_insertNew_of_clear h hc hfl
  refine ⟨fun x hx => ?_, fun x hx => ?_, fun x hx y hy hne hspc => ?_⟩
  · rcases (hmem x).mp hx with rfl | hx
    · exact hfl
    · exact h.nonempty x hx
  · rcases (hmem x).mp hx with rfl | hx
    · exact hl
    · exact h.bounded x hx
  · rcases (hmem x).mp hx with rfl | hx <;> rcases (hmem y).mp hy with rfl | hy
    · exact absurd rfl hne
    · exact (hc y hy hspc.symm).symm
    · exact hc x hx hspc
    · exact h.disjoint x hx y hy hne hspc

theorem covers_insertNew {s : Int} {p : Nat} :
    (t.insertNew spc first last).Covers s p ↔ t.Covers s p ∨ s = spc ∧ first ≤ p ∧ p ≤ last := by
  constructor
  · rintro ⟨x, hx, hh⟩
    rcases (mem_insertNew_of_clear h hc hfl).mp hx with rfl | hx
    · exact .inr ⟨hh.1.symm, hh.2⟩
    · exact .inl ⟨x, hx, hh⟩
  · rintro (⟨x, hx, hh⟩ | ⟨rfl, hp⟩)
    · exact ⟨x, (mem_insertNew_of_clear h hc hfl).mpr (.inr hx), hh⟩
    · exact ⟨(key s first, last), (mem_insertNew_of_clear h hc hfl).mpr (.inl rfl), rfl, hp⟩

end Insert

/-- The loop of `insert_range`: the interval and what is left of the list cover the
same bytes all the time, and what is not in the rest of the span is clear of it. -/
theorem foldl_absorb (span : List Range) (hnd : span.Nodup) (h : t.WellFormed) (hfl : first ≤ last)
    (hl : last < 2 ^ 64)
    (hspan : ∀ x ∈ span, x ∈ t.tree.entries ∧ x.spc = spc ∧ x.first ≤ last ∧ first ≤ x.last)
    (hclear : ∀ x ∈ t.tree.entries, Range.spc x = spc → x ∉ span → Range.last x < first ∨ last < Range.first x) :
    ∃ t' first' last', span.foldl absorb (t, first, last) = (t', first', last') ∧ t'.WellFormed ∧
      first' ≤ last' ∧ last' < 2 ^ 64 ∧ t'.Clear spc first' last' ∧
      ∀ s p, t'.Covers s p ∨ s = spc ∧ first' ≤ p ∧ p ≤ last' ↔ t.Covers s p ∨ s = spc ∧ first ≤ p ∧ p ≤ last := by
  induction span generalizing t first last with
  | nil => exact ⟨t, first, last, rfl, h, hfl, hl, fun x hx hs => hclear x hx hs (by simp), fun s p => Iff.rfl⟩
  | cons r span ih =>
      obtain ⟨hr, hspc, hrl, hrf⟩ := hspan r (by simp)
      obtain ⟨hnr, hnd⟩ := List.nodup_cons.mp hnd
      have hrne := h.nonempty r hr
      have hrb := h.bounded r hr
      have hmin : (if r.first < first then r.first else first) = min r.first first := by
        split <;> omega
      have hmax : (if r.last > last then r.last else last) = max r.last last := by
        split <;> omega
      obtain ⟨t', first', last', hfold, hwf, hfl', hl', hcl, hcov⟩ := @ih (t.drop r) (min r.first first)
        (max r.last last) hnd (h.drop r) (by omega) (by omega) (fun x hx => by
          obtain ⟨hxt, hxs, hxl, hxf⟩ := hspan x (by simp [hx])
          have hxr : x ≠ r := fun he => hnr (he ▸ hx)
          exact ⟨mem_drop_of_ne hr hxt hxr, hxs, by omega, by omega⟩) (fun x hx hs hn => by
          obtain ⟨hxt, hxr⟩ := mem_drop.mp hx
          have hxr : x ≠ r := fun he => hxr (by rw [he])
          have h₁ := hclear x hxt hs (by simp [hxr, hn])
          have h₂ := h.disjoint x hxt r hr hxr (hs.trans hspc.symm)
          have := h.nonempty x hxt
          omega)
      refine ⟨t', first', last', ?_, hwf, hfl', hl', hcl, fun s p => ?_⟩
      · rw [List.foldl_cons, ← hfold]
        simp only [absorb, hmin, hmax]
      · rw [hcov, covers_drop hr]
        constructor
        · rintro (hc | ⟨hs, hp⟩)
          · exact .inl (.inl hc)
          · by_cases hin : r.first ≤ p ∧ p ≤ r.last
            · exact .inl (.inr ⟨hspc.trans hs.symm, hin⟩)
            · exact .inr ⟨hs, by omega⟩
        · rintro ((hc | hh) | ⟨hs, hp⟩)
          · exact .inl hc
          · obtain ⟨h₁, h₂, h₃⟩ := hh
            exact .inr ⟨h₁.symm.trans hspc, by omega⟩
          · exact .inr ⟨hs, by omega⟩

theorem nodup_collectSpan (t : RangeList) (spc : Int) (first last : Nat) : (t.collectSpan spc first last).Nodup := by
  have hnd : t.tree.entries.Nodup := t.tree.sorted.imp fun hlt he => by
    rw [he] at hlt
    exact lt_irrefl _ hlt
  rw [collectSpan]
  split
  · exact List.nodup_nil
  · split
    · exact List.nodup_nil
    · exact hnd.filter _

theorem insertRange_spec (h : t.WellFormed) (hfl : first ≤ last) (hl : last < 2 ^ 64) :
    (t.insertRange spc first last).WellFormed ∧
      ∀ s p, (t.insertRange spc first last).Covers s p ↔ t.Covers s p ∨ s = spc ∧ first ≤ p ∧ p ≤ last := by
  obtain ⟨t', first', last', hfold, hwf, hfl', hl', hcl, hcov⟩ := foldl_absorb (t.collectSpan spc first last)
    (nodup_collectSpan t spc first last) h hfl hl (fun x hx => (mem_collectSpan h hfl).mp hx)
    (fun x hx hs hn => by
      by_contra hcon
      exact hn ((mem_collectSpan h hfl).mpr ⟨hx, hs, by omega, by omega⟩))
  have heq : t.insertRange spc first last = t'.insertNew spc first' last' := by
    simp only [insertRange, hfold]
  rw [heq]
  refine ⟨hwf.insertNew hcl hfl' hl', fun s p => ?_⟩
  rw [covers_insertNew hwf hcl hfl', hcov]

/-- Cutting one range that meets the interval takes away what they share. -/
theorem cut_spec (h : t.WellFormed) (hfl : first ≤ last) (hl : last < 2 ^ 64) (hr : r ∈ t.tree.entries)
    (hspc : r.spc = spc) (hrl : r.first ≤ last) (hrf : first ≤ r.last) :
    (t.cut spc first last r).WellFormed ∧ (∀ x ∈ t.tree.entries, x ≠ r → x ∈ (t.cut spc first last r).tree.entries) ∧
      ∀ s p, (t.cut spc first last r).Covers s p ↔ t.Covers s p ∧ ¬ (Range.Holds r s p ∧ first ≤ p ∧ p ≤ last) := by
  have hrne := h.nonempty r hr
  have hrb := h.bounded r hr
  have hother : ∀ x ∈ t.tree.entries, x ≠ r → Range.spc x = spc → Range.last x < r.first ∨ r.last < Range.first x :=
    fun x hx hxr hs => h.disjoint x hx r hr hxr (hs.trans hspc.symm)
  -- the range without its part from the interval on
  obtain ⟨t₁, ht₁, hwf₁, hmem₁, hcov₁⟩ : ∃ t₁, (if r.first < first then
      (t.drop r).insertNew spc r.first ((first + (2 ^ 64 - 1)) % 2 ^ 64) else t.drop r) = t₁ ∧ t₁.WellFormed ∧
      (∀ x, x ∈ t₁.tree.entries ↔ x ∈ (t.drop r).tree.entries ∨ r.first < first ∧ x = (key spc r.first, first - 1)) ∧
      ∀ s p, t₁.Covers s p ↔ (t.drop r).Covers s p ∨ s = spc ∧ r.first ≤ p ∧ p < first := by
    have hclear : (t.drop r).Clear spc r.first r.last := by
      intro x hx hs
      obtain ⟨hxt, hxr⟩ := mem_drop.mp hx
      exact hother x hxt (fun he => hxr (by rw [he])) hs
    by_cases hlow : r.first < first
    · have hmod : (first + (2 ^ 64 - 1)) % 2 ^ 64 = first - 1 := by omega
      have hclear' : (t.drop r).Clear spc r.first (first - 1) := by
        intro x hx hs
        have := hclear x hx hs
        omega
      rw [if_pos hlow, hmod]
      refine ⟨_, rfl, (h.drop r).insertNew hclear' (by omega) (by omega), fun x => ?_, fun s p => ?_⟩
      · rw [mem_insertNew_of_clear (h.drop r) hclear' (by omega), or_comm]
        simp [hlow]
      · rw [covers_insertNew (h.drop r) hclear' (by omega)]
        refine or_congr_right (and_congr_right fun _ => ?_)
        omega
    · rw [if_neg hlow]
      refine ⟨_, rfl, h.drop r, fun x => by simp [hlow], fun s p => ⟨.inl, ?_⟩⟩
      rintro (hc | ⟨-, hp⟩)
      · exact hc
      · omega
  have hcut : t.cut spc first last r =
      if r.last > last then t₁.insertNew spc ((last + 1) % 2 ^ 64) r.last else t₁ := by
    rw [← ht₁]
    rfl
  have hkeep : ∀ x ∈ t.tree.entries, x ≠ r → x ∈ t₁.tree.entries := fun x hx hxr =>
    (hmem₁ x).mpr (.inl (mem_drop_of_ne hr hx hxr))
  have hcovers : ∀ s p, (t₁.Covers s p ∨ s = spc ∧ last < p ∧ p ≤ r.last) ↔
      t.Covers s p ∧ ¬ (Range.Holds r s p ∧ first ≤ p ∧ p ≤ last) := by
    intro s p
    rw [hcov₁, covers_drop hr]
    have hno : (t.drop r).Covers s p → ¬ Range.Holds r s p := by
      rintro ⟨x, hx, hxs, hxp⟩ ⟨hs, hp⟩
      obtain ⟨hxt, hxr⟩ := mem_drop.mp hx
      have := hother x hxt (fun he => hxr (by rw [he])) (hxs.trans (hs.symm.trans hspc))
      omega
    have hholds : Range.Holds r s p ↔ s = spc ∧ r.first ≤ p ∧ p ≤ r.last := by
      rw [Range.Holds, hspc, eq_comm]
    rw [hholds]
    constructor
    · rintro ((hc | ⟨hs, hp⟩) | ⟨hs, hp⟩)
      · exact ⟨.inl hc, fun hcon => hno hc (hholds.mpr hcon.1)⟩
      · exact ⟨.inr ⟨hs, by omega⟩, by omega⟩
      · exact ⟨.inr ⟨hs, by omega⟩, by omega⟩
    · rintro ⟨hc | ⟨hs, hp⟩, hn⟩
      · exact .inl (.inl hc)
      · by_cases hlow : p < first
        · exact .inl (.inr ⟨hs, hp.1, hlow⟩)
        · exact .inr ⟨hs, by omega⟩
  rw [hcut]
  by_cases hhigh : r.last > last
  · have hmod : (last + 1) % 2 ^ 64 = last + 1 := Nat.mod_eq_of_lt (by omega)
    have hclear : t₁.Clear spc (last + 1) r.last := by
      intro x hx hs
      rcases (hmem₁ x).mp hx with hx | ⟨-, rfl⟩
      · obtain ⟨hxt, hxr⟩ := mem_drop.mp hx
        have := hother x hxt (fun he => hxr (by rw [he])) hs
        omega
      · left
        simp only [last_mk]
        omega
    rw [if_pos hhigh, hmod]
    refine ⟨hwf₁.insertNew hclear (by omega) hrb, fun x hx hxr => ?_, fun s p => ?_⟩
    · exact (mem_insertNew_of_clear hwf₁ hclear (by omega)).mpr (.inr (hkeep x hx hxr))
    · rw [covers_insertNew hwf₁ hclear (by omega), ← hcovers]
      refine or_congr_right (and_congr_right fun _ => ?_)
      omega
  · rw [if_neg hhigh]
    refine ⟨hwf₁, hkeep, fun s p => ?_⟩
    rw [← hcovers]
    refine ⟨.inl, ?_⟩
    rintro (hc | ⟨-, hp⟩)
    · exact hc
    · omega

theorem foldl_cut (span : List Range) (hnd : span.Nodup) (h : t.WellFormed) (hfl : first ≤ last) (hl : last < 2 ^ 64)
    (hspan : ∀ x ∈ span, x ∈ t.tree.entries ∧ x.spc = spc ∧ x.first ≤ last ∧ first ≤ x.last) :
    (span.foldl (cut spc first last) t).WellFormed ∧ ∀ s p, (span.foldl (cut spc first last) t).Covers s p ↔
      t.Covers s p ∧ ¬ ((∃ x ∈ span, Range.Holds x s p) ∧ first ≤ p ∧ p ≤ last) := by
  induction span generalizing t with
  | nil => exact ⟨h, fun s p => by simp⟩
  | cons r span ih =>
      obtain ⟨hr, hspc, hrl, hrf⟩ := hspan r (by simp)
      obtain ⟨hnr, hnd⟩ := List.nodup_cons.mp hnd
      obtain ⟨hwf, hkeep, hcov⟩ := cut_spec h hfl hl hr hspc hrl hrf
      obtain ⟨hwf', hcov'⟩ := ih hnd hwf (fun x hx => by
        obtain ⟨hxt, hrest⟩ := hspan x (by simp [hx])
        exact ⟨hkeep x hxt (fun he => hnr (he ▸ hx)), hrest⟩)
      refine ⟨hwf', fun s p => ?_⟩
      rw [List.foldl_cons, hcov', hcov]
      constructor
      · rintro ⟨⟨hc, hr'⟩, hrest⟩
        refine ⟨hc, ?_⟩
        rintro ⟨⟨x, hx, hh⟩, hp⟩
        rcases List.mem_cons.mp hx with rfl | hx
        · exact hr' ⟨hh, hp⟩
        · exact hrest ⟨⟨x, hx, hh⟩, hp⟩
      · rintro ⟨hc, hn⟩
        refine ⟨⟨hc, fun hh => hn ⟨⟨r, by simp, hh.1⟩, hh.2⟩⟩, ?_⟩
        rintro ⟨⟨x, hx, hh⟩, hp⟩
        exact hn ⟨⟨x, by simp [hx], hh⟩, hp⟩

theorem removeRange_spec (h : t.WellFormed) (hfl : first ≤ last) (hl : last < 2 ^ 64) :
    (t.removeRange spc first last).WellFormed ∧
      ∀ s p, (t.removeRange spc first last).Covers s p ↔ t.Covers s p ∧ ¬ (s = spc ∧ first ≤ p ∧ p ≤ last) := by
  rw [removeRange]
  split
  · next he =>
    refine ⟨h, fun s p => ⟨fun hc => ?_, fun hc => hc.1⟩⟩
    obtain ⟨x, hx, -⟩ := hc
    rw [List.isEmpty_iff.mp he] at hx
    cases hx
  · obtain ⟨hwf, hcov⟩ := foldl_cut (t.collectSpan spc first last) (nodup_collectSpan t spc first last) h hfl hl
      (fun x hx => (mem_collectSpan h hfl).mp hx)
    refine ⟨hwf, fun s p => ?_⟩
    rw [hcov]
    refine and_congr_right fun hc => not_congr ?_
    constructor
    · rintro ⟨⟨x, hx, hh⟩, hp⟩
      exact ⟨hh.1.symm.trans ((mem_collectSpan h hfl).mp hx).2.1, hp⟩
    · rintro ⟨rfl, hp⟩
      obtain ⟨x, hx, hh⟩ := hc
      obtain ⟨hs, h₁, h₂⟩ := hh
      exact ⟨⟨x, (mem_collectSpan h hfl).mpr ⟨hx, hs, by omega, by omega⟩, hs, h₁, h₂⟩, hp⟩

theorem merge_spec {op2 : RangeList} (h : t.WellFormed) (h₂ : op2.WellFormed) :
    (t.merge op2).WellFormed ∧ ∀ s p, (t.merge op2).Covers s p ↔ t.Covers s p ∨ op2.Covers s p := by
  suffices hfold : ∀ (l : List Range), (∀ x ∈ l, x ∈ op2.tree.entries) → ∀ t : RangeList, t.WellFormed →
      (l.foldl (fun t (range : Range) => t.insertRange range.spc range.first range.last) t).WellFormed ∧
      ∀ s p, (l.foldl (fun t (range : Range) => t.insertRange range.spc range.first range.last) t).Covers s p ↔
        t.Covers s p ∨ ∃ x ∈ l, Range.Holds x s p from
    hfold op2.tree.entries (fun x hx => hx) t h
  intro l
  induction l with
  | nil => exact fun _ t h => ⟨h, fun s p => by simp⟩
  | cons r l ih =>
      intro hl t h
      have hr := hl r (by simp)
      obtain ⟨hwf, hcov⟩ := @insertRange_spec t r.spc r.first r.last h (h₂.nonempty r hr) (h₂.bounded r hr)
      obtain ⟨hwf', hcov'⟩ := ih (fun x hx => hl x (by simp [hx])) _ hwf
      refine ⟨hwf', fun s p => ?_⟩
      rw [List.foldl_cons, hcov', hcov]
      simp only [List.mem_cons, exists_eq_or_imp, Range.Holds, @eq_comm _ s, or_assoc]

/-- The lists that calls can build, with the bytes that were added and removed. -/
inductive Built : RangeList → (Int → Nat → Prop) → Prop
  | new : Built empty (fun _ _ => False)
  | insert {t : RangeList} {bytes : Int → Nat → Prop} (spc : Int) {first last : Nat} (h : Built t bytes)
      (hfl : first ≤ last) (hl : last < 2 ^ 64) :
      Built (t.insertRange spc first last) (fun s p => bytes s p ∨ s = spc ∧ first ≤ p ∧ p ≤ last)
  | remove {t : RangeList} {bytes : Int → Nat → Prop} (spc : Int) {first last : Nat} (h : Built t bytes)
      (hfl : first ≤ last) (hl : last < 2 ^ 64) :
      Built (t.removeRange spc first last) (fun s p => bytes s p ∧ ¬ (s = spc ∧ first ≤ p ∧ p ≤ last))
  | merge {t op2 : RangeList} {bytes bytes₂ : Int → Nat → Prop} (h : Built t bytes) (h₂ : Built op2 bytes₂) :
      Built (t.merge op2) (fun s p => bytes s p ∨ bytes₂ s p)

theorem Built.spec {bytes : Int → Nat → Prop} (h : Built t bytes) :
    t.WellFormed ∧ ∀ s p, t.Covers s p ↔ bytes s p := by
  induction h with
  | new => exact ⟨⟨by simp [empty], by simp [empty], by simp [empty]⟩, by simp [Covers, empty]⟩
  | insert spc _ hfl hl ih =>
      obtain ⟨hwf, hcov⟩ := insertRange_spec ih.1 hfl hl
      exact ⟨hwf, fun s p => by rw [hcov, ih.2]⟩
  | remove spc _ hfl hl ih =>
      obtain ⟨hwf, hcov⟩ := removeRange_spec ih.1 hfl hl
      exact ⟨hwf, fun s p => by rw [hcov, ih.2]⟩
  | merge _ _ ih ih₂ =>
      obtain ⟨hwf, hcov⟩ := merge_spec ih.1 ih₂.1
      exact ⟨hwf, fun s p => by rw [hcov, ih.2, ih₂.2]⟩

/-- A list of ranges is the set of bytes that its calls have built. -/
theorem getRange_exact {bytes : Int → Nat → Prop} (h : Built t bytes) :
    (∀ r ∈ t.tree.entries, Range.first r ≤ Range.last r) ∧
      (∀ r ∈ t.tree.entries, ∀ r' ∈ t.tree.entries, r ≠ r' → Range.spc r = Range.spc r' →
        Range.last r < Range.first r' ∨ Range.last r' < Range.first r) ∧
      ∀ spc offset, ((∃ r ∈ t.tree.entries, t.getRange spc offset = some r ∧ Range.Holds r spc offset) ↔ bytes spc offset) ∧
        (t.getRange spc offset = none ↔ ¬ bytes spc offset) := by
  obtain ⟨hwf, hcov⟩ := h.spec
  refine ⟨hwf.nonempty, hwf.disjoint, fun spc offset => ?_⟩
  have hiff : (∃ r ∈ t.tree.entries, t.getRange spc offset = some r ∧ Range.Holds r spc offset) ↔ bytes spc offset := by
    rw [← hcov]
    constructor
    · rintro ⟨r, hr, -, hh⟩
      exact ⟨r, hr, hh⟩
    · rintro ⟨r, hr, hh⟩
      exact ⟨r, hr, (getRange_eq_some_iff hwf).mpr ⟨hr, hh⟩, hh⟩
  refine ⟨hiff, ?_⟩
  rw [← hiff]
  constructor
  · rintro hnone ⟨r, -, hsome, -⟩
    rw [hnone] at hsome
    cases hsome
  · intro hno
    cases hg : t.getRange spc offset with
    | none => rfl
    | some r =>
        obtain ⟨hr, hh⟩ := (getRange_eq_some_iff hwf).mp hg
        exact absurd ⟨r, hr, hg, hh⟩ hno

theorem getRange_exact_hole : ∃ t bytes, Built t bytes ∧ bytes 3 (2 ^ 64 - 1) ∧ ¬ bytes 3 5 ∧
    t.getRange 3 5 = none := by
  have h := (Built.new.insert 3 (Nat.zero_le (2 ^ 64 - 1)) (by decide)).remove 3 (Nat.le_refl 5) (by decide)
  have hno := ((getRange_exact h).2.2 3 5).2
  exact ⟨_, _, h, by simp, by simp, hno.mpr (by simp)⟩

def inRange (t : RangeList) (spc : Int) (offset size : Nat) : Bool :=
  if t.tree.entries.isEmpty then false
  else
    match t.beforeUpperBound (key spc offset) with
    | none => false
    | some found =>
        if found.spc ≠ spc then false
        else
          let last := ((offset + size) % 2 ^ 64 + (2 ^ 64 - 1)) % 2 ^ 64
          if last < offset then false else decide (found.last ≥ last)

def inRangeRange (t : RangeList) (rng : Range) : Bool :=
  if t.tree.entries.isEmpty then false
  else
    match t.beforeUpperBound rng.1 with
    | none => false
    | some found => if found.spc ≠ rng.spc then false else decide (found.last ≥ rng.last)

/-- The loop of `longest_fit` over the ranges from the first one on. -/
def fitLoop (spc : Int) (maxsize : Nat) : List Range → Nat → Nat → Nat
  | [], _, sizeres => sizeres
  | range :: ranges, offset, sizeres =>
      if range.spc ≠ spc then sizeres
      else if range.first > offset then sizeres
      else
        let sizeres := (sizeres + ((range.last + 1) % 2 ^ 64 + (2 ^ 64 - offset)) % 2 ^ 64) % 2 ^ 64
        if sizeres ≥ maxsize then sizeres else fitLoop spc maxsize ranges ((range.last + 1) % 2 ^ 64) sizeres

def longestFit (t : RangeList) (spc : Int) (offset maxsize : Nat) : Nat :=
  if t.tree.entries.isEmpty then 0
  else
    match t.beforeUpperBound (key spc offset) with
    | none => 0
    | some start =>
        if start.last < offset then 0
        else fitLoop spc maxsize (t.tree.entries.filter fun x => start.1 ≤ x.1) offset 0

theorem covers_lt (h : t.WellFormed) {s : Int} {p : Nat} (hc : t.Covers s p) : p < 2 ^ 64 := by
  obtain ⟨r, hr, -, -, hle⟩ := hc
  exact lt_of_le_of_lt hle (h.bounded r hr)

/-- The number of bytes is that of the run from `start` on, unless there are enough of them. -/
def Fits (t : RangeList) (spc : Int) (start maxsize n : Nat) : Prop :=
  (∀ i < n, t.Covers spc (start + i)) ∧ (n < maxsize → ¬ t.Covers spc (start + n))

/-- Where no range left holds the next byte, the run ends. -/
theorem fits_stop {start stop maxsize : Nat} {ranges : List Range} (hstart : start ≤ stop)
    (hrun : ∀ p, start ≤ p → p < stop → t.Covers spc p)
    (hrest : ∀ p, stop ≤ p → t.Covers spc p → ∃ x ∈ ranges, Range.Holds x spc p)
    (hnone : ∀ x ∈ ranges, ¬ Range.Holds x spc stop) : t.Fits spc start maxsize (stop - start) := by
  refine ⟨fun i hi => hrun _ (Nat.le_add_right _ _) (by omega), fun _ hc => ?_⟩
  rw [Nat.add_sub_of_le hstart] at hc
  obtain ⟨x, hx, hh⟩ := hrest stop (Nat.le_refl _) hc
  exact hnone x hx hh

/-- What the loop of `longest_fit` keeps: the run goes up to `stop`, and what follows it is in the ranges left. -/
theorem fitLoop_spec (h : t.WellFormed) {start : Nat} (maxsize : Nat)
    (hsmall : 0 < start ∨ ∃ p < 2 ^ 64, ¬ t.Covers spc p) (ranges : List Range) {stop : Nat} (hstart : start ≤ stop)
    (hmem : ∀ x ∈ ranges, x ∈ t.tree.entries) (hsorted : ranges.Pairwise fun x y => x.1 < y.1)
    (hspc : ∀ x ∈ ranges, spc ≤ x.spc) (hrun : ∀ p, start ≤ p → p < stop → t.Covers spc p)
    (hrest : ∀ p, stop ≤ p → t.Covers spc p → ∃ x ∈ ranges, Range.Holds x spc p)
    (hahead : ∀ x ∈ ranges, x.spc = spc → stop ≤ x.last) (hstop : stop ≤ 2 ^ 64) :
    t.Fits spc start maxsize (fitLoop spc maxsize ranges (stop % 2 ^ 64) (stop - start)) := by
  induction ranges generalizing stop with
  | nil => exact fits_stop hstart hrun hrest fun x hx => absurd hx List.not_mem_nil
  | cons range ranges ih =>
      obtain ⟨hlater, hsorted'⟩ := List.pairwise_cons.mp hsorted
      have hentry := hmem range (by simp)
      have hbounded := h.bounded range hentry
      have hlater' : ∀ x ∈ ranges, range.spc < x.spc ∨ range.spc = x.spc ∧ range.first < x.first := fun x hx =>
        key_lt_key.mp (hlater x hx)
      rw [fitLoop]
      split
      · next hother =>
        refine fits_stop hstart hrun hrest fun x hx hh => ?_
        have hlt := lt_of_le_of_ne (hspc range (by simp)) (Ne.symm hother)
        rcases List.mem_cons.mp hx with rfl | hx
        · exact hother hh.1
        · have := hlater' x hx
          have := hh.1
          omega
      · next hsame =>
        have hsame := of_not_not hsame
        have hle := hahead range (by simp) hsame
        have hmod : stop % 2 ^ 64 = stop := Nat.mod_eq_of_lt (by omega)
        rw [hmod]
        split
        · next hgap =>
          refine fits_stop hstart hrun hrest fun x hx hh => ?_
          obtain ⟨hs, hfirst, -⟩ := hh
          rcases List.mem_cons.mp hx with rfl | hx
          · omega
          · have := hlater' x hx
            omega
        · next hgap =>
          have hrun' : ∀ p, start ≤ p → p < range.last + 1 → t.Covers spc p := fun p hp hlt => by
            by_cases hbefore : p < stop
            · exact hrun p hp hbefore
            · exact ⟨range, hentry, hsame, by omega, by omega⟩
          -- the run is shorter than the space, so the sums do not wrap
          have hwrap : range.last + 1 - start < 2 ^ 64 := by
            rcases hsmall with hpos | ⟨p, hp, hnot⟩
            · omega
            · by_contra hge
              exact hnot (hrun' p (by omega) (by omega))
          have hsize : (stop - start + ((range.last + 1) % 2 ^ 64 + (2 ^ 64 - stop)) % 2 ^ 64) % 2 ^ 64 =
              range.last + 1 - start := by omega
          simp only [hsize]
          split
          · next henough => exact ⟨fun i hi => hrun' _ (Nat.le_add_right _ _) (by omega), fun hlt => by omega⟩
          · have hnext : ∀ x ∈ ranges, x.spc = spc → range.last < x.first := fun x hx hs => by
              have hne : range ≠ x := by
                rintro rfl
                exact lt_irrefl _ (hlater _ hx)
              have hd := h.disjoint range hentry x (hmem x (by simp [hx])) hne (hsame.trans hs.symm)
              have := hlater' x hx
              have := h.nonempty range hentry
              have := h.nonempty x (hmem x (by simp [hx]))
              omega
            have hrest' : ∀ p, range.last + 1 ≤ p → t.Covers spc p → ∃ x ∈ ranges, Range.Holds x spc p :=
              fun p hp hc => by
                obtain ⟨x, hx, hh⟩ := hrest p (by omega) hc
                rcases List.mem_cons.mp hx with rfl | hx
                · have := hh.2.2
                  omega
                · exact ⟨x, hx, hh⟩
            have hahead' : ∀ x ∈ ranges, x.spc = spc → range.last + 1 ≤ x.last := fun x hx hs => by
              have := hnext x hx hs
              have := h.nonempty x (hmem x (by simp [hx]))
              omega
            exact ih (by omega) (fun x hx => hmem x (by simp [hx])) hsorted' (fun x hx => hspc x (by simp [hx])) hrun'
              hrest' hahead' (by omega)

theorem longestFit_spec (h : t.WellFormed) {offset : Nat} (hoffset : offset < 2 ^ 64)
    (hsmall : 0 < offset ∨ ∃ p < 2 ^ 64, ¬ t.Covers spc p) (maxsize : Nat) :
    t.Fits spc offset maxsize (t.longestFit spc offset maxsize) := by
  have hnothing : ¬ t.Covers spc offset → t.Fits spc offset maxsize 0 := fun hno =>
    ⟨fun i hi => absurd hi (Nat.not_lt_zero i), fun _ => hno⟩
  rw [longestFit]
  split
  · next hempty =>
    refine hnothing ?_
    rintro ⟨r, hr, -⟩
    rw [List.isEmpty_iff.mp hempty] at hr
    cases hr
  · cases hfloor : t.beforeUpperBound (key spc offset) with
    | none =>
        refine hnothing ?_
        rintro ⟨r, hr, hh⟩
        rw [floor_of_holds h hr hh] at hfloor
        cases hfloor
    | some start =>
        obtain ⟨hmem, hle, hmax⟩ := SortedMap.floor_eq_some.mp hfloor
        have hholds : t.Covers spc offset → Range.Holds start spc offset := by
          rintro ⟨r, hr, hh⟩
          rw [floor_of_holds h hr hh] at hfloor
          cases hfloor
          exact hh
        dsimp only
        split
        · next hlt =>
          refine hnothing fun hc => ?_
          have := (hholds hc).2.2
          omega
        · next hlast =>
          have hsorted := t.tree.sorted.filter fun x => decide (start.1 ≤ x.1)
          have hmem' : ∀ x, x ∈ t.tree.entries.filter (fun x => decide (start.1 ≤ x.1)) ↔
              x ∈ t.tree.entries ∧ start.1 ≤ x.1 := fun x => by simp [List.mem_filter]
          rw [fst_eq_key, key_le_key] at hle
          by_cases hspc : start.spc = spc
          · have hfit := fitLoop_spec h maxsize hsmall _ (Nat.le_refl offset)
              (fun x hx => ((hmem' x).mp hx).1) hsorted (fun x hx => ?_) (fun p hp hlt => by omega)
              (fun p hp hc => ?_) (fun x hx hs => ?_) (by omega)
            · rwa [Nat.mod_eq_of_lt hoffset, Nat.sub_self] at hfit
            · have := ((hmem' x).mp hx).2
              rw [fst_eq_key, fst_eq_key, key_le_key] at this
              omega
            · obtain ⟨r, hr, hh⟩ := hc
              refine ⟨r, (hmem' r).mpr ⟨hr, ?_⟩, hh⟩
              by_cases hfirst : Range.first r ≤ offset
              · have hat := floor_of_holds h hr ⟨hh.1, hfirst, hp.trans hh.2.2⟩
                rw [hfloor] at hat
                cases hat
                exact le_refl _
              · rw [fst_eq_key, fst_eq_key, key_le_key]
                have := hh.1
                omega
            · obtain ⟨hx, hstart⟩ := (hmem' x).mp hx
              by_cases heq : start = x
              · subst heq
                omega
              · have hd := h.disjoint start hmem x hx heq (hspc.trans hs.symm)
                rw [fst_eq_key, fst_eq_key, key_le_key] at hstart
                have := h.nonempty x hx
                omega
          · -- the range before the address is one of another space
            obtain ⟨y, ys, hys⟩ := List.exists_cons_of_ne_nil (List.ne_nil_of_mem ((hmem' start).mpr ⟨hmem, le_refl _⟩))
            have hhead : Range.spc y ≠ spc := by
              rw [hys] at hsorted
              have hy := ((hmem' y).mp (hys ▸ List.mem_cons_self)).1
              have hmin : y.1 ≤ start.1 := by
                have hstart := (hmem' start).mpr ⟨hmem, le_refl _⟩
                rw [hys] at hstart
                rcases List.mem_cons.mp hstart with heq | hin
                · rw [heq]
                · exact ((List.pairwise_cons.mp hsorted).1 start hin).le
              rw [fst_eq_key, fst_eq_key, key_le_key] at hmin
              omega
            rw [hys, fitLoop, if_pos hhead]
            exact hnothing fun hc => hspc (hholds hc).1

theorem Fits.enough_iff {offset maxsize n : Nat} (h : t.Fits spc offset maxsize n) :
    maxsize ≤ n ↔ ∀ i < maxsize, t.Covers spc (offset + i) := by
  constructor
  · exact fun hle i hi => h.1 i (by omega)
  · intro hall
    by_contra hlt
    exact h.2 (by omega) (hall n (by omega))

theorem inRange_iff (h : t.WellFormed) {offset size : Nat} (hpos : 0 < size) (hend : offset + size ≤ 2 ^ 64) :
    t.inRange spc offset size = true ↔
      ∃ r ∈ t.tree.entries, Range.spc r = spc ∧ Range.first r ≤ offset ∧ offset + size - 1 ≤ Range.last r := by
  have hlast : ((offset + size) % 2 ^ 64 + (2 ^ 64 - 1)) % 2 ^ 64 = offset + size - 1 := by omega
  have hnot : ¬ offset + size - 1 < offset := by omega
  rw [inRange]
  constructor
  · intro hin
    split at hin
    · cases hin
    · cases hfloor : t.beforeUpperBound (key spc offset) with
      | none => simp [hfloor] at hin
      | some found =>
          simp only [hfloor, hlast, if_neg hnot] at hin
          split at hin
          · cases hin
          · next hs =>
            have hs := of_not_not hs
            obtain ⟨hmem, hle, -⟩ := SortedMap.floor_eq_some.mp hfloor
            rw [fst_eq_key, key_le_key] at hle
            exact ⟨found, hmem, hs, by omega, of_decide_eq_true hin⟩
  · rintro ⟨r, hr, hs, hfirst, hle⟩
    have hne : ¬ t.tree.entries.isEmpty = true := by
      rw [List.isEmpty_iff]
      exact List.ne_nil_of_mem hr
    rw [if_neg hne, floor_of_holds h hr ⟨hs, hfirst, by omega⟩]
    simp only [hlast, if_neg hnot, hs, ne_eq, not_true_eq_false, if_false]
    exact decide_eq_true hle

/-- All queries speak of the bytes that were added and removed; `in_range` only sees those of one stored range. -/
theorem queries_exact {bytes : Int → Nat → Prop} (h : Built t bytes) (spc : Int) {offset : Nat}
    (hoffset : offset < 2 ^ 64) :
    (∀ size, 0 < size → offset + size ≤ 2 ^ 64 →
      (t.inRange spc offset size = true ↔ (∀ i < size, bytes spc (offset + i)) ∧
        ∀ r ∈ t.tree.entries, Range.spc r = spc → Range.first r ≤ offset ∨ offset + size ≤ Range.first r) ∧
      t.inRangeRange (key spc offset, offset + size - 1) = t.inRange spc offset size) ∧
    (0 < offset ∨ (∃ p < 2 ^ 64, ¬ bytes spc p) → ∀ maxsize,
      (∀ i < t.longestFit spc offset maxsize, bytes spc (offset + i)) ∧
      (t.longestFit spc offset maxsize < maxsize → ¬ bytes spc (offset + t.longestFit spc offset maxsize)) ∧
      (maxsize ≤ t.longestFit spc offset maxsize ↔ ∀ i < maxsize, bytes spc (offset + i))) := by
  obtain ⟨hwf, hcov⟩ := h.spec
  refine ⟨fun size hpos hend => ⟨?_, ?_⟩, fun hsmall maxsize => ?_⟩
  · rw [inRange_iff hwf hpos hend]
    constructor
    · rintro ⟨r, hr, hs, hfirst, hle⟩
      refine ⟨fun i hi => (hcov _ _).mp ⟨r, hr, hs, by omega, by omega⟩, fun r' hr' hs' => ?_⟩
      by_cases heq : r' = r
      · rw [heq]
        exact .inl hfirst
      · have hd := hwf.disjoint r' hr' r hr heq (hs'.trans hs.symm)
        have := hwf.nonempty r' hr'
        omega
    · rintro ⟨hall, hstarts⟩
      obtain ⟨r, hr, hs, hfirst, hlast⟩ := (hcov _ _).mpr (hall 0 hpos)
      refine ⟨r, hr, hs, by omega, ?_⟩
      by_contra hshort
      -- the byte behind the range would be the first one of another range
      obtain ⟨r', hr', hs', hfirst', hle'⟩ := (hcov _ _).mpr (hall (Range.last r + 1 - offset) (by omega))
      have hne : r' ≠ r := by
        rintro rfl
        omega
      have hd := hwf.disjoint r' hr' r hr hne (hs'.trans hs.symm)
      have := hstarts r' hr' hs'
      have := hwf.nonempty r' hr'
      omega
  · have hlast : ((offset + size) % 2 ^ 64 + (2 ^ 64 - 1)) % 2 ^ 64 = offset + size - 1 := by omega
    have hnot : ¬ offset + size - 1 < offset := by omega
    simp only [inRangeRange, inRange, hlast, if_neg hnot, spc_mk, last_mk]
    rfl
  · simp only [← hcov] at hsmall ⊢
    have hfits := longestFit_spec hwf hoffset hsmall maxsize
    exact ⟨hfits.1, hfits.2, hfits.enough_iff⟩

theorem queries_exact_hole : ∃ t bytes, Built t bytes ∧ ¬ bytes 3 5 ∧ ∀ maxsize,
    (∀ i < t.longestFit 3 1 maxsize, bytes 3 (1 + i)) ∧
    (t.longestFit 3 1 maxsize < maxsize → ¬ bytes 3 (1 + t.longestFit 3 1 maxsize)) := by
  have h := (Built.new.insert 3 (Nat.zero_le (2 ^ 64 - 1)) (by decide)).remove 3 (Nat.le_refl 5) (by decide)
  have hexact := (queries_exact h 3 (show 1 < 2 ^ 64 by decide)).2 (.inl (by decide))
  exact ⟨_, _, h, by simp, fun maxsize => ⟨(hexact maxsize).1, (hexact maxsize).2.1⟩⟩

end RangeList

end GhidraDecompiler
