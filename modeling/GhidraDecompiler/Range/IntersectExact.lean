import GhidraDecompiler.Lib.Arcs
import GhidraDecompiler.Range.Intersect

namespace GhidraDecompiler.Range.CircleRange

open Pcode Arcs

section Overlaps

/-- The values of an overlap. -/
def Overlap.Mem : Overlap → Nat → Prop
  | .empty, _ => False
  | .range left right isempty, x => isempty = false ∧ Arc left right x
  | .pieces, _ => False

/-- The comparisons that lead to each code, in the order they are made. -/
def codeTable : Char → List (List Bool)
  | 'a' => [[false, false, false, true, true, true], [true, true, true, true, true, true]]
  | 'b' => [[false, false, false, false, true, true], [false, true, false, true, true, false], [true, true, false, false, false, false], [true, true, true, false, true, true]]
  | 'c' => [[false, false, false, false, false, true], [false, true, false, true, false, false], [false, true, true, true, true, true], [true, true, true, false, false, true]]
  | 'd' => [[false, false, false, true, true, false], [true, false, false, false, false, false], [true, false, true, false, true, true], [true, true, true, true, true, false]]
  | 'e' => [[false, false, false, true, false, false], [false, false, true, true, true, true], [true, false, true, false, false, true], [true, true, true, true, false, false]]
  | 'f' => [[true, false, false, false, false, true], [true, true, false, true, false, false]]
  | _ => []

def codeOf (a b c d e f : Bool) : Char :=
  arrange.getD ((((((if a then 0x20 else 0) ||| if b then 0x10 else 0) ||| if c then 8 else 0) ||| if d then 4 else 0) |||
    if e then 2 else 0) ||| if f then 1 else 0) 'g'

theorem codeOf_table (code : Char) (hcode : code ∈ ['a', 'b', 'c', 'd', 'e', 'f']) :
    ∀ a b c d e f, codeOf a b c d e f = code ↔ [a, b, c, d, e, f] ∈ codeTable code := by
  simp only [List.mem_cons, List.not_mem_nil, or_false] at hcode
  rcases hcode with rfl | rfl | rfl | rfl | rfl | rfl <;> decide

theorem encodeRangeOverlaps_eq (l₁ r₁ l₂ r₂ : Nat) :
    encodeRangeOverlaps l₁ r₁ l₂ r₂ = codeOf (decide (l₁ ≤ r₁)) (decide (l₁ ≤ l₂)) (decide (l₁ ≤ r₂)) (decide (r₁ ≤ l₂))
      (decide (r₁ ≤ r₂)) (decide (l₂ ≤ r₂)) := by
  simp only [encodeRangeOverlaps, codeOf, decide_eq_true_eq]

theorem encode_iff {l₁ r₁ l₂ r₂ : Nat} {code : Char} (hcode : code ∈ ['a', 'b', 'c', 'd', 'e', 'f']) :
    encodeRangeOverlaps l₁ r₁ l₂ r₂ = code ↔ [decide (l₁ ≤ r₁), decide (l₁ ≤ l₂), decide (l₁ ≤ r₂), decide (r₁ ≤ l₂),
      decide (r₁ ≤ r₂), decide (l₂ ≤ r₂)] ∈ codeTable code := by
  rw [encodeRangeOverlaps_eq, codeOf_table code hcode]

/-- Ranges that touch and do not overlap have a code of their own. -/
theorem encode_touch_right {l₁ r₁ l₂ : Nat} (h : (l₁ < r₁ ∧ r₁ < l₂) ∨ (r₁ < l₂ ∧ l₂ < l₁) ∨ (l₂ < l₁ ∧ l₁ < r₁)) :
    encodeRangeOverlaps l₁ r₁ l₂ l₁ = 'e' := by
  rw [encode_iff (by decide)]
  simp only [codeTable, List.mem_cons, List.cons.injEq, List.not_mem_nil, decide_eq_true_eq, decide_eq_false_iff_not,
    and_true, or_false]
  omega

theorem encode_touch_left {l₁ r₁ r₂ : Nat} (h : (l₁ < r₁ ∧ r₁ < r₂) ∨ (r₁ < r₂ ∧ r₂ < l₁) ∨ (r₂ < l₁ ∧ l₁ < r₁)) :
    encodeRangeOverlaps l₁ r₁ r₁ r₂ = 'a' ∨ encodeRangeOverlaps l₁ r₁ r₁ r₂ = 'f' := by
  rw [encode_iff (by decide), encode_iff (by decide)]
  simp only [codeTable, List.mem_cons, List.cons.injEq, List.not_mem_nil, decide_eq_true_eq, decide_eq_false_iff_not,
    and_true, or_false]
  omega

theorem overlap_mem {l₁ r₁ l₂ r₂ x : Nat} (h : overlap l₁ r₁ l₂ r₂ ≠ .pieces) :
    (overlap l₁ r₁ l₂ r₂).Mem x ↔ Arc l₁ r₁ x ∧ Arc l₂ r₂ x := by
  revert h
  rw [overlap]
  by_cases h₁ : l₁ = r₁
  · rw [if_pos h₁]
    simp only [Overlap.Mem, Arc, h₁, true_and, lt_self_iff_false, false_and, or_true, implies_true]
  by_cases h₂ : l₂ = r₂
  · rw [if_neg h₁, if_pos h₂]
    simp only [Overlap.Mem, Arc, h₂, true_and, lt_self_iff_false, false_and, or_true, and_true, implies_true]
  rw [if_neg h₁, if_neg h₂]
  split <;> intro h
  · next hcode =>
      rw [encode_iff (by decide)] at hcode
      simp [codeTable] at hcode
      simp only [Overlap.Mem, Arc, false_iff]
      omega
  · next hcode =>
      rw [encode_iff (by decide)] at hcode
      simp [codeTable] at hcode
      simp only [Overlap.Mem, Arc, false_iff]
      omega
  · next hcode =>
      rw [encode_iff (by decide)] at hcode
      simp [codeTable] at hcode
      simp only [overlapRange, Overlap.Mem, Arc, decide_eq_false_iff_not]
      omega
  · next hcode =>
      rw [encode_iff (by decide)] at hcode
      simp [codeTable] at hcode
      simp only [Overlap.Mem, Arc, true_and]
      omega
  · next hcode =>
      rw [encode_iff (by decide)] at hcode
      simp [codeTable] at hcode
      simp only [Overlap.Mem, Arc, true_and]
      omega
  · next hcode =>
      rw [encode_iff (by decide)] at hcode
      simp [codeTable] at hcode
      simp only [overlapRange, Overlap.Mem, Arc, decide_eq_false_iff_not]
      omega
  · next hcode =>
      -- the ends touch, and the table sends the other arrangements elsewhere
      by_cases htouch : l₁ = r₂
      · subst htouch
        have hbad : ¬ ((l₁ < r₁ ∧ r₁ < l₂) ∨ (r₁ < l₂ ∧ l₂ < l₁) ∨ (l₂ < l₁ ∧ l₁ < r₁)) := by
          intro hbad
          rw [encode_touch_right hbad] at hcode
          exact absurd hcode (by decide)
        rw [if_pos rfl]
        simp only [overlapRange, Overlap.Mem, Arc, decide_eq_false_iff_not]
        clear h hcode
        omega
      · rw [if_neg htouch] at h ⊢
        by_cases htouch' : l₂ = r₁
        · subst htouch'
          have hbad : ¬ ((l₁ < l₂ ∧ l₂ < r₂) ∨ (l₂ < r₂ ∧ r₂ < l₁) ∨ (r₂ < l₁ ∧ l₁ < l₂)) := by
            intro hbad
            rcases encode_touch_left hbad with heq | heq
            · rw [heq] at hcode
              exact absurd hcode (by decide)
            · rw [heq] at hcode
              exact absurd hcode (by decide)
          rw [if_pos rfl]
          simp only [overlapRange, Overlap.Mem, Arc, decide_eq_false_iff_not]
          clear h hcode
          omega
        · rw [if_neg htouch'] at h
          exact absurd rfl h
  · exact absurd rfl h

theorem overlap_left {l₁ r₁ l₂ r₂ left right : Nat} {isempty : Bool}
    (h : overlap l₁ r₁ l₂ r₂ = .range left right isempty) : left = l₁ ∨ left = l₂ := by
  have hrange : ∀ {l r left right : Nat} {isempty : Bool}, overlapRange l r = .range left right isempty → left = l := by
    intro l r left right isempty h
    injection h with h
    exact h.symm
  rw [overlap] at h
  split at h
  · injection h with h
    exact .inr h.symm
  split at h
  · injection h with h
    exact .inl h.symm
  split at h
  · cases h
  · cases h
  · exact .inr (hrange h)
  · injection h with h
    exact .inr h.symm
  · injection h with h
    exact .inl h.symm
  · exact .inl (hrange h)
  · split at h
    · exact .inr (hrange h)
    split at h
    · exact .inl (hrange h)
    · cases h
  · cases h

end Overlaps

section Meeting

variable {a : CircleRange} {ns nm l₁ r₁ l₂ r₂ rem x : Nat}

theorem contains_iff_arc (r : CircleRange) (x : Nat) :
    r.contains x = true ↔ r.isempty = false ∧ x % r.step = r.left % r.step ∧ Arc r.left r.right x := by
  rw [contains]
  by_cases hne : r.isempty = true
  · simp [hne]
  · have hne' : r.isempty = false := by simpa using hne
    rw [if_neg hne]
    by_cases hrem : x % r.step = r.left % r.step
    · rw [if_neg (by simp [hrem])]
      simp only [hne', hrem, true_and, Arc]
      split_ifs <;> simp <;> omega
    · have hstep : r.step ≠ 1 := by
        intro h1
        rw [h1, Nat.mod_one, Nat.mod_one] at hrem
        exact hrem rfl
      rw [if_pos ⟨hstep, Ne.symm hrem⟩]
      simp [hrem]

theorem meet_contains (hl₁ : l₁ % ns = rem) (hl₂ : l₂ % ns = rem) (h0 : (a.meet ns nm l₁ r₁ l₂ r₂).1 = 0) :
    (a.meet ns nm l₁ r₁ l₂ r₂).2.contains x = true ↔ x % ns = rem ∧ Arc l₁ r₁ x ∧ Arc l₂ r₂ x := by
  have hmem : overlap l₁ r₁ l₂ r₂ ≠ .pieces → ((overlap l₁ r₁ l₂ r₂).Mem x ↔ _) := overlap_mem
  rw [meet] at h0 ⊢
  cases hov : overlap l₁ r₁ l₂ r₂ with
  | empty =>
      rw [hov] at hmem
      rw [contains_iff_arc]
      simp only [Bool.true_eq_false, false_and, false_iff, not_and]
      intro _ h₁ h₂
      exact (hmem (by simp)).mpr ⟨h₁, h₂⟩
  | range left right isempty =>
      have hleft : left % ns = rem := by
        rcases overlap_left hov with rfl | rfl
        · exact hl₁
        · exact hl₂
      rw [hov] at hmem
      rw [contains_iff_arc]
      simp only [hleft]
      rw [← hmem (by simp), Overlap.Mem]
      exact and_left_comm
  | pieces =>
      rw [hov] at h0
      exact absurd h0 (show (2 : Int) ≠ 0 by decide)

theorem meet_unchanged (h : (a.meet ns nm l₁ r₁ l₂ r₂).1 ≠ 0) : (a.meet ns nm l₁ r₁ l₂ r₂).2 = a := by
  rw [meet] at h ⊢
  cases hov : overlap l₁ r₁ l₂ r₂ with
  | empty =>
      rw [hov] at h
      exact absurd rfl h
  | range left right isempty =>
      rw [hov] at h
      exact absurd rfl h
  | pieces => rfl

end Meeting

section Cutting

variable {a : CircleRange} {op2mask ns nm l₁ r₁ l₂ r₂ rem x : Nat}

/-- What is left of a range below a smaller mask is not taken for the whole circle. -/
def CutsClean (mask step left right : Nat) : Prop := ¬ (mask < left ∧ right < step ∧ right ≤ mask)

/-- The values of a stage: none, or those with the remainder between the new ends. -/
def Narrows (res : Bool × Nat × Nat) (mask step rem left right : Nat) : Prop :=
  match res with
  | (true, _, _) => ∀ x ≤ mask, x % step = rem → ¬ Arc left right x
  | (false, left', right') =>
      left' % step = rem ∧ right' % step = rem ∧ ∀ x ≤ mask, x % step = rem → (Arc left right x ↔ Arc left' right' x)

theorem newDomain_narrows (hrem : rem < ns) (hl : l₁ % ns = rem) (hr : r₁ % ns = rem) (hclean : CutsClean nm ns l₁ r₁) :
    Narrows (newDomain nm ns l₁ r₁) nm ns rem l₁ r₁ := by
  have hrem' : (if ns ≠ 1 then l₁ % ns else 0) = rem := by
    split
    · exact hl
    · next h1 => omega
  have hremmod : rem % ns = rem := Nat.mod_eq_of_lt hrem
  have hcut : ∀ x ≤ nm, x % ns = rem → _ := fun x hx hxrem =>
    arc_cut (N := nm + 1) hrem hl hr (by simp only [CutsClean] at hclean; omega)
      (Nat.lt_succ_of_le hx) hxrem
  simp only [newDomain, hrem']
  by_cases hboth : l₁ > nm ∧ r₁ > nm
  · rw [if_pos hboth]
    by_cases horder : l₁ < r₁
    · rw [if_pos horder]
      intro x hx hxrem
      exact (hcut x hx hxrem).1 ⟨hboth.1, hboth.2, horder⟩
    · rw [if_neg horder]
      refine ⟨hremmod, hremmod, fun x hx hxrem => ?_⟩
      exact iff_of_true ((hcut x hx hxrem).2.1 ⟨hboth.1, hboth.2, by omega⟩) (arc_self _ _)
  · rw [if_neg hboth]
    have harc : ∀ x ≤ nm, x % ns = rem →
        (Arc l₁ r₁ x ↔ Arc (if l₁ > nm then rem else l₁) (if r₁ > nm then rem else r₁) x) := fun x hx hxrem =>
      (hcut x hx hxrem).2.2 hboth
    have hend : ∀ {e}, e % ns = rem → (if e > nm then rem else e) % ns = rem := by
      intro e he
      split
      · exact hremmod
      · exact he
    by_cases heq : (if l₁ > nm then rem else l₁) = if r₁ > nm then rem else r₁
    · rw [if_pos heq]
      refine ⟨hremmod, hremmod, fun x hx hxrem => ?_⟩
      rw [harc x hx hxrem, heq]
      exact iff_of_true (arc_self _ _) (arc_self _ _)
    · rw [if_neg heq]
      exact ⟨hend hl, hend hr, harc⟩

theorem cut_contains (hrem : rem < ns) (hl₁ : l₁ % ns = rem) (hr₁ : r₁ % ns = rem) (hl₂ : l₂ % ns = rem)
    (hr₂ : r₂ % ns = rem) (hclean₁ : CutsClean (a.mask &&& op2mask) ns l₁ r₁)
    (hclean₂ : CutsClean (a.mask &&& op2mask) ns l₂ r₂) (hx : x ≤ a.mask &&& op2mask)
    (h0 : (a.cut op2mask ns l₁ r₁ l₂ r₂).1 = 0) :
    (a.cut op2mask ns l₁ r₁ l₂ r₂).2.contains x = true ↔ x % ns = rem ∧ Arc l₁ r₁ x ∧ Arc l₂ r₂ x := by
  have hnone : ({ a with isempty := true } : CircleRange).contains x = false := contains_of_isempty rfl
  simp only [cut] at h0 ⊢
  by_cases hmask : a.mask = a.mask &&& op2mask
  · rw [if_neg (not_not.mpr hmask)] at h0 ⊢
    by_cases hmask' : op2mask = a.mask &&& op2mask
    · rw [if_neg (not_not.mpr hmask')] at h0 ⊢
      exact meet_contains hl₁ hl₂ h0
    · rw [if_pos hmask'] at h0 ⊢
      have hnarrow := newDomain_narrows hrem hl₂ hr₂ hclean₂
      generalize newDomain (a.mask &&& op2mask) ns l₂ r₂ = res at h0 hnarrow ⊢
      obtain ⟨off, l, r⟩ := res
      cases off with
      | true =>
          simp only [hnone, Bool.false_eq_true, false_iff, not_and]
          intro hxrem _
          exact hnarrow x hx hxrem
      | false =>
          obtain ⟨hl, -, harc⟩ := hnarrow
          rw [meet_contains hl₁ hl h0]
          refine and_congr_right fun hxrem => ?_
          rw [harc x hx hxrem]
  · rw [if_pos hmask] at h0 ⊢
    have hnarrow := newDomain_narrows hrem hl₁ hr₁ hclean₁
    generalize newDomain (a.mask &&& op2mask) ns l₁ r₁ = res at h0 hnarrow ⊢
    obtain ⟨off, l, r⟩ := res
    cases off with
    | true =>
        simp only [hnone, Bool.false_eq_true, false_iff, not_and]
        intro hxrem h₁ _
        exact hnarrow x hx hxrem h₁
    | false =>
        obtain ⟨hl, -, harc⟩ := hnarrow
        rw [meet_contains hl hl₂ h0]
        refine and_congr_right fun hxrem => ?_
        rw [harc x hx hxrem]

theorem cut_unchanged (h : (a.cut op2mask ns l₁ r₁ l₂ r₂).1 ≠ 0) : (a.cut op2mask ns l₁ r₁ l₂ r₂).2 = a := by
  simp only [cut] at h ⊢
  split at h
  · next hmask =>
      rw [if_pos hmask]
      split at h
      · exact absurd rfl h
      · exact meet_unchanged h
  · next hmask =>
      rw [if_neg hmask]
      split at h
      · next hmask' =>
          rw [if_pos hmask']
          split at h
          · exact absurd rfl h
          · exact meet_unchanged h
      · next hmask' =>
          rw [if_neg hmask']
          exact meet_unchanged h

end Cutting

section Striding

variable {n k step oldStep rem left right v x : Nat}

theorem strideEnd_eq (h : ByteSize n) (hstep : step ≤ 2 ^ 30) (hrem : rem < step) :
    strideEnd (maskOf n) step rem v = alignUp step rem v % 2 ^ (8 * n) := by
  have hlt := Nat.mod_lt v (Nat.zero_lt_of_lt hrem)
  have hsmall : v % step % 2 ^ 32 = v % step := Nat.mod_eq_of_lt (by omega)
  have hdvd : 2 ^ (8 * n) ∣ 2 ^ 64 := Nat.pow_dvd_pow 2 h.width_le
  simp only [strideEnd, hsmall, and_maskOf h, alignUp]
  by_cases hle : v % step ≤ rem
  · have hsub : wrappingSub32 rem (v % step) = rem - v % step := by
      rw [wrappingSub32]
      omega
    rw [if_neg (by omega), if_pos hle, hsub, wrappingAdd, Nat.mod_mod_of_dvd _ hdvd]
  · have hsub : wrappingSub32 (wrappingAdd32 rem step) (v % step) = rem + step - v % step := by
      rw [wrappingSub32, wrappingAdd32]
      omega
    rw [if_pos (by omega), if_neg hle, hsub, wrappingAdd, Nat.mod_mod_of_dvd _ hdvd]

/-- Moving the ends of a range up to a remainder. -/
def alignedLeft (r : CircleRange) (step rem : Nat) : Nat := alignUp step rem r.left % (r.mask + 1)

def alignedRight (r : CircleRange) (step rem : Nat) : Nat := alignUp step rem r.right % (r.mask + 1)

/-- Both ends stay below the mask, or both pass it. -/
def EndsTogether (r : CircleRange) (step rem : Nat) : Prop :=
  r.mask < alignUp step rem r.left ↔ r.mask < alignUp step rem r.right

def KeepsOrder (r : CircleRange) (step rem : Nat) : Prop :=
  r.left < r.right ↔ r.alignedLeft step rem < r.alignedRight step rem

theorem pow_dvd_or (i j : Nat) : 2 ^ i ∣ 2 ^ j ∨ 2 ^ j ∣ 2 ^ i := by
  rcases Nat.le_total i j with h | h
  · exact .inl (Nat.pow_dvd_pow 2 h)
  · exact .inr (Nat.pow_dvd_pow 2 h)

variable {r : CircleRange}

theorem WellFormed.lt (h : r.WellFormed) : r.left < r.mask + 1 ∧ r.right < r.mask + 1 :=
  ⟨Nat.lt_succ_of_le h.left, Nat.lt_succ_of_le h.right⟩

theorem WellFormed.mask_succ (h : r.WellFormed) : ∃ n, ByteSize n ∧ r.mask = maskOf n ∧ r.mask + 1 = 2 ^ (8 * n) := by
  obtain ⟨n, hn, hmask⟩ := h.mask
  refine ⟨n, hn, hmask, ?_⟩
  rw [hmask, maskOf_eq hn, Nat.sub_add_cancel Nat.one_le_two_pow]

/-- The values of a range with a remainder of the new step. -/
def Strides (res : Bool × Nat × Nat) (r : CircleRange) (step rem : Nat) : Prop :=
  match res with
  | (true, _, _) => ∀ x ≤ r.mask, x % step = rem → r.contains x = false
  | (false, left, right) =>
      r.left % r.step = rem % r.step ∧ KeepsOrder r step rem ∧
        left = r.alignedLeft step rem ∧ right = r.alignedRight step rem ∧
        ∀ x ≤ r.mask, x % step = rem → (r.contains x = true ↔ Arc left right x)

theorem newStride_strides (h : r.WellFormed) (hne : r.isempty = false) (hk : k < 31) (hlt : r.step < 2 ^ k)
    (hrem : rem < 2 ^ k) (htogether : r.left % r.step = rem % r.step → EndsTogether r (2 ^ k) rem) :
    Strides (newStride r.mask (2 ^ k) r.step rem r.left r.right) r (2 ^ k) rem := by
  obtain ⟨n, hn, hmask, hM⟩ := h.mask_succ
  obtain ⟨i, hi, hstep⟩ := h.step
  have hstep30 : 2 ^ k ≤ 2 ^ 30 := Nat.pow_le_pow_right (by decide) (by omega)
  have hdvd : r.step ∣ 2 ^ k := by
    rw [hstep] at hlt ⊢
    exact Nat.pow_dvd_pow 2 ((Nat.pow_lt_pow_iff_right (by decide)).mp hlt).le
  have hsmall : r.left % r.step % 2 ^ 32 = r.left % r.step := by
    have hpos : 0 < r.step := by
      rw [hstep]
      exact Nat.two_pow_pos i
    have := Nat.mod_lt r.left hpos
    exact Nat.mod_eq_of_lt (by omega)
  have hleft : strideEnd r.mask (2 ^ k) rem r.left = r.alignedLeft (2 ^ k) rem := by
    rw [alignedLeft, hM, hmask, strideEnd_eq hn hstep30 hrem]
  have hright : strideEnd r.mask (2 ^ k) rem r.right = r.alignedRight (2 ^ k) rem := by
    rw [alignedRight, hM, hmask, strideEnd_eq hn hstep30 hrem]
  have hold : ∀ x, x % 2 ^ k = rem → x % r.step = rem % r.step := by
    intro x hx
    rw [← hx, Nat.mod_mod_of_dvd _ hdvd]
  simp only [newStride, hsmall, hleft, hright]
  by_cases hres : r.left % r.step = rem % r.step
  · rw [if_neg (by simp [hres])]
    have harc : ∀ x ≤ r.mask, x % 2 ^ k = rem → _ := fun x hx hxrem =>
      arc_alignUp (M := r.mask + 1) hrem
        (by rw [hM]; exact pow_dvd_or k (8 * n)) h.lt.1 h.lt.2 (htogether hres) (Nat.lt_succ_of_le hx) hxrem
    by_cases horder : KeepsOrder r (2 ^ k) rem
    · rw [if_neg (by rw [ne_eq, not_not, decide_eq_decide]; exact horder)]
      refine ⟨hres, horder, rfl, rfl, fun x hx hxrem => ?_⟩
      rw [contains_iff_arc]
      simp only [hne, hold x hxrem, hres, true_and]
      rcases harc x hx hxrem with ⟨-, hiff⟩ | ⟨hnot, -⟩
      · exact hiff
      · exact absurd horder hnot
    · rw [if_pos (by rw [ne_eq, decide_eq_decide]; exact horder)]
      intro x hx hxrem
      rw [Bool.eq_false_iff, Ne, contains_iff_arc]
      rcases harc x hx hxrem with ⟨horder', -⟩ | ⟨-, hnot⟩
      · exact absurd horder' horder
      · exact fun hc => hnot hc.2.2
  · have hone : r.step ≠ 1 := by
      intro h1
      rw [h1, Nat.mod_one, Nat.mod_one] at hres
      exact hres rfl
    rw [if_pos ⟨hone, hres⟩]
    intro x hx hxrem
    rw [Bool.eq_false_iff, Ne, contains_iff_arc, hold x hxrem]
    exact fun hc => hres hc.2.1.symm

theorem aligned_mod (h : r.WellFormed) (hrem : rem < 2 ^ k) (hmask : rem ≤ r.mask) :
    r.alignedLeft (2 ^ k) rem % 2 ^ k = rem ∧ r.alignedRight (2 ^ k) rem % 2 ^ k = rem := by
  obtain ⟨n, hn, -, hM⟩ := h.mask_succ
  have hdvd : 2 ^ k ∣ r.mask + 1 ∨ r.mask + 1 ∣ 2 ^ k := by
    rw [hM]
    exact pow_dvd_or k (8 * n)
  have hend : ∀ e < r.mask + 1, alignUp (2 ^ k) rem e % (r.mask + 1) % 2 ^ k = rem := by
    intro e he
    by_cases hwrap : r.mask + 1 ≤ alignUp (2 ^ k) rem e
    · rw [alignUp_wrap hrem hdvd (Nat.lt_succ_of_le hmask) he hwrap, Nat.mod_eq_of_lt hrem]
    · rw [Nat.mod_eq_of_lt (Nat.lt_of_not_le hwrap), alignUp_mod hrem]
  exact ⟨hend _ h.lt.1, hend _ h.lt.2⟩

end Striding

section Exact

variable {a op2 : CircleRange} {x : Nat}

/-- None of the stages goes wrong: an end does not pass the mask alone, a range is
not cut to nothing and taken for everything, a remainder is not lost in a smaller
mask, and ranges of the same step have the same remainder. -/
def Safe (a op2 : CircleRange) : Prop :=
  a.isempty = false → op2.isempty = false →
    (a.step < op2.step → a.left % a.step = op2.left % op2.step % a.step →
      EndsTogether a op2.step (op2.left % op2.step) ∧
        (KeepsOrder a op2.step (op2.left % op2.step) →
          CutsClean (a.mask &&& op2.mask) op2.step (a.alignedLeft op2.step (op2.left % op2.step))
              (a.alignedRight op2.step (op2.left % op2.step)) ∧
            CutsClean (a.mask &&& op2.mask) op2.step op2.left op2.right)) ∧
    (op2.step < a.step → op2.left % op2.step = a.left % a.step % op2.step →
      EndsTogether op2 a.step (a.left % a.step) ∧
        (KeepsOrder op2 a.step (a.left % a.step) → a.left % a.step ≤ op2.mask ∧
          CutsClean (a.mask &&& op2.mask) a.step a.left a.right ∧
          CutsClean (a.mask &&& op2.mask) a.step (op2.alignedLeft a.step (a.left % a.step))
            (op2.alignedRight a.step (a.left % a.step)))) ∧
    (a.step = op2.step → a.left % a.step = op2.left % a.step ∧
      CutsClean (a.mask &&& op2.mask) a.step a.left a.right ∧ CutsClean (a.mask &&& op2.mask) a.step op2.left op2.right)

theorem mask_and (ha : a.WellFormed) (hb : op2.WellFormed) : a.mask &&& op2.mask = min a.mask op2.mask := by
  obtain ⟨n, hn, hmask, hM⟩ := ha.mask_succ
  obtain ⟨m, hm, hmask', hM'⟩ := hb.mask_succ
  rcases Nat.le_total n m with hle | hle
  · have hpow : 2 ^ (8 * n) ≤ 2 ^ (8 * m) := Nat.pow_le_pow_right (by decide) (by omega)
    rw [hmask', and_maskOf hm, Nat.mod_eq_of_lt (by omega), ← hmask', Nat.min_eq_left (by omega)]
  · have hpow : 2 ^ (8 * m) ≤ 2 ^ (8 * n) := Nat.pow_le_pow_right (by decide) (by omega)
    rw [Nat.and_comm, hmask, and_maskOf hn, Nat.mod_eq_of_lt (by omega), ← hmask, Nat.min_eq_right (by omega)]

theorem contains_cleared (a : CircleRange) : ({ a with isempty := true } : CircleRange).contains x = false :=
  contains_of_isempty rfl

theorem intersect_unchanged (h : (a.intersect op2).1 ≠ 0) : (a.intersect op2).2 = a := by
  simp only [intersect] at h ⊢
  split
  · rfl
  · next hne =>
      rw [if_neg hne] at h
      split
      · next hemp =>
          rw [if_pos hemp] at h
          exact absurd rfl h
      · next hemp =>
          rw [if_neg hemp] at h
          split
          · next hlt =>
              rw [if_pos hlt] at h
              split at h
              · exact absurd rfl h
              · exact cut_unchanged h
          · next hlt =>
              rw [if_neg hlt] at h
              split
              · next hgt =>
                  rw [if_pos hgt] at h
                  split at h
                  · exact absurd rfl h
                  · exact cut_unchanged h
              · next hgt =>
                  rw [if_neg hgt] at h
                  exact cut_unchanged h

/-- With a remainder that the smaller mask does not reach there is no value at all. -/
theorem cut_beyond {ns l r l₂ r₂ rem : Nat} (hlr : l = r) (hrem : rem < ns) (hl₂ : l₂ % ns = rem) (hr₂ : r₂ % ns = rem)
    (hbeyond : a.mask < rem) (hmask : a.mask &&& op2.mask = a.mask) (hx : x ≤ a.mask) :
    (a.cut op2.mask ns l r l₂ r₂).2.contains x = false := by
  have hlow : ∀ {y}, y % ns = rem → a.mask < y := by
    intro y hy
    have := Nat.mod_le y ns
    omega
  have hclean : CutsClean a.mask ns l₂ r₂ := by
    rw [CutsClean]
    have := hlow hr₂
    omega
  simp only [cut, hmask, ne_eq, not_true_eq_false, if_false]
  have hmeet : ∀ l' r', l' % ns = rem → (a.meet ns a.mask l r l' r').2.contains x = false := by
    intro l' r' hl'
    rw [meet, overlap, if_pos hlr, Bool.eq_false_iff, Ne, contains_iff_arc]
    simp only [hl']
    intro hc
    have := hlow hc.2.1
    omega
  split
  · have hnarrow := newDomain_narrows hrem hl₂ hr₂ hclean
    generalize newDomain a.mask ns l₂ r₂ = res at hnarrow ⊢
    obtain ⟨off, l', r'⟩ := res
    cases off with
    | true => exact contains_cleared a
    | false => exact hmeet l' r' hnarrow.1
  · exact hmeet l₂ r₂ hl₂

theorem both_contain_iff (hne : a.isempty = false) (hne₂ : op2.isempty = false) :
    (a.contains x && op2.contains x) = true ↔ (x % a.step = a.left % a.step ∧ Arc a.left a.right x) ∧
      (x % op2.step = op2.left % op2.step ∧ Arc op2.left op2.right x) := by
  rw [Bool.and_eq_true, contains_iff_arc, contains_iff_arc]
  simp only [hne, hne₂, true_and]

/-- The range with the smaller step on the left. -/
theorem intersect_finer (ha : a.WellFormed) (hb : op2.WellFormed) (hne : a.isempty = false) (hne₂ : op2.isempty = false)
    (hlt : a.step < op2.step) (hsafe : Safe a op2) (hx : x ≤ a.mask &&& op2.mask) (h0 : (a.intersect op2).1 = 0) :
    (a.intersect op2).2.contains x = (a.contains x && op2.contains x) := by
  obtain ⟨k, hk, hstep⟩ := hb.step
  have hsafe := (hsafe hne hne₂).1 hlt
  have hand := mask_and ha hb
  have hxa : x ≤ a.mask := by omega
  have hrem : op2.left % op2.step < op2.step := Nat.mod_lt _ (Nat.zero_lt_of_lt hlt)
  have hpow : 2 ^ k ≤ 2 ^ 30 := Nat.pow_le_pow_right (by decide) (by omega)
  have hsmall : op2.left % op2.step % 2 ^ 32 = op2.left % op2.step := Nat.mod_eq_of_lt (by omega)
  have hcong := hb.congruent
  have hboth : (a.contains x && op2.contains x) = true →
      x % op2.step = op2.left % op2.step ∧ a.contains x = true := by
    intro h
    rw [Bool.and_eq_true, contains_iff_arc op2] at h
    exact ⟨h.2.2.1, h.1⟩
  simp only [intersect, hne, hne₂, Bool.false_eq_true, if_false, if_pos hlt, hsmall] at h0 ⊢
  have hrem' : op2.left % op2.step < 2 ^ k := by
    rw [← hstep]
    exact hrem
  have hstride := newStride_strides ha hne hk (hstep ▸ hlt) hrem' (fun h => hstep ▸ (hsafe h).1)
  rw [← hstep] at hstride
  generalize newStride a.mask op2.step a.step (op2.left % op2.step) a.left a.right = res at h0 hstride ⊢
  obtain ⟨off, l, r⟩ := res
  cases off with
  | true =>
      simp only [contains_cleared]
      rw [eq_comm, Bool.eq_false_iff]
      intro h
      obtain ⟨hxrem, hmem⟩ := hboth h
      rw [hstride x hxa hxrem] at hmem
      exact absurd hmem (by decide)
  | false =>
      obtain ⟨hres, horder, hl, hr, harc⟩ := hstride
      obtain ⟨hclean, hclean₂⟩ := (hsafe hres).2 horder
      by_cases hfits : op2.left % op2.step ≤ a.mask
      · obtain ⟨hlmod, hrmod⟩ := aligned_mod ha hrem' hfits
        rw [← hstep, ← hl] at hlmod
        rw [← hstep, ← hr] at hrmod
        rw [← hl, ← hr] at hclean
        rw [Bool.eq_iff_iff, cut_contains hrem hlmod hrmod rfl hcong.symm hclean hclean₂ hx h0, Bool.and_eq_true,
          contains_iff_arc op2]
        simp only [hne₂, true_and]
        constructor
        · rintro ⟨hxrem, h₁, h₂⟩
          exact ⟨(harc x hxa hxrem).mpr h₁, hxrem, h₂⟩
        · rintro ⟨h₁, hxrem, h₂⟩
          exact ⟨hxrem, (harc x hxa hxrem).mp h₁, h₂⟩
      · have hbeyond : a.mask < op2.left % op2.step := Nat.lt_of_not_le hfits
        have hmask : a.mask &&& op2.mask = a.mask := by
          have := Nat.mod_le op2.left op2.step
          have := hb.left
          omega
        have hlr : l = r := by
          rw [hl, hr, alignedLeft, alignedRight, alignUp_of_lt (ha.left.trans_lt hbeyond) hrem,
            alignUp_of_lt (ha.right.trans_lt hbeyond) hrem]
        have hnone : (a.cut op2.mask op2.step l r op2.left op2.right).2.contains x = false :=
          cut_beyond hlr hrem rfl hcong.symm hbeyond hmask hxa
        simp only [hnone]
        rw [eq_comm, Bool.eq_false_iff]
        intro h
        have := (hboth h).1
        have := Nat.mod_le x op2.step
        omega

theorem intersect_coarser (ha : a.WellFormed) (hb : op2.WellFormed) (hne : a.isempty = false) (hne₂ : op2.isempty = false)
    (hlt : op2.step < a.step) (hsafe : Safe a op2) (hx : x ≤ a.mask &&& op2.mask) (h0 : (a.intersect op2).1 = 0) :
    (a.intersect op2).2.contains x = (a.contains x && op2.contains x) := by
  obtain ⟨k, hk, hstep⟩ := ha.step
  have hsafe := (hsafe hne hne₂).2.1 hlt
  have hand := mask_and ha hb
  have hxb : x ≤ op2.mask := by omega
  have hrem : a.left % a.step < a.step := Nat.mod_lt _ (Nat.zero_lt_of_lt hlt)
  have hpow : 2 ^ k ≤ 2 ^ 30 := Nat.pow_le_pow_right (by decide) (by omega)
  have hsmall : a.left % a.step % 2 ^ 32 = a.left % a.step := Nat.mod_eq_of_lt (by omega)
  have hcong := ha.congruent
  simp only [intersect, hne, hne₂, Bool.false_eq_true, if_false, if_neg (Nat.lt_asymm hlt), if_pos hlt, hsmall] at h0 ⊢
  have hrem' : a.left % a.step < 2 ^ k := by
    rw [← hstep]
    exact hrem
  have hstride := newStride_strides hb hne₂ hk (hstep ▸ hlt) hrem' (fun h => hstep ▸ (hsafe h).1)
  rw [← hstep] at hstride
  generalize newStride op2.mask a.step op2.step (a.left % a.step) op2.left op2.right = res at h0 hstride ⊢
  obtain ⟨off, l, r⟩ := res
  cases off with
  | true =>
      simp only [contains_cleared]
      rw [eq_comm, Bool.eq_false_iff]
      intro h
      rw [Bool.and_eq_true, contains_iff_arc a] at h
      rw [hstride x hxb h.1.2.1] at h
      exact absurd h.2 (by decide)
  | false =>
      obtain ⟨hres, horder, hl, hr, harc⟩ := hstride
      obtain ⟨hfits, hclean, hclean₂⟩ := (hsafe hres).2 horder
      obtain ⟨hlmod, hrmod⟩ := aligned_mod hb hrem' hfits
      rw [← hstep, ← hl] at hlmod
      rw [← hstep, ← hr] at hrmod
      rw [← hl, ← hr] at hclean₂
      rw [Bool.eq_iff_iff, cut_contains hrem rfl hcong.symm hlmod hrmod hclean hclean₂ hx h0, Bool.and_eq_true,
        contains_iff_arc a]
      simp only [hne, true_and]
      constructor
      · rintro ⟨hxrem, h₁, h₂⟩
        exact ⟨⟨hxrem, h₁⟩, (harc x hxb hxrem).mpr h₂⟩
      · rintro ⟨⟨hxrem, h₁⟩, h₂⟩
        exact ⟨hxrem, h₁, (harc x hxb hxrem).mp h₂⟩

theorem intersect_same (ha : a.WellFormed) (hb : op2.WellFormed) (hne : a.isempty = false) (hne₂ : op2.isempty = false)
    (heq : a.step = op2.step) (hsafe : Safe a op2) (hx : x ≤ a.mask &&& op2.mask) (h0 : (a.intersect op2).1 = 0) :
    (a.intersect op2).2.contains x = (a.contains x && op2.contains x) := by
  obtain ⟨k, -, hstep⟩ := ha.step
  obtain ⟨hres, hclean, hclean₂⟩ := (hsafe hne hne₂).2.2 heq
  have hrem : a.left % a.step < a.step := Nat.mod_lt _ (hstep ▸ Nat.two_pow_pos k)
  have hcong₂ : op2.right % a.step = a.left % a.step := by
    rw [hres, heq]
    exact hb.congruent.symm
  simp only [intersect, hne, hne₂, Bool.false_eq_true, if_false, heq, lt_irrefl] at h0 ⊢
  rw [← heq] at h0 ⊢
  rw [Bool.eq_iff_iff, cut_contains hrem rfl ha.congruent.symm hres.symm hcong₂ hclean hclean₂ hx h0, both_contain_iff hne hne₂,
    ← heq, ← hres]
  tauto

theorem intersect_contains (ha : a.WellFormed) (hb : op2.WellFormed) (hsafe : Safe a op2) (hx : x ≤ min a.mask op2.mask)
    (h0 : (a.intersect op2).1 = 0) : (a.intersect op2).2.contains x = (a.contains x && op2.contains x) := by
  rw [← mask_and ha hb] at hx
  cases hne : a.isempty with
  | true =>
      rw [intersect, if_pos hne]
      simp only [contains_of_isempty hne, Bool.false_and]
  | false =>
      cases hne₂ : op2.isempty with
      | true =>
          rw [intersect, if_neg (by simp [hne]), if_pos hne₂]
          simp only [contains_cleared, contains_of_isempty hne₂, Bool.and_false]
      | false =>
          rcases Nat.lt_trichotomy a.step op2.step with hlt | heq | hlt
          · exact intersect_finer ha hb hne hne₂ hlt hsafe hx h0
          · exact intersect_same ha hb hne hne₂ heq hsafe hx h0
          · exact intersect_coarser ha hb hne hne₂ hlt hsafe hx h0

instance (mask step left right : Nat) : Decidable (CutsClean mask step left right) := inferInstanceAs (Decidable (¬ _))

instance (r : CircleRange) (step rem : Nat) : Decidable (EndsTogether r step rem) := inferInstanceAs (Decidable (_ ↔ _))

instance (r : CircleRange) (step rem : Nat) : Decidable (KeepsOrder r step rem) := inferInstanceAs (Decidable (_ ↔ _))

instance (a op2 : CircleRange) : Decidable (Safe a op2) := inferInstanceAs (Decidable (_ → _ → _ ∧ _ ∧ _))

end Exact

end GhidraDecompiler.Range.CircleRange
