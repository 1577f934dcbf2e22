import GhidraDecompiler.Range.CircleUnion

namespace GhidraDecompiler.Range.CircleRange

open Pcode Arcs

variable {a b r : CircleRange} {x k right aRight bRight : Nat}

/-- With a step and an end the range has the values it had. -/
def Restepped (r : CircleRange) (step right : Nat) : Prop :=
  ∀ x ≤ r.mask, r.contains x = true ↔ x % step = r.left % step ∧ Arc r.left right x

theorem restepped_self (hne : r.isempty = false) : Restepped r r.step r.right := by
  intro x _
  rw [contains_iff_arc]
  simp only [hne, true_and]

theorem arc_step (h : r.WellFormed) (hx : x ≤ r.mask) :
    x % 2 ^ k = r.left % 2 ^ k ∧ Arc r.left (wrappingAdd r.left (2 ^ k) &&& r.mask) x ↔ x = r.left := by
  obtain ⟨n, hn, hmask, hM⟩ := h.mask_succ
  have hend : wrappingAdd r.left (2 ^ k) &&& r.mask = (r.left + 2 ^ k) % (r.mask + 1) := by
    rw [hM, hmask, and_maskOf hn, wrappingAdd, Nat.mod_mod_of_dvd _ (Nat.pow_dvd_pow 2 (by have := hn; simp only [ByteSize] at this; omega))]
  rw [hend]
  refine arc_step_iff (Nat.two_pow_pos k) ?_ h.lt.1 (Nat.lt_succ_of_le hx)
  rw [hM]
  exact pow_dvd_or k (8 * n)

theorem contains_of_isSingle (h : r.WellFormed) (hsingle : r.isSingle = true) (hx : x ≤ r.mask) :
    r.contains x = true ↔ x = r.left := by
  obtain ⟨k, hk, hstep⟩ := h.step
  obtain ⟨hne, hright⟩ : r.isempty = false ∧ r.right = wrappingAdd r.left r.step &&& r.mask := by
    simpa [isSingle] using hsingle
  rw [restepped_self hne x hx, hright, hstep]
  exact arc_step h hx

/-- A single value can take any step. -/
theorem restepped_single (h : r.WellFormed) (hsingle : r.isSingle = true) :
    Restepped r (2 ^ k) (wrappingAdd r.left (2 ^ k) &&& r.mask) := by
  intro x hx
  rw [contains_of_isSingle h hsingle hx, arc_step h hx]

theorem codeOf_mem : ∀ a b c d e f : Bool, codeOf a b c d e f ∈ ['a', 'b', 'c', 'd', 'e', 'f', 'g'] := by
  decide

theorem encode_mem (l₁ r₁ l₂ r₂ : Nat) : encodeRangeOverlaps l₁ r₁ l₂ r₂ ∈ ['a', 'b', 'c', 'd', 'e', 'f', 'g'] := by
  rw [encodeRangeOverlaps_eq]
  exact codeOf_mem _ _ _ _ _ _

theorem unionEnds_code (rem l₁ r₁ l₂ r₂ : Nat) :
    (unionEnds rem l₁ r₁ l₂ r₂).1 = 0 ∨ (unionEnds rem l₁ r₁ l₂ r₂).1 = 2 := by
  have hmem := encode_mem l₁ r₁ l₂ r₂
  rw [unionEnds]
  generalize encodeRangeOverlaps l₁ r₁ l₂ r₂ = code at hmem
  simp only [List.mem_cons, List.not_mem_nil, or_false] at hmem
  rcases hmem with rfl | rfl | rfl | rfl | rfl | rfl | rfl
  all_goals (first | (split_ifs <;> simp) | simp)

theorem unionEnds_left (rem l₁ r₁ l₂ r₂ : Nat) :
    (unionEnds rem l₁ r₁ l₂ r₂).2.1 = rem ∨ (unionEnds rem l₁ r₁ l₂ r₂).2.1 = l₁ ∨ (unionEnds rem l₁ r₁ l₂ r₂).2.1 = l₂ := by
  rw [unionEnds]
  repeat' split
  all_goals simp

/-- What a union of two ranges gives. -/
structure Union (a b : CircleRange) (res : Int × CircleRange) : Prop where
  exact_of_zero : res.1 = 0 → ∀ x, x ≤ a.mask ∨ x ≤ b.mask → (res.2.contains x = true ↔ a.contains x = true ∨ b.contains x = true)
  same_of_two : res.1 = 2 → res.2 = a
  code : res.1 = 0 ∨ res.1 = 2

theorem Union.refused (a b : CircleRange) : Union a b (2, a) :=
  ⟨fun h => absurd (show (2 : Int) = 0 from h) (by decide), fun _ => rfl, .inr rfl⟩

theorem Union.ok {res : CircleRange}
    (h : ∀ x, x ≤ a.mask ∨ x ≤ b.mask → (res.contains x = true ↔ a.contains x = true ∨ b.contains x = true)) :
    Union a b (0, res) :=
  ⟨fun _ => h, fun h => absurd (show (0 : Int) = 2 from h) (by decide), .inl rfl⟩

theorem join_union (ha : a.isempty = false) (hmask : a.mask = b.mask) (hk : 0 < k) (hra : Restepped a k aRight)
    (hrb : Restepped b k bRight) : Union a b (a.join b k aRight bRight) := by
  have hone : ∀ y, k = 1 → y % k = 0 := fun y h => by rw [h, Nat.mod_one]
  have hremeq : (if k ≠ 1 then a.left % k else 0) = a.left % k := by
    split_ifs with h
    · rfl
    · exact (hone _ (not_not.mp h)).symm
  rw [join, hremeq]
  by_cases hrem : k ≠ 1 ∧ a.left % k ≠ b.left % k
  · rw [if_pos hrem]
    exact Union.refused a b
  have hrem' : b.left % k = a.left % k := by
    by_cases hk1 : k = 1
    · rw [hone _ hk1, hone _ hk1]
    · by_contra hne
      exact hrem ⟨hk1, fun h => hne h.symm⟩
  have hor : ∀ x, x ≤ a.mask ∨ x ≤ b.mask →
      (a.contains x = true ∨ b.contains x = true ↔ x % k = a.left % k ∧ (Arc a.left aRight x ∨ Arc b.left bRight x)) := by
    intro x hx
    have hxa : x ≤ a.mask := hx.elim id fun h => hmask ▸ h
    rw [hra x hxa, hrb x (hmask ▸ hxa), hrem']
    tauto
  -- the ends of the result have the remainder of the first range
  have hends : ∀ left right, left % k = a.left % k →
      (∀ x, Arc left right x ↔ Arc a.left aRight x ∨ Arc b.left bRight x) →
      Union a b (0, { a with left := left, right := right, step := k }) := by
    intro left right hleft harc
    refine Union.ok fun x hx => ?_
    rw [hor x hx, contains_iff_arc]
    simp only [ha, true_and, hleft, harc x]
  rw [if_neg hrem]
  by_cases hfull : a.left = aRight ∨ b.left = bRight
  · rw [if_pos hfull]
    refine hends _ _ (Nat.mod_mod _ _) fun x => iff_of_true (arc_self _ _) ?_
    rcases hfull with h | h
    · rw [h]
      exact .inl (arc_self _ _)
    · rw [h]
      exact .inr (arc_self _ _)
  · rw [if_neg hfull]
    rw [not_or] at hfull
    have hcode := unionEnds_code (a.left % k) a.left aRight b.left bRight
    have hleft := unionEnds_left (a.left % k) a.left aRight b.left bRight
    have harc : ∀ {left right}, unionEnds (a.left % k) a.left aRight b.left bRight = (0, left, right) → _ := fun h x =>
      unionEnds_arc (x := x) hfull.1 hfull.2 h
    generalize unionEnds (a.left % k) a.left aRight b.left bRight = ends at hcode hleft harc ⊢
    obtain ⟨code, left, right⟩ := ends
    rcases hcode with rfl | rfl
    · refine hends left right ?_ (harc rfl)
      simp only at hleft
      rcases hleft with h | h | h
      · rw [h]
        exact Nat.mod_mod _ _
      · rw [h]
      · rw [h, hrem']
    · exact Union.refused a b

theorem circleUnion_union (ha : a.WellFormed) (hb : b.WellFormed) : Union a b (a.circleUnion b) := by
  rw [circleUnion]
  by_cases heb : b.isempty = true
  · rw [if_pos heb]
    refine Union.ok fun x _ => ?_
    simp [contains_of_isempty heb]
  by_cases hea : a.isempty = true
  · rw [if_neg heb, if_pos hea]
    refine Union.ok fun x _ => ?_
    simp [contains_of_isempty hea]
  rw [if_neg heb, if_neg hea]
  have hea' : a.isempty = false := by simpa using hea
  have heb' : b.isempty = false := by simpa using heb
  obtain ⟨i, -, hstepa⟩ := ha.step
  obtain ⟨j, -, hstepb⟩ := hb.step
  by_cases hmask : a.mask ≠ b.mask
  · rw [if_pos hmask]
    exact Union.refused a b
  rw [if_neg hmask]
  rw [not_not] at hmask
  split_ifs with hlt hsingle hgt hsingle
  · refine join_union hea' hmask ?_ ?_ (restepped_self heb')
    · rw [hstepb]
      exact Nat.two_pow_pos j
    · rw [hstepb]
      exact restepped_single ha hsingle
  · exact Union.refused a b
  · refine join_union hea' hmask ?_ (restepped_self hea') ?_
    · rw [hstepa]
      exact Nat.two_pow_pos i
    · rw [hstepa, hmask]
      exact restepped_single hb hsingle
  · exact Union.refused a b
  · have hsame : a.step = b.step := by omega
    refine join_union hea' hmask ?_ (restepped_self hea') ?_
    · rw [hstepa]
      exact Nat.two_pow_pos i
    · rw [hsame]
      exact restepped_self heb'

theorem circleUnion_exact (ha : a.WellFormed) (hb : b.WellFormed) :
    ((a.circleUnion b).1 = 0 → ∀ x, x ≤ a.mask ∨ x ≤ b.mask →
      ((a.circleUnion b).2.contains x = true ↔ a.contains x = true ∨ b.contains x = true)) ∧
    ((a.circleUnion b).1 = 2 → (a.circleUnion b).2 = a) ∧ (a.circleUnion b).1 ≠ -1 := by
  obtain ⟨hexact, hsame, hcode⟩ := circleUnion_union ha hb
  refine ⟨hexact, hsame, ?_⟩
  omega

/-- A single value takes the step of the other range and is joined to its end. -/
theorem circleUnion_exact_single :
    (⟨8, 9, 0xff, false, 1⟩ : CircleRange).circleUnion ⟨0, 8, 0xff, false, 4⟩ = (0, ⟨0, 12, 0xff, false, 4⟩) ∧
      ∀ x, x ≤ 0xff ∨ x ≤ 0xff → ((⟨0, 12, 0xff, false, 4⟩ : CircleRange).contains x = true ↔
        (⟨8, 9, 0xff, false, 1⟩ : CircleRange).contains x = true ∨ (⟨0, 8, 0xff, false, 4⟩ : CircleRange).contains x = true) := by
  have hrun : (⟨8, 9, 0xff, false, 1⟩ : CircleRange).circleUnion ⟨0, 8, 0xff, false, 4⟩ = (0, ⟨0, 12, 0xff, false, 4⟩) := by
    decide +kernel
  have ha : (⟨8, 9, 0xff, false, 1⟩ : CircleRange).WellFormed :=
    ⟨⟨1, by decide, by decide⟩, ⟨0, by decide, rfl⟩, by decide, by decide, by decide⟩
  have hb : (⟨0, 8, 0xff, false, 4⟩ : CircleRange).WellFormed :=
    ⟨⟨1, by decide, by decide⟩, ⟨2, by decide, rfl⟩, by decide, by decide, by decide⟩
  have hexact := (circleUnion_exact ha hb).1
  rw [hrun] at hexact
  exact ⟨hrun, hexact rfl⟩

end GhidraDecompiler.Range.CircleRange
