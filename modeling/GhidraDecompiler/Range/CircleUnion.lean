import GhidraDecompiler.Range.IntersectExact

namespace GhidraDecompiler.Range.CircleRange

open Pcode Arcs

def newBool (val : Bool) : CircleRange := ⟨if val then 1 else 0, val.toNat + 1, 0xff, false, 1⟩

def wrappingNot (a : Nat) : Nat := 2 ^ 64 - 1 - a

/-- The values of a zero extension. -/
def zextRange (r : CircleRange) (inSize : Int) : CircleRange :=
  { r with left := r.left % r.step, right := wrappingAdd (wrappingAdd (maskOf inSize) 1) (r.left % r.step), isempty := false }

/-- The values that are no sign extension. -/
def sextRange (r : CircleRange) (inSize outSize : Int) : CircleRange :=
  let val := maskOf inSize
  let left := wrappingAdd (val ^^^ (val >>> 1)) (r.left &&& r.step)
  { r with left := left, right := (signExtendSize (BitVec.ofNat 64 left) inSize outSize).toNat, isempty := false }

def pullBackUnary (r : CircleRange) (opc : OpCode) (inSize outSize : Int) : Bool × CircleRange :=
  if r.isempty then (true, r)
  else
    match opc with
    | .boolNegate =>
        match r.convertToBoolean with
        | (true, r) => (true, r)
        | (false, r) => (true, { r with left := r.left ^^^ 1, right := wrappingAdd (r.left ^^^ 1) 1 })
    | .copy => (true, r)
    | .int2comp =>
        let val := wrappingAdd (wrappingAdd (wrappingNot r.left) 1) r.step &&& r.mask
        (true, { r with left := wrappingAdd (wrappingAdd (wrappingNot r.right) 1) r.step &&& r.mask, right := val })
    | .intNegate =>
        let val := wrappingAdd (wrappingNot r.left) r.step &&& r.mask
        (true, { r with left := wrappingAdd (wrappingNot r.right) r.step &&& r.mask, right := val })
    | .intZext =>
        let val := maskOf inSize
        match r.intersect (r.zextRange inSize) with
        | (0, r) => (true, { r with left := r.left &&& val, right := r.right &&& val, mask := r.mask &&& val })
        | (_, r) => (false, r)
    | .intSext =>
        let val := maskOf inSize
        match (r.sextRange inSize outSize).intersect r with
        | (0, sextrange) =>
            if sextrange.isempty then
              (true, { r with left := r.left &&& val, right := r.right &&& val, mask := r.mask &&& val })
            else (false, r)
        | _ => (false, r)
    | _ => (false, r)

def isSingle (r : CircleRange) : Bool := !r.isempty && r.right = wrappingAdd r.left r.step &&& r.mask

/-- The code, and the ends that cover both ranges. -/
def unionEnds (rem left₁ right₁ left₂ right₂ : Nat) : Int × Nat × Nat :=
  match encodeRangeOverlaps left₁ right₁ left₂ right₂ with
  | 'a' | 'f' =>
      if right₁ = left₂ then (0, left₁, right₂)
      else if left₁ = right₂ then (0, left₂, right₁)
      else (2, left₁, right₁)
  | 'b' => (0, left₁, right₂)
  | 'c' => (0, left₁, right₁)
  | 'd' => (0, left₂, right₂)
  | 'e' => (0, left₂, right₁)
  | 'g' => (0, rem, rem)
  | _ => (-1, left₁, right₁)

/-- The last stage, on ends with the same step. -/
def join (a op2 : CircleRange) (newStep aRight bRight : Nat) : Int × CircleRange :=
  let rem := if newStep ≠ 1 then a.left % newStep else 0
  if newStep ≠ 1 ∧ rem ≠ op2.left % newStep then (2, a)
  else if a.left = aRight ∨ op2.left = bRight then (0, { a with left := rem, right := rem, step := newStep })
  else
    match unionEnds rem a.left aRight op2.left bRight with
    | (0, left, right) => (0, { a with left := left, right := right, step := newStep })
    | (code, _, _) => (code, a)

/-- A single value takes the step of the other range. -/
def circleUnion (a op2 : CircleRange) : Int × CircleRange :=
  if op2.isempty then (0, a)
  else if a.isempty then (0, op2)
  else if a.mask ≠ op2.mask then (2, a)
  else if a.step < op2.step then
    if a.isSingle then a.join op2 op2.step (wrappingAdd a.left op2.step &&& a.mask) op2.right else (2, a)
  else if op2.step < a.step then
    if op2.isSingle then a.join op2 a.step a.right (wrappingAdd op2.left a.step &&& a.mask) else (2, a)
  else a.join op2 a.step a.right op2.right

/-- The code, and the comparison that holds on the range with the constant and its
slot. -/
def translate2Op (r : CircleRange) : Int × OpCode × Nat × Nat :=
  if r.isempty then (3, .copy, 0, 0)
  else if r.step ≠ 1 then (2, .copy, 0, 0)
  else if r.right = wrappingAdd r.left 1 &&& r.mask then (0, .intEqual, r.left, 0)
  else if r.left = wrappingAdd r.right 1 &&& r.mask then (0, .intNotequal, r.right, 0)
  else if r.left = r.right then (1, .copy, 0, 0)
  else if r.left = 0 then (0, .intLess, r.right, 1)
  else if r.right = 0 then (0, .intLess, wrappingSub r.left 1 &&& r.mask, 0)
  else if r.left = wrappingAdd (r.mask >>> 1) 1 then (0, .intSless, r.right, 1)
  else if r.right = wrappingAdd (r.mask >>> 1) 1 then (0, .intSless, wrappingSub r.left 1 &&& r.mask, 0)
  else (2, .copy, 0, 0)

/-- A range of numbers of `n` bytes in steps of one. -/
structure Within (n : Nat) (r : CircleRange) : Prop where
  step : r.step = 1
  mask : r.mask = maskOf n
  left : r.left < 2 ^ (8 * n)
  right : r.right < 2 ^ (8 * n)

section Union

variable {a b : CircleRange} {n x : Nat}

/-- The ends are out of order, or the ranges go around the circle together. -/
theorem codeOf_gap : ∀ a b c d e f : Bool, codeOf a b c d e f = 'g' →
    (a && d && !b || a && e && !c || b && f && !c || d && f && !e || !a && !f && (!d || c) || a != f && (!d && c)) = true := by
  decide

/-- Two ranges that leave a value out have a code for how they lie. -/
theorem encode_of_gap {l₁ r₁ l₂ r₂ : Nat} (h₁ : ¬ Arc l₁ r₁ x) (h₂ : ¬ Arc l₂ r₂ x) :
    encodeRangeOverlaps l₁ r₁ l₂ r₂ ≠ 'g' := by
  intro hcode
  rw [encodeRangeOverlaps_eq] at hcode
  have hends := codeOf_gap _ _ _ _ _ _ hcode
  simp only [Arc, Bool.or_eq_true, Bool.and_eq_true, Bool.not_eq_true', decide_eq_true_eq, decide_eq_false_iff_not,
    bne_iff_ne, ne_eq, decide_eq_decide] at h₁ h₂ hends
  omega

theorem unionEnds_arc {rem l₁ r₁ l₂ r₂ left right : Nat} (h₁ : l₁ ≠ r₁) (h₂ : l₂ ≠ r₂)
    (h : unionEnds rem l₁ r₁ l₂ r₂ = (0, left, right)) : Arc left right x ↔ Arc l₁ r₁ x ∨ Arc l₂ r₂ x := by
  rw [unionEnds] at h
  split at h
  · next hcode =>
      rw [encode_iff (by decide)] at hcode
      simp [codeTable] at hcode
      split_ifs at h
      · injection h with _ h
        injection h with hl hr
        subst hl hr
        simp only [Arc]
        omega
      · injection h with _ h
        injection h with hl hr
        subst hl hr
        simp only [Arc]
        omega
      · injection h with h
        exact absurd h (by decide)
  · next hcode =>
      rw [encode_iff (by decide)] at hcode
      simp [codeTable] at hcode
      split_ifs at h
      · injection h with _ h
        injection h with hl hr
        subst hl hr
        simp only [Arc]
        omega
      · injection h with _ h
        injection h with hl hr
        subst hl hr
        simp only [Arc]
        omega
      · injection h with h
        exact absurd h (by decide)
  · next hcode =>
      rw [encode_iff (by decide)] at hcode
      simp [codeTable] at hcode
      injection h with _ h
      injection h with hl hr
      subst hl hr
      simp only [Arc]
      omega
  · next hcode =>
      rw [encode_iff (by decide)] at hcode
      simp [codeTable] at hcode
      injection h with _ h
      injection h with hl hr
      subst hl hr
      simp only [Arc]
      omega
  · next hcode =>
      rw [encode_iff (by decide)] at hcode
      simp [codeTable] at hcode
      injection h with _ h
      injection h with hl hr
      subst hl hr
      simp only [Arc]
      omega
  · next hcode =>
      rw [encode_iff (by decide)] at hcode
      simp [codeTable] at hcode
      injection h with _ h
      injection h with hl hr
      subst hl hr
      simp only [Arc]
      omega
  · next hcode =>
      injection h with _ h
      injection h with hl hr
      subst hl hr
      refine iff_of_true (arc_self _ _) ?_
      by_contra hgap
      rw [not_or] at hgap
      exact encode_of_gap hgap.1 hgap.2 hcode
  · injection h with h
    exact absurd h (by decide)

theorem unionEnds_lt {rem l₁ r₁ l₂ r₂ m : Nat} (hrem : rem < m) (hl₁ : l₁ < m) (hr₁ : r₁ < m) (hl₂ : l₂ < m)
    (hr₂ : r₂ < m) : (unionEnds rem l₁ r₁ l₂ r₂).2.1 < m ∧ (unionEnds rem l₁ r₁ l₂ r₂).2.2 < m := by
  rw [unionEnds]
  constructor <;> (repeat' split) <;> assumption

namespace Within

theorem contains_iff (ha : Within n a) : a.contains x = true ↔ a.isempty = false ∧ Arc a.left a.right x := by
  rw [contains_iff_arc, ha.step, Nat.mod_one, Nat.mod_one]
  simp only [true_and]

theorem circleUnion_spec (ha : Within n a) (hb : Within n b) (h0 : (a.circleUnion b).1 = 0) :
    Within n (a.circleUnion b).2 ∧ (a.circleUnion b).2.contains x = (a.contains x || b.contains x) := by
  have hpos : 0 < 2 ^ (8 * n) := Nat.two_pow_pos _
  rw [circleUnion] at h0 ⊢
  by_cases heb : b.isempty = true
  · rw [if_pos heb] at h0 ⊢
    exact ⟨ha, by rw [contains_of_isempty heb, Bool.or_false]⟩
  by_cases hea : a.isempty = true
  · rw [if_neg heb, if_pos hea] at h0 ⊢
    exact ⟨hb, by rw [contains_of_isempty hea, Bool.false_or]⟩
  have hsame : ¬ a.mask ≠ b.mask := by rw [ha.mask, hb.mask, not_not]
  rw [if_neg heb, if_neg hea, if_neg hsame, if_neg (by rw [ha.step, hb.step]; decide),
    if_neg (by rw [ha.step, hb.step]; decide), join] at h0 ⊢
  simp only [ha.step, ne_eq, not_true_eq_false, if_false, false_and] at h0 ⊢
  have hea' : a.isempty = false := by simpa using hea
  have heb' : b.isempty = false := by simpa using heb
  have hor : (a.contains x || b.contains x) = true ↔ Arc a.left a.right x ∨ Arc b.left b.right x := by
    rw [Bool.or_eq_true, ha.contains_iff, hb.contains_iff]
    simp only [hea', heb', true_and]
  by_cases hfull : a.left = a.right ∨ b.left = b.right
  · rw [if_pos hfull]
    have hall : Within n { a with left := 0, right := 0, step := 1 } := ⟨rfl, ha.mask, hpos, hpos⟩
    refine ⟨hall, ?_⟩
    rw [Bool.eq_iff_iff, hor, hall.contains_iff]
    refine iff_of_true ⟨hea', arc_self _ _⟩ ?_
    rcases hfull with h | h
    · rw [h]
      exact .inl (arc_self _ _)
    · rw [h]
      exact .inr (arc_self _ _)
  · rw [if_neg hfull] at h0 ⊢
    rw [not_or] at hfull
    have hlt := unionEnds_lt hpos ha.left ha.right hb.left hb.right
    have harc : ∀ {left right}, unionEnds 0 a.left a.right b.left b.right = (0, left, right) → _ :=
      unionEnds_arc (x := x) hfull.1 hfull.2
    generalize unionEnds 0 a.left a.right b.left b.right = ends at h0 hlt harc ⊢
    obtain ⟨code, left, right⟩ := ends
    split at h0
    · next heq =>
        cases heq
        have hends : Within n { a with left := left, right := right, step := 1 } := ⟨rfl, ha.mask, hlt.1, hlt.2⟩
        refine ⟨hends, ?_⟩
        rw [Bool.eq_iff_iff, hor, hends.contains_iff, ← harc rfl]
        simp only [hea', true_and]
    · next hne _ => exact absurd h0 hne

theorem wellFormed (h : ByteSize n) (ha : Within n a) : a.WellFormed := by
  have hmax := maskOf_eq h
  have hl := ha.left
  have hr := ha.right
  refine ⟨⟨n, h, ha.mask⟩, ⟨0, by decide, ha.step⟩, ?_, ?_, ?_⟩
  · rw [ha.mask]
    omega
  · rw [ha.mask]
    omega
  · rw [ha.step, Nat.mod_one, Nat.mod_one]

/-- Nothing is cut or aligned. -/
theorem safe (h : ByteSize n) (ha : Within n a) (hb : Within n b) : Safe a b := by
  have hmax := maskOf_eq h
  have hl := ha.left
  have hl' := hb.left
  intro _ _
  refine ⟨fun hlt => ?_, fun hlt => ?_, fun _ => ⟨?_, ?_, ?_⟩⟩
  · rw [ha.step, hb.step] at hlt
    exact absurd hlt (lt_irrefl 1)
  · rw [ha.step, hb.step] at hlt
    exact absurd hlt (lt_irrefl 1)
  · rw [ha.step, Nat.mod_one, Nat.mod_one]
  · rw [ha.mask, hb.mask, Nat.and_self, CutsClean]
    omega
  · rw [ha.mask, hb.mask, Nat.and_self, CutsClean]
    omega

theorem overlap_lt {l₁ r₁ l₂ r₂ left right m : Nat} {isempty : Bool} (hl₁ : l₁ < m) (hr₁ : r₁ < m) (hl₂ : l₂ < m)
    (hr₂ : r₂ < m) (h : overlap l₁ r₁ l₂ r₂ = .range left right isempty) : left < m ∧ right < m := by
  rw [overlap] at h
  repeat' split at h
  all_goals cases h <;> constructor <;> assumption

theorem meet_within {ns : Nat} (ha : Within n a) (hb : Within n b) (hstep : ns = 1) :
    Within n (a.meet ns (maskOf n) a.left a.right b.left b.right).2 := by
  rw [meet]
  cases hov : overlap a.left a.right b.left b.right with
  | empty => exact ⟨hstep, rfl, ha.left, ha.right⟩
  | range left right isempty =>
      obtain ⟨hl, hr⟩ := overlap_lt ha.left ha.right hb.left hb.right hov
      exact ⟨hstep, rfl, hl, hr⟩
  | pieces => exact ha

theorem intersect_spec (h : ByteSize n) (ha : Within n a) (hb : Within n b) (h0 : (a.intersect b).1 = 0)
    (hx : x < 2 ^ (8 * n)) :
    Within n (a.intersect b).2 ∧ (a.intersect b).2.contains x = (a.contains x && b.contains x) := by
  have hmax := maskOf_eq h
  refine ⟨?_, intersect_contains (ha.wellFormed h) (hb.wellFormed h) (ha.safe h hb) ?_ h0⟩
  · have hcleared : Within n { a with isempty := true } := ⟨ha.step, ha.mask, ha.left, ha.right⟩
    rw [intersect]
    split
    · exact ha
    split
    · exact hcleared
    rw [if_neg (by rw [ha.step, hb.step]; decide), if_neg (by rw [ha.step, hb.step]; decide), cut]
    simp only [ha.mask, hb.mask, Nat.and_self, ne_eq, not_true_eq_false, if_false]
    exact meet_within ha hb ha.step
  · rw [ha.mask, hb.mask, Nat.min_self]
    omega

end Within

theorem circleUnion_code (a b : CircleRange) : (a.circleUnion b).1 = 0 ∨ (a.circleUnion b).1 = 2 ∨ (a.circleUnion b).1 = -1 := by
  have hends : ∀ rem l₁ r₁ l₂ r₂, (unionEnds rem l₁ r₁ l₂ r₂).1 = 0 ∨ (unionEnds rem l₁ r₁ l₂ r₂).1 = 2 ∨
      (unionEnds rem l₁ r₁ l₂ r₂).1 = -1 := by
    intro rem l₁ r₁ l₂ r₂
    rw [unionEnds]
    repeat' split
    all_goals simp
  have hjoin : ∀ ns ar br, (a.join b ns ar br).1 = 0 ∨ (a.join b ns ar br).1 = 2 ∨ (a.join b ns ar br).1 = -1 := by
    intro ns ar br
    rw [join]
    generalize (if ns ≠ 1 then a.left % ns else 0) = rem
    split
    · exact .inr (.inl rfl)
    split
    · exact .inl rfl
    split
    · exact .inl rfl
    · next heq =>
        rw [← congrArg Prod.fst heq]
        exact hends _ _ _ _ _
  rw [circleUnion]
  split_ifs
  any_goals exact .inl rfl
  any_goals exact .inr (.inl rfl)
  all_goals exact hjoin _ _ _

theorem intersect_code (a b : CircleRange) : (a.intersect b).1 = 0 ∨ (a.intersect b).1 = 2 := by
  have hmeet : ∀ ns nm l₁ r₁ l₂ r₂, (a.meet ns nm l₁ r₁ l₂ r₂).1 = 0 ∨ (a.meet ns nm l₁ r₁ l₂ r₂).1 = 2 := by
    intro ns nm l₁ r₁ l₂ r₂
    rw [meet]
    split <;> simp
  have hcut : ∀ m ns l₁ r₁ l₂ r₂, (a.cut m ns l₁ r₁ l₂ r₂).1 = 0 ∨ (a.cut m ns l₁ r₁ l₂ r₂).1 = 2 := by
    intro m ns l₁ r₁ l₂ r₂
    rw [cut]
    repeat' split
    all_goals first | exact .inl rfl | exact hmeet _ _ _ _ _ _
  rw [intersect]
  repeat' split
  all_goals first | exact .inl rfl | exact hcut _ _ _ _ _ _

end Union

section Translate

variable {r : CircleRange} {n x : Nat}

theorem pred_and_maskOf (h : ByteSize n) {a : Nat} (ha : a < 2 ^ (8 * n)) (hpos : a ≠ 0) :
    wrappingSub a 1 &&& maskOf n = a - 1 := by
  have hle : 2 ^ (8 * n) ≤ 2 ^ 64 := Nat.pow_le_pow_right (by decide) h.width_le
  have hsub : wrappingSub a 1 = a - 1 := by
    rw [wrappingSub]
    omega
  rw [and_maskOf h, hsub, Nat.mod_eq_of_lt (by omega)]

/-- The comparison with the constant in its slot holds on the range. -/
structure Translates (n : Nat) (r : CircleRange) (opc : OpCode) (cval cslot : Nat) : Prop where
  opcode : opc ∈ comparisonOps
  constant : cval < 2 ^ (8 * n)
  holds : ∀ x < 2 ^ (8 * n), Holds n opc (operands (1 - cslot) x cval).1 (operands (1 - cslot) x cval).2 = r.contains x

theorem translate2Op_comparison {opc : OpCode} {cval cslot : Nat} (h : ByteSize n) (hr : Within n r)
    (ht : r.translate2Op = (0, opc, cval, cslot)) : cslot ≤ 1 ∧ Translates n r opc cval cslot := by
  have htwo := two_minSigned h
  have hpos := minSigned_pos n
  have hl := hr.left
  have hr' := hr.right
  have hne : r.isempty = false := by
    by_contra hne
    rw [translate2Op, if_pos (by simpa using hne)] at ht
    cases ht
  have harc : ∀ x, r.contains x = true ↔ Arc r.left r.right x := by
    intro x
    rw [hr.contains_iff]
    simp only [hne, true_and]
  have hcast : ((2 : Int) ^ (8 * n)) = minSigned n + minSigned n := by exact_mod_cast htwo
  have hmk : ∀ {opc : OpCode} {cval cslot : Nat}, cslot ≤ 1 → opc ∈ comparisonOps → cval < 2 ^ (8 * n) →
      (∀ x < 2 ^ (8 * n), Holds n opc (operands (1 - cslot) x cval).1 (operands (1 - cslot) x cval).2 = true ↔
        Arc r.left r.right x) → cslot ≤ 1 ∧ Translates n r opc cval cslot := by
    intro opc cval cslot hslot hopc hval hholds
    refine ⟨hslot, hopc, hval, fun x hx => ?_⟩
    rw [Bool.eq_iff_iff, harc]
    exact hholds x hx
  rw [translate2Op, if_neg (by simp [hne]), if_neg (by simp [hr.step]), hr.mask, maskOf_shiftRight h,
    wrappingAdd_minSigned h] at ht
  split at ht
  · next heq =>
      cases ht
      rw [succ_and_maskOf h hl] at heq
      refine hmk (by decide) (by decide) hl fun x hx => ?_
      simp only [Holds, operands, Arc]
      split at heq <;> simp <;> omega
  split at ht
  · next heq =>
      cases ht
      rw [succ_and_maskOf h hr'] at heq
      refine hmk (by decide) (by decide) hr' fun x hx => ?_
      simp only [Holds, operands, Arc]
      split at heq <;> simp <;> omega
  split at ht
  · cases ht
  split at ht
  · cases ht
    refine hmk (by decide) (by decide) hr' fun x hx => ?_
    simp only [Holds, operands, Arc]
    simp
    omega
  split at ht
  · next hleft _ =>
      cases ht
      rw [pred_and_maskOf h hl hleft]
      refine hmk (by decide) (by decide) (by omega) fun x hx => ?_
      simp only [Holds, operands, Arc]
      simp
      omega
  split at ht
  · cases ht
    refine hmk (by decide) (by decide) hr' fun x hx => ?_
    simp only [Holds, operands, Arc, decide_eq_true_eq, signedOf, hcast]
    simp
    split_ifs <;> omega
  split at ht
  · next hleft _ _ _ =>
      cases ht
      rw [pred_and_maskOf h hl hleft]
      refine hmk (by decide) (by decide) (by omega) fun x hx => ?_
      simp only [Holds, operands, Arc, decide_eq_true_eq, signedOf, hcast]
      simp
      split_ifs <;> omega
  · cases ht

theorem translate2Op_full (hr : Within n r) (ht : r.translate2Op.1 = 1) : r.contains x = true := by
  have hne : ¬ r.isempty = true := by
    intro he
    rw [translate2Op, if_pos he] at ht
    exact absurd ht (by simp)
  have heq : r.left = r.right := by
    by_contra hlr
    rw [translate2Op] at ht
    repeat' split at ht
    all_goals first | exact hlr ‹r.left = r.right› | exact absurd ht (by simp)
  rw [hr.contains_iff, heq]
  exact ⟨by simpa using hne, arc_self _ _⟩

theorem translate2Op_empty (ht : r.translate2Op.1 = 3) : r.contains x = false := by
  apply contains_of_isempty
  by_contra hne
  rw [translate2Op, if_neg hne] at ht
  repeat' split at ht
  all_goals exact absurd ht (by simp)

end Translate

section Truth

variable {n val : Nat} {opc : OpCode} {slot : Int}

theorem complement_within {r : CircleRange} (hr : Within n r) : Within n r.complement := by
  have hpos : 0 < 2 ^ (8 * n) := Nat.two_pow_pos _
  rw [complement]
  split
  · exact ⟨hr.step, hr.mask, hpos, hpos⟩
  split
  · exact ⟨hr.step, hr.mask, hr.left, hr.right⟩
  · exact ⟨hr.step, hr.mask, hr.right, hr.left⟩

theorem pullBackComparison_within {solve : CircleRange → CircleRange} (h : ByteSize n)
    (hsolve : ∀ r, Within n r → Within n (solve r)) (b : Bool) : Within n ((newBool b).pullBackComparison n solve) := by
  have hgt : 2 < 2 ^ (8 * n) := by
    have : 2 ^ 2 ≤ 2 ^ (8 * n) := Nat.pow_le_pow_right (by decide) (by have := h.1; omega)
    omega
  cases b with
  | true =>
      have heq : (newBool true).pullBackComparison n solve = solve ⟨1, 2, maskOf n, false, 1⟩ := rfl
      rw [heq]
      exact hsolve _ ⟨rfl, rfl, Nat.lt_of_succ_lt hgt, hgt⟩
  | false =>
      have heq : (newBool false).pullBackComparison n solve = (solve ⟨0, 1, maskOf n, false, 1⟩).complement := rfl
      rw [heq]
      exact complement_within (hsolve _ ⟨rfl, rfl, Nat.zero_lt_of_lt hgt, Nat.lt_of_succ_lt hgt⟩)

theorem pullBackBinary_within (hopc : opc ∈ comparisonOps) (h : ByteSize n) (hval : val < 2 ^ (8 * n)) (slot outSize : Int)
    (b : Bool) : Within n ((newBool b).pullBackBinary opc val slot n outSize).2 := by
  have hpos : 0 < 2 ^ (8 * n) := Nat.two_pow_pos _
  have hand : ∀ {a m : Nat}, m = maskOf n → a &&& m < 2 ^ (8 * n) := by
    intro a m hm
    rw [hm, and_maskOf h]
    exact Nat.mod_lt _ hpos
  have hmin : ∀ {m : Nat}, m = maskOf n → wrappingAdd (m >>> 1) 1 < 2 ^ (8 * n) := by
    intro m hm
    have htwo := two_minSigned h
    have := minSigned_pos n
    rw [hm, maskOf_shiftRight h, wrappingAdd_minSigned h]
    omega
  simp only [comparisonOps, List.mem_cons, List.not_mem_nil, or_false] at hopc
  rcases hopc with rfl | rfl | rfl | rfl | rfl | rfl | rfl <;>
    refine pullBackComparison_within h (fun r hr => ?_) b
  · exact ⟨hr.step, hr.mask, hval, hand hr.mask⟩
  · exact ⟨hr.step, hr.mask, hand hr.mask, hval⟩
  · rw [solveLess]
    split_ifs
    · exact ⟨hr.step, hr.mask, hr.left, hr.right⟩
    · exact ⟨hr.step, hr.mask, hpos, hval⟩
    · exact ⟨hr.step, hr.mask, hr.left, hr.right⟩
    · exact ⟨hr.step, hr.mask, hand hr.mask, hpos⟩
  · rw [solveLessequal]
    split_ifs
    · exact ⟨hr.step, hr.mask, hpos, hand hr.mask⟩
    · exact ⟨hr.step, hr.mask, hval, hpos⟩
  · rw [solveSless]
    split_ifs
    · exact ⟨hr.step, hr.mask, hr.left, hr.right⟩
    · exact ⟨hr.step, hr.mask, hmin hr.mask, hval⟩
    · exact ⟨hr.step, hr.mask, hr.left, hr.right⟩
    · exact ⟨hr.step, hr.mask, hand hr.mask, hmin hr.mask⟩
  · rw [solveSlessequal]
    split_ifs
    · exact ⟨hr.step, hr.mask, hmin hr.mask, hand hr.mask⟩
    · exact ⟨hr.step, hr.mask, hval, hmin hr.mask⟩
  · rw [solveCarry]
    split_ifs
    · exact ⟨hr.step, hr.mask, hr.left, hr.right⟩
    · exact ⟨hr.step, hr.mask, hand hr.mask, hpos⟩

/-- The range of a truth value is pulled back through a comparison to the values for
which it has this output. -/
theorem pullBackBinary_newBool (hopc : opc ∈ comparisonOps) (h : ByteSize n) (hval : val < 2 ^ (8 * n)) (slot outSize : Int)
    (b : Bool) : ∃ r, (newBool b).pullBackBinary opc val slot n outSize = (true, r) ∧ Within n r ∧
      ∀ x < 2 ^ (8 * n), r.contains x = (Holds n opc (operands slot x val).1 (operands slot x val).2 == b) := by
  have hwithin := pullBackBinary_within hopc h hval slot outSize b
  obtain ⟨solve, hs, hpull⟩ := pullBackBinary_solves (r := newBool b) hopc h hval slot rfl
  have hout : (newBool b).pullBackBinary opc val slot n outSize = (true, (newBool b).pullBackComparison n solve) := hpull
  rw [hout] at hwithin ⊢
  refine ⟨_, rfl, hwithin, fun x hx => ?_⟩
  rw [pullBackComparison_contains hs rfl (by cases b <;> decide) hx]
  cases Holds n opc (operands slot x val).1 (operands slot x val).2 <;> cases b <;> rfl

end Truth

end GhidraDecompiler.Range.CircleRange
