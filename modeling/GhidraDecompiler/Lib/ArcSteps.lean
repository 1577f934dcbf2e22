import GhidraDecompiler.Lib.Arcs
import Mathlib.Tactic.IntervalCases

/-! Arcs on a circle by their length, and the steps along them. -/

namespace GhidraDecompiler.Arcs

section Ahead

variable {M step left right x d : Nat}

/-- How far it is from one point of the circle on to another. -/
def ahead (M left x : Nat) : Nat := (x + (M - left)) % M

def arcLength (M left right : Nat) : Nat := if left = right then M else ahead M left right

theorem ahead_eq (hl : left < M) (hx : x < M) : ahead M left x = if left ≤ x then x - left else x + M - left := by
  rw [ahead]
  split
  · rw [Nat.mod_eq_sub_mod (by omega), Nat.mod_eq_of_lt (by omega)]
    omega
  · rw [Nat.mod_eq_of_lt (by omega)]
    omega

theorem ahead_lt (hl : left < M) : ahead M left x < M := Nat.mod_lt _ (Nat.zero_lt_of_lt hl)

theorem add_ahead (hl : left < M) (hx : x < M) : (left + ahead M left x) % M = x := by
  rw [ahead_eq hl hx]
  split
  · rw [Nat.add_sub_cancel' ‹_›, Nat.mod_eq_of_lt hx]
  · rw [Nat.mod_eq_sub_mod (by omega), Nat.mod_eq_of_lt (by omega)]
    omega

theorem ahead_add (hl : left < M) (hd : d < M) : ahead M left ((left + d) % M) = d := by
  rw [ahead, Nat.mod_add_mod, show left + d + (M - left) = d + M by omega, Nat.add_mod_right, Nat.mod_eq_of_lt hd]

theorem arcLength_pos (hl : left < M) (hr : right < M) : 0 < arcLength M left right := by
  rw [arcLength]
  split
  · exact Nat.zero_lt_of_lt hl
  · rw [ahead_eq hl hr]
    split <;> omega

theorem arcLength_le (hl : left < M) : arcLength M left right ≤ M := by
  rw [arcLength]
  split
  · exact le_refl M
  · exact (ahead_lt hl).le

theorem arcLength_eq_of_ne (hl : left < M) (hr : right < M) (hne : left ≠ right) :
    arcLength M left right = if left < right then right - left else right + M - left := by
  rw [arcLength, if_neg hne, ahead_eq hl hr]
  split <;> split <;> omega

theorem add_arcLength (hl : left < M) (hr : right < M) : (left + arcLength M left right) % M = right := by
  rw [arcLength]
  split
  · next heq => rw [Nat.add_mod_right, heq, Nat.mod_eq_of_lt hr]
  · exact add_ahead hl hr

/-- An arc has the points that are ahead of its start by less than its length. -/
theorem arc_iff_ahead_lt (hl : left < M) (hr : right < M) (hx : x < M) :
    Arc left right x ↔ ahead M left x < arcLength M left right := by
  by_cases hne : left = right
  · rw [arcLength, if_pos hne, hne]
    exact iff_of_true (arc_self _ _) (ahead_lt hr)
  · rw [arcLength_eq_of_ne hl hr hne, ahead_eq hl hx, Arc]
    split <;> split <;> omega

theorem dvd_ahead_iff (hdvd : step ∣ M) (hl : left < M) : step ∣ ahead M left x ↔ x % step = left % step := by
  have hM : M - left + left = M := Nat.sub_add_cancel hl.le
  rw [ahead, Nat.dvd_mod_iff hdvd]
  constructor
  · intro h
    have hsum : (x + (M - left) + left) % step = left % step := by
      rw [Nat.add_mod, Nat.mod_eq_zero_of_dvd h, Nat.zero_add, Nat.mod_mod]
    rw [Nat.add_assoc, hM, Nat.add_mod, Nat.mod_eq_zero_of_dvd hdvd, Nat.add_zero, Nat.mod_mod] at hsum
    exact hsum
  · intro h
    have hmod : x + (M - left) ≡ left + (M - left) [MOD step] := Nat.ModEq.add_right _ h
    rw [Nat.add_comm left, hM] at hmod
    exact (Nat.modEq_zero_iff_dvd.mp (hmod.trans (Nat.modEq_zero_iff_dvd.mpr hdvd)))

/-- The points of an arc with the remainder of its start are the whole steps along it. -/
theorem arc_steps_iff (hdvd : step ∣ M) (hl : left < M) (hr : right < M) (hx : x < M) :
    x % step = left % step ∧ Arc left right x ↔ ∃ d < arcLength M left right, step ∣ d ∧ (left + d) % M = x := by
  rw [arc_iff_ahead_lt hl hr hx, ← dvd_ahead_iff hdvd hl]
  constructor
  · rintro ⟨hstep, hlt⟩
    exact ⟨_, hlt, hstep, add_ahead hl hx⟩
  · rintro ⟨d, hd, hstep, rfl⟩
    rw [ahead_add hl (hd.trans_le (arcLength_le hl))]
    exact ⟨hstep, hd⟩

theorem dvd_arcLength (hdvd : step ∣ M) (hl : left < M) (hr : right % step = left % step) :
    step ∣ arcLength M left right := by
  rw [arcLength]
  split
  · exact hdvd
  · exact (dvd_ahead_iff hdvd hl).mpr hr

end Ahead

section Span

variable {M step A L d : Nat}

theorem ahead_span (hM : 0 < M) (A d : Nat) : ahead M (A % M) ((A + d) % M) = d % M := by
  rw [← Nat.mod_add_mod, ← Nat.add_mod_mod, ahead_add (Nat.mod_lt A hM) (Nat.mod_lt d hM)]

theorem span_ends_eq_iff (hM : 0 < M) : A % M = (A + L) % M ↔ M ∣ L := by
  constructor
  · intro heq
    have hL := ahead_span hM A L
    rw [← heq, ahead, Nat.add_sub_cancel' (Nat.mod_lt A hM).le, Nat.mod_self] at hL
    exact Nat.dvd_of_mod_eq_zero hL.symm
  · intro hdvd
    rw [Nat.add_mod, Nat.mod_eq_zero_of_dvd hdvd, Nat.add_zero, Nat.mod_mod]

theorem arcLength_span (hM : 0 < M) (hL : ¬ M ∣ L) : arcLength M (A % M) ((A + L) % M) = L % M := by
  rw [arcLength, if_neg (mt (span_ends_eq_iff hM).mp hL), ahead_span hM]

/-- An arc of a length that may go around the circle more than once. -/
theorem arc_span_iff (hM : 0 < M) : Arc (A % M) ((A + L) % M) ((A + d) % M) ↔ M ∣ L ∨ d % M < L % M := by
  have hlt : ∀ v, v % M < M := fun v => Nat.mod_lt v hM
  by_cases hL : M ∣ L
  · rw [← (span_ends_eq_iff hM).mpr hL]
    exact iff_of_true (arc_self _ _) (.inl hL)
  · rw [arc_iff_ahead_lt (hlt _) (hlt _) (hlt _), ahead_span hM, arcLength_span hM hL]
    simp only [hL, false_or]

theorem arc_span (hL : 0 < L) (hle : L ≤ M) (hd : d < L) : Arc (A % M) ((A + L) % M) ((A + d) % M) := by
  rw [arc_span_iff (hL.trans_le hle)]
  rcases Nat.eq_or_lt_of_le hle with rfl | hlt
  · exact .inl dvd_rfl
  · right
    rwa [Nat.mod_eq_of_lt (hd.trans hlt), Nat.mod_eq_of_lt hlt]

theorem span_mod_iff (hdvd : step ∣ M) : (A + d) % M % step = A % M % step ↔ step ∣ d := by
  rw [Nat.mod_mod_of_dvd _ hdvd, Nat.mod_mod_of_dvd _ hdvd]
  constructor
  · intro h
    have := (Nat.modEq_iff_dvd' (Nat.le_add_right A d)).mp h.symm
    rwa [Nat.add_sub_cancel_left] at this
  · intro h
    rw [Nat.add_mod, Nat.mod_eq_zero_of_dvd h, Nat.add_zero, Nat.mod_mod]

end Span

section Mirror

variable {M step L : Nat}

theorem two_mul_of_mirror (hdvd : step ∣ M) (hdvdL : step ∣ L) (hL : 0 < L) (hlt : L < M)
    (hall : ∀ d < M, step ∣ d → (d < M - L ↔ (M - d) % M < L)) : 2 * step = M := by
  have hle : step ≤ M - L := Nat.le_of_dvd (by omega) (Nat.dvd_sub hdvd hdvdL)
  have hleL : step ≤ L := Nat.le_of_dvd hL hdvdL
  have hpos : 0 < step := Nat.pos_of_dvd_of_pos hdvdL hL
  have hfirst := hall step (by omega) dvd_rfl
  have hlast := hall (M - step) (by omega) (Nat.dvd_sub hdvd dvd_rfl)
  rw [Nat.mod_eq_of_lt (by omega)] at hfirst hlast
  omega

/-- The steps before the end, mirrored at the start, are the steps from the end on
only when all steps or just one of two are before the end. -/
theorem mirror_iff (hdvd : step ∣ M) (hdvdL : step ∣ L) (hL : 0 < L) (hle : L ≤ M) :
    (∀ d < M, step ∣ d → ((M ∣ M - L ∨ d % M < (M - L) % M) ↔ (M ∣ L ∨ (M - d) % M < L % M))) ↔
      L = M ∨ 2 * step = M := by
  rcases Nat.eq_or_lt_of_le hle with rfl | hlt
  · simp
  have hndvd : ¬ M ∣ L := fun hd => absurd (Nat.le_of_dvd hL hd) (by omega)
  have hndvd' : ¬ M ∣ M - L := fun hd => absurd (Nat.le_of_dvd (by omega) hd) (by omega)
  simp only [hndvd, hndvd', false_or, hlt.ne]
  rw [Nat.mod_eq_of_lt hlt, Nat.mod_eq_of_lt (show M - L < M by omega)]
  constructor
  · intro hall
    refine two_mul_of_mirror hdvd hdvdL hL hlt fun d hd hstep => ?_
    rw [← hall d hd hstep, Nat.mod_eq_of_lt hd]
  · rintro rfl d hd ⟨j, rfl⟩
    obtain ⟨i, rfl⟩ := hdvdL
    have hi : i = 1 := by
      have := Nat.lt_of_mul_lt_mul_left (show step * i < step * 2 by omega)
      have := Nat.pos_of_mul_pos_left hL
      omega
    have hj := Nat.lt_of_mul_lt_mul_left (show step * j < step * 2 by omega)
    subst hi
    interval_cases j
    · simp
      omega
    · rw [Nat.mul_one, Nat.mod_eq_of_lt (by omega), Nat.mod_eq_of_lt (by omega)]
      omega

end Mirror

end GhidraDecompiler.Arcs
