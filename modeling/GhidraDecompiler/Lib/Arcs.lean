import Mathlib.Data.Nat.ModEq
import Mathlib.Tactic.Ring

/-! Arcs on a circle of numbers, and their points with a given remainder. -/

namespace GhidraDecompiler.Arcs

/-- The points on the way from `left` to `right`; all of them when the ends are
equal. -/
def Arc (left right x : Nat) : Prop :=
  (left < right ∧ left ≤ x ∧ x < right) ∨ (right < left ∧ (x < right ∨ left ≤ x)) ∨ left = right

instance (left right x : Nat) : Decidable (Arc left right x) := inferInstanceAs (Decidable (_ ∨ _))

theorem arc_self (left x : Nat) : Arc left left x := .inr (.inr rfl)

section Align

variable {step rem v x M : Nat}

/-- The first number from `v` on with remainder `rem`. -/
def alignUp (step rem v : Nat) : Nat := if v % step ≤ rem then v + (rem - v % step) else v + (rem + step - v % step)

theorem le_alignUp (step rem v : Nat) : v ≤ alignUp step rem v := by
  rw [alignUp]
  split <;> omega

/-- In terms of the quotient. -/
theorem alignUp_eq (hrem : rem < step) :
    alignUp step rem v = step * (if v % step ≤ rem then v / step else v / step + 1) + rem := by
  have hdiv := Nat.div_add_mod v step
  have hlt := Nat.mod_lt v (Nat.zero_lt_of_lt hrem)
  rw [alignUp]
  split
  · omega
  · rw [Nat.mul_add, Nat.mul_one]
    omega

theorem alignUp_mod (hrem : rem < step) : alignUp step rem v % step = rem := by
  rw [alignUp_eq hrem, Nat.mul_add_mod, Nat.mod_eq_of_lt hrem]

theorem alignUp_le_iff (hrem : rem < step) (hx : x % step = rem) : alignUp step rem v ≤ x ↔ v ≤ x := by
  constructor
  · exact (le_alignUp step rem v).trans
  · intro hle
    have hq : v / step ≤ x / step := Nat.div_le_div_right hle
    have hxdiv := Nat.div_add_mod x step
    have hvdiv := Nat.div_add_mod v step
    rw [alignUp_eq hrem]
    split
    · have := Nat.mul_le_mul_left step hq
      omega
    · next hgt =>
        have hne : v / step ≠ x / step := by
          intro heq
          rw [heq] at hvdiv
          omega
        have := Nat.mul_le_mul_left step (show v / step + 1 ≤ x / step by omega)
        omega

theorem lt_alignUp_iff (hrem : rem < step) (hx : x % step = rem) : x < alignUp step rem v ↔ x < v := by
  rw [← not_le, ← not_le, alignUp_le_iff hrem hx]

/-- Past the end of the circle the next point is the remainder itself. -/
theorem alignUp_wrap (hrem : rem < step) (hdvd : step ∣ M ∨ M ∣ step) (hremM : rem < M) (hv : v < M)
    (hwrap : M ≤ alignUp step rem v) : alignUp step rem v % M = rem := by
  rcases hdvd with ⟨t, rfl⟩ | hdvd
  · -- the quotient reaches that of the circle and no more
    have hq : v / step < t := Nat.div_lt_of_lt_mul hv
    rw [alignUp_eq hrem] at hwrap ⊢
    have hle : (if v % step ≤ rem then v / step else v / step + 1) ≤ t := by split <;> omega
    have hge : t ≤ (if v % step ≤ rem then v / step else v / step + 1) := by
      by_contra hlt
      have := Nat.mul_le_mul_left step (Nat.succ_le_of_lt (Nat.lt_of_not_le hlt))
      rw [Nat.mul_succ] at this
      omega
    rw [Nat.le_antisymm hle hge, Nat.add_mod_left, Nat.mod_eq_of_lt hremM]
  · have hmod := alignUp_mod (v := v) hrem
    have := Nat.mod_mod_of_dvd (alignUp step rem v) hdvd
    rw [hmod, Nat.mod_eq_of_lt hremM] at this
    exact this.symm

theorem alignUp_mono (hrem : rem < step) {u : Nat} (h : u ≤ v) : alignUp step rem u ≤ alignUp step rem v :=
  (alignUp_le_iff hrem (alignUp_mod hrem)).mpr (h.trans (le_alignUp step rem v))

theorem alignUp_of_lt (hv : v < rem) (hrem : rem < step) : alignUp step rem v = rem := by
  rw [alignUp, Nat.mod_eq_of_lt (hv.trans hrem), if_pos hv.le, Nat.add_sub_cancel' hv.le]

end Align

section Single

variable {step left x M : Nat}

theorem eq_of_mod_eq {a b : Nat} (hle : a ≤ b) (hlt : b < a + step) (hmod : b % step = a % step) : b = a := by
  have hdvd : step ∣ b - a := (Nat.modEq_iff_dvd' hle).mp hmod.symm
  have hzero := Nat.eq_zero_of_dvd_of_lt hdvd (by omega)
  omega

/-- One step ahead of a point there is only the point. -/
theorem arc_step_iff (hpos : 0 < step) (hdvd : step ∣ M ∨ M ∣ step) (hl : left < M) (hx : x < M) :
    x % step = left % step ∧ Arc left ((left + step) % M) x ↔ x = left := by
  constructor
  · rintro ⟨hmod, harc⟩
    by_cases hbig : M ≤ step
    · rwa [Nat.mod_eq_of_lt (hx.trans_le hbig), Nat.mod_eq_of_lt (hl.trans_le hbig)] at hmod
    · have hdvd : step ∣ M := hdvd.resolve_right fun h => hbig (Nat.le_of_dvd hpos h)
      by_cases hwrap : left + step < M
      · rw [Nat.mod_eq_of_lt hwrap] at harc
        simp only [Arc] at harc
        exact eq_of_mod_eq (by omega) (by omega) hmod
      · have hend : (left + step) % M = left + step - M := by
          rw [Nat.mod_eq_sub_mod (by omega), Nat.mod_eq_of_lt (by omega)]
        rw [hend] at harc
        simp only [Arc] at harc
        by_cases hle : left ≤ x
        · exact eq_of_mod_eq hle (by omega) hmod
        · -- a point before the end would be one step short of it
          exfalso
          have hmod' : (x + M) % step = left % step := by
            rw [Nat.add_mod, Nat.mod_eq_zero_of_dvd hdvd, Nat.add_zero, Nat.mod_mod, hmod]
          have := eq_of_mod_eq (by omega) (by omega) hmod'
          omega
  · rintro rfl
    refine ⟨rfl, ?_⟩
    simp only [Arc]
    by_cases hend : x = (x + step) % M
    · exact .inr (.inr hend)
    · omega

end Single

section Stages

variable {step rem left right x M : Nat}

/-- Moving both ends up to the remainder keeps the points that have it, unless just
one of the ends leaves the circle. When the order of the ends changes there is no
such point. -/
theorem arc_alignUp (hrem : rem < step) (hdvd : step ∣ M ∨ M ∣ step) (hl : left < M) (hr : right < M)
    (hkeep : M ≤ alignUp step rem left ↔ M ≤ alignUp step rem right) (hx : x < M) (hxrem : x % step = rem) :
    (left < right ↔ alignUp step rem left % M < alignUp step rem right % M) ∧
        (Arc left right x ↔ Arc (alignUp step rem left % M) (alignUp step rem right % M) x) ∨
      ¬ (left < right ↔ alignUp step rem left % M < alignUp step rem right % M) ∧ ¬ Arc left right x := by
  have hlx := alignUp_le_iff (v := left) hrem hxrem
  have hrx := lt_alignUp_iff (v := right) hrem hxrem
  have hremM : rem < M := by
    rw [← hxrem]
    exact (Nat.mod_le x step).trans_lt hx
  by_cases hwrap : M ≤ alignUp step rem left
  · rw [alignUp_wrap hrem hdvd hremM hl hwrap, alignUp_wrap hrem hdvd hremM hr (hkeep.mp hwrap)]
    have hwrap' := hkeep.mp hwrap
    by_cases horder : left < right
    · right
      simp only [Arc]
      omega
    · left
      refine ⟨by omega, iff_of_true ?_ (arc_self _ _)⟩
      simp only [Arc]
      omega
  · rw [Nat.mod_eq_of_lt (by omega), Nat.mod_eq_of_lt (by omega)]
    have hmono : left ≤ right → alignUp step rem left ≤ alignUp step rem right := alignUp_mono hrem
    have hmono' : right ≤ left → alignUp step rem right ≤ alignUp step rem left := alignUp_mono hrem
    simp only [Arc]
    omega

/-- The ends of an arc that is cut to the numbers below `N`. -/
theorem arc_cut {N : Nat} (hrem : rem < step) (hl : left % step = rem) (hr : right % step = rem)
    (hclean : ¬ (N ≤ left ∧ right < step ∧ right < N)) (hx : x < N) (hxrem : x % step = rem) :
    (N ≤ left ∧ N ≤ right ∧ left < right → ¬ Arc left right x) ∧
      (N ≤ left ∧ N ≤ right ∧ right ≤ left → Arc left right x) ∧
      (¬ (N ≤ left ∧ N ≤ right) →
        (Arc left right x ↔ Arc (if N ≤ left then rem else left) (if N ≤ right then rem else right) x)) := by
  have hlow : ∀ {y}, y % step = rem → rem ≤ y := by
    intro y hy
    rw [← hy]
    exact Nat.mod_le y step
  have hxlow := hlow hxrem
  have hllow := hlow hl
  have hrlow := hlow hr
  have hrsmall : right < step → right = rem := by
    intro hlt
    rw [← hr, Nat.mod_eq_of_lt hlt]
  have hrbig : step ≤ right → rem < right := by
    intro hle
    exact hrem.trans_le hle
  refine ⟨?_, ?_, ?_⟩
  · rintro ⟨h₁, h₂, h₃⟩
    simp only [Arc]
    omega
  · rintro ⟨h₁, h₂, h₃⟩
    simp only [Arc]
    omega
  · intro hnot
    simp only [Arc]
    split_ifs <;> omega

end Stages

end GhidraDecompiler.Arcs
