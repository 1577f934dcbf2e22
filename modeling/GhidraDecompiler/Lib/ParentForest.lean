import GhidraDecompiler.Lib.DominatorSweep
import Mathlib.Data.Finset.Card

/-! Forests that are given by parent pointers, and climbing in them. -/

namespace GhidraDecompiler.Flow

variable {V : Type} {par : V → Option V} {a b c f x y : V} {o : Option V} {M : V → Prop}

/-- No vertex can be reached again from its parent. -/
def Forest (par : V → Option V) : Prop := ∀ b a, par b = some a → ¬ Up par a b

theorem Up.of_parent (h : par b = some a) : Up par b a := .single h

theorem Forest.antisymm (hf : Forest par) (hxy : Up par x y) (hyx : Up par y x) : x = y := by
  rcases hxy.eq_or with rfl | ⟨a, ha, hay⟩
  · rfl
  · exact absurd (hay.trans hyx) (hf x a ha)

/-- The ancestors of `b` that a climb has passed when it stands at `o`. -/
def Below (par : V → Option V) (b : V) (o : Option V) (x : V) : Prop := Up par b x ∧ ∀ f, o = some f → ¬ Up par f x

theorem not_below_self : ¬ Below par b (some b) x := fun h => h.2 b rfl h.1

theorem below_none : Below par b none x ↔ Up par b x := by simp [Below]

theorem Below.of_up (h : Below par b o x) (hby : Up par b y) (hyx : Up par y x) : Below par b o y :=
  ⟨hby, fun f hf hfy => h.2 f hf (hfy.trans hyx)⟩

theorem below_step (hforest : Forest par) (hbf : Up par b f) :
    Below par b (par f) x ↔ Below par b (some f) x ∨ x = f := by
  constructor
  · rintro ⟨hbx, hnot⟩
    by_cases hx : x = f
    · exact .inr hx
    · refine .inl ⟨hbx, fun f' hf' hfx => ?_⟩
      obtain rfl := Option.some_inj.mp hf'
      obtain rfl | ⟨a, ha, hax⟩ := hfx.eq_or
      · exact hx rfl
      · exact hnot a ha hax
  · rintro (⟨hbx, hnot⟩ | rfl)
    · exact ⟨hbx, fun a ha hax => hnot f rfl (.cons ha hax)⟩
    · exact ⟨hbf, fun a ha hax => hforest x a ha hax⟩

/-- The vertices that are reached from `b` through vertices of a set alone. -/
def Through (par : V → Option V) (M : V → Prop) (b m : V) : Prop := Up par b m ∧ ∀ x, Up par b x → Up par x m → M x

theorem Through.mem (h : Through par M b x) : M x := h.2 x h.1 .refl

theorem not_through (hb : ¬ M b) : ¬ Through par M b x := fun h => hb (h.2 b .refl h.1)

theorem through_cons (hforest : Forest par) (hb : M b) (ha : par b = some a) :
    Through par M b x ↔ x = b ∨ Through par (fun y => M y ∧ y ≠ b) a x := by
  constructor
  · rintro ⟨hbx, hall⟩
    rcases hbx.eq_or with rfl | ⟨a', ha', hax⟩
    · exact .inl rfl
    · obtain rfl : a = a' := Option.some_inj.mp (ha.symm.trans ha')
      refine .inr ⟨hax, fun y hay hyx => ⟨hall y (.cons ha hay) hyx, ?_⟩⟩
      rintro rfl
      exact hforest y a ha hay
  · rintro (rfl | ⟨hax, hall⟩)
    · refine ⟨.refl, fun y hxy hyx => ?_⟩
      rwa [← hforest.antisymm hxy hyx]
    · refine ⟨.cons ha hax, fun y hby hyx => ?_⟩
      obtain rfl | ⟨a', ha', hay⟩ := hby.eq_or
      · exact hb
      · obtain rfl : a = a' := Option.some_inj.mp (ha.symm.trans ha')
        exact (hall y hay hyx).1

theorem through_of_root (hb : M b) (ha : par b = none) : Through par M b x ↔ x = b := by
  constructor
  · exact fun h => (h.1.eq_of_none ha).symm
  · rintro rfl
    refine ⟨.refl, fun y hxy _ => ?_⟩
    rwa [← hxy.eq_of_none ha]

/-- Two climbs from below cover two parts of chains that start there: what the first
one does not reach, the second one reaches without what the first one reached. -/
theorem through_cover {b₁ b₂ : V} {o₁ o₂ : Option V} (hM : ∀ x, M x ↔ Below par b₁ o₁ x ∨ Below par b₂ o₂ x) {m : V}
    (hm : M m) : Through par M b₁ m ∨ Through par (fun x => M x ∧ ¬ Through par M b₁ x) b₂ m := by
  by_cases hfirst : Through par M b₁ m
  · exact .inl hfirst
  · right
    rcases (hM m).mp hm with h₁ | h₂
    · exact absurd ⟨h₁.1, fun x hbx hxm => (hM x).mpr (.inl (h₁.of_up hbx hxm))⟩ hfirst
    · refine ⟨h₂.1, fun v hbv hvm => ⟨(hM v).mpr (.inr (h₂.of_up hbv hvm)), fun hv => hfirst ⟨hv.1.trans hvm, ?_⟩⟩⟩
      -- above `v` the two chains are one
      intro x hbx hxm
      rcases Up.total hbx hv.1 with hxv | hvx
      · exact hv.2 x hbx hxv
      · exact (hM x).mpr (.inr (h₂.of_up (hbv.trans hvx) hxm))

section Height

open Classical

/-- The number of ancestors in a finite set. -/
noncomputable def height (S : Finset V) (par : V → Option V) (b : V) : ℕ := (S.filter (Up par b)).card

theorem height_le (S : Finset V) (par : V → Option V) (b : V) : height S par b ≤ S.card := Finset.card_filter_le _ _

theorem height_pos {S : Finset V} (hb : b ∈ S) : 0 < height S par b :=
  Finset.card_pos.mpr ⟨b, Finset.mem_filter.mpr ⟨hb, .refl⟩⟩

theorem height_lt (hforest : Forest par) {S : Finset V} (hb : b ∈ S) (ha : par b = some a) :
    height S par a < height S par b := by
  refine Finset.card_lt_card ⟨fun x hx => ?_, fun hsub => ?_⟩
  · obtain ⟨hS, hax⟩ := Finset.mem_filter.mp hx
    exact Finset.mem_filter.mpr ⟨hS, .cons ha hax⟩
  · have hmem := hsub (Finset.mem_filter.mpr ⟨hb, .refl⟩)
    exact hforest b a ha (Finset.mem_filter.mp hmem).2

end Height

/-- A first vertex of a set on the way up. -/
structure IsFirst (par : V → Option V) (M : V → Prop) (b x : V) : Prop where
  above : Up par b x
  mem : M x
  first : ∀ y, Up par b y → M y → Up par x y

theorem IsFirst.here (hb : M b) : IsFirst par M b b := ⟨.refl, hb, fun _ h _ => h⟩

theorem IsFirst.cons (hb : ¬ M b) (ha : par b = some a) (h : IsFirst par M a x) : IsFirst par M b x := by
  refine ⟨.cons ha h.above, h.mem, fun y hby hy => ?_⟩
  obtain rfl | ⟨a', ha', hay⟩ := hby.eq_or
  · exact absurd hy hb
  · obtain rfl : a = a' := Option.some_inj.mp (ha.symm.trans ha')
    exact h.first y hay hy

/-- Adding a vertex to those that have a nearest common ancestor: the new one is the
higher of the old one and the first vertex that is above one of the others. -/
theorem IsMeet.insert {ps : V → Prop} {z m : V} (hmeet : IsMeet par ps z)
    (hfirst : IsFirst par (fun y => ∃ p, ps p ∧ Up par p y) m x) :
    (Up par x z ∧ IsMeet par (fun p => ps p ∨ p = m) z) ∨ (Up par z x ∧ IsMeet par (fun p => ps p ∨ p = m) x) := by
  obtain ⟨p, hp, hpx⟩ := hfirst.mem
  rcases Up.total hpx (hmeet.above p hp) with hxz | hzx
  · refine .inl ⟨hxz, ?_, fun w hw => hmeet.nearest w fun q hq => hw q (.inl hq)⟩
    rintro q (hq | rfl)
    · exact hmeet.above q hq
    · exact hfirst.above.trans hxz
  · refine .inr ⟨hzx, ?_, fun w hw => ?_⟩
    · rintro q (hq | rfl)
      · exact (hmeet.above q hq).trans hzx
      · exact hfirst.above
    · exact hfirst.first w (hw m (.inr rfl)) ⟨p, hp, hw p (.inl hp)⟩

end GhidraDecompiler.Flow
