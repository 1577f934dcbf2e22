import GhidraDecompiler.Lib.Dominance
import Mathlib.Logic.Relation
import Mathlib.Logic.Function.Basic
import Mathlib.Order.Nat

/-! Computing immediate dominators by sweeps over the vertices in the order of
their indices: each vertex in turn is put below the nearest common ancestor of
those predecessors that have a place in the tree already. -/

namespace GhidraDecompiler.Flow

variable {V : Type} {E : V → V → Prop} {r : V} {idx : V → ℕ} {N : V → Prop} {par : V → Option V}

/-- `c` is `b` or one of its ancestors. -/
def Up (par : V → Option V) : V → V → Prop := Relation.ReflTransGen fun a b => par a = some b

theorem Up.total {x a b : V} (ha : Up par x a) (hb : Up par x b) : Up par a b ∨ Up par b a :=
  Relation.ReflTransGen.total_of_right_unique (fun _ _ _ h h' => Option.some_inj.mp (h ▸ h')) ha hb

theorem Up.trans {x a b : V} (ha : Up par x a) (hb : Up par a b) : Up par x b := Relation.ReflTransGen.trans ha hb

theorem Up.cons {b a c : V} (hb : par b = some a) (h : Up par a c) : Up par b c := .head hb h

theorem Up.eq_or {b c : V} (h : Up par b c) : b = c ∨ ∃ a, par b = some a ∧ Up par a c :=
  Relation.ReflTransGen.cases_head h

theorem Up.of_ne {b a c : V} (h : Up par b c) (hne : b ≠ c) (hb : par b = some a) : Up par a c := by
  obtain ⟨a', ha', h'⟩ := h.eq_or.resolve_left hne
  rwa [show a = a' from Option.some_inj.mp (hb ▸ ha')]

theorem Up.eq_of_none {b c : V} (h : Up par b c) (hb : par b = none) : b = c := by
  rcases h.eq_or with rfl | ⟨a, ha, -⟩
  · rfl
  · simp [hb] at ha

section Order

variable (hlt : ∀ b a, par b = some a → idx a < idx b)

include hlt

theorem Up.idx_le {b c : V} (h : Up par b c) : idx c ≤ idx b := by
  induction h with
  | refl => exact le_rfl
  | tail _ hab ih => exact (hlt _ _ hab).le.trans ih

theorem Up.eq_of_idx_le {b c : V} (h : Up par b c) (hle : idx b ≤ idx c) : b = c := by
  rcases h.eq_or with rfl | ⟨a, ha, hac⟩
  · rfl
  · have := hlt _ _ ha
    have := Up.idx_le hlt hac
    omega

/-- Of two ancestors the one with the larger index is below the other. -/
theorem Up.of_idx_le {x a b : V} (ha : Up par x a) (hb : Up par x b) (hle : idx b ≤ idx a) : Up par a b := by
  rcases ha.total hb with h | h
  · exact h
  · rw [Up.eq_of_idx_le hlt h hle]
    exact .refl

end Order

/-- The nearest common ancestor of some vertices. -/
structure IsMeet (par : V → Option V) (ps : V → Prop) (z : V) : Prop where
  above : ∀ p, ps p → Up par p z
  nearest : ∀ w, (∀ p, ps p → Up par p w) → Up par z w

theorem IsMeet.congr {ps qs : V → Prop} {z : V} (h : IsMeet par ps z) (hiff : ∀ p, ps p ↔ qs p) : IsMeet par qs z :=
  ⟨fun p hp => h.above p ((hiff p).mpr hp), fun w hw => h.nearest w fun p hp => hw p ((hiff p).mp hp)⟩

/-- The vertices of a graph, numbered so that each one except `r` can be entered
from one before it. -/
structure Ordered (E : V → V → Prop) (r : V) (N : V → Prop) (idx : V → ℕ) : Prop where
  entry : N r
  closed : ∀ a b, E a b → N a ∧ N b
  inj : ∀ a b, N a → N b → idx a = idx b → a = b
  forward : ∀ b, N b → b ≠ r → ∃ a, E a b ∧ idx a < idx b

namespace Ordered

/-- A dominator comes before what it dominates. -/
theorem idx_le (h : Ordered E r N idx) {a b : V} (hb : N b) (hab : Dominates E r a b) : idx a ≤ idx b := by
  induction hn : idx b using Nat.strong_induction_on generalizing b with
  | _ n ih =>
      subst hn
      by_cases heq : a = b
      · exact heq ▸ le_rfl
      by_cases hbr : b = r
      · exact absurd (hbr ▸ (hbr ▸ hab).eq_entry) heq
      obtain ⟨p, hpb, hlt⟩ := h.forward b hb hbr
      exact (ih _ hlt (h.closed p b hpb).1 (hab.pred heq hpb) rfl).trans hlt.le

theorem node_of_reaches (h : Ordered E r N idx) {b : V} (hb : Reaches E r b) : N b := by
  obtain ⟨l, hl⟩ := hb
  cases hl with
  | start => exact h.entry
  | step _ hpb => exact (h.closed _ _ hpb).2

theorem reaches (h : Ordered E r N idx) {b : V} (hb : N b) : Reaches E r b := by
  induction hn : idx b using Nat.strong_induction_on generalizing b with
  | _ n ih =>
      subst hn
      by_cases hbr : b = r
      · exact hbr ▸ reaches_entry
      obtain ⟨p, hpb, hlt⟩ := h.forward b hb hbr
      exact (ih _ hlt (h.closed p b hpb).1 rfl).step hpb

end Ordered

/-- The tree between two visits: the vertices before index `i` have been visited
in this sweep, the others in the one before. -/
structure Sweep (E : V → V → Prop) (r : V) (N : V → Prop) (idx : V → ℕ) (i : ℕ) (par : V → Option V) : Prop where
  root : par r = none
  node : ∀ b a, par b = some a → N b
  lt : ∀ b a, par b = some a → idx a < idx b
  rooted : ∀ b a, par b = some a → Up par a r
  fresh : ∀ b, N b → b ≠ r → par b = none → ∀ c a, idx b < idx c → par c = some a → a = r
  done : ∀ b, N b → idx b < i → Up par b r
  safe : ∀ b c, Up par b r → Dominates E r c b → Up par b c
  falling : ∀ b a, par b = some a → ∀ w, (∀ p, E p b → Up par p r → Up par p w) → Up par a w
  held : ∀ b a, par b = some a → ∀ p, E p b → idx p < idx b → Up par p r →
    ∀ c, Up par a c → idx b < i ∨ i ≤ idx c → Up par p c

namespace Sweep

variable {i : ℕ}

theorem up_iff (h : Sweep E r N idx i par) {b : V} : Up par b r ↔ b = r ∨ ∃ a, par b = some a := by
  refine ⟨fun hb => hb.eq_or.imp_right fun ⟨a, ha, _⟩ => ⟨a, ha⟩, ?_⟩
  rintro (rfl | ⟨a, ha⟩)
  · exact .refl
  · exact .cons ha (h.rooted b a ha)

end Sweep

section Update

variable [DecidableEq V] {c z : V} (hlt : ∀ b a, par b = some a → idx a < idx b) (hz : idx z < idx c)

include hlt

theorem Up.update_of_le {x a : V} (h : Up par x a) (hle : idx c ≤ idx a) : Up (Function.update par c (some z)) x a := by
  induction h using Relation.ReflTransGen.head_induction_on with
  | refl => exact .refl
  | head hxy hya ih =>
      refine .cons ?_ ih
      have := hlt _ _ hxy
      have := Up.idx_le hlt hya
      rwa [Function.update_of_ne]
      rintro rfl
      omega

theorem Up.update_iff_of_lt {x a : V} (hx : idx x < idx c) :
    Up (Function.update par c (some z)) x a ↔ Up par x a := by
  constructor
  · intro h
    induction h using Relation.ReflTransGen.head_induction_on with
    | refl => exact .refl
    | head hxy _ ih =>
        rw [Function.update_of_ne (by rintro rfl; omega)] at hxy
        exact .cons hxy (ih ((hlt _ _ hxy).trans hx))
  · intro h
    induction h using Relation.ReflTransGen.head_induction_on with
    | refl => exact .refl
    | head hxy _ ih =>
        refine .cons ?_ (ih ((hlt _ _ hxy).trans hx))
        rwa [Function.update_of_ne (by rintro rfl; omega)]

omit hlt in
/-- A chain that does not go through `c` is not changed at `c`. -/
theorem Up.update_of_not_up {x a : V} (h : Up par x a) (hc : ¬ Up par x c) :
    Up (Function.update par c (some z)) x a := by
  induction h using Relation.ReflTransGen.head_induction_on with
  | refl => exact .refl
  | head hxy _ ih =>
      refine .cons ?_ (ih fun hyc => hc (.cons hxy hyc))
      rwa [Function.update_of_ne]
      rintro rfl
      exact hc .refl

theorem Up.update_or {x a : V} (h : Up par x a) :
    Up (Function.update par c (some z)) x a ∨ Up par x c ∧ idx a < idx c := by
  by_cases hle : idx c ≤ idx a
  · exact .inl (h.update_of_le hlt hle)
  · by_cases hc : Up par x c
    · exact .inr ⟨hc, not_le.mp hle⟩
    · exact .inl (h.update_of_not_up hc)

end Update

/-- The visit of the vertex `c`, whose nearest common ancestor is `z`. -/
structure Visit (E : V → V → Prop) (r : V) (N : V → Prop) (idx : V → ℕ) (par : V → Option V) (c z : V) : Prop where
  ordered : Ordered E r N idx
  sweep : Sweep E r N idx (idx c) par
  node : N c
  ne : c ≠ r
  meet : IsMeet par (fun p => E p c ∧ Up par p r) z

namespace Visit

variable {c z : V} (v : Visit E r N idx par c z)

include v

theorem exists_forward : ∃ p, E p c ∧ idx p < idx c ∧ Up par p r :=
  let ⟨p, hpc, hlt⟩ := v.ordered.forward c v.node v.ne
  ⟨p, hpc, hlt, v.sweep.done p (v.ordered.closed p c hpc).1 hlt⟩

theorem meet_lt : idx z < idx c := by
  obtain ⟨p, hpc, hlt, hp⟩ := v.exists_forward
  exact (Up.idx_le v.sweep.lt (v.meet.above p ⟨hpc, hp⟩)).trans_lt hlt

theorem meet_rooted : Up par z r := v.meet.nearest r fun _ hp => hp.2

/-- A vertex that has a place only moves up. -/
theorem up_meet {y : V} (hy : par c = some y) : Up par y z :=
  v.sweep.falling c y hy z fun p hpc hp => v.meet.above p ⟨hpc, hp⟩

/-- A vertex with a forward predecessor without a place is directly below `r`. -/
theorem eq_root_of_fresh {b a p : V} (hba : par b = some a) (hpb : E p b) (hlt : idx p < idx b)
    (hp : ¬ Up par p r) : a = r := by
  rw [v.sweep.up_iff, not_or] at hp
  exact v.sweep.fresh p (v.ordered.closed p b hpb).1 hp.1
    (Option.eq_none_iff_forall_ne_some.mpr fun x hx => hp.2 ⟨x, hx⟩) b a hlt hba

variable [DecidableEq V]

theorem update_lt : ∀ b a, Function.update par c (some z) b = some a → idx a < idx b := by
  intro b a hba
  by_cases hb : b = c
  · subst hb
    rw [Function.update_self, Option.some_inj] at hba
    exact hba ▸ v.meet_lt
  · rw [Function.update_of_ne hb] at hba
    exact v.sweep.lt b a hba

theorem update_iff_of_lt {x a : V} (hx : idx x < idx c) : Up (Function.update par c (some z)) x a ↔ Up par x a :=
  Up.update_iff_of_lt v.sweep.lt hx

theorem update_self_iff {a : V} (ha : a ≠ c) : Up (Function.update par c (some z)) c a ↔ Up par z a := by
  rw [← v.update_iff_of_lt v.meet_lt]
  exact ⟨fun h => h.of_ne (Ne.symm ha) (Function.update_self ..), .cons (Function.update_self ..)⟩

theorem update_self_rooted : Up (Function.update par c (some z)) c r :=
  (v.update_self_iff (Ne.symm v.ne)).mpr v.meet_rooted

theorem update_rooted {x : V} (hx : Up par x r) : Up (Function.update par c (some z)) x r := by
  rcases hx.update_or (c := c) (z := z) v.sweep.lt with hx' | ⟨hxc, -⟩
  · exact hx'
  · exact (hxc.update_of_le v.sweep.lt le_rfl).trans v.update_self_rooted

/-- Chains only lose vertices. -/
theorem up_of_update {x w : V} (hx : Up par x r) (hw : Up (Function.update par c (some z)) x w) : Up par x w := by
  induction hw using Relation.ReflTransGen.head_induction_on with
  | refl => exact .refl
  | @head x y hxy hyw ih =>
      by_cases hxc : x = c
      · subst hxc
        rw [Function.update_self, Option.some_inj] at hxy
        subst hxy
        obtain ⟨y, hy⟩ := (v.sweep.up_iff.mp hx).resolve_left v.ne
        exact (Up.cons hy (v.up_meet hy)).trans (ih v.meet_rooted)
      · rw [Function.update_of_ne hxc] at hxy
        exact .cons hxy (ih (v.sweep.rooted x y hxy))

theorem rooted_of_update {x : V} (hx : Up (Function.update par c (some z)) x r) : Up par x r ∨ x = c := by
  by_cases hxc : x = c
  · exact .inr hxc
  · refine .inl (v.sweep.up_iff.mpr ?_)
    rcases hx.eq_or with rfl | ⟨a, ha, -⟩
    · exact .inl rfl
    · rw [Function.update_of_ne hxc] at ha
      exact .inr ⟨a, ha⟩

/-- Where a chain went through `c`, so did the chains of all predecessors
before the vertex: what these still share is still above it. -/
theorem update_of_forward {b a p w : V} (hba : par b = some a) (hpb : E p b) (hlt : idx p < idx b)
    (haw : Up par a w) (hpw : Up (Function.update par c (some z)) p w) : Up (Function.update par c (some z)) a w := by
  rcases haw.update_or (c := c) (z := z) v.sweep.lt with h | ⟨hac, hwc⟩
  · exact h
  · by_cases hp : Up par p r
    · have hpc := (v.sweep.held b a hba p hpb hlt hp c hac (.inr le_rfl)).update_of_le (z := z) v.sweep.lt le_rfl
      exact (hac.update_of_le v.sweep.lt le_rfl).trans (hpc.of_idx_le v.update_lt hpw hwc.le)
    · rw [v.eq_root_of_fresh hba hpb hlt hp] at haw ⊢
      exact haw.eq_of_none v.sweep.root ▸ .refl

theorem safe (b : V) : ∀ w, Up (Function.update par c (some z)) b r → Dominates E r w b →
    Up (Function.update par c (some z)) b w := by
  induction hn : idx b using Nat.strong_induction_on generalizing b with
  | _ n ih =>
      subst hn
      intro w hb hw
      by_cases hwb : w = b
      · exact hwb ▸ .refl
      rcases v.rooted_of_update hb with hb' | rfl
      · rcases v.sweep.up_iff.mp hb' with rfl | ⟨a, ha⟩
        · exact hw.eq_entry ▸ .refl
        by_cases hbc : b = c
        · subst hbc
          rw [v.update_self_iff hwb]
          exact v.meet.nearest w fun p hp => v.sweep.safe p w hp.2 (hw.pred hwb hp.1)
        · obtain ⟨p, hpb, hlt⟩ := v.ordered.forward b (v.sweep.node b a ha) (by rintro rfl; simp [v.sweep.root] at ha)
          have haw := (v.sweep.safe b w hb' hw).of_ne (Ne.symm hwb) ha
          have ha' : Function.update par c (some z) b = some a := by rwa [Function.update_of_ne hbc]
          by_cases hp : Up (Function.update par c (some z)) p r
          · exact .cons ha' (v.update_of_forward ha hpb hlt haw (ih _ hlt p rfl w hp (hw.pred hwb hpb)))
          · rw [v.eq_root_of_fresh ha hpb hlt fun hp' => hp (v.update_rooted hp')] at haw
            exact haw.eq_of_none v.sweep.root ▸ hb
      · rw [v.update_self_iff hwb]
        exact v.meet.nearest w fun p hp => v.sweep.safe p w hp.2 (hw.pred hwb hp.1)

theorem falling (b a : V) (hba : Function.update par c (some z) b = some a) (w : V)
    (hw : ∀ p, E p b → Up (Function.update par c (some z)) p r → Up (Function.update par c (some z)) p w) :
    Up (Function.update par c (some z)) a w := by
  have hold : ∀ p, E p b → Up par p r → Up par p w := fun p hpb hp =>
    v.up_of_update hp (hw p hpb (v.update_rooted hp))
  by_cases hbc : b = c
  · subst hbc
    rw [Function.update_self, Option.some_inj] at hba
    subst hba
    rw [v.update_iff_of_lt v.meet_lt]
    exact v.meet.nearest w fun p hp => hold p hp.1 hp.2
  · rw [Function.update_of_ne hbc] at hba
    obtain ⟨p, hpb, hlt⟩ := v.ordered.forward b (v.sweep.node b a hba) (by rintro rfl; simp [v.sweep.root] at hba)
    have haw := v.sweep.falling b a hba w hold
    by_cases hp : Up (Function.update par c (some z)) p r
    · exact v.update_of_forward hba hpb hlt haw (hw p hpb hp)
    · rw [v.eq_root_of_fresh hba hpb hlt fun hp' => hp (v.update_rooted hp')] at haw ⊢
      exact haw.eq_of_none v.sweep.root ▸ .refl

theorem held (b a : V) (hba : Function.update par c (some z) b = some a) (p : V) (hpb : E p b) (hlt : idx p < idx b)
    (hp : Up (Function.update par c (some z)) p r) (w : V) (hw : Up (Function.update par c (some z)) a w)
    (hcase : idx b < idx c + 1 ∨ idx c + 1 ≤ idx w) : Up (Function.update par c (some z)) p w := by
  by_cases hbc : b = c
  · subst hbc
    rw [Function.update_self, Option.some_inj] at hba
    subst hba
    rw [v.update_iff_of_lt hlt] at hp ⊢
    rw [v.update_iff_of_lt v.meet_lt] at hw
    exact (v.meet.above p ⟨hpb, hp⟩).trans hw
  · rw [Function.update_of_ne hbc] at hba
    have hbn := v.sweep.node b a hba
    rcases hcase with hb | hw'
    · have hb' : idx b < idx c :=
        lt_of_le_of_ne (Nat.lt_succ_iff.mp hb) fun heq => hbc (v.ordered.inj b c hbn v.node heq)
      rw [v.update_iff_of_lt (hlt.trans hb')] at hp ⊢
      rw [v.update_iff_of_lt ((v.sweep.lt b a hba).trans hb')] at hw
      exact v.sweep.held b a hba p hpb hlt hp w hw (.inl hb')
    · by_cases hp' : Up par p r
      · have hw'' := v.up_of_update (v.sweep.rooted b a hba) hw
        exact (v.sweep.held b a hba p hpb hlt hp' w hw'' (.inr (by omega))).update_of_le v.sweep.lt (by omega)
      · rw [v.eq_root_of_fresh hba hpb hlt hp'] at hw
        have hrw : r = w := hw.eq_of_none (by rw [Function.update_of_ne (Ne.symm v.ne)]; exact v.sweep.root)
        exact hrw ▸ hp

/-- The step lemma: one visit keeps the invariant. -/
theorem next : Sweep E r N idx (idx c + 1) (Function.update par c (some z)) := by
  refine ⟨?_, fun b a hba => ?_, v.update_lt, fun b a hba => ?_, fun b hb hbr hnone x a hlt hxa => ?_,
    fun b hb hlt => ?_, v.safe, v.falling, v.held⟩
  · rw [Function.update_of_ne (Ne.symm v.ne)]
    exact v.sweep.root
  · by_cases hbc : b = c
    · exact hbc ▸ v.node
    · rw [Function.update_of_ne hbc] at hba
      exact v.sweep.node b a hba
  · by_cases hbc : b = c
    · subst hbc
      rw [Function.update_self, Option.some_inj] at hba
      exact hba ▸ v.update_rooted v.meet_rooted
    · rw [Function.update_of_ne hbc] at hba
      exact v.update_rooted (v.sweep.rooted b a hba)
  · have hbc : b ≠ c := by
      rintro rfl
      simp at hnone
    rw [Function.update_of_ne hbc] at hnone
    by_cases hxc : x = c
    · subst hxc
      rcases v.sweep.up_iff.mp (v.sweep.done b hb hlt) with rfl | ⟨y, hy⟩
      · exact absurd rfl hbr
      · simp [hnone] at hy
    · rw [Function.update_of_ne hxc] at hxa
      exact v.sweep.fresh b hb hbr hnone x a hlt hxa
  · by_cases hbc : b = c
    · exact hbc ▸ v.update_self_rooted
    · exact v.update_rooted (v.sweep.done b hb
        (lt_of_le_of_ne (Nat.lt_succ_iff.mp hlt) fun heq => hbc (v.ordered.inj b c hb v.node heq)))

omit [DecidableEq V] in
/-- A vertex directly below `r` stays there. -/
theorem eq_root (hcr : par c = some r) : z = r := ((v.up_meet hcr).eq_of_none v.sweep.root).symm

end Visit

namespace Sweep

variable {i : ℕ}

/-- Before the first sweep only successors of `r` have a place, below `r`. -/
theorem start (hord : Ordered E r N idx) (hroot : par r = none) (hpar : ∀ b a, par b = some a → a = r ∧ E r b)
    (hi : ∀ b, N b → idx b < i → b = r) (hmin : ∀ b, N b → b ≠ r → idx r < idx b) : Sweep E r N idx i par := by
  have hup {a c : V} (h : Up par a c) : c = a ∨ c = r := by
    rcases h.eq_or with rfl | ⟨b, hb, hbc⟩
    · exact .inl rfl
    · obtain ⟨rfl, -⟩ := hpar a b hb
      exact .inr (hbc.eq_of_none hroot).symm
  have hnode {b a : V} (h : par b = some a) : N b ∧ b ≠ r :=
    ⟨(hord.closed r b (hpar b a h).2).2, by rintro rfl; simp [hroot] at h⟩
  refine ⟨hroot, fun b a h => (hnode h).1, fun b a h => ?_, fun b a h => ?_, fun b _ _ _ c a _ h => (hpar c a h).1,
    fun b hb hlt => hi b hb hlt ▸ .refl, fun b c hb hc => ?_, fun b a h w hw => ?_, fun b a h p _ _ hp c hc _ => ?_⟩
  · obtain ⟨rfl, -⟩ := hpar b a h
    exact hmin b (hnode h).1 (hnode h).2
  · exact (hpar b a h).1 ▸ .refl
  · by_cases hcb : c = b
    · exact hcb ▸ .refl
    rcases hb.eq_or with rfl | ⟨a, ha, -⟩
    · exact hc.eq_entry ▸ .refl
    · rwa [(hc.pred hcb (hpar b a ha).2).eq_entry]
  · obtain ⟨rfl, hrb⟩ := hpar b a h
    exact hw a hrb .refl
  · obtain ⟨rfl, -⟩ := hpar b a h
    exact hc.eq_of_none hroot ▸ hp

/-- A vertex directly below `r` can be passed over. -/
theorem skip (hord : Ordered E r N idx) {c : V} (h : Sweep E r N idx (idx c) par) (hc : N c) (hcr : par c = some r) :
    Sweep E r N idx (idx c + 1) par := by
  refine ⟨h.root, h.node, h.lt, h.rooted, h.fresh, fun b hb hlt => ?_, h.safe, h.falling,
    fun b a hba p hpb hlt hp w hw hcase => ?_⟩
  · by_cases hbc : b = c
    · exact hbc ▸ .cons hcr .refl
    · exact h.done b hb (lt_of_le_of_ne (Nat.lt_succ_iff.mp hlt) fun heq => hbc (hord.inj b c hb hc heq))
  · by_cases hbc : b = c
    · subst hbc
      obtain rfl : a = r := Option.some_inj.mp (hba ▸ hcr)
      exact hw.eq_of_none h.root ▸ hp
    · refine h.held b a hba p hpb hlt hp w hw (hcase.imp (fun hlt => ?_) fun hle => by omega)
      exact lt_of_le_of_ne (Nat.lt_succ_iff.mp hlt) fun heq => hbc (hord.inj b c (h.node b a hba) hc heq)

/-- The root is the nearest common ancestor for a vertex directly below it. -/
theorem isMeet_root (h : Sweep E r N idx i par) {c : V} (hcr : par c = some r) :
    IsMeet par (fun p => E p c ∧ Up par p r) r :=
  ⟨fun _ hp => hp.2, fun w hw => h.falling c r hcr w fun p hpc hp => hw p ⟨hpc, hp⟩⟩

/-- After the last vertex the sweep can begin again. -/
theorem restart (h : Sweep E r N idx i par) (hall : ∀ b, N b → idx b < i) {j : ℕ} (hj : j ≤ i) :
    Sweep E r N idx j par :=
  ⟨h.root, h.node, h.lt, h.rooted, h.fresh, fun b hb hlt => h.done b hb (hlt.trans_le hj), h.safe, h.falling,
    fun b a hba p hpb hlt hp c hc _ => h.held b a hba p hpb hlt hp c hc (.inl (hall b (h.node b a hba)))⟩

/-- A sweep that changes nothing has found the dominators. -/
theorem up_iff_dominates (hord : Ordered E r N idx) (h : Sweep E r N idx i par) (hall : ∀ b, N b → idx b < i)
    (hfix : ∀ b, N b → b ≠ r → ∃ a, par b = some a ∧ IsMeet par (fun p => E p b ∧ Up par p r) a) {b c : V}
    (hb : N b) : Up par b c ↔ Dominates E r c b := by
  refine ⟨fun hup l hl => ?_, h.safe b c (h.done b hb (hall b hb))⟩
  generalize hm : b :: l = m at hl
  induction hl generalizing b l with
  | start =>
      obtain ⟨rfl, -⟩ := List.cons.inj hm
      simp [hup.eq_of_none h.root]
  | @step p b' l' hl' hpb ih =>
      obtain ⟨rfl, -⟩ := List.cons.inj hm
      by_cases hbc : b = c
      · simp [hbc]
      by_cases hbr : b = r
      · subst hbr
        exact absurd (hup.eq_of_none h.root) hbc
      obtain ⟨a, ha, hmeet⟩ := hfix b hb hbr
      have hpn := (hord.closed p b hpb).1
      have hpa := hmeet.above p ⟨hpb, h.done p hpn (hall p hpn)⟩
      exact List.mem_cons_of_mem _ (ih hpn (hpa.trans (hup.of_ne hbc ha)) l' rfl)

/-- The parent of a vertex is then its immediate dominator. -/
theorem isIdom (hord : Ordered E r N idx) (h : Sweep E r N idx i par) (hall : ∀ b, N b → idx b < i)
    (hfix : ∀ b, N b → b ≠ r → ∃ a, par b = some a ∧ IsMeet par (fun p => E p b ∧ Up par p r) a) {a b : V}
    (hba : par b = some a) : IsIdom E r a b := by
  have hiff {b c : V} (hb : N b) : Up par b c ↔ Dominates E r c b := h.up_iff_dominates hord hall hfix hb
  have hb := h.node b a hba
  have ha : N a := by
    rcases h.up_iff.mp (h.rooted b a hba) with rfl | ⟨x, hx⟩
    · exact hord.entry
    · exact h.node a x hx
  refine ⟨?_, (hiff hb).mp (.cons hba .refl), fun c hcb hc => (hiff ha).mp (((hiff hb).mpr hc).of_ne (Ne.symm hcb) hba)⟩
  rintro rfl
  exact absurd (h.lt a a hba) (lt_irrefl _)

end Sweep

end GhidraDecompiler.Flow
