import GhidraDecompiler.Lib.SortedMap
import GhidraDecompiler.Lib.Fallible

namespace GhidraDecompiler

open Fallible

/-- A value for every point of a line: that of the last partition point up to it. -/
structure PartMap (L V : Type) [LinearOrder L] where
  database : SortedMap L V
  defaultvalue : V

namespace PartMap

variable {L V W : Type} [LinearOrder L]

def getValue (m : PartMap L V) (pnt : L) : V :=
  match m.database.floor pnt with
  | some x => x.2
  | none => m.defaultvalue

/-- A partition point is made at the place, with a clone of the value that holds there. -/
def split (clone : V → V) (m : PartMap L V) (pnt : L) : PartMap L V :=
  match m.database.floor pnt with
  | some x => if x.1 = pnt then m else { m with database := m.database.insert pnt (clone x.2) }
  | none => { m with database := m.database.insert pnt (clone m.defaultvalue) }

/-- A change through `get_mut`, where the key is expected to be there. -/
def update (m : PartMap L V) (key : L) (f : V → Outcome V) : Outcome (PartMap L V) := do
  let value ← expect (m.database.lookup key)
  let value ← f value
  pure { m with database := m.database.insert key value }

def keysFrom (m : PartMap L V) (pnt : L) : List L := (m.database.atLeast pnt).map Prod.fst

/-- The partition points strictly between the two ends are removed; the entry at the
first end is what the caller may change. -/
def clearRange (clone : V → V) (m : PartMap L V) (pnt1 pnt2 : L) : PartMap L V :=
  let m := split clone m pnt1
  let m := split clone m pnt2
  if pnt1 < pnt2 then
    let doomed := (m.database.entries.filter fun x => pnt1 < x.1 ∧ x.1 < pnt2).map Prod.fst
    { m with database := doomed.foldl SortedMap.remove m.database }
  else m

variable {m m' : PartMap L V} {clone : V → V}

theorem getValue_of_mem {k p : L} {v : V} (h : (k, v) ∈ m.database.entries) (hk : k ≤ p)
    (hmax : ∀ y ∈ m.database.entries, y.1 ≤ p → y.1 ≤ k) : m.getValue p = v := by
  have hf : m.database.floor p = some (k, v) := SortedMap.floor_eq_some.mpr ⟨h, hk, hmax⟩
  rw [getValue, hf]

theorem getValue_of_lt {p : L} (h : ∀ x ∈ m.database.entries, p < x.1) : m.getValue p = m.defaultvalue := by
  rw [getValue, SortedMap.floor_eq_none.mpr h]

/-- The two cases for the value at a point. -/
theorem getValue_cases (m : PartMap L V) (p : L) :
    (∃ k v, (k, v) ∈ m.database.entries ∧ k ≤ p ∧ (∀ y ∈ m.database.entries, y.1 ≤ p → y.1 ≤ k) ∧ m.getValue p = v) ∨
      (∀ x ∈ m.database.entries, p < x.1) ∧ m.getValue p = m.defaultvalue := by
  cases hf : m.database.floor p with
  | none => exact .inr ⟨SortedMap.floor_eq_none.mp hf, by rw [getValue, hf]⟩
  | some x =>
      obtain ⟨hx, hle, hmax⟩ := SortedMap.floor_eq_some.mp hf
      exact .inl ⟨x.1, x.2, hx, hle, hmax, by rw [getValue, hf]⟩

/-- A new partition point whose value is a clone of the one that holds there. -/
theorem split_cases (clone : V → V) (m : PartMap L V) (p : L) :
    (split clone m p = m ∧ ∃ v, (p, v) ∈ m.database.entries) ∨
      (∀ v, (p, v) ∉ m.database.entries) ∧
        split clone m p = { m with database := m.database.insert p (clone (m.getValue p)) } := by
  cases hf : m.database.floor p with
  | none =>
      refine .inr ⟨fun v hv => ?_, by simp [split, getValue, hf]⟩
      exact absurd (SortedMap.floor_eq_none.mp hf _ hv) (lt_irrefl p)
  | some x =>
      obtain ⟨hx, hle, hmax⟩ := SortedMap.floor_eq_some.mp hf
      by_cases hxp : x.1 = p
      · exact .inl ⟨by simp [split, hf, hxp], x.2, hxp ▸ hx⟩
      · refine .inr ⟨fun v hv => hxp ?_, by simp [split, getValue, hf, hxp]⟩
        exact le_antisymm hle (hmax (p, v) hv (le_refl p))

theorem mem_split (clone : V → V) (m : PartMap L V) (p : L) : ∃ v, (p, v) ∈ (split clone m p).database.entries := by
  rcases split_cases clone m p with ⟨he, v, hv⟩ | ⟨-, he⟩
  · exact ⟨v, by rwa [he]⟩
  · exact ⟨_, by rw [he]; exact SortedMap.mem_insert.mpr (.inl rfl)⟩

theorem mem_split_of_mem {p k : L} {v : V} (h : (k, v) ∈ m.database.entries) :
    (k, v) ∈ (split clone m p).database.entries := by
  rcases split_cases clone m p with ⟨he, -⟩ | ⟨hn, he⟩
  · rwa [he]
  · rw [he]
    refine SortedMap.mem_insert.mpr (.inr ⟨h, ?_⟩)
    rintro rfl
    exact hn v h

@[simp] theorem defaultvalue_split (p : L) : (split clone m p).defaultvalue = m.defaultvalue := by
  rcases split_cases clone m p with ⟨he, -⟩ | ⟨-, he⟩ <;> rw [he]

/-- A property of all values that clones keep. -/
theorem forall_split {P : V → Prop} (hP : ∀ v, P v → P (clone v)) (hd : P m.defaultvalue)
    (hm : ∀ x ∈ m.database.entries, P x.2) (p : L) : ∀ x ∈ (split clone m p).database.entries, P x.2 := by
  have hv : ∀ q, P (m.getValue q) := by
    intro q
    rcases getValue_cases m q with ⟨k, v, hkv, -, -, he⟩ | ⟨-, he⟩
    · rw [he]
      exact hm _ hkv
    · rwa [he]
  rcases split_cases clone m p with ⟨he, -⟩ | ⟨-, he⟩
  · rwa [he]
  · rw [he]
    intro x hx
    rcases SortedMap.mem_insert.mp hx with rfl | ⟨hx, -⟩
    · exact hP _ (hv p)
    · exact hm x hx

/-- Splitting changes no value, as far as clones keep it. -/
theorem getValue_split (read : V → W) (hr : ∀ v, read (clone v) = read v) (p q : L) :
    read ((split clone m p).getValue q) = read (m.getValue q) := by
  rcases split_cases clone m p with ⟨he, -⟩ | ⟨hn, he⟩
  · rw [he]
  · rw [he]
    -- below the new point or from a later point on, the entry that counts is the old one
    rcases getValue_cases m q with ⟨k, v, hkv, hkq, hmax, hval⟩ | ⟨hlt, hval⟩
    · by_cases hp : p ≤ q ∧ k ≤ p
      · have hpk : m.getValue p = v := getValue_of_mem hkv hp.2 fun y hy hyp => hmax y hy (hyp.trans hp.1)
        rw [hval, ← hr v, ← hpk]
        congr 1
        refine getValue_of_mem (SortedMap.mem_insert.mpr (.inl rfl)) hp.1 fun y hy hyq => ?_
        rcases SortedMap.mem_insert.mp hy with rfl | ⟨hy, -⟩
        · exact le_refl _
        · exact (hmax y hy hyq).trans hp.2
      · rw [hval]
        congr 1
        refine getValue_of_mem (SortedMap.mem_insert.mpr (.inr ⟨hkv, ?_⟩)) hkq fun y hy hyq => ?_
        · rintro rfl
          exact hn v hkv
        · rcases SortedMap.mem_insert.mp hy with rfl | ⟨hy, -⟩
          · exact (le_of_not_ge fun h => hp ⟨hyq, h⟩)
          · exact hmax y hy hyq
    · by_cases hp : p ≤ q
      · have hpd : m.getValue p = m.defaultvalue := getValue_of_lt fun x hx => hp.trans_lt (hlt x hx)
        rw [hval, ← hr m.defaultvalue, ← hpd]
        congr 1
        refine getValue_of_mem (SortedMap.mem_insert.mpr (.inl rfl)) hp fun y hy hyq => ?_
        rcases SortedMap.mem_insert.mp hy with rfl | ⟨hy, -⟩
        · exact le_refl _
        · exact absurd (hlt y hy) (not_lt.mpr hyq)
      · rw [hval]
        congr 1
        refine getValue_of_lt fun x hx => ?_
        rcases SortedMap.mem_insert.mp hx with rfl | ⟨hx, -⟩
        · exact lt_of_not_ge hp
        · exact hlt x hx

/-- Changing values but no keys changes the value of a point by its partition point. -/
theorem getValue_of_same_keys {h : L → V → V}
    (hm : ∀ k v', (k, v') ∈ m'.database.entries ↔ ∃ v, (k, v) ∈ m.database.entries ∧ v' = h k v) {k p : L} {v : V}
    (hkv : (k, v) ∈ m.database.entries) (hkp : k ≤ p) (hmax : ∀ y ∈ m.database.entries, y.1 ≤ p → y.1 ≤ k) :
    m'.getValue p = h k v := by
  refine getValue_of_mem ((hm k _).mpr ⟨v, hkv, rfl⟩) hkp fun y hy hyp => ?_
  obtain ⟨w, hw, -⟩ := (hm y.1 y.2).mp hy
  exact hmax (y.1, w) hw hyp

/-- A run of updates at keys of the map. -/
theorem foldlM_update {P : V → Prop} {f : V → Outcome V} {g : V → V} (hf : ∀ v, P v → f v = .ok (g v))
    (hg : ∀ v, P v → P (g v)) (ks : List L) (hks : ks.Nodup) (hm : ∀ x ∈ m.database.entries, P x.2)
    (hkeys : ∀ k ∈ ks, ∃ v, (k, v) ∈ m.database.entries) :
    ∃ m', ks.foldlM (fun m k => update m k f) m = .ok m' ∧ m'.defaultvalue = m.defaultvalue ∧
      (∀ x ∈ m'.database.entries, P x.2) ∧
      ∀ k v', (k, v') ∈ m'.database.entries ↔
        ∃ v, (k, v) ∈ m.database.entries ∧ v' = if k ∈ ks then g v else v := by
  induction ks generalizing m with
  | nil => exact ⟨m, rfl, rfl, hm, fun k v' => by simp⟩
  | cons k ks ih =>
      obtain ⟨hk, hnd⟩ := List.nodup_cons.mp hks
      obtain ⟨v, hv⟩ := hkeys k (by simp)
      let m₁ : PartMap L V := { m with database := m.database.insert k (g v) }
      have hup : update m k f = .ok m₁ := by
        simp [update, SortedMap.lookup_eq_some.mpr hv, hf v (hm _ hv), m₁]
      have hm₁ : ∀ x ∈ m₁.database.entries, P x.2 := by
        intro x hx
        rcases SortedMap.mem_insert.mp hx with rfl | ⟨hx, -⟩
        · exact hg v (hm _ hv)
        · exact hm x hx
      obtain ⟨m', hfold, hd, hP, hmem⟩ := ih hnd hm₁ (fun k' hk' => by
        obtain ⟨w, hw⟩ := hkeys k' (by simp [hk'])
        exact ⟨w, SortedMap.mem_insert.mpr (.inr ⟨hw, fun he => hk (he ▸ hk')⟩)⟩)
      refine ⟨m', by rw [List.foldlM_cons, hup, ok_bind, hfold], hd, hP, fun k' v' => ?_⟩
      rw [hmem]
      constructor
      · rintro ⟨w, hw, rfl⟩
        rcases SortedMap.mem_insert.mp hw with he | ⟨hw, hne⟩
        · cases he
          exact ⟨v, hv, by simp [hk]⟩
        · have hne : k' ≠ k := hne
          exact ⟨w, hw, by simp [hne]⟩
      · rintro ⟨w, hw, rfl⟩
        by_cases hkk : k' = k
        · subst hkk
          have hwv : w = v := congrArg Prod.snd (SortedMap.eq_of_key_eq hw hv rfl)
          exact ⟨g v, SortedMap.mem_insert.mpr (.inl rfl), by simp [hk, hwv]⟩
        · exact ⟨w, SortedMap.mem_insert.mpr (.inr ⟨hw, hkk⟩), by simp [hkk]⟩

/-- Removing the points inside a range does not change the values outside. -/
theorem getValue_clearRange (read : V → W) (hr : ∀ v, read (clone v) = read v) {p q a : L} (hpq : p < q)
    (ha : ¬ (p ≤ a ∧ a < q)) : read ((clearRange clone m p q).getValue a) = read (m.getValue a) := by
  let m₂ := split clone (split clone m p) q
  have hsplit : read (m₂.getValue a) = read (m.getValue a) := by
    rw [getValue_split read hr, getValue_split read hr]
  have hmem : ∀ x, x ∈ (clearRange clone m p q).database.entries ↔
      x ∈ m₂.database.entries ∧ ¬ (p < x.1 ∧ x.1 < q) := by
    intro x
    simp only [clearRange, if_pos hpq]
    rw [SortedMap.mem_removeAll]
    refine and_congr_right fun hx => not_congr ?_
    simp only [List.mem_map, List.mem_filter, decide_eq_true_eq]
    constructor
    · rintro ⟨y, ⟨-, hy⟩, he⟩
      exact he ▸ hy
    · intro h
      exact ⟨x, ⟨hx, h⟩, rfl⟩
  have hd : (clearRange clone m p q).defaultvalue = m₂.defaultvalue := by simp only [clearRange, if_pos hpq, m₂]
  rw [← hsplit]
  congr 1
  rcases getValue_cases m₂ a with ⟨k, v, hkv, hka, hmax, hval⟩ | ⟨hlt, hval⟩
  · rw [hval]
    refine getValue_of_mem ((hmem _).mpr ⟨hkv, fun hk => ?_⟩) hka fun y hy hya => hmax y ((hmem y).mp hy).1 hya
    -- a point inside holds only up to the end of the range, which is a point itself
    obtain ⟨v₂, hv₂⟩ := mem_split clone (split clone m p) q
    have hqa : q ≤ a := le_of_not_gt fun hlt => ha ⟨hk.1.le.trans hka, hlt⟩
    exact absurd (hmax _ hv₂ hqa) (not_le.mpr hk.2)
  · rw [hval, getValue_of_lt fun x hx => hlt x ((hmem x).mp hx).1, hd]

theorem mem_clearRange {p q : L} (hpq : p < q) :
    (∃ v, (p, v) ∈ (clearRange clone m p q).database.entries) ∧
      (∃ v, (q, v) ∈ (clearRange clone m p q).database.entries) ∧
      ∀ x ∈ (clearRange clone m p q).database.entries, ¬ (p < x.1 ∧ x.1 < q) := by
  obtain ⟨v, hv⟩ := mem_split clone m p
  obtain ⟨v₂, hv₂⟩ := mem_split clone (split clone m p) q
  simp only [clearRange, if_pos hpq]
  refine ⟨⟨v, SortedMap.mem_removeAll.mpr ⟨mem_split_of_mem hv, ?_⟩⟩,
    ⟨v₂, SortedMap.mem_removeAll.mpr ⟨hv₂, ?_⟩⟩, fun x hx hin => ?_⟩
  · simp
  · simp
  · rw [SortedMap.mem_removeAll] at hx
    refine hx.2 (List.mem_map.mpr ⟨x, List.mem_filter.mpr ⟨hx.1, ?_⟩, rfl⟩)
    simpa using hin

/-- A new value at a point holds up to the next one. -/
theorem getValue_insert {p q a : L} {w : V} (hp : ∃ v, (p, v) ∈ m.database.entries)
    (hq : ∃ v, (q, v) ∈ m.database.entries) (hpq : p < q)
    (hgap : ∀ x ∈ m.database.entries, ¬ (p < x.1 ∧ x.1 < q)) :
    ({ m with database := m.database.insert p w } : PartMap L V).getValue a =
      if p ≤ a ∧ a < q then w else m.getValue a := by
  split
  · next h =>
    refine getValue_of_mem (SortedMap.mem_insert.mpr (.inl rfl)) h.1 fun y hy hya => ?_
    rcases SortedMap.mem_insert.mp hy with rfl | ⟨hy, -⟩
    · exact le_refl _
    · exact le_of_not_gt fun hlt => hgap y hy ⟨hlt, hya.trans_lt h.2⟩
  · next h =>
    rcases getValue_cases m a with ⟨k, v, hkv, hka, hmax, hval⟩ | ⟨hlt, hval⟩
    · have hkp : k ≠ p := by
        rintro rfl
        obtain ⟨v₂, hv₂⟩ := hq
        have hqa : q ≤ a := le_of_not_gt fun hlt => h ⟨hka, hlt⟩
        exact absurd (hmax (q, v₂) hv₂ hqa) (not_le.mpr hpq)
      rw [hval]
      refine getValue_of_mem (SortedMap.mem_insert.mpr (.inr ⟨hkv, hkp⟩)) hka fun y hy hya => ?_
      rcases SortedMap.mem_insert.mp hy with rfl | ⟨hy, -⟩
      · obtain ⟨v₀, hv₀⟩ := hp
        exact hmax (p, v₀) hv₀ hya
      · exact hmax y hy hya
    · rw [hval]
      refine getValue_of_lt fun x hx => ?_
      rcases SortedMap.mem_insert.mp hx with rfl | ⟨hx, -⟩
      · obtain ⟨v₀, hv₀⟩ := hp
        exact hlt (p, v₀) hv₀
      · exact hlt x hx

/-- The partition point of a place, or nothing before the first one. -/
def partitionKey (m : PartMap L V) (pnt : L) : Option L := (m.database.floor pnt).map Prod.fst

def getByKey (m : PartMap L V) : Option L → V
  | some key => (m.database.lookup key).getD m.defaultvalue
  | none => m.defaultvalue

/-- The partition points around a place; a bit of `valid` is set where there is none. -/
structure PartBounds (L : Type) where
  before : Option L
  after : Option L
  valid : Nat

def bounds (m : PartMap L V) (pnt : L) : V × PartBounds L :=
  if m.database.entries = [] then (m.defaultvalue, { before := none, after := none, valid := 3 })
  else
    let after := ((m.database.entries.filter fun x => pnt < x.1).head?).map Prod.fst
    match m.database.floor pnt with
    | some x => (x.2, { before := some x.1, after := after, valid := if after.isNone then 2 else 0 })
    | none => (m.defaultvalue, { before := none, after := after, valid := 1 })

/-- The value of a place is that of its partition point. -/
theorem getByKey_partitionKey (m : PartMap L V) (p : L) : m.getByKey (m.partitionKey p) = m.getValue p := by
  rw [partitionKey, getValue]
  cases hf : m.database.floor p with
  | none => rfl
  | some x =>
      have hx : m.database.lookup x.1 = some x.2 := SortedMap.lookup_eq_some.mpr (SortedMap.floor_eq_some.mp hf).1
      simp [getByKey, hx]

def HasKey (m : PartMap L V) (k : L) : Prop := ∃ v, (k, v) ∈ m.database.entries

theorem partitionKey_eq_some {p k : L} :
    m.partitionKey p = some k ↔ m.HasKey k ∧ k ≤ p ∧ ∀ y, m.HasKey y → y ≤ p → y ≤ k := by
  rw [partitionKey, Option.map_eq_some_iff]
  constructor
  · rintro ⟨x, hx, rfl⟩
    obtain ⟨hmem, hle, hmax⟩ := SortedMap.floor_eq_some.mp hx
    exact ⟨⟨x.2, hmem⟩, hle, fun y ⟨w, hy⟩ hyp => hmax (y, w) hy hyp⟩
  · rintro ⟨⟨v, hv⟩, hle, hmax⟩
    exact ⟨(k, v), SortedMap.floor_eq_some.mpr ⟨hv, hle, fun y hy hyp => hmax y.1 ⟨y.2, hy⟩ hyp⟩, rfl⟩

theorem partitionKey_eq_none {p : L} : m.partitionKey p = none ↔ ∀ y, m.HasKey y → p < y := by
  rw [partitionKey, Option.map_eq_none_iff, SortedMap.floor_eq_none]
  exact ⟨fun h y ⟨w, hy⟩ => h (y, w) hy, fun h x hx => h x.1 ⟨x.2, hx⟩⟩

/-- New partition points that do not come between a place and its partition point. -/
theorem partitionKey_of_more_keys {P : L → Prop} (hkeys : ∀ k, m'.HasKey k ↔ m.HasKey k ∨ P k) {p : L}
    (hP : ∀ k, P k → k ≤ p → ∃ k', m.partitionKey p = some k' ∧ k ≤ k') : m'.partitionKey p = m.partitionKey p := by
  cases h : m.partitionKey p with
  | none =>
      rw [partitionKey_eq_none] at h ⊢
      intro y hy
      rcases (hkeys y).mp hy with hy | hy
      · exact h y hy
      · refine lt_of_not_ge fun hle => ?_
        obtain ⟨k', hk', -⟩ := hP y hy hle
        rw [partitionKey_eq_none.mpr h] at hk'
        cases hk'
  | some k =>
      obtain ⟨hk, hle, hmax⟩ := partitionKey_eq_some.mp h
      refine partitionKey_eq_some.mpr ⟨(hkeys k).mpr (.inl hk), hle, fun y hy hyp => ?_⟩
      rcases (hkeys y).mp hy with hy | hy
      · exact hmax y hy hyp
      · obtain ⟨k', hk', hyk⟩ := hP y hy hyp
        obtain rfl : k = k' := Option.some_inj.mp (h.symm.trans hk')
        exact hyk

theorem hasKey_split (clone : V → V) (m : PartMap L V) (p k : L) :
    (split clone m p).HasKey k ↔ m.HasKey k ∨ k = p := by
  rcases split_cases clone m p with ⟨he, hp⟩ | ⟨-, he⟩
  · rw [he]
    exact ⟨.inl, fun h => h.elim id fun h => h ▸ hp⟩
  · simp only [HasKey, he, SortedMap.mem_insert, Prod.mk.injEq]
    constructor
    · rintro ⟨v, ⟨rfl, -⟩ | ⟨hv, -⟩⟩
      · exact .inr rfl
      · exact .inl ⟨v, hv⟩
    · intro h
      by_cases hk : k = p
      · exact ⟨_, .inl ⟨hk, rfl⟩⟩
      · obtain ⟨v, hv⟩ := h.resolve_right hk
        exact ⟨v, .inr ⟨hv, hk⟩⟩

/-- An update changes no key, and keeps what the change of the value keeps. -/
theorem update_spec {f : V → Outcome V} {k : L} (h : m.update k f = .ok m') :
    (∀ q, m'.HasKey q ↔ m.HasKey q) ∧ m'.defaultvalue = m.defaultvalue ∧
      ∀ P : V → Prop, (∀ v v', P v → f v = .ok v' → P v') → (∀ x ∈ m.database.entries, P x.2) →
        ∀ x ∈ m'.database.entries, P x.2 := by
  obtain ⟨v, hv, h⟩ := bind_eq_ok.mp h
  obtain ⟨v', hv', h⟩ := bind_eq_ok.mp h
  obtain rfl := Except.ok.inj h
  have hmem : (k, v) ∈ m.database.entries := by
    cases hl : m.database.lookup k with
    | none => simp [hl] at hv
    | some w =>
        rw [hl] at hv
        obtain rfl := Except.ok.inj hv
        exact SortedMap.lookup_eq_some.mp hl
  refine ⟨fun q => ?_, rfl, fun P hP hm x hx => ?_⟩
  · simp only [HasKey, SortedMap.mem_insert, Prod.mk.injEq]
    constructor
    · rintro ⟨w, ⟨rfl, -⟩ | ⟨hw, -⟩⟩
      · exact ⟨v, hmem⟩
      · exact ⟨w, hw⟩
    · rintro ⟨w, hw⟩
      by_cases hq : q = k
      · exact ⟨v', .inl ⟨hq, rfl⟩⟩
      · exact ⟨w, .inr ⟨hw, hq⟩⟩
  · rcases SortedMap.mem_insert.mp hx with rfl | ⟨hx, -⟩
    · exact hP v v' (hm _ hmem) hv'
    · exact hm x hx

/-- What the bounds of a place say. -/
structure IsBounds (m : PartMap L V) (p : L) (b : PartBounds L) : Prop where
  before : b.before = m.partitionKey p
  noBefore : b.valid &&& 1 ≠ 0 ↔ b.before = none
  noAfter : b.valid &&& 2 ≠ 0 ↔ b.after = none
  after : ∀ y, m.HasKey y → p < y → ∃ x, b.after = some x ∧ p < x ∧ x ≤ y

theorem bounds_spec (m : PartMap L V) (p : L) : m.IsBounds p (m.bounds p).2 := by
  obtain ⟨after, hdef⟩ : ∃ o, o = ((m.database.entries.filter fun x => p < x.1).head?).map Prod.fst := ⟨_, rfl⟩
  have hafter : ∀ y, m.HasKey y → p < y → ∃ x, after = some x ∧ p < x ∧ x ≤ y := by
    rintro y ⟨v, hy⟩ hlt
    have hmem : (y, v) ∈ m.database.entries.filter fun x => p < x.1 := List.mem_filter.mpr ⟨hy, by simpa using hlt⟩
    obtain ⟨x, l, hl⟩ := List.exists_cons_of_ne_nil (List.ne_nil_of_mem hmem)
    have hpw := m.database.sorted.filter (fun x => decide (p < x.1))
    have hx : x ∈ m.database.entries.filter fun x => p < x.1 := by
      rw [hl]
      exact List.mem_cons_self
    refine ⟨x.1, by simp only [hdef, hl, List.head?_cons, Option.map_some], by simpa using (List.mem_filter.mp hx).2, ?_⟩
    rw [hl] at hpw hmem
    rcases List.mem_cons.mp hmem with heq | hin
    · rw [← heq]
    · exact ((List.pairwise_cons.mp hpw).1 _ hin).le
  by_cases hempty : m.database.entries = []
  · have hnone : m.partitionKey p = none := by
      refine partitionKey_eq_none.mpr fun y ⟨w, hy⟩ => ?_
      rw [hempty] at hy
      cases hy
    rw [bounds, if_pos hempty]
    exact ⟨hnone.symm, by simp, by simp, fun y ⟨w, hy⟩ => by rw [hempty] at hy; cases hy⟩
  · simp only [bounds, if_neg hempty, ← hdef]
    cases hf : m.database.floor p with
    | some x =>
        refine ⟨by simp [partitionKey, hf], ?_, ?_, hafter⟩
        · cases after <;> simp
        · cases after <;> simp
    | none =>
        obtain ⟨x, hx⟩ := List.exists_mem_of_ne_nil _ hempty
        obtain ⟨y, hy, -⟩ := hafter x.1 ⟨x.2, hx⟩ (SortedMap.floor_eq_none.mp hf x hx)
        refine ⟨by simp [partitionKey, hf], by simp, ?_, hafter⟩
        simp [hy]

end PartMap

end GhidraDecompiler
