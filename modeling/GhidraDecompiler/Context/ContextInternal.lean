import GhidraDecompiler.Context.PartMap
import Mathlib

namespace GhidraDecompiler.Context

open Fallible

/-- An address by what it is compared by: the index of its space, or nothing for an
invalid address, and the offset. -/
abbrev Addr := WithBot Int ×ₗ Nat

def Addr.mk (space : WithBot Int) (offset : Nat) : Addr := toLex (space, offset)

def Addr.isInvalid (a : Addr) : Bool := (ofLex a).1 = ⊥

/-- The words of a context, with the bits of each that were set at its partition point. -/
structure FreeArray where
  array : List (BitVec 32)
  mask : List (BitVec 32)
  deriving DecidableEq

/-- A clone keeps the words but forgets which bits were set. -/
def FreeArray.clone (v : FreeArray) : FreeArray := { v with mask := v.mask.map fun _ => 0 }

structure VarnodeData where
  space : Int
  offset : Nat
  size : Nat
  deriving DecidableEq

structure TrackedContext where
  loc : VarnodeData
  val : BitVec 64
  deriving DecidableEq

abbrev TrackedSet := List TrackedContext

structure ContextInternal where
  size : Nat
  database : PartMap Addr FreeArray
  trackbase : PartMap Addr TrackedSet

namespace ContextInternal

def getContext (c : ContextInternal) (addr : Addr) : List (BitVec 32) := (c.database.getValue addr).array

def getDefaultValue (c : ContextInternal) : List (BitVec 32) := c.database.defaultvalue.array

def getTrackedSet (c : ContextInternal) (addr : Addr) : TrackedSet := c.trackbase.getValue addr

def getTrackedDefault (c : ContextInternal) : TrackedSet := c.trackbase.defaultvalue

/-- The change of one entry in `get_region_for_set`. -/
def applyTo (slot : Nat) (mask : BitVec 32) (apply : List (BitVec 32) → Outcome (List (BitVec 32)))
    (entry : FreeArray) : Outcome FreeArray := do
  let word ← getIdx entry.mask slot
  let maskWords ← setIdx entry.mask slot (word ||| mask)
  let array ← apply entry.array
  pure { array := array, mask := maskWords }

def getRegionForSet (c : ContextInternal) (addr1 addr2 : Addr) (num : Nat) (mask : BitVec 32)
    (apply : List (BitVec 32) → Outcome (List (BitVec 32))) : Outcome ContextInternal := do
  let database := c.database.split FreeArray.clone addr1
  let bounded := ! addr2.isInvalid
  let database := if bounded then database.split FreeArray.clone addr2 else database
  if bounded && decide (addr1 = addr2) then pure { c with database := database }
  else do
    let stopAtEnd := bounded && decide (addr1 < addr2)
    let keys := (database.keysFrom addr1).takeWhile fun key => ! (stopAtEnd && decide (addr2 ≤ key))
    let database ← keys.foldlM (fun m key => m.update key (applyTo num mask apply)) database
    pure { c with database := database }

def setContextRegion (c : ContextInternal) (addr1 addr2 : Addr) (num : Nat) (mask value : BitVec 32) :
    Outcome ContextInternal :=
  c.getRegionForSet addr1 addr2 num mask fun context => do
    let word ← getIdx context num
    setIdx context num ((word &&& ~~~ mask) ||| value)

/-- The set of the range is cleared, and the caller stores what it decodes through the
reference that is returned. -/
def createSet (c : ContextInternal) (addr1 addr2 : Addr) (stored : TrackedSet) : Outcome ContextInternal := do
  let trackbase := c.trackbase.clearRange id addr1 addr2
  let trackbase ← trackbase.update addr1 fun _ => pure []
  let trackbase ← trackbase.update addr1 fun set => pure (set ++ stored)
  pure { c with trackbase := trackbase }

/-- All words are there: variables can be registered only before there are partition
points, so that every array has the registered size. -/
structure Sized (c : ContextInternal) : Prop where
  default : c.database.defaultvalue.array.length = c.size ∧ c.database.defaultvalue.mask.length = c.size
  entries : ∀ x ∈ c.database.database.entries, x.2.array.length = c.size ∧ x.2.mask.length = c.size

/-- The words of a context where those bits of one word that are in the mask were
replaced. -/
structure Replaced (num : Nat) (mask value : BitVec 32) (old new : List (BitVec 32)) : Prop where
  length : new.length = old.length
  other : ∀ j ≠ num, new[j]? = old[j]?
  word : ∀ w, old[num]? = some w → ∃ w', new[num]? = some w' ∧
    ∀ i, w'.getLsbD i = if mask.getLsbD i then value.getLsbD i else w.getLsbD i

variable {c : ContextInternal} {num : Nat} {mask value : BitVec 32}

theorem getLsbD_replace {word : BitVec 32} (h : value &&& mask = value) (i : Nat) :
    ((word &&& ~~~ mask) ||| value).getLsbD i = if mask.getLsbD i then value.getLsbD i else word.getLsbD i := by
  have hbit : (value.getLsbD i && mask.getLsbD i) = value.getLsbD i := by
    rw [← BitVec.getLsbD_and, h]
  have hlt : word.getLsbD i = true → i < 32 := BitVec.lt_of_getLsbD
  rw [BitVec.getLsbD_or, BitVec.getLsbD_and, BitVec.getLsbD_not]
  cases hm : mask.getLsbD i <;> cases hw : word.getLsbD i <;> simp_all

/-- What an entry becomes. -/
def written (num : Nat) (mask value : BitVec 32) (v : FreeArray) : FreeArray :=
  { array := v.array.modify num fun w => (w &&& ~~~ mask) ||| value
    mask := v.mask.modify num fun w => w ||| mask }

theorem applyTo_eq {v : FreeArray} (ha : num < v.array.length) (hm : num < v.mask.length) :
    applyTo num mask (fun context => do
      let word ← getIdx context num
      setIdx context num ((word &&& ~~~ mask) ||| value)) v = .ok (written num mask value v) := by
  have h : ∀ (l : List (BitVec 32)) (hl : num < l.length) (f : BitVec 32 → BitVec 32),
      l.set num (f l[num]) = l.modify num f := by
    intro l hl f
    rw [List.modify_eq_set_getElem?, List.getElem?_eq_getElem hl]
    rfl
  simp [applyTo, getIdx_eq (List.getElem?_eq_getElem ha), getIdx_eq (List.getElem?_eq_getElem hm), setIdx_eq _ ha,
    setIdx_eq _ hm, written, ← h _ ha, ← h _ hm]

theorem replaced_written (hv : value &&& mask = value) (v : FreeArray) :
    Replaced num mask value v.array (written num mask value v).array := by
  refine ⟨by simp [written], fun j hj => ?_, fun w hw => ?_⟩
  · simp [written, List.getElem?_modify, Ne.symm hj]
  · exact ⟨_, by simp [written, hw], getLsbD_replace hv⟩

/-- Taking keys while they are below a bound is taking those that are. -/
theorem mem_takeWhile_iff {L : Type} [LinearOrder L] {ks : List L} (hs : ks.Pairwise (· < ·)) {p : L → Bool}
    (hp : ∀ x y, x < y → p y → p x) {k : L} : k ∈ ks.takeWhile p ↔ k ∈ ks ∧ p k := by
  induction ks with
  | nil => simp
  | cons x ks ih =>
      rw [List.pairwise_cons] at hs
      by_cases hx : p x
      · simp only [List.takeWhile_cons, hx, if_true, List.mem_cons, ih hs.2]
        constructor
        · rintro (rfl | ⟨h₁, h₂⟩)
          · exact ⟨.inl rfl, hx⟩
          · exact ⟨.inr h₁, h₂⟩
        · rintro ⟨rfl | h₁, h₂⟩
          · exact .inl rfl
          · exact .inr ⟨h₁, h₂⟩
      · simp only [List.takeWhile_cons, hx, List.mem_cons]
        constructor
        · intro h
          simp at h
        · rintro ⟨rfl | h₁, h₂⟩
          · exact absurd h₂ hx
          · exact absurd (hp x k (hs.1 k h₁) h₂) hx

/-- The part of the region that an address lies in. -/
def InRegion (addr1 addr2 a : Addr) : Prop := addr1 ≤ a ∧ (addr2.isInvalid ∨ a < addr2)

instance (addr1 addr2 a : Addr) : Decidable (InRegion addr1 addr2 a) := inferInstanceAs (Decidable (_ ∧ _))

/-- A partition that has a point at either end: the points of an address in the region
are those in the region. -/
theorem inRegion_key_iff {V : Type} {m : PartMap Addr V} {addr1 addr2 k a : Addr}
    (h₁ : ∃ v, (addr1, v) ∈ m.database.entries)
    (h₂ : addr2.isInvalid = false → ∃ v, (addr2, v) ∈ m.database.entries) (hk : k ≤ a)
    (hmax : ∀ y ∈ m.database.entries, y.1 ≤ a → y.1 ≤ k) : InRegion addr1 addr2 k ↔ InRegion addr1 addr2 a := by
  obtain ⟨v₁, h₁⟩ := h₁
  constructor
  · rintro ⟨hle, hlt⟩
    refine ⟨hle.trans hk, ?_⟩
    cases hi : addr2.isInvalid with
    | true => exact .inl rfl
    | false =>
        obtain ⟨v₂, h₂⟩ := h₂ hi
        refine .inr (lt_of_not_ge fun hge => ?_)
        exact absurd (hmax _ h₂ hge) (not_le.mpr (hlt.resolve_left (by simp [hi])))
  · rintro ⟨hle, hlt⟩
    exact ⟨hmax _ h₁ hle, hlt.imp_right fun h => hk.trans_lt h⟩

/-- The partition that the loop of `get_region_for_set` meets. -/
def regionSplit (m : PartMap Addr FreeArray) (addr1 addr2 : Addr) : PartMap Addr FreeArray :=
  let m := m.split FreeArray.clone addr1
  if addr2.isInvalid then m else m.split FreeArray.clone addr2

section Region

variable {addr1 addr2 : Addr} {m : PartMap Addr FreeArray}

theorem mem_regionSplit_start (m : PartMap Addr FreeArray) (addr1 addr2 : Addr) :
    ∃ v, (addr1, v) ∈ (regionSplit m addr1 addr2).database.entries := by
  obtain ⟨v, hv⟩ := PartMap.mem_split FreeArray.clone m addr1
  rw [regionSplit]
  split
  · exact ⟨v, hv⟩
  · exact ⟨v, PartMap.mem_split_of_mem hv⟩

theorem mem_regionSplit_stop (m : PartMap Addr FreeArray) (addr1 : Addr) (h : addr2.isInvalid = false) :
    ∃ v, (addr2, v) ∈ (regionSplit m addr1 addr2).database.entries := by
  rw [regionSplit, if_neg (by simp [h])]
  exact PartMap.mem_split _ _ _

theorem getValue_regionSplit (a : Addr) : ((regionSplit m addr1 addr2).getValue a).array = (m.getValue a).array := by
  have h : ∀ (m : PartMap Addr FreeArray) (p : Addr),
      ((m.split FreeArray.clone p).getValue a).array = (m.getValue a).array := fun m p =>
    PartMap.getValue_split FreeArray.array (fun v => (rfl : v.clone.array = v.array)) p a
  rw [regionSplit]
  split
  · exact h m addr1
  · rw [h, h]

theorem defaultvalue_regionSplit : (regionSplit m addr1 addr2).defaultvalue = m.defaultvalue := by
  rw [regionSplit]
  split <;> simp

theorem forall_regionSplit {n : Nat} (hd : m.defaultvalue.array.length = n ∧ m.defaultvalue.mask.length = n)
    (hm : ∀ x ∈ m.database.entries, x.2.array.length = n ∧ x.2.mask.length = n) :
    ∀ x ∈ (regionSplit m addr1 addr2).database.entries, x.2.array.length = n ∧ x.2.mask.length = n := by
  have hclone : ∀ v : FreeArray, v.array.length = n ∧ v.mask.length = n →
      v.clone.array.length = n ∧ v.clone.mask.length = n := by
    intro v hv
    simpa [FreeArray.clone] using hv
  have h₁ := PartMap.forall_split hclone hd hm addr1
  rw [regionSplit]
  split
  · exact h₁
  · exact PartMap.forall_split hclone (by simpa using hd) h₁ addr2

/-- The keys that the loop visits are those in the region. -/
theorem mem_regionKeys {k : Addr} (h : addr2.isInvalid ∨ addr1 < addr2) :
    k ∈ (m.keysFrom addr1).takeWhile
        (fun key => ! ((! addr2.isInvalid && decide (addr1 < addr2)) && decide (addr2 ≤ key))) ↔
      (∃ v, (k, v) ∈ m.database.entries) ∧ InRegion addr1 addr2 k := by
  have hs : (m.keysFrom addr1).Pairwise (· < ·) := by
    rw [PartMap.keysFrom, List.pairwise_map]
    exact m.database.sorted.filter _
  rw [mem_takeWhile_iff hs]
  · have hk : k ∈ m.keysFrom addr1 ↔ (∃ v, (k, v) ∈ m.database.entries) ∧ addr1 ≤ k := by
      simp [PartMap.keysFrom, SortedMap.atLeast]
    rw [hk, InRegion]
    rcases h with h | h
    · simp [h]
    · cases hi : addr2.isInvalid <;> simp [h, and_assoc]
  · intro x y hxy hy
    by_cases hcond : (! addr2.isInvalid && decide (addr1 < addr2)) = true
    · simp only [hcond, Bool.true_and, Bool.not_eq_true', decide_eq_false_iff_not, not_le] at hy ⊢
      exact hxy.trans hy
    · simp [hcond]

theorem nodup_regionKeys (p : Addr → Bool) : ((m.keysFrom addr1).takeWhile p).Nodup := by
  refine (List.takeWhile_sublist p).nodup ?_
  rw [PartMap.keysFrom, List.nodup_iff_pairwise_ne, List.pairwise_map]
  exact (m.database.sorted.filter _).imp fun h => h.ne

theorem setContextRegion_region (hc : c.Sized) (h : addr2.isInvalid ∨ addr1 < addr2) (hn : num < c.size)
    (hv : value &&& mask = value) :
    ∃ c', c.setContextRegion addr1 addr2 num mask value = .ok c' ∧ c'.Sized ∧ c'.size = c.size ∧
      c'.trackbase = c.trackbase ∧ c'.getDefaultValue = c.getDefaultValue ∧
      ∀ a, if InRegion addr1 addr2 a then Replaced num mask value (c.getContext a) (c'.getContext a)
        else c'.getContext a = c.getContext a := by
  let m := regionSplit c.database addr1 addr2
  let ks := (m.keysFrom addr1).takeWhile
    fun key => ! ((! addr2.isInvalid && decide (addr1 < addr2)) && decide (addr2 ≤ key))
  have hsized : ∀ x ∈ m.database.entries, x.2.array.length = c.size ∧ x.2.mask.length = c.size :=
    forall_regionSplit hc.default hc.entries
  have hmem : ∀ k, k ∈ ks ↔ (∃ v, (k, v) ∈ m.database.entries) ∧ InRegion addr1 addr2 k := fun k => mem_regionKeys h
  obtain ⟨m', hfold, hd, hP, hent⟩ := PartMap.foldlM_update (m := m)
    (P := fun v => v.array.length = c.size ∧ v.mask.length = c.size)
    (f := applyTo num mask (fun context => do
      let word ← getIdx context num
      setIdx context num ((word &&& ~~~ mask) ||| value))) (g := written num mask value)
    (fun v hv' => applyTo_eq (hv'.1 ▸ hn) (hv'.2 ▸ hn)) (fun v hv' => by simpa [written] using hv') ks
    (nodup_regionKeys _) hsized (fun k hk => ((hmem k).mp hk).1)
  have hdef : m'.defaultvalue = c.database.defaultvalue := hd.trans defaultvalue_regionSplit
  have hne : (! addr2.isInvalid && decide (addr1 = addr2)) = false := by
    rcases h with h | h
    · simp [h]
    · simp [h.ne]
  have hsplit : (if (! addr2.isInvalid) = true then
      (c.database.split FreeArray.clone addr1).split FreeArray.clone addr2
      else c.database.split FreeArray.clone addr1) = m := by
    simp only [m, regionSplit]
    cases addr2.isInvalid <;> rfl
  refine ⟨{ c with database := m' }, ?_, ⟨?_, hP⟩, rfl, rfl, by simp only [getDefaultValue, hdef], fun a => ?_⟩
  · simp only [setContextRegion, getRegionForSet, hne, hsplit, Bool.false_eq_true, if_false]
    change (ks.foldlM _ m >>= _) = _
    rw [hfold]
    rfl
  · rw [hdef]
    exact hc.default
  · have hold : c.getContext a = (m.getValue a).array := (getValue_regionSplit a).symm
    rcases PartMap.getValue_cases m a with ⟨k, v, hkv, hka, hmax, hval⟩ | ⟨hlt, hval⟩
    · have hiff := inRegion_key_iff (mem_regionSplit_start c.database addr1 addr2)
        (mem_regionSplit_stop c.database addr1) hka hmax
      have hnew := PartMap.getValue_of_same_keys hent hkv hka hmax
      have hks : k ∈ ks ↔ InRegion addr1 addr2 a := by
        rw [hmem, ← hiff]
        exact ⟨fun h => h.2, fun h => ⟨⟨v, hkv⟩, h⟩⟩
      rw [hold, hval, getContext, hnew]
      by_cases hin : InRegion addr1 addr2 a
      · rw [if_pos hin, if_pos (hks.mpr hin)]
        exact replaced_written hv v
      · rw [if_neg hin, if_neg (fun h => hin (hks.mp h))]
    · obtain ⟨v, hv'⟩ := mem_regionSplit_start c.database addr1 addr2
      have hin : ¬ InRegion addr1 addr2 a := fun hin => absurd (hlt _ hv') (not_lt.mpr hin.1)
      have hnew : m'.getValue a = m'.defaultvalue := by
        refine PartMap.getValue_of_lt fun x hx => ?_
        obtain ⟨w, hw, -⟩ := (hent x.1 x.2).mp hx
        exact hlt (x.1, w) hw
      rw [if_neg hin, hold, hval, getContext, hnew, hd]

end Region

theorem createSet_range {addr1 addr2 : Addr} (h : addr1 < addr2) (stored : TrackedSet) :
    ∃ c', c.createSet addr1 addr2 stored = .ok c' ∧ c'.database = c.database ∧
      c'.getTrackedDefault = c.getTrackedDefault ∧
      ∀ a, c'.getTrackedSet a = if addr1 ≤ a ∧ a < addr2 then stored else c.getTrackedSet a := by
  let m := c.trackbase.clearRange id addr1 addr2
  obtain ⟨⟨v, hv⟩, ⟨v₂, hv₂⟩, hgap⟩ := @PartMap.mem_clearRange _ _ _ c.trackbase id addr1 addr2 h
  let m₁ : PartMap Addr TrackedSet := { m with database := m.database.insert addr1 [] }
  let m₂ : PartMap Addr TrackedSet := { m₁ with database := m₁.database.insert addr1 stored }
  have hv₁ : (addr1, []) ∈ m₁.database.entries := SortedMap.mem_insert.mpr (.inl rfl)
  have hdef : m.defaultvalue = c.trackbase.defaultvalue := by
    simp only [m, PartMap.clearRange, if_pos h, PartMap.defaultvalue_split]
  refine ⟨{ c with trackbase := m₂ }, ?_, rfl, hdef, fun a => ?_⟩
  · have hup : m.update addr1 (fun _ => pure []) = .ok m₁ := by
      simp [PartMap.update, SortedMap.lookup_eq_some.mpr hv, m, m₁]
    have hup₁ : m₁.update addr1 (fun set => pure (set ++ stored)) = .ok m₂ := by
      simp [PartMap.update, SortedMap.lookup_eq_some.mpr hv₁, m₂]
    simp only [createSet]
    change (m.update addr1 _ >>= _) = _
    rw [hup, ok_bind, hup₁]
    rfl
  · -- clearing the set does not change the points
    have hgap₁ : ∀ x ∈ m₁.database.entries, ¬ (addr1 < x.1 ∧ x.1 < addr2) := by
      intro x hx
      rcases SortedMap.mem_insert.mp hx with rfl | ⟨hx, -⟩
      · exact fun hlt => lt_irrefl _ hlt.1
      · exact hgap x hx
    have hstop₁ : (addr2, v₂) ∈ m₁.database.entries := SortedMap.mem_insert.mpr (.inr ⟨hv₂, h.ne'⟩)
    have hfirst := @PartMap.getValue_insert _ _ _ m addr1 addr2 a [] ⟨v, hv⟩ ⟨v₂, hv₂⟩ h hgap
    have hsecond := @PartMap.getValue_insert _ _ _ m₁ addr1 addr2 a stored ⟨_, hv₁⟩ ⟨v₂, hstop₁⟩ h hgap₁
    refine hsecond.trans ?_
    by_cases hin : addr1 ≤ a ∧ a < addr2
    · rw [if_pos hin, if_pos hin]
    · rw [if_neg hin, if_neg hin]
      refine hfirst.trans ?_
      rw [if_neg hin]
      exact PartMap.getValue_clearRange id (fun _ => rfl) h hin

/-- Setting a region changes the masked bits of one word at the addresses of the
region, and a tracked set is stored for the addresses of its range. -/
theorem region_update {addr1 addr2 : Addr} (hc : c.Sized) (hn : num < c.size) (hv : value &&& mask = value)
    (stored : TrackedSet) :
    (addr2.isInvalid ∨ addr1 < addr2 →
      ∃ c', c.setContextRegion addr1 addr2 num mask value = .ok c' ∧ c'.Sized ∧
        c'.getDefaultValue = c.getDefaultValue ∧
        ∀ a, if InRegion addr1 addr2 a then Replaced num mask value (c.getContext a) (c'.getContext a)
          else c'.getContext a = c.getContext a) ∧
    (addr1 < addr2 →
      ∃ c', c.createSet addr1 addr2 stored = .ok c' ∧ c'.getTrackedDefault = c.getTrackedDefault ∧
        ∀ a, c'.getTrackedSet a = if addr1 ≤ a ∧ a < addr2 then stored else c.getTrackedSet a) := by
  refine ⟨fun h => ?_, fun h => ?_⟩
  · obtain ⟨c', hok, hsized, -, -, hd, hctx⟩ := setContextRegion_region hc h hn hv
    exact ⟨c', hok, hsized, hd, hctx⟩
  · obtain ⟨c', hok, -, hd, hset⟩ := createSet_range h stored
    exact ⟨c', hok, hd, hset⟩

/-- A context of one word with a point at which a register is tracked. -/
def trackedAt20 : ContextInternal where
  size := 1
  database := { database := SortedMap.empty, defaultvalue := { array := [0], mask := [0] } }
  trackbase :=
    { database := SortedMap.empty.insert (Addr.mk (1 : Int) 20) [⟨⟨2, 8, 4⟩, 1⟩]
      defaultvalue := [] }

theorem region_update_trackedAt20 : trackedAt20.Sized ∧ Addr.mk (1 : Int) 10 < Addr.mk (1 : Int) 30 ∧
    ∃ c', trackedAt20.setContextRegion (Addr.mk (1 : Int) 10) (Addr.mk (1 : Int) 30) 0 0xf0 0x30 = .ok c' ∧
      Replaced 0 0xf0 0x30 (trackedAt20.getContext (Addr.mk (1 : Int) 12)) (c'.getContext (Addr.mk (1 : Int) 12)) := by
  have hs : trackedAt20.Sized := ⟨⟨rfl, rfl⟩, by simp [trackedAt20]⟩
  have hlt : Addr.mk (1 : Int) 10 < Addr.mk (1 : Int) 30 := by decide
  obtain ⟨c', hok, -, -, hctx⟩ := (@region_update trackedAt20 0 0xf0 0x30 (Addr.mk (1 : Int) 10)
    (Addr.mk (1 : Int) 30) hs (by decide) (by decide) []).1 (.inr hlt)
  have hin : InRegion (Addr.mk (1 : Int) 10) (Addr.mk (1 : Int) 30) (Addr.mk (1 : Int) 12) := by decide
  have := hctx (Addr.mk (1 : Int) 12)
  rw [if_pos hin] at this
  exact ⟨hs, hlt, c', hok, this⟩

/-- A tracked set has no region without end: with an invalid end it is stored up to
the next point only. -/
theorem createSet_open : ¬ ∀ (c : ContextInternal) (addr1 addr2 : Addr) (stored : TrackedSet),
    addr2.isInvalid ∨ addr1 < addr2 → ∃ c', c.createSet addr1 addr2 stored = .ok c' ∧
      ∀ a, c'.getTrackedSet a = if InRegion addr1 addr2 a then stored else c.getTrackedSet a := by
  intro h
  obtain ⟨c', hok, hset⟩ := h trackedAt20 (Addr.mk (1 : Int) 10) (Addr.mk ⊥ 0) [] (.inl rfl)
  have hval := hset (Addr.mk (1 : Int) 20)
  rw [if_pos (by decide)] at hval
  have hrun : ((trackedAt20.createSet (Addr.mk (1 : Int) 10) (Addr.mk ⊥ 0) []).map
      fun c => c.getTrackedSet (Addr.mk (1 : Int) 20)) = .ok [⟨⟨2, 8, 4⟩, 1⟩] := by
    decide
  rw [hok] at hrun
  exact absurd (hval.symm.trans (Except.ok.inj hrun)) (List.cons_ne_nil _ _).symm

end ContextInternal

end GhidraDecompiler.Context
