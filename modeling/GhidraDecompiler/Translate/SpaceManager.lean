import GhidraDecompiler.Address
import Mathlib.Logic.Function.Basic

namespace GhidraDecompiler.Translate

/-- What the manager reads and sets of an address space. The other spaces it
names are references. -/
structure Space where
  name : String
  spaceType : SpaceType
  index : Int
  flags : BitVec 32
  shortcut : UInt8
  contain : Option Nat
  deriving DecidableEq

/-- A shared reference to a space, which is its position in the store. -/
abbrev SpaceRef := Nat

namespace Space

def OVERLAY : BitVec 32 := 0x40
def OVERLAYBASE : BitVec 32 := 0x80
def IS_OTHERSPACE : BitVec 32 := 0x400

def hasFlag (s : Space) (fl : BitVec 32) : Bool := s.flags &&& fl ≠ 0

def isOverlay (s : Space) : Bool := s.hasFlag OVERLAY

def isOtherSpace (s : Space) : Bool := s.hasFlag IS_OTHERSPACE

def setFlags (s : Space) (fl : BitVec 32) : Space := { s with flags := s.flags ||| fl }

end Space

def constantSpaceName : String := "const"
def constantSpaceIndex : Int := 0
def otherSpaceIndex : Int := 1
def uniqueSpaceName : String := "unique"
def joinSpaceName : String := "join"

/-- The state of the manager, with the store of the spaces and the space that
the table of joins allocates in. The maps are used for lookups only. -/
structure AddrSpaceManager where
  spaces : SpaceRef → Space
  baselist : List (Option SpaceRef)
  name2space : String → Option SpaceRef
  shortcut2space : Int → Option SpaceRef
  constantspace : Option SpaceRef
  iopspace : Option SpaceRef
  fspecspace : Option SpaceRef
  joinspace : Option SpaceRef
  stackspace : Option SpaceRef
  uniqspace : Option SpaceRef
  joinTableSpace : Option SpaceRef

structure Lowlevel where
  message : String
  deriving DecidableEq

/-- The byte of a shortcut with its sign extended. -/
def shortcutKey (byte : UInt8) : Int := byte.toInt8.toInt

namespace AddrSpaceManager

/-- A call that fails leaves the manager in the state it has reached. -/
abbrev Call := AddrSpaceManager → Except Lowlevel Unit × AddrSpaceManager

def getSpaceByName (m : AddrSpaceManager) (nm : String) : Option SpaceRef := m.name2space nm

def getSpace (m : AddrSpaceManager) (index : Int) : Option SpaceRef :=
  if index < 0 then none else m.baselist[index.toNat]?.join

def getSpaceByShortcut (m : AddrSpaceManager) (sc : Char) : Option SpaceRef :=
  m.shortcut2space (if sc.toNat < 0x100 then shortcutKey (UInt8.ofNat sc.toNat) else sc.toNat)

def modifySpace (m : AddrSpaceManager) (spc : SpaceRef) (f : Space → Space) : AddrSpaceManager :=
  { m with spaces := Function.update m.spaces spc (f (m.spaces spc)) }

def wrongType (name : String) : Lowlevel := ⟨"Space " ++ name ++ " was initialized with wrong type"⟩

def duplicate (name : String) : Lowlevel := ⟨"Space " ++ name ++ " was initialized more than once"⟩

/-- A space that exists once under its own name, and the slot for it. -/
def initUnique (spc : SpaceRef) (expected : String) (slot : AddrSpaceManager → Option SpaceRef)
    (set : AddrSpaceManager → AddrSpaceManager) : Call := fun m =>
  let name := (m.spaces spc).name
  if name ≠ expected then (.error (wrongType name), m)
  else if (slot m).isSome then (.error (duplicate name), m)
  else (.ok (), set m)

/-- The base of an overlay is marked, and the index of the OTHER space is checked. -/
def initMemory (spc : SpaceRef) : Call := fun m =>
  let s := m.spaces spc
  if s.isOverlay then
    match s.contain with
    | some contain => (.ok (), m.modifySpace contain fun s => s.setFlags Space.OVERLAYBASE)
    | none => (.ok (), m)
  else if s.isOtherSpace ∧ s.index ≠ otherSpaceIndex then (.error ⟨"OTHER space must be assigned index 1"⟩, m)
  else (.ok (), m)

/-- The part of `insert_space` that depends on the type of the space. -/
def initType (spc : SpaceRef) : Call := fun m =>
  let s := m.spaces spc
  match s.spaceType with
  | .constant =>
      if s.name ≠ constantSpaceName then (.error (wrongType s.name), m)
      else if s.index ≠ constantSpaceIndex then (.error ⟨"const space must be assigned index 0"⟩, m)
      else (.ok (), { m with constantspace := some spc })
  | .internal => initUnique spc uniqueSpaceName uniqspace (fun m => { m with uniqspace := some spc }) m
  | .fspec => initUnique spc "fspec" fspecspace (fun m => { m with fspecspace := some spc }) m
  | .join => initUnique spc joinSpaceName joinspace
      (fun m => { m with joinspace := some spc, joinTableSpace := some spc }) m
  | .iop => initUnique spc "iop" iopspace (fun m => { m with iopspace := some spc }) m
  | .spacebase =>
      if s.name = "stack" then
        if m.stackspace.isSome then (.error (duplicate s.name), m)
        else initMemory spc { m with stackspace := some spc }
      else initMemory spc m
  | .processor => initMemory spc m

/-- The first shortcut that is tried for a space. -/
def firstShortcut (s : Space) : Int :=
  let shortcut : Int := match s.spaceType with
    | .constant => '#'.toNat
    | .processor =>
        if s.name = "register" then '%'.toNat
        else (s.name.toByteArray.data[0]?.map shortcutKey).getD 0
    | .spacebase => 's'.toNat
    | .internal => 'u'.toNat
    | .fspec => 'f'.toNat
    | .join => 'j'.toNat
    | .iop => 'i'.toNat
  if 'A'.toNat ≤ shortcut ∧ shortcut ≤ 'Z'.toNat then shortcut + 0x20 else shortcut

def nextShortcut (shortcut : Int) : Int :=
  let shortcut := (shortcut + 1).bmod (2 ^ 8)
  if shortcut < 'a'.toNat ∨ 'z'.toNat < shortcut then 'a'.toNat else shortcut

/-- After 26 collisions the space gets a shortcut that is not entered. -/
def resolveShortcut (spc : SpaceRef) : Nat → Int → AddrSpaceManager → AddrSpaceManager
  | left, shortcut, m =>
      if (m.shortcut2space shortcut).isSome then
        match left with
        | 0 => m.modifySpace spc fun s => { s with shortcut := 'z'.toUInt8 }
        | left + 1 => resolveShortcut spc left (nextShortcut shortcut) m
      else
        { m with shortcut2space := Function.update m.shortcut2space shortcut (some spc) }.modifySpace spc
          fun s => { s with shortcut := UInt8.ofInt shortcut }

def assignShortcut (spc : SpaceRef) (m : AddrSpaceManager) : AddrSpaceManager :=
  let current := (m.spaces spc).shortcut
  if current ≠ ' '.toUInt8 then
    let key := shortcutKey current
    if (m.shortcut2space key).isSome then m
    else { m with shortcut2space := Function.update m.shortcut2space key (some spc) }
  else resolveShortcut spc 26 (firstShortcut (m.spaces spc)) m

/-- The list is extended before the slot is looked at. -/
def resize (m : AddrSpaceManager) (slot : Nat) : AddrSpaceManager :=
  { m with baselist := m.baselist ++ List.replicate (slot + 1 - m.baselist.length) none }

/-- The part of `insert_space` after the special slots. -/
def enter (spc : SpaceRef) : Call := fun m =>
  let s := m.spaces spc
  if s.index < 0 then (.error ⟨"Space " ++ s.name ++ " was assigned an invalid index"⟩, m)
  else
    let slot := s.index.toNat
    let m := m.resize slot
    match m.baselist[slot]?.join with
    | some existing =>
        (.error ⟨"Space " ++ s.name ++ " was assigned id duplicating: " ++ (m.spaces existing).name⟩, m)
    | none =>
        if (m.name2space s.name).isSome then (.error (duplicate s.name), m)
        else
          let m := { m with
            name2space := Function.update m.name2space s.name (some spc)
            baselist := m.baselist.set slot (some spc) }
          (.ok (), assignShortcut spc m)

def insertSpace (spc : SpaceRef) : Call := fun m =>
  match initType spc m with
  | (.error e, m) => (.error e, m)
  | (.ok _, m) => enter spc m

/-- The lookups of one manager give what those of the other do. -/
structure SameLookups (m m' : AddrSpaceManager) : Prop where
  byName : m'.getSpaceByName = m.getSpaceByName
  byIndex : m'.getSpace = m.getSpace
  byShortcut : m'.getSpaceByShortcut = m.getSpaceByShortcut
  constantspace : m'.constantspace = m.constantspace
  iopspace : m'.iopspace = m.iopspace
  fspecspace : m'.fspecspace = m.fspecspace
  joinspace : m'.joinspace = m.joinspace
  stackspace : m'.stackspace = m.stackspace
  uniqspace : m'.uniqspace = m.uniqspace

/-- The space gets to its special slot and changes it. -/
def fillsSlot (m : AddrSpaceManager) (spc : SpaceRef) : Prop :=
  let s := m.spaces spc
  match s.spaceType with
  | .constant => s.name = constantSpaceName ∧ s.index = constantSpaceIndex ∧ m.constantspace ≠ some spc
  | .internal => s.name = uniqueSpaceName ∧ m.uniqspace = none
  | .fspec => s.name = "fspec" ∧ m.fspecspace = none
  | .join => s.name = joinSpaceName ∧ m.joinspace = none
  | .iop => s.name = "iop" ∧ m.iopspace = none
  | .spacebase => s.name = "stack" ∧ m.stackspace = none
  | .processor => False

/-- The index or the name of the space cannot be entered. -/
def entryRefused (m : AddrSpaceManager) (s : Space) : Prop :=
  s.index < 0 ∨ (m.getSpace s.index).isSome ∨ (m.getSpaceByName s.name).isSome

/-- The space is refused by a check that comes after its special slot. -/
def refusedLate (m : AddrSpaceManager) (spc : SpaceRef) : Prop :=
  let s := m.spaces spc
  s.spaceType = .spacebase ∧ s.isOverlay = false ∧ s.isOtherSpace = true ∧ s.index ≠ otherSpaceIndex ∨ m.entryRefused s

variable {m m' m'' : AddrSpaceManager} {spc : SpaceRef}

theorem SameLookups.refl (m : AddrSpaceManager) : SameLookups m m := ⟨rfl, rfl, rfl, rfl, rfl, rfl, rfl, rfl, rfl⟩

theorem SameLookups.trans (h : SameLookups m m') (h' : SameLookups m' m'') : SameLookups m m'' :=
  ⟨h'.byName.trans h.byName, h'.byIndex.trans h.byIndex, h'.byShortcut.trans h.byShortcut,
    h'.constantspace.trans h.constantspace, h'.iopspace.trans h.iopspace, h'.fspecspace.trans h.fspecspace,
    h'.joinspace.trans h.joinspace, h'.stackspace.trans h.stackspace, h'.uniqspace.trans h.uniqspace⟩

theorem SameLookups.symm (h : SameLookups m m') : SameLookups m' m :=
  ⟨h.byName.symm, h.byIndex.symm, h.byShortcut.symm, h.constantspace.symm, h.iopspace.symm, h.fspecspace.symm,
    h.joinspace.symm, h.stackspace.symm, h.uniqspace.symm⟩

theorem modifySpace_lookups (m : AddrSpaceManager) (spc : SpaceRef) (f : Space → Space) :
    SameLookups m (m.modifySpace spc f) := ⟨rfl, rfl, rfl, rfl, rfl, rfl, rfl, rfl, rfl⟩

/-- The new slots of the list are empty. -/
theorem resize_lookups (m : AddrSpaceManager) (slot : Nat) : SameLookups m (m.resize slot) := by
  refine ⟨rfl, ?_, rfl, rfl, rfl, rfl, rfl, rfl, rfl⟩
  funext index
  simp only [getSpace, resize]
  by_cases hneg : index < 0
  · rw [if_pos hneg, if_pos hneg]
  · rw [if_neg hneg, if_neg hneg, List.getElem?_append]
    split
    · rfl
    · rename_i hge
      rw [List.getElem?_replicate, List.getElem?_eq_none (Nat.le_of_not_lt hge)]
      split <;> rfl

theorem getSpace_resize (m : AddrSpaceManager) {index : Int} (h : ¬index < 0) (slot : Nat) :
    (m.resize slot).baselist[index.toNat]?.join = m.getSpace index := by
  rw [← (m.resize_lookups slot).byIndex, getSpace, if_neg h]

/-- Entering a space fails exactly when its index or name cannot be used, and
then no lookup has changed. -/
theorem enter_spec (m : AddrSpaceManager) (spc : SpaceRef) :
    ((enter spc m).1 = .ok () ↔ ¬m.entryRefused (m.spaces spc)) ∧
      (m.entryRefused (m.spaces spc) → SameLookups m (enter spc m).2) := by
  simp only [enter, entryRefused]
  by_cases hneg : (m.spaces spc).index < 0
  · simp [hneg, SameLookups.refl]
  · rw [if_neg hneg]
    simp only [hneg, false_or, getSpace_resize m hneg]
    cases hget : m.getSpace (m.spaces spc).index with
    | some existing => simp [resize_lookups]
    | none =>
        by_cases hname : (m.name2space (m.spaces spc).name).isSome
        · have hresize := m.resize_lookups (m.spaces spc).index.toNat
          simp [hname, getSpaceByName, hresize, show (m.resize (m.spaces spc).index.toNat).name2space = m.name2space from rfl]
        · simp [resize, hname, getSpaceByName]

/-- A `spacebase` space that is refused as the OTHER space. -/
def otherRefused (s : Space) : Prop :=
  s.spaceType = .spacebase ∧ s.isOverlay = false ∧ s.isOtherSpace = true ∧ s.index ≠ otherSpaceIndex

/-- The slot is all that has changed of what the lookups give. -/
structure Slotted (m : AddrSpaceManager) (spc : SpaceRef) (m' : AddrSpaceManager) : Prop where
  lookups : SameLookups m m' ↔ ¬m.fillsSlot spc
  entry : m'.entryRefused (m'.spaces spc) ↔ m.entryRefused (m.spaces spc)

theorem modifySpace_entryRefused (m : AddrSpaceManager) (spc contain : SpaceRef) (fl : BitVec 32) :
    (m.modifySpace contain fun s => s.setFlags fl).entryRefused ((m.modifySpace contain fun s => s.setFlags fl).spaces spc) ↔
      m.entryRefused (m.spaces spc) := by
  have hspace : ((m.modifySpace contain fun s => s.setFlags fl).spaces spc).index = (m.spaces spc).index ∧
      ((m.modifySpace contain fun s => s.setFlags fl).spaces spc).name = (m.spaces spc).name := by
    by_cases heq : spc = contain
    · subst heq
      simp [modifySpace, Space.setFlags]
    · simp [modifySpace, Function.update_of_ne heq]
  rw [entryRefused, hspace.1, hspace.2]
  rfl

theorem initUnique_spec {expected : String} {slot : AddrSpaceManager → Option SpaceRef}
    {set : AddrSpaceManager → AddrSpaceManager} (hfills : m.fillsSlot spc ↔ (m.spaces spc).name = expected ∧ slot m = none)
    (hset : slot m = none → ¬SameLookups m (set m))
    (hentry : (set m).entryRefused ((set m).spaces spc) ↔ m.entryRefused (m.spaces spc)) :
    ((initUnique spc expected slot set m).1 = .ok () ∧ Slotted m spc (initUnique spc expected slot set m).2) ∨
      ((∃ e, (initUnique spc expected slot set m).1 = .error e) ∧ SameLookups m (initUnique spc expected slot set m).2 ∧
        ¬m.fillsSlot spc) := by
  simp only [initUnique]
  by_cases hname : (m.spaces spc).name = expected
  · rw [if_neg (not_not.mpr hname)]
    cases hslot : slot m with
    | some other =>
        right
        exact ⟨⟨_, rfl⟩, SameLookups.refl m, fun h => by simp [hfills, hslot] at h⟩
    | none =>
        left
        exact ⟨rfl, iff_of_false (hset hslot) (not_not.mpr (hfills.mpr ⟨hname, hslot⟩)), hentry⟩
  · rw [if_pos hname]
    right
    exact ⟨⟨_, rfl⟩, SameLookups.refl m, fun h => hname (hfills.mp h).1⟩

/-- What the first part leaves: a filled slot, or an error before the slot or,
for a `spacebase` space, after it. -/
def InitSpec (m : AddrSpaceManager) (spc : SpaceRef) (r : Except Lowlevel Unit × AddrSpaceManager) : Prop :=
  (r.1 = .ok () ∧ Slotted m spc r.2 ∧ ¬otherRefused (m.spaces spc)) ∨
    ((∃ e, r.1 = .error e) ∧ (SameLookups m r.2 ↔ ¬m.fillsSlot spc) ∧ (m.fillsSlot spc → otherRefused (m.spaces spc)))

theorem initType_unique {expected : String} {slot : AddrSpaceManager → Option SpaceRef}
    {set : AddrSpaceManager → AddrSpaceManager} (htype : (m.spaces spc).spaceType ≠ .spacebase)
    (hfills : m.fillsSlot spc ↔ (m.spaces spc).name = expected ∧ slot m = none)
    (hset : slot m = none → ¬SameLookups m (set m))
    (hentry : (set m).entryRefused ((set m).spaces spc) ↔ m.entryRefused (m.spaces spc)) :
    InitSpec m spc (initUnique spc expected slot set m) := by
  obtain ⟨hok, hslotted⟩ | ⟨herr, hsame, hnot⟩ := initUnique_spec hfills hset hentry
  · exact Or.inl ⟨hok, hslotted, fun h => htype h.1⟩
  · exact Or.inr ⟨herr, iff_of_true hsame hnot, fun h => absurd h hnot⟩

theorem initMemory_spec (hslot : Slotted m spc m') (hspaces : m'.spaces = m.spaces)
    (hfills : m.fillsSlot spc → (m.spaces spc).spaceType = .spacebase) : InitSpec m spc (initMemory spc m') := by
  simp only [initMemory, hspaces]
  cases hover : (m.spaces spc).isOverlay with
  | true =>
      have hnot : ¬otherRefused (m.spaces spc) := fun h => Bool.false_ne_true (h.2.1.symm.trans hover)
      rw [if_pos rfl]
      cases (m.spaces spc).contain with
      | none => exact Or.inl ⟨rfl, hslot, hnot⟩
      | some contain =>
          refine Or.inl ⟨rfl, ⟨?_, ?_⟩, hnot⟩
          · have hmark := modifySpace_lookups m' contain fun s => s.setFlags Space.OVERLAYBASE
            rw [← hslot.lookups]
            exact ⟨fun h => h.trans hmark.symm, fun h => h.trans hmark⟩
          · rw [← hslot.entry]
            exact modifySpace_entryRefused m' spc contain _
  | false =>
      rw [if_neg Bool.false_ne_true]
      split
      · rename_i hother
        exact Or.inr ⟨⟨_, rfl⟩, hslot.lookups, fun h => ⟨hfills h, hover, hother⟩⟩
      · rename_i hother
        exact Or.inl ⟨rfl, hslot, fun h => hother h.2.2⟩

theorem initType_spec (m : AddrSpaceManager) (spc : SpaceRef) : InitSpec m spc (initType spc m) := by
  simp only [initType]
  cases htype : (m.spaces spc).spaceType with
  | constant =>
      have hnot : ¬otherRefused (m.spaces spc) := fun h => by simp [otherRefused, htype] at h
      have hfills : m.fillsSlot spc ↔ (m.spaces spc).name = constantSpaceName ∧
          (m.spaces spc).index = constantSpaceIndex ∧ m.constantspace ≠ some spc := by
        simp only [fillsSlot, htype]
      simp only
      by_cases hname : (m.spaces spc).name = constantSpaceName
      · rw [if_neg (not_not.mpr hname)]
        by_cases hindex : (m.spaces spc).index = constantSpaceIndex
        · rw [if_neg (not_not.mpr hindex)]
          refine Or.inl ⟨rfl, ⟨?_, Iff.rfl⟩, hnot⟩
          rw [hfills, not_and, not_and, not_not]
          constructor
          · intro h _ _
            exact h.constantspace.symm
          · intro h
            exact ⟨rfl, rfl, rfl, (h hname hindex).symm, rfl, rfl, rfl, rfl, rfl⟩
        · rw [if_pos hindex]
          refine Or.inr ⟨⟨_, rfl⟩, iff_of_true (SameLookups.refl m) ?_, ?_⟩ <;> simp [hfills, hindex]
      · rw [if_pos hname]
        refine Or.inr ⟨⟨_, rfl⟩, iff_of_true (SameLookups.refl m) ?_, ?_⟩ <;> simp [hfills, hname]
  | internal =>
      refine initType_unique (by simp [htype]) (by simp only [fillsSlot, htype]) (fun hnone h => ?_) Iff.rfl
      exact absurd (h.uniqspace.trans hnone) (by simp)
  | fspec =>
      refine initType_unique (by simp [htype]) (by simp only [fillsSlot, htype]) (fun hnone h => ?_) Iff.rfl
      exact absurd (h.fspecspace.trans hnone) (by simp)
  | join =>
      refine initType_unique (by simp [htype]) (by simp only [fillsSlot, htype]) (fun hnone h => ?_) Iff.rfl
      exact absurd (h.joinspace.trans hnone) (by simp)
  | iop =>
      refine initType_unique (by simp [htype]) (by simp only [fillsSlot, htype]) (fun hnone h => ?_) Iff.rfl
      exact absurd (h.iopspace.trans hnone) (by simp)
  | processor =>
      have hnot : ¬m.fillsSlot spc := by simp [fillsSlot, htype]
      exact initMemory_spec ⟨iff_of_true (SameLookups.refl m) hnot, Iff.rfl⟩ rfl fun h => absurd h hnot
  | spacebase =>
      have hfills : m.fillsSlot spc ↔ (m.spaces spc).name = "stack" ∧ m.stackspace = none := by
        simp only [fillsSlot, htype]
      simp only
      by_cases hname : (m.spaces spc).name = "stack"
      · rw [if_pos hname]
        cases hstack : m.stackspace with
        | some other =>
            have hnot : ¬m.fillsSlot spc := by simp [hfills, hstack]
            exact Or.inr ⟨⟨_, rfl⟩, iff_of_true (SameLookups.refl m) hnot, fun h => absurd h hnot⟩
        | none =>
            have hfill : m.fillsSlot spc := hfills.mpr ⟨hname, hstack⟩
            refine initMemory_spec ⟨iff_of_false (fun h => ?_) (not_not.mpr hfill), Iff.rfl⟩ rfl fun _ => htype
            exact absurd (h.stackspace.trans hstack) (by simp)
      · rw [if_neg hname]
        have hnot : ¬m.fillsSlot spc := fun h => hname (hfills.mp h).1
        exact initMemory_spec ⟨iff_of_true (SameLookups.refl m) hnot, Iff.rfl⟩ rfl fun h => absurd h hnot

/-- A call that fails leaves the lookups as they were exactly when it does not
fail behind a special slot that it has changed. -/
theorem insertSpace_atomic_iff (m : AddrSpaceManager) (spc : SpaceRef) :
    ((∃ e, (insertSpace spc m).1 = .error e) → SameLookups m (insertSpace spc m).2) ↔
      ¬(m.fillsSlot spc ∧ m.refusedLate spc) := by
  simp only [insertSpace]
  obtain ⟨hok, hslotted, hother⟩ | ⟨⟨e, herr⟩, hsame, hother⟩ := m.initType_spec spc
  · cases hinit : initType spc m with
    | mk r m' =>
        rw [hinit] at hok hslotted
        simp only at hok hslotted
        subst hok
        obtain ⟨henter, hrefused⟩ := enter_spec m' spc
        have hlate : m.refusedLate spc ↔ m'.entryRefused (m'.spaces spc) := by
          rw [hslotted.entry]
          exact ⟨fun h => h.resolve_left hother, Or.inr⟩
        simp only
        by_cases href : m'.entryRefused (m'.spaces spc)
        · have hfail : ∃ e, (enter spc m').1 = .error e := by
            cases hres : (enter spc m').1 with
            | error e => exact ⟨e, rfl⟩
            | ok => exact absurd href (henter.mp hres)
          simp only [hfail, hlate, href, and_true, forall_const, ← hslotted.lookups]
          exact ⟨fun h => h.trans (hrefused href).symm, fun h => h.trans (hrefused href)⟩
        · have hfine := henter.mpr href
          simp [hfine, hlate, href]
  · cases hinit : initType spc m with
    | mk r m' =>
        rw [hinit] at herr hsame
        simp only at herr hsame
        subst herr
        have hlate : (m.fillsSlot spc ∧ m.refusedLate spc) ↔ m.fillsSlot spc := ⟨fun h => h.1, fun h => ⟨h, Or.inl (hother h)⟩⟩
        simp [hlate, hsame]

/-- A manager without spaces, and a store with a constant space and a unique
space of the same index. -/
def sampleManager : AddrSpaceManager where
  spaces := fun spc => if spc = 0 then ⟨"const", .constant, 0, 0, '#'.toUInt8, none⟩
    else ⟨"unique", .internal, 0, 0, 'u'.toUInt8, none⟩
  baselist := []
  name2space := fun _ => none
  shortcut2space := fun _ => none
  constantspace := none
  iopspace := none
  fspecspace := none
  joinspace := none
  stackspace := none
  uniqspace := none
  joinTableSpace := none

theorem insertSpace_duplicate_index :
    let m := (insertSpace 0 sampleManager).2
    (insertSpace 0 sampleManager).1 = .ok () ∧ m.uniqspace = none ∧
      (insertSpace 1 m).1 = .error ⟨"Space unique was assigned id duplicating: const"⟩ ∧
      (insertSpace 1 m).2.uniqspace = some 1 ∧
      ¬∀ (m : AddrSpaceManager) (spc : SpaceRef),
        (∃ e, (insertSpace spc m).1 = .error e) → SameLookups m (insertSpace spc m).2 := by
  intro m
  have hnone : m.uniqspace = none := by decide
  have herr : (insertSpace 1 m).1 = .error ⟨"Space unique was assigned id duplicating: const"⟩ := by rfl
  have hsome : (insertSpace 1 m).2.uniqspace = some 1 := by decide
  refine ⟨by rfl, hnone, herr, hsome, fun h => ?_⟩
  have hsame := (h m 1 ⟨_, herr⟩).uniqspace
  rw [hsome, hnone] at hsame
  cases hsame

end AddrSpaceManager

end GhidraDecompiler.Translate
