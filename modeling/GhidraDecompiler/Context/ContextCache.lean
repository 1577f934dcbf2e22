import Mathlib.Data.List.GetD
import Mathlib.Data.List.Induction
import GhidraDecompiler.Address
import GhidraDecompiler.Context.ContextInternal

namespace GhidraDecompiler.Context

open Fallible

def Addr.space (a : Addr) : WithBot Int := (ofLex a).1

def Addr.offset (a : Addr) : Nat := (ofLex a).2

structure ContextBounds where
  first : Nat
  last : Nat
  key : Option Addr

namespace ContextInternal

/-- The entries after the first one, up to one where the bits were set on their own. -/
def changeRest (slot : Nat) (mask : BitVec 32) (apply : List (BitVec 32) → Outcome (List (BitVec 32))) :
    List Addr → PartMap Addr FreeArray → Outcome (PartMap Addr FreeArray)
  | [], m => pure m
  | key :: keys, m => do
      let entry ← expect (m.database.lookup key)
      if (← getIdx entry.mask slot) &&& mask ≠ 0 then pure m
      else
        let m ← m.update key fun entry => do pure { entry with array := ← apply entry.array }
        changeRest slot mask apply keys m

def getRegionToChangePoint (c : ContextInternal) (addr : Addr) (num : Nat) (mask : BitVec 32)
    (apply : List (BitVec 32) → Outcome (List (BitVec 32))) : Outcome ContextInternal := do
  let database := c.database.split FreeArray.clone addr
  match database.keysFrom addr with
  | [] => pure { c with database := database }
  | firstKey :: keys =>
      let database ← database.update firstKey fun entry => do
        let array ← apply entry.array
        let word ← getIdx entry.mask num
        pure { array := array, mask := ← setIdx entry.mask num (word ||| mask) }
      let database ← changeRest num mask apply keys database
      pure { c with database := database }

def setContextChangePoint (c : ContextInternal) (addr : Addr) (num : Nat) (mask value : BitVec 32) :
    Outcome ContextInternal :=
  c.getRegionToChangePoint addr num mask fun context => do
    let val ← getIdx context num
    setIdx context num ((val &&& ~~~ mask) ||| value)

/-- The window around an address in which all addresses of its space have its context;
`highest` is the last offset of each space. -/
def getContextBounds (highest : Int → Nat) (c : ContextInternal) (addr : Addr) : ContextBounds :=
  let bounds := (c.database.bounds addr).2
  let beforeSpace := bounds.before.elim ⊥ Addr.space
  let afterSpace := bounds.after.elim ⊥ Addr.space
  { first := if bounds.valid &&& 1 ≠ 0 ∨ beforeSpace ≠ addr.space then 0 else bounds.before.elim 0 Addr.offset
    last :=
      if bounds.valid &&& 2 ≠ 0 ∨ afterSpace ≠ addr.space then addr.space.recBotCoe 0 highest
      else bounds.after.elim 0 fun after => after.offset - 1
    key := if bounds.valid &&& 1 ≠ 0 then none else bounds.before }

def getContextByKey (c : ContextInternal) (key : Option Addr) : List (BitVec 32) := (c.database.getByKey key).array

end ContextInternal

structure CacheWindow where
  spaceIndex : Int
  first : Nat
  last : Nat
  key : Option Addr

structure ContextCache where
  allowset : Bool
  window : Option CacheWindow
  first : Nat
  last : Nat

namespace ContextCache

def new : ContextCache where
  allowset := true
  window := none
  first := 0
  last := 0

def allowSet (cache : ContextCache) (val : Bool) : ContextCache := { cache with allowset := val }

/-- The words that are copied into the buffer. -/
def copyContext (size : Nat) (context : List (BitVec 32)) : Outcome (List (BitVec 32)) :=
  if size ≤ context.length then pure (context.take size) else .error .panic

def hit (cache : ContextCache) (addr : Addr) : Bool :=
  cache.window.any fun window =>
    (window.spaceIndex : WithBot Int) = addr.space && (window.first ≤ addr.offset && addr.offset ≤ window.last)

def getContext (highest : Int → Nat) (cache : ContextCache) (database : ContextInternal) (addr : Addr) :
    Outcome (List (BitVec 32) × ContextCache) := do
  if cache.hit addr then
    let key := cache.window.bind CacheWindow.key
    pure (← copyContext database.size (database.getContextByKey key), cache)
  else
    let bounds := database.getContextBounds highest addr
    let window := addr.space.recBotCoe (C := fun _ => Option CacheWindow) none fun spaceIndex =>
      some { spaceIndex := spaceIndex, first := bounds.first, last := bounds.last, key := bounds.key }
    let cache := { cache with first := bounds.first, last := bounds.last, window := window }
    pure (← copyContext database.size (database.getContextByKey bounds.key), cache)

def inWindow (cache : ContextCache) (addr : Addr) : Bool :=
  cache.window.any fun window =>
    addr.space = (window.spaceIndex : WithBot Int) && (cache.first ≤ addr.offset && addr.offset ≤ cache.last)

def setContext (cache : ContextCache) (database : ContextInternal) (addr : Addr) (num : Nat) (mask value : BitVec 32) :
    Outcome (ContextCache × ContextInternal) := do
  if cache.allowset then
    let database ← database.setContextChangePoint addr num mask value
    pure (if cache.inWindow addr then { cache with window := none } else cache, database)
  else pure (cache, database)

/-- The tests after which a changed region drops the window: all but the first compare
offsets alone. -/
def regionDrops (cache : ContextCache) (addr1 addr2 : Addr) : Bool :=
  cache.inWindow addr1 || (cache.first ≤ addr2.offset && addr2.offset ≤ cache.last) ||
    (addr1.offset ≤ cache.first && cache.first ≤ addr2.offset)

def setContextRegion (cache : ContextCache) (database : ContextInternal) (addr1 addr2 : Addr) (num : Nat)
    (mask value : BitVec 32) : Outcome (ContextCache × ContextInternal) := do
  if cache.allowset then
    let database ← database.setContextRegion addr1 addr2 num mask value
    pure (if cache.regionDrops addr1 addr2 then { cache with window := none } else cache, database)
  else pure (cache, database)

end ContextCache

/-- The calls on a cache. -/
inductive CacheCall
  | getContext (addr : Addr)
  | setContext (addr : Addr) (num : Nat) (mask value : BitVec 32)
  | setContextRegion (addr1 addr2 : Addr) (num : Nat) (mask value : BitVec 32)
  | allowSet (val : Bool)

/-- A cache with the database behind it. -/
structure CacheState where
  cache : ContextCache
  database : ContextInternal

namespace CacheState

def call (highest : Int → Nat) (s : CacheState) : CacheCall → Outcome CacheState
  | .getContext addr => do
      let (_, cache) ← s.cache.getContext highest s.database addr
      pure { s with cache := cache }
  | .setContext addr num mask value => do
      let (cache, database) ← s.cache.setContext s.database addr num mask value
      pure { cache := cache, database := database }
  | .setContextRegion addr1 addr2 num mask value => do
      let (cache, database) ← s.cache.setContextRegion s.database addr1 addr2 num mask value
      pure { cache := cache, database := database }
  | .allowSet val => pure { s with cache := s.cache.allowSet val }

end CacheState

section Growth

variable {n : Nat} {m m' m'' : PartMap Addr FreeArray} {P Q : Addr → Prop}

def AllSized (n : Nat) (m : PartMap Addr FreeArray) : Prop :=
  (m.defaultvalue.array.length = n ∧ m.defaultvalue.mask.length = n) ∧
    ∀ x ∈ m.database.entries, x.2.array.length = n ∧ x.2.mask.length = n

/-- A change that makes some partition points and keeps the sizes. -/
structure Grows (m m' : PartMap Addr FreeArray) (P : Addr → Prop) : Prop where
  keys : ∀ k, m'.HasKey k ↔ m.HasKey k ∨ P k
  sized : ∀ n, AllSized n m → AllSized n m'

theorem Grows.refl (m : PartMap Addr FreeArray) : Grows m m fun _ => False := ⟨fun k => by simp, fun _ h => h⟩

theorem Grows.trans (h : Grows m m' P) (h' : Grows m' m'' Q) : Grows m m'' fun k => P k ∨ Q k :=
  ⟨fun k => by rw [h'.keys, h.keys, or_assoc], fun n hn => h'.sized n (h.sized n hn)⟩

theorem Grows.congr (h : Grows m m' P) (hPQ : ∀ k, P k ↔ Q k) : Grows m m' Q :=
  ⟨fun k => by rw [h.keys, hPQ], h.sized⟩

theorem grows_split (m : PartMap Addr FreeArray) (addr : Addr) : Grows m (m.split FreeArray.clone addr) (· = addr) := by
  refine ⟨PartMap.hasKey_split _ _ _, fun n hn => ⟨by simpa using hn.1, ?_⟩⟩
  refine PartMap.forall_split (P := fun v : FreeArray => v.array.length = n ∧ v.mask.length = n) (fun v hv => ?_) hn.1 hn.2 addr
  simpa [FreeArray.clone] using hv

/-- Changing the value of a partition point makes no new one. -/
theorem grows_update {f : FreeArray → Outcome FreeArray} {key : Addr} (h : m.update key f = .ok m')
    (hf : ∀ v v', f v = .ok v' → v'.array.length = v.array.length ∧ v'.mask.length = v.mask.length) :
    Grows m m' fun _ => False := by
  obtain ⟨hkeys, hdefault, hP⟩ := PartMap.update_spec h
  refine ⟨fun k => by rw [hkeys, or_false], fun n hn => ⟨by rw [hdefault]; exact hn.1, ?_⟩⟩
  refine hP (fun v : FreeArray => v.array.length = n ∧ v.mask.length = n) (fun v v' hv hv' => ?_) hn.2
  obtain ⟨h₁, h₂⟩ := hf v v' hv'
  exact ⟨h₁.trans hv.1, h₂.trans hv.2⟩

theorem setIdx_length {α : Type} {l l' : List α} {i : Nat} {a : α} (h : setIdx l i a = .ok l') : l'.length = l.length := by
  rw [setIdx] at h
  split at h
  · obtain rfl := Except.ok.inj h
    exact List.length_set
  · cases h

/-- Setting the masked bits of a word keeps the number of words. -/
theorem setWord_length {num : Nat} {mask value : BitVec 32} {context array : List (BitVec 32)}
    (h : (do
      let val ← getIdx context num
      setIdx context num ((val &&& ~~~ mask) ||| value)) = .ok array) : array.length = context.length := by
  obtain ⟨val, -, h⟩ := bind_eq_ok.mp h
  exact setIdx_length h

variable {apply : List (BitVec 32) → Outcome (List (BitVec 32))}
  (hlen : ∀ context array, apply context = .ok array → array.length = context.length)

include hlen

theorem applyTo_length {num : Nat} {mask : BitVec 32} {v v' : FreeArray}
    (h : ContextInternal.applyTo num mask apply v = .ok v') :
    v'.array.length = v.array.length ∧ v'.mask.length = v.mask.length := by
  obtain ⟨word, -, h⟩ := bind_eq_ok.mp h
  obtain ⟨maskWords, hmask, h⟩ := bind_eq_ok.mp h
  obtain ⟨array, harray, h⟩ := bind_eq_ok.mp h
  obtain rfl := Except.ok.inj h
  exact ⟨hlen _ _ harray, setIdx_length hmask⟩

theorem changeRest_grows {num : Nat} {mask : BitVec 32} (keys : List Addr)
    (h : ContextInternal.changeRest num mask apply keys m = .ok m') : Grows m m' fun _ => False := by
  induction keys generalizing m with
  | nil =>
      obtain rfl := Except.ok.inj h
      exact Grows.refl m
  | cons key keys ih =>
      obtain ⟨entry, -, h⟩ := bind_eq_ok.mp h
      obtain ⟨word, -, h⟩ := bind_eq_ok.mp h
      split at h
      · obtain rfl := Except.ok.inj h
        exact Grows.refl m
      · obtain ⟨m₁, hm₁, h⟩ := bind_eq_ok.mp h
        refine ((grows_update hm₁ fun v v' hv => ?_).trans (ih h)).congr fun k => by simp
        obtain ⟨array, harray, hv⟩ := bind_eq_ok.mp hv
        obtain rfl := Except.ok.inj hv
        exact ⟨hlen _ _ harray, rfl⟩

theorem getRegionToChangePoint_grows {c c' : ContextInternal} {addr : Addr} {num : Nat} {mask : BitVec 32}
    (h : c.getRegionToChangePoint addr num mask apply = .ok c') :
    c'.size = c.size ∧ Grows c.database c'.database (· = addr) := by
  have hsplit := grows_split c.database addr
  simp only [ContextInternal.getRegionToChangePoint] at h
  split at h
  · obtain rfl := Except.ok.inj h
    exact ⟨rfl, hsplit⟩
  · obtain ⟨m₁, hm₁, h⟩ := bind_eq_ok.mp h
    obtain ⟨m₂, hm₂, h⟩ := bind_eq_ok.mp h
    obtain rfl := Except.ok.inj h
    have hfirst := grows_update hm₁ fun v v' hv => by
      obtain ⟨array, harray, hv⟩ := bind_eq_ok.mp hv
      obtain ⟨word, -, hv⟩ := bind_eq_ok.mp hv
      obtain ⟨words, hwords, hv⟩ := bind_eq_ok.mp hv
      obtain rfl := Except.ok.inj hv
      exact ⟨hlen _ _ harray, setIdx_length hwords⟩
    exact ⟨rfl, (hsplit.trans (hfirst.trans (changeRest_grows hlen _ hm₂))).congr fun k => by simp⟩

theorem getRegionForSet_grows {c c' : ContextInternal} {addr1 addr2 : Addr} {num : Nat} {mask : BitVec 32}
    (h : c.getRegionForSet addr1 addr2 num mask apply = .ok c') :
    c'.size = c.size ∧ Grows c.database c'.database fun k => k = addr1 ∨ addr2.isInvalid = false ∧ k = addr2 := by
  have hsplit : Grows c.database
      (if (! addr2.isInvalid) = true then (c.database.split FreeArray.clone addr1).split FreeArray.clone addr2
        else c.database.split FreeArray.clone addr1) fun k => k = addr1 ∨ addr2.isInvalid = false ∧ k = addr2 := by
    cases addr2.isInvalid with
    | true => exact (grows_split _ _).congr fun k => by simp
    | false => exact ((grows_split _ _).trans (grows_split _ _)).congr fun k => by simp
  simp only [ContextInternal.getRegionForSet] at h
  split at h
  · obtain rfl := Except.ok.inj h
    exact ⟨rfl, hsplit⟩
  · obtain ⟨m₁, hm₁, h⟩ := bind_eq_ok.mp h
    obtain rfl := Except.ok.inj h
    refine ⟨rfl, (hsplit.trans (Q := fun _ => False) ?_).congr fun k => by simp⟩
    -- the loop over the keys only updates them
    generalize (PartMap.keysFrom _ addr1).takeWhile _ = keys at hm₁
    generalize (if (! addr2.isInvalid) = true then _ else _) = m₀ at hm₁ ⊢
    induction keys generalizing m₀ with
    | nil =>
        obtain rfl := Except.ok.inj hm₁
        exact Grows.refl _
    | cons key keys ih =>
        rw [List.foldlM_cons] at hm₁
        obtain ⟨m₂, hm₂, hm₁⟩ := bind_eq_ok.mp hm₁
        exact ((grows_update hm₂ fun v v' hv => applyTo_length hlen hv).trans (ih m₂ hm₁)).congr fun k => by simp

end Growth

section Windows

variable {highest : Int → Nat} {c : ContextInternal} {spc : Int} {off : Nat} {a b k : Addr}

theorem Addr.mk_space_offset (a : Addr) : Addr.mk a.space a.offset = a := rfl

theorem Addr.lt_iff : a < b ↔ a.space < b.space ∨ a.space = b.space ∧ a.offset < b.offset := Prod.Lex.lt_iff

theorem Addr.le_iff : a ≤ b ↔ a.space < b.space ∨ a.space = b.space ∧ a.offset ≤ b.offset := Prod.Lex.le_iff

/-- The addresses of a window have one partition point; it is the first one of them,
unless the window starts at the beginning of the space. -/
structure IsWindow (m : PartMap Addr FreeArray) (w : CacheWindow) : Prop where
  key : ∀ off, w.first ≤ off → off ≤ w.last → m.partitionKey (Addr.mk w.spaceIndex off) = w.key
  first : w.first = 0 ∨ w.key = some (Addr.mk w.spaceIndex w.first)

theorem isWindow_bounds (highest : Int → Nat) (c : ContextInternal) (spc : Int) (off : Nat) :
    let bounds := c.getContextBounds highest (Addr.mk spc off)
    IsWindow c.database { spaceIndex := spc, first := bounds.first, last := bounds.last, key := bounds.key } ∧
      c.database.partitionKey (Addr.mk spc off) = bounds.key := by
  obtain ⟨addr, haddr⟩ : ∃ a, a = Addr.mk spc off := ⟨_, rfl⟩
  have hspc : addr.space = spc := by rw [haddr]; rfl
  have hb := c.database.bounds_spec addr
  simp only [← haddr, ContextInternal.getContextBounds, hb.noBefore, hb.noAfter]
  rw [← hb.before]
  have hkey : (if (c.database.bounds addr).2.before = none then none else (c.database.bounds addr).2.before) =
      (c.database.bounds addr).2.before := by
    split
    · next h => exact h.symm
    · rfl
  rw [hkey]
  refine ⟨⟨fun o hfirst hlast => ?_, ?_⟩, rfl⟩
  · -- no partition point lies after the address and up to the end of the window
    have hup : ∀ y, c.database.HasKey y → y ≤ Addr.mk spc o → y ≤ addr := by
      intro y hy hyo
      by_contra hnot
      obtain ⟨x, hx, hlt, hxy⟩ := hb.after y hy (lt_of_not_ge hnot)
      have hxo := hxy.trans hyo
      have hspace : x.space = addr.space := by
        rcases Addr.lt_iff.mp hlt with h | ⟨h, -⟩
        · rcases Addr.le_iff.mp hxo with h' | ⟨h', -⟩
          · exact absurd (h.trans h') (hspc ▸ lt_irrefl _)
          · exact h'.trans hspc.symm
        · exact h.symm
      have hoff : addr.offset < x.offset := by
        rcases Addr.lt_iff.mp hlt with h | ⟨-, h⟩
        · exact absurd h (hspace ▸ lt_irrefl _)
        · exact h
      have hle : x.offset ≤ o := by
        rcases Addr.le_iff.mp hxo with h | ⟨-, h⟩
        · exact absurd h (hspace ▸ hspc ▸ lt_irrefl _)
        · exact h
      simp only [hx, Option.elim_some, hspace, reduceCtorEq, ne_eq, not_true, or_false, if_false] at hlast
      omega
    cases hbefore : (c.database.bounds addr).2.before with
    | none =>
        have hnone := hb.before.symm.trans hbefore
        refine PartMap.partitionKey_eq_none.mpr fun y hy => lt_of_not_ge fun hyo => ?_
        exact absurd (PartMap.partitionKey_eq_none.mp hnone y hy) (not_lt.mpr (hup y hy hyo))
    | some k =>
        obtain ⟨hk, hle, hmax⟩ := PartMap.partitionKey_eq_some.mp (hb.before.symm.trans hbefore)
        refine PartMap.partitionKey_eq_some.mpr ⟨hk, ?_, fun y hy hyo => hmax y hy (hup y hy hyo)⟩
        rcases Addr.le_iff.mp hle with h | ⟨h, -⟩
        · exact Addr.le_iff.mpr (.inl (hspc ▸ h))
        · have hfirst' : k.offset ≤ o := by simpa [hbefore, h] using hfirst
          exact Addr.le_iff.mpr (.inr ⟨h.trans hspc, hfirst'⟩)
  · by_cases h : (c.database.bounds addr).2.before = none ∨ (c.database.bounds addr).2.before.elim ⊥ Addr.space ≠ addr.space
    · exact .inl (if_pos h)
    · right
      rw [not_or, not_ne_iff] at h
      obtain ⟨k, hk⟩ := Option.ne_none_iff_exists'.mp h.1
      have hks : k.space = spc := by simpa [hk, hspc] using h.2
      simp only [hk, Option.elim_some, reduceCtorEq, hks, hspc, ne_eq, not_true, or_false, if_false]
      rw [← hks]
      rfl

end Windows

namespace CacheState

/-- The partition points that a call makes. -/
def newPoints : CacheCall → List Addr
  | .setContext addr _ _ _ => [addr]
  | .setContextRegion addr1 addr2 _ _ _ => if addr2.isInvalid then [addr1] else [addr1, addr2]
  | _ => []

/-- The tests of a call after which the window is dropped. -/
def drops (cache : ContextCache) : CacheCall → Bool
  | .setContext addr _ _ _ => cache.inWindow addr
  | .setContextRegion addr1 addr2 _ _ _ => cache.regionDrops addr1 addr2
  | _ => false

/-- A call that does not drop the window makes no partition point in a space before
that of the window, unless it comes up to the partition point of the window at most. -/
def Quiet (s : CacheState) (call : CacheCall) : Prop :=
  ∀ w, s.cache.window = some w → s.cache.allowset = true → drops s.cache call = false →
    ∀ p ∈ newPoints call, p.space < w.spaceIndex → ∃ k, w.key = some k ∧ p ≤ k

/-- The states that quiet calls reach. -/
inductive QuietRun (highest : Int → Nat) (start : CacheState) : CacheState → Prop
  | refl : QuietRun highest start start
  | step {s s' : CacheState} {call : CacheCall} (h : QuietRun highest start s) (hq : s.Quiet call)
      (hs : s.call highest call = .ok s') : QuietRun highest start s'

/-- The window is one of the database. -/
structure Coherent (s : CacheState) : Prop where
  window : ∀ w, s.cache.window = some w →
    s.cache.first = w.first ∧ s.cache.last = w.last ∧ IsWindow s.database.database w
  sized : AllSized s.database.size s.database.database

variable {highest : Int → Nat} {s s' : CacheState}

theorem getValue_sized {n : Nat} {m : PartMap Addr FreeArray} (h : AllSized n m) (p : Addr) : (m.getValue p).array.length = n := by
  rcases PartMap.getValue_cases m p with ⟨k, v, hkv, -, -, heq⟩ | ⟨-, heq⟩
  · rw [heq]
    exact (h.2 _ hkv).1
  · rw [heq]
    exact h.1.1

/-- A whole context is copied. -/
theorem copyContext_eq (hs : AllSized s.database.size s.database.database) (addr : Addr) {key : Option Addr}
    (hkey : s.database.database.partitionKey addr = key) :
    ContextCache.copyContext s.database.size (s.database.getContextByKey key) = .ok (s.database.getContext addr) := by
  have hlen := getValue_sized hs addr
  rw [← hkey, ContextInternal.getContextByKey, PartMap.getByKey_partitionKey, ContextCache.copyContext, if_pos hlen.ge,
    List.take_of_length_le hlen.le]
  rfl

/-- The buffer gets the context of the database. -/
theorem getContext_spec (highest : Int → Nat) (h : s.Coherent) (addr : Addr) :
    ∃ cache, s.cache.getContext highest s.database addr = .ok (s.database.getContext addr, cache) ∧
      Coherent { s with cache := cache } := by
  by_cases hhit : s.cache.hit addr = true
  · refine ⟨s.cache, ?_, h⟩
    obtain ⟨w, hw, hin⟩ := (Option.any_eq_true _ _).mp hhit
    simp only [Bool.and_eq_true, decide_eq_true_eq] at hin
    have hkey := (h.window w hw).2.2.key addr.offset hin.2.1 hin.2.2
    rw [hin.1, Addr.mk_space_offset] at hkey
    simp only [ContextCache.getContext, hhit, if_true, hw, Option.bind_some, copyContext_eq h.sized addr hkey]
    rfl
  · simp only [ContextCache.getContext, hhit]
    cases hspc : addr.space with
    | bot =>
        -- without a space there is no window
        have hb := s.database.database.bounds_spec addr
        have hkey : s.database.database.partitionKey addr = (s.database.getContextBounds highest addr).key := by
          simp only [ContextInternal.getContextBounds, hb.noBefore]
          split
          · next hn => rw [← hb.before, hn]
          · exact hb.before.symm
        let bounds := s.database.getContextBounds highest addr
        refine ⟨{ s.cache with first := bounds.first, last := bounds.last, window := none }, ?_, fun w hw => ?_, h.sized⟩
        · rw [if_neg (by simp), copyContext_eq h.sized addr hkey]
          rfl
        · simp at hw
    | coe spc =>
        have haddr : addr = Addr.mk spc addr.offset := by rw [← hspc, Addr.mk_space_offset]
        obtain ⟨hwin, hkey⟩ := isWindow_bounds highest s.database spc addr.offset
        rw [← haddr] at hwin hkey
        let bounds := s.database.getContextBounds highest addr
        let window : CacheWindow := { spaceIndex := spc, first := bounds.first, last := bounds.last, key := bounds.key }
        refine ⟨{ s.cache with first := bounds.first, last := bounds.last, window := some window }, ?_, fun w hw => ?_, h.sized⟩
        · rw [if_neg (by simp), copyContext_eq h.sized addr hkey]
          rfl
        · obtain rfl := Option.some_inj.mp hw
          exact ⟨rfl, rfl, hwin⟩

/-- New partition points outside of a window, and not between it and its partition
point, leave it a window. -/
theorem isWindow_of_grows {m m' : PartMap Addr FreeArray} {P : Addr → Prop} {w : CacheWindow} (h : IsWindow m w)
    (hg : Grows m m' P) (hbefore : ∀ p, P p → p.space < w.spaceIndex → ∃ k, w.key = some k ∧ p ≤ k)
    (hsame : ∀ p, P p → p.space = w.spaceIndex → ¬ (w.first ≤ p.offset ∧ p.offset ≤ w.last)) : IsWindow m' w := by
  refine ⟨fun off hlo hhi => ?_, h.first⟩
  rw [← h.key off hlo hhi]
  refine PartMap.partitionKey_of_more_keys hg.keys fun p hp hle => ?_
  rw [h.key off hlo hhi]
  rcases Addr.le_iff.mp hle with hlt | ⟨heq, hoff⟩
  · exact hbefore p hp hlt
  · have heq' : p.space = w.spaceIndex := heq
    have hoff' : p.offset ≤ off := hoff
    have hout := hsame p hp heq'
    rcases h.first with hzero | hkey
    · exact absurd ⟨by omega, by omega⟩ hout
    · refine ⟨_, hkey, Addr.le_iff.mpr (.inr ⟨heq, ?_⟩)⟩
      have hgoal : p.offset ≤ w.first := by omega
      exact hgoal

/-- A change of the database under a cache that may drop its window. -/
theorem coherent_of_grows (h : s.Coherent) {c' : ContextInternal} {P : Addr → Prop} (hsize : c'.size = s.database.size)
    (hg : Grows s.database.database c'.database P) {dropped : Bool}
    (hbefore : ∀ w, s.cache.window = some w → dropped = false →
      ∀ p, P p → p.space < w.spaceIndex → ∃ k, w.key = some k ∧ p ≤ k)
    (hsame : ∀ w, s.cache.window = some w → dropped = false →
      ∀ p, P p → p.space = w.spaceIndex → ¬ (w.first ≤ p.offset ∧ p.offset ≤ w.last)) :
    Coherent { cache := if dropped then { s.cache with window := none } else s.cache, database := c' } := by
  refine ⟨fun w hw => ?_, hsize ▸ hg.sized _ h.sized⟩
  cases dropped with
  | true => simp at hw
  | false =>
      obtain ⟨h₁, h₂, hwin⟩ := h.window w hw
      exact ⟨h₁, h₂, isWindow_of_grows hwin hg (hbefore w hw rfl) (hsame w hw rfl)⟩

theorem inWindow_of_same {w : CacheWindow} (h : s.Coherent) (hw : s.cache.window = some w) {p : Addr}
    (hspc : p.space = w.spaceIndex) (hin : w.first ≤ p.offset ∧ p.offset ≤ w.last) : s.cache.inWindow p = true := by
  obtain ⟨h₁, h₂, -⟩ := h.window w hw
  simp [ContextCache.inWindow, hw, hspc, h₁, h₂, hin]

/-- A quiet call keeps the cache coherent. -/
theorem call_coherent (h : s.Coherent) {call : CacheCall} (hq : s.Quiet call) (hs : s.call highest call = .ok s') :
    s'.Coherent := by
  cases call with
  | getContext addr =>
      obtain ⟨cache, hget, hcoh⟩ := getContext_spec highest h addr
      simp only [CacheState.call, hget, ok_bind] at hs
      obtain rfl := Except.ok.inj hs
      exact hcoh
  | allowSet val =>
      obtain rfl := Except.ok.inj hs
      exact ⟨h.window, h.sized⟩
  | setContext addr num mask value =>
      simp only [CacheState.call, ContextCache.setContext] at hs
      split at hs
      · next hallow =>
          obtain ⟨⟨cache, database⟩, hset, hs⟩ := bind_eq_ok.mp hs
          obtain ⟨c', hc', hset⟩ := bind_eq_ok.mp hset
          obtain ⟨rfl, rfl⟩ := Prod.mk.inj (Except.ok.inj hset)
          obtain rfl := Except.ok.inj hs
          obtain ⟨hsize, hg⟩ := getRegionToChangePoint_grows (fun _ _ => setWord_length) hc'
          refine coherent_of_grows h hsize hg (fun w hw hd p hp hlt => ?_) fun w hw hd p hp hspc hin => ?_
          · subst hp
            exact hq w hw hallow hd p (by simp [newPoints]) hlt
          · subst hp
            exact Bool.false_ne_true (hd.symm.trans (inWindow_of_same h hw hspc hin))
      · obtain rfl := Except.ok.inj hs
        exact h
  | setContextRegion addr1 addr2 num mask value =>
      simp only [CacheState.call, ContextCache.setContextRegion] at hs
      split at hs
      · next hallow =>
          obtain ⟨⟨cache, database⟩, hset, hs⟩ := bind_eq_ok.mp hs
          obtain ⟨c', hc', hset⟩ := bind_eq_ok.mp hset
          obtain ⟨rfl, rfl⟩ := Prod.mk.inj (Except.ok.inj hset)
          obtain rfl := Except.ok.inj hs
          obtain ⟨hsize, hg⟩ := getRegionForSet_grows (fun _ _ => setWord_length) hc'
          refine coherent_of_grows h hsize hg (fun w hw hd p hp hlt => ?_) fun w hw hd p hp hspc hin => ?_
          · refine hq w hw hallow hd p ?_ hlt
            rcases hp with rfl | ⟨hvalid, rfl⟩
            · rw [newPoints]
              split <;> simp
            · simp [newPoints, hvalid]
          · simp only [ContextCache.regionDrops, Bool.or_eq_false_iff, Bool.and_eq_false_iff, decide_eq_false_iff_not] at hd
            obtain ⟨h₁, h₂, -⟩ := h.window w hw
            rcases hp with rfl | ⟨-, rfl⟩
            · exact Bool.false_ne_true (hd.1.1.symm.trans (inWindow_of_same h hw hspc hin))
            · have := hd.1.2
              omega
      · obtain rfl := Except.ok.inj hs
        exact h

/-- As long as the calls are quiet, a read through the cache is a read of the database. -/
theorem cache_coherent_while_quiet (highest : Int → Nat) (c : ContextInternal) (hc : c.Sized) (s : CacheState)
    (hrun : QuietRun highest { cache := ContextCache.new, database := c } s) (addr : Addr) :
    ∃ cache, s.cache.getContext highest s.database addr = .ok (s.database.getContext addr, cache) := by
  have hcoh : s.Coherent := by
    induction hrun with
    | refl => exact ⟨fun w hw => by simp [ContextCache.new] at hw, hc.default, hc.entries⟩
    | step _ hq hs ih => exact call_coherent ih hq hs
  obtain ⟨cache, hget, -⟩ := getContext_spec highest hcoh addr
  exact ⟨cache, hget⟩

/-- A context of one word without partition points. -/
def oneWord : ContextInternal where
  size := 1
  database := { database := SortedMap.empty, defaultvalue := { array := [0], mask := [0] } }
  trackbase := { database := SortedMap.empty, defaultvalue := [] }

/-- Behind a window of the first space, a context of the second one is set. -/
theorem cache_coherent_while_quiet_oneWord : ∃ s : CacheState,
    QuietRun (fun _ => 0xffff) { cache := ContextCache.new, database := oneWord } s ∧
      ∃ cache, s.cache.getContext (fun _ => 0xffff) s.database (Addr.mk (2 : Int) 0x20) =
        .ok (s.database.getContext (Addr.mk (2 : Int) 0x20), cache) := by
  have hsized : oneWord.Sized := ⟨⟨rfl, rfl⟩, by simp [oneWord]⟩
  have hnone : Quiet { cache := ContextCache.new, database := oneWord } (.getContext (Addr.mk (1 : Int) 0x10)) := by
    intro w hw
    cases hw
  obtain ⟨s₁, hs₁⟩ : ∃ s₁ : CacheState, s₁ = { database := oneWord, cache :=
    { allowset := true, window := some { spaceIndex := 1, first := 0, last := 0xffff, key := none }, first := 0, last := 0xffff } } :=
    ⟨_, rfl⟩
  have hcall : call (fun _ => 0xffff) { cache := ContextCache.new, database := oneWord }
      (.getContext (Addr.mk (1 : Int) 0x10)) = .ok s₁ := by rw [hs₁]; rfl
  have hquiet : s₁.Quiet (.setContext (Addr.mk (2 : Int) 0x10) 0 0xff 1) := by
    rintro w hw - - p hp hlt
    rw [hs₁] at hw
    obtain rfl := Option.some_inj.mp hw
    obtain rfl := List.mem_singleton.mp hp
    exact absurd hlt (by decide)
  obtain ⟨s₂, hs₂⟩ : ∃ s₂, s₁.call (fun _ => 0xffff) (.setContext (Addr.mk (2 : Int) 0x10) 0 0xff 1) = .ok s₂ := by
    rw [hs₁]
    exact ⟨_, rfl⟩
  have hrun := (QuietRun.refl.step hnone hcall).step hquiet hs₂
  exact ⟨s₂, hrun, cache_coherent_while_quiet _ oneWord hsized s₂ hrun _⟩

/-- A context set in an earlier space holds in the window of a later one, where the
cache still returns the default. -/
theorem cache_keeps_default : ∃ s : CacheState,
    [CacheCall.getContext (Addr.mk (2 : Int) 0x10), .setContext (Addr.mk (1 : Int) 0x100) 0 0xff 1].foldlM
        (call fun _ => 0xffff) { cache := ContextCache.new, database := oneWord } = .ok s ∧
      (s.cache.getContext (fun _ => 0xffff) s.database (Addr.mk (2 : Int) 0x10)).map Prod.fst = .ok [0] ∧
      s.database.getContext (Addr.mk (2 : Int) 0x10) = [1] :=
  ⟨_, rfl, rfl, rfl⟩

end CacheState

namespace ContextInternal

structure ChangePoint where
  addr : Addr
  num : Nat
  mask : BitVec 32
  value : BitVec 32

def ChangePoint.perform (c : ContextInternal) (call : ChangePoint) : Outcome ContextInternal :=
  c.setContextChangePoint call.addr call.num call.mask call.value

namespace ChangePoint

def Sets (call : ChangePoint) (num i : Nat) : Prop := call.num = num ∧ call.mask.getLsbD i = true

instance (call : ChangePoint) (num i : Nat) : Decidable (call.Sets num i) := inferInstanceAs (Decidable (_ ∧ _))

/-- The call that counts at an address so far: one at a later address, or a later one at the same, takes its place. -/
def latest (num i : Nat) (a : Addr) (best : Option Addr × Bool) (call : ChangePoint) : Option Addr × Bool :=
  if call.Sets num i ∧ call.addr ≤ a ∧ (∀ b ∈ best.1, b ≤ call.addr) then (some call.addr, call.value.getLsbD i) else best

/-- The bit at an address after the calls: the latest one among those at the greatest address up to it that set
the bit decides, or the default. -/
def bitAfter (default : Bool) (calls : List ChangePoint) (num i : Nat) (a : Addr) : Bool :=
  (calls.foldl (latest num i a) (none, default)).2

variable {calls : List ChangePoint} {num i : Nat} {a : Addr} {default : Bool}

theorem latest_bound (call : ChangePoint) :
    (∀ b ∈ (calls.foldl (latest num i a) (none, default)).1, b ≤ call.addr) ↔
      ∀ call' ∈ calls, call'.Sets num i → call'.addr ≤ a → call'.addr ≤ call.addr := by
  induction calls using List.reverseRecOn generalizing call with
  | nil => simp
  | append_singleton calls last ih =>
      rw [List.foldl_append, List.foldl_cons, List.foldl_nil, latest]
      split
      · next hcond =>
        obtain ⟨hsets, hle, hbound⟩ := hcond
        rw [ih] at hbound
        constructor
        · intro h call' hcall' hsets' hle'
          have hlast := h last.addr rfl
          rcases List.mem_append.mp hcall' with hcall' | hcall'
          · exact (hbound call' hcall' hsets' hle').trans hlast
          · rwa [List.mem_singleton.mp hcall']
        · rintro h b ⟨⟩
          exact h last (by simp) hsets hle
      · next hcond =>
        rw [ih]
        constructor
        · intro h call' hcall' hsets' hle'
          rcases List.mem_append.mp hcall' with hcall' | hcall'
          · exact h call' hcall' hsets' hle'
          · rw [List.mem_singleton.mp hcall'] at hsets' hle' ⊢
            -- an earlier call is behind the last one, so the bound holds for that one too
            have hbehind : ¬ ∀ call' ∈ calls, call'.Sets num i → call'.addr ≤ a → call'.addr ≤ last.addr := fun hb =>
              hcond ⟨hsets', hle', (ih last).mpr hb⟩
            push Not at hbehind
            obtain ⟨other, hother, hs, hl, hlt⟩ := hbehind
            exact hlt.le.trans (h other hother hs hl)
        · exact fun h call' hcall' => h call' (List.mem_append_left _ hcall')

theorem bitAfter_append (call : ChangePoint) : bitAfter default (calls ++ [call]) num i a =
    if call.Sets num i ∧ call.addr ≤ a ∧ (∀ call' ∈ calls, call'.Sets num i → call'.addr ≤ a → call'.addr ≤ call.addr)
      then call.value.getLsbD i else bitAfter default calls num i a := by
  rw [bitAfter, List.foldl_append, List.foldl_cons, List.foldl_nil, latest]
  simp only [latest_bound]
  split
  · rfl
  · rfl

theorem bitAfter_congr {a' : Addr} (h : ∀ call ∈ calls, call.addr ≤ a ↔ call.addr ≤ a') :
    bitAfter default calls num i a = bitAfter default calls num i a' := by
  induction calls using List.reverseRecOn with
  | nil => rfl
  | append_singleton calls last ih =>
      have hinit : ∀ call ∈ calls, call.addr ≤ a ↔ call.addr ≤ a' := fun call hcall => h call (by simp [hcall])
      have hbounds : (∀ call' ∈ calls, call'.Sets num i → call'.addr ≤ a → call'.addr ≤ last.addr) ↔
          ∀ call' ∈ calls, call'.Sets num i → call'.addr ≤ a' → call'.addr ≤ last.addr :=
        forall₂_congr fun call hcall => by rw [hinit call hcall]
      rw [bitAfter_append, bitAfter_append, ih hinit]
      simp only [h last (by simp), hbounds]

end ChangePoint

section ChangePoints

variable {n num : Nat} {mask value : BitVec 32} {m : PartMap Addr FreeArray}

/-- What an entry becomes to which a change flows. -/
def flowed (num : Nat) (mask value : BitVec 32) (v : FreeArray) : FreeArray :=
  { v with array := v.array.modify num fun w => (w &&& ~~~ mask) ||| value }

/-- The change of one word of a context. -/
def changeWord (num : Nat) (mask value : BitVec 32) (context : List (BitVec 32)) : Outcome (List (BitVec 32)) := do
  let val ← getIdx context num
  setIdx context num ((val &&& ~~~ mask) ||| value)

theorem setContextChangePoint_eq (c : ContextInternal) (addr : Addr) : c.setContextChangePoint addr num mask value =
    c.getRegionToChangePoint addr num mask (changeWord num mask value) := rfl

theorem changeWord_eq {context : List (BitVec 32)} (h : num < context.length) :
    changeWord num mask value context = .ok (context.modify num fun w => (w &&& ~~~ mask) ||| value) := by
  have hset : context.set num ((context[num] &&& ~~~ mask) ||| value) =
      context.modify num fun w => (w &&& ~~~ mask) ||| value := by
    rw [List.modify_eq_set_getElem?, List.getElem?_eq_getElem h]
    rfl
  simp [changeWord, getIdx_eq (List.getElem?_eq_getElem h), setIdx_eq _ h, ← hset]

/-- No bit of the mask was set at the entry. -/
def Blank (num : Nat) (mask : BitVec 32) (v : FreeArray) : Prop := v.mask.getD num 0 &&& mask = 0

/-- The change flows to the keys up to the first one at which one of its bits was set. -/
theorem changeRest_spec (mask value : BitVec 32) (hn : num < n) (ks : List Addr) (hks : ks.Pairwise (· < ·))
    (hm : ∀ x ∈ m.database.entries, x.2.array.length = n ∧ x.2.mask.length = n)
    (hkeys : ∀ k ∈ ks, ∃ v, (k, v) ∈ m.database.entries) :
    ∃ m', changeRest num mask (changeWord num mask value) ks m = .ok m' ∧ m'.defaultvalue = m.defaultvalue ∧
      (∀ x ∈ m'.database.entries, x.2.array.length = n ∧ x.2.mask.length = n) ∧
      ∀ k v', (k, v') ∈ m'.database.entries ↔ ∃ v, (k, v) ∈ m.database.entries ∧
        (k ∈ ks ∧ (∀ k' ∈ ks, k' ≤ k → ∀ w, (k', w) ∈ m.database.entries → Blank num mask w) ∧
            v' = flowed num mask value v ∨
          ¬ (k ∈ ks ∧ ∀ k' ∈ ks, k' ≤ k → ∀ w, (k', w) ∈ m.database.entries → Blank num mask w) ∧ v' = v) := by
  induction ks generalizing m with
  | nil => exact ⟨m, rfl, rfl, hm, fun k v' => by simp⟩
  | cons key ks ih =>
      obtain ⟨hlater, hks'⟩ := List.pairwise_cons.mp hks
      obtain ⟨v, hv⟩ := hkeys key (by simp)
      have hsized := hm _ hv
      have hlookup : m.database.lookup key = some v := SortedMap.lookup_eq_some.mpr hv
      have hword : getIdx v.mask num = .ok (v.mask.getD num 0) := by
        rw [getIdx_eq (List.getElem?_eq_getElem (hsized.2 ▸ hn)), List.getD_eq_getElem _ _ (hsized.2 ▸ hn)]
      have hentry : ∀ w, (key, w) ∈ m.database.entries → w = v := fun w hw =>
        congrArg Prod.snd (SortedMap.eq_of_key_eq hw hv rfl)
      by_cases hblank : Blank num mask v
      · let m₁ : PartMap Addr FreeArray := { m with database := m.database.insert key (flowed num mask value v) }
        have hmem₁ : ∀ k w, k ≠ key → ((k, w) ∈ m₁.database.entries ↔ (k, w) ∈ m.database.entries) := fun k w hne => by
          rw [SortedMap.mem_insert]
          simp [hne]
        have hup : (m.update key fun entry => do
            pure { entry with array := ← changeWord num mask value entry.array }) = .ok m₁ := by
          simp [PartMap.update, hlookup, changeWord_eq (hsized.1 ▸ hn), flowed, m₁]
        have hne : ∀ k ∈ ks, k ≠ key := fun k hk he => lt_irrefl _ (he ▸ hlater k hk)
        obtain ⟨m', hrun, hd, hsized', hmem'⟩ := ih (m := m₁) hks' (fun x hx => by
            rcases SortedMap.mem_insert.mp hx with rfl | ⟨hx, -⟩
            · simpa [flowed] using hsized
            · exact hm x hx) (fun k hk => by
            obtain ⟨w, hw⟩ := hkeys k (by simp [hk])
            exact ⟨w, (hmem₁ k w (hne k hk)).mpr hw⟩)
        refine ⟨m', ?_, hd, hsized', fun k v' => ?_⟩
        · rw [changeRest, hlookup]
          simp only [expect_some, ok_bind, hword]
          rw [if_neg (not_not.mpr (show v.mask.getD num 0 &&& mask = 0 from hblank)), hup]
          exact hrun
        · rw [hmem']
          by_cases hk : k = key
          · subst hk
            have hnot : k ∉ ks := fun hk => hne k hk rfl
            have hall : ∀ k' ∈ k :: ks, k' ≤ k → ∀ w, (k', w) ∈ m.database.entries → Blank num mask w := by
              intro k' hk' hle w hw
              rcases List.mem_cons.mp hk' with rfl | hk'
              · exact hentry w hw ▸ hblank
              · exact absurd hle (not_le.mpr (hlater k' hk'))
            constructor
            · rintro ⟨w, hw, ⟨hin, -⟩ | ⟨-, rfl⟩⟩
              · exact absurd hin hnot
              · rcases SortedMap.mem_insert.mp hw with he | ⟨-, hne'⟩
                · cases he
                  exact ⟨v, hv, .inl ⟨by simp, hall, rfl⟩⟩
                · exact absurd rfl hne'
            · rintro ⟨w, hw, ⟨-, -, rfl⟩ | ⟨hno, -⟩⟩
              · rw [hentry w hw]
                exact ⟨_, SortedMap.mem_insert.mpr (.inl rfl), .inr ⟨fun h => hnot h.1, rfl⟩⟩
              · exact absurd ⟨by simp, hall⟩ hno
          · have hcond : (k ∈ ks ∧ ∀ k' ∈ ks, k' ≤ k → ∀ w, (k', w) ∈ m₁.database.entries → Blank num mask w) ↔
                (k ∈ key :: ks ∧
                  ∀ k' ∈ key :: ks, k' ≤ k → ∀ w, (k', w) ∈ m.database.entries → Blank num mask w) := by
              constructor
              · rintro ⟨hin, hall⟩
                refine ⟨by simp [hin], fun k' hk' hle w hw => ?_⟩
                rcases List.mem_cons.mp hk' with rfl | hk'
                · exact hentry w hw ▸ hblank
                · exact hall k' hk' hle w ((hmem₁ k' w (hne k' hk')).mpr hw)
              · rintro ⟨hin, hall⟩
                refine ⟨by simpa [hk] using hin, fun k' hk' hle w hw => ?_⟩
                exact hall k' (by simp [hk']) hle w ((hmem₁ k' w (hne k' hk')).mp hw)
            simp only [← and_assoc, hcond, hmem₁ _ _ hk]
      · refine ⟨m, ?_, rfl, hm, fun k v' => ?_⟩
        · rw [changeRest, hlookup]
          simp only [expect_some, ok_bind, hword]
          rw [if_pos (show v.mask.getD num 0 &&& mask ≠ 0 from hblank)]
          rfl
        · have hnot : ¬ (k ∈ key :: ks ∧
              ∀ k' ∈ key :: ks, k' ≤ k → ∀ w, (k', w) ∈ m.database.entries → Blank num mask w) := by
            rintro ⟨hin, hall⟩
            refine hblank (hall key (by simp) ?_ v hv)
            rcases List.mem_cons.mp hin with rfl | hin
            · exact le_refl _
            · exact (hlater k hin).le
          constructor
          · exact fun hv' => ⟨v', hv', .inr ⟨hnot, rfl⟩⟩
          · rintro ⟨w, hw, ⟨hin, hall, -⟩ | ⟨-, rfl⟩⟩
            · exact absurd ⟨hin, hall⟩ hnot
            · exact hw

/-- Every call has a partition point, which marks the bits that were set at it, and the words at the points are
those that the calls give. -/
structure Follows (calls : List ChangePoint) (n : Nat) (d : FreeArray) (m : PartMap Addr FreeArray) : Prop where
  default : m.defaultvalue = d
  sized : ∀ x ∈ m.database.entries, x.2.array.length = n ∧ x.2.mask.length = n
  keyed : ∀ call ∈ calls, ∃ v, (call.addr, v) ∈ m.database.entries
  marked : ∀ k v, (k, v) ∈ m.database.entries → ∀ num i,
    (v.mask.getD num 0).getLsbD i = true ↔ ∃ call ∈ calls, call.addr = k ∧ call.Sets num i
  value : ∀ k v, (k, v) ∈ m.database.entries → ∀ num i,
    (v.array.getD num 0).getLsbD i = ChangePoint.bitAfter ((d.array.getD num 0).getLsbD i) calls num i k

variable {calls : List ChangePoint} {d : FreeArray}

theorem Follows.getValue (h : Follows calls n d m) (a : Addr) (num i : Nat) :
    ((m.getValue a).array.getD num 0).getLsbD i =
      ChangePoint.bitAfter ((d.array.getD num 0).getLsbD i) calls num i a := by
  rcases PartMap.getValue_cases m a with ⟨k, v, hkv, hka, hmax, hval⟩ | ⟨hlt, hval⟩
  · rw [hval, h.value k v hkv]
    refine ChangePoint.bitAfter_congr fun call hcall => ?_
    obtain ⟨w, hw⟩ := h.keyed call hcall
    exact ⟨fun hle => hle.trans hka, fun hle => hmax _ hw hle⟩
  · have hnone : ∀ call ∈ calls, ¬ call.addr ≤ a := fun call hcall hle => by
      obtain ⟨w, hw⟩ := h.keyed call hcall
      exact absurd (hlt _ hw) (not_lt.mpr hle)
    rw [hval, h.default]
    clear h
    induction calls using List.reverseRecOn with
    | nil => rfl
    | append_singleton calls last ih =>
        rw [ChangePoint.bitAfter_append, if_neg fun hc => hnone last (by simp) hc.2.1]
        exact ih fun call hcall => hnone call (by simp [hcall])

/-- A partition point that is split off has no marks. -/
theorem Follows.split (h : Follows calls n d m) (hd : d.array.length = n ∧ d.mask.length = n) (p : Addr) :
    Follows calls n d (m.split FreeArray.clone p) := by
  have hsized : ∀ x ∈ (m.split FreeArray.clone p).database.entries, x.2.array.length = n ∧ x.2.mask.length = n :=
    PartMap.forall_split (P := fun v : FreeArray => v.array.length = n ∧ v.mask.length = n)
      (fun v hv => by simpa [FreeArray.clone] using hv) (by rw [h.default]; exact hd) h.sized p
  rcases PartMap.split_cases FreeArray.clone m p with ⟨he, -⟩ | ⟨hnew, he⟩
  · rwa [he]
  · rw [he] at hsized ⊢
    refine ⟨h.default, hsized, fun call hcall => ?_, fun k v hkv num i => ?_, fun k v hkv num i => ?_⟩
    · obtain ⟨v, hv⟩ := h.keyed call hcall
      exact ⟨v, SortedMap.mem_insert.mpr (.inr ⟨hv, fun heq => hnew v (heq ▸ hv)⟩)⟩
    · rcases SortedMap.mem_insert.mp hkv with heq | ⟨hkv, -⟩
      · cases heq
        refine ⟨fun hbit => ?_, ?_⟩
        · have hzero : ((m.getValue p).clone.mask.getD num 0).getLsbD i = false := by
            rw [FreeArray.clone, List.getD_eq_getElem?_getD, List.getElem?_map]
            cases (m.getValue p).mask[num]? <;> exact BitVec.getLsbD_zero
          rw [hzero] at hbit
          cases hbit
        · rintro ⟨call, hcall, rfl, -⟩
          obtain ⟨v, hv⟩ := h.keyed call hcall
          exact absurd hv (hnew v)
      · exact h.marked k v hkv num i
    · rcases SortedMap.mem_insert.mp hkv with heq | ⟨hkv, -⟩
      · cases heq
        exact h.getValue p num i
      · exact h.value k v hkv num i

theorem getLsbD_modify {words : List (BitVec 32)} {j : Nat} (hn : num < words.length) (hv : value &&& mask = value)
    (i : Nat) : ((words.modify num fun w => (w &&& ~~~ mask) ||| value).getD j 0).getLsbD i =
      if num = j ∧ mask.getLsbD i = true then value.getLsbD i else (words.getD j 0).getLsbD i := by
  by_cases hj : num = j
  · subst hj
    have hword : (words.modify num fun w => (w &&& ~~~ mask) ||| value).getD num 0 =
        (words.getD num 0 &&& ~~~ mask) ||| value := by
      simp [List.getD_eq_getElem?_getD, List.getElem?_eq_getElem hn]
    rw [hword, getLsbD_replace hv]
    simp
  · have hword : (words.modify num fun w => (w &&& ~~~ mask) ||| value).getD j 0 = words.getD j 0 := by
      simp [List.getD_eq_getElem?_getD, hj]
    rw [hword, if_neg fun hc => hj hc.1]

theorem getLsbD_modify_or {words : List (BitVec 32)} {j : Nat} (hn : num < words.length) (i : Nat) :
    ((words.modify num fun w => w ||| mask).getD j 0).getLsbD i = true ↔
      (words.getD j 0).getLsbD i = true ∨ num = j ∧ mask.getLsbD i = true := by
  by_cases hj : num = j
  · subst hj
    simp [List.getD_eq_getElem?_getD, List.getElem?_eq_getElem hn]
  · simp [List.getD_eq_getElem?_getD, hj]

/-- The loop goes on where no call between the two addresses set the bits of the mask. -/
theorem Follows.blank_iff (h : Follows calls n d m) {call : ChangePoint}
    (hmasks : ∀ other ∈ calls, other.num = call.num → other.mask = call.mask ∨ other.mask &&& call.mask = 0)
    {ks : List Addr} (hks : ∀ k, k ∈ ks ↔ (∃ w, (k, w) ∈ m.database.entries) ∧ call.addr < k)
    {m₁ : PartMap Addr FreeArray}
    (hmem₁ : ∀ k w, k ≠ call.addr → ((k, w) ∈ m₁.database.entries ↔ (k, w) ∈ m.database.entries)) {k : Addr} {i : Nat}
    (hbit : call.mask.getLsbD i = true) :
    (∀ k' ∈ ks, k' ≤ k → ∀ w, (k', w) ∈ m₁.database.entries → Blank call.num call.mask w) ↔
      ∀ other ∈ calls, other.Sets call.num i → other.addr ≤ k → other.addr ≤ call.addr := by
  have hcommon : ∀ {x : BitVec 32} {j : Nat}, x.getLsbD j = true → call.mask.getLsbD j = true →
      x &&& call.mask ≠ 0 := fun {x j} hx hj hzero => by
    have hboth : (x &&& call.mask).getLsbD j = true := by
      rw [BitVec.getLsbD_and, hx, hj]
      rfl
    rw [hzero] at hboth
    exact absurd (BitVec.getLsbD_zero.symm.trans hboth) Bool.false_ne_true
  constructor
  · intro hblank other hother hsets hle
    by_contra hbehind
    have hlt := lt_of_not_ge hbehind
    obtain ⟨w, hw⟩ := h.keyed other hother
    have hmark := (h.marked _ _ hw call.num i).mpr ⟨other, hother, rfl, hsets⟩
    exact hcommon hmark hbit (hblank other.addr ((hks _).mpr ⟨⟨w, hw⟩, hlt⟩) hle w ((hmem₁ _ _ hlt.ne').mpr hw))
  · intro hnone k' hk' hle w hw
    obtain ⟨-, hlt⟩ := (hks k').mp hk'
    by_contra hset
    obtain ⟨j, hj⟩ : ∃ j, (w.mask.getD call.num 0 &&& call.mask).getLsbD j = true := by
      by_contra hno
      push Not at hno
      exact hset (BitVec.eq_of_getLsbD_eq fun j _ =>
        ((Bool.not_eq_true _).mp (hno j)).trans BitVec.getLsbD_zero.symm)
    rw [BitVec.getLsbD_and, Bool.and_eq_true] at hj
    obtain ⟨other, hother, haddr, hnum, hbit'⟩ := (h.marked _ _ ((hmem₁ _ _ hlt.ne').mp hw) call.num j).mp hj.1
    rcases hmasks other hother hnum with heq | hdisjoint
    · have hfar := hnone other hother ⟨hnum, heq ▸ hbit⟩ (haddr ▸ hle)
      rw [haddr] at hfar
      exact absurd hfar (not_le.mpr hlt)
    · exact hcommon hbit' hj.2 hdisjoint

/-- A change point, where each earlier call for the word sets the same bits or none of them. -/
theorem perform_follows {c : ContextInternal} (h : Follows calls c.size d c.database)
    (hd : d.array.length = c.size ∧ d.mask.length = c.size) {call : ChangePoint} (hn : call.num < c.size)
    (hv : call.value &&& call.mask = call.value)
    (hmasks : ∀ other ∈ calls, other.num = call.num → other.mask = call.mask ∨ other.mask &&& call.mask = 0) :
    ∃ c', call.perform c = .ok c' ∧ c'.size = c.size ∧ c'.trackbase = c.trackbase ∧
      Follows (calls ++ [call]) c.size d c'.database := by
  have hsplit := h.split hd call.addr
  obtain ⟨v, hv₀⟩ := PartMap.mem_split FreeArray.clone c.database call.addr
  generalize hm : c.database.split FreeArray.clone call.addr = m at hsplit hv₀
  obtain ⟨hsizedA, hsizedM⟩ := hsplit.sized _ hv₀
  have hentry : ∀ w, (call.addr, w) ∈ m.database.entries → w = v := fun w hw =>
    congrArg Prod.snd (SortedMap.eq_of_key_eq hw hv₀ rfl)
  obtain ⟨pre, suf, hentries⟩ := List.append_of_mem hv₀
  have hatLeast := SortedMap.atLeast_of_entries_eq pre hentries
  have hkeys : m.keysFrom call.addr = call.addr :: suf.map Prod.fst := by
    rw [PartMap.keysFrom, hatLeast, List.map_cons]
  have hsorted : (call.addr :: suf.map Prod.fst).Pairwise (· < ·) := by
    rw [← hkeys, PartMap.keysFrom, List.pairwise_map]
    exact m.database.sorted.filter _
  obtain ⟨hlater, hsorted'⟩ := List.pairwise_cons.mp hsorted
  have hmemKeys : ∀ k, k ∈ suf.map Prod.fst ↔ (∃ w, (k, w) ∈ m.database.entries) ∧ call.addr < k := fun k => by
    have hall : k ∈ m.keysFrom call.addr ↔ (∃ w, (k, w) ∈ m.database.entries) ∧ call.addr ≤ k := by
      simp [PartMap.keysFrom, SortedMap.atLeast]
    rw [hkeys, List.mem_cons] at hall
    constructor
    · intro hk
      exact ⟨(hall.mp (.inr hk)).1, hlater k hk⟩
    · rintro ⟨hk, hlt⟩
      exact (hall.mpr ⟨hk, hlt.le⟩).resolve_left hlt.ne'
  let m₁ : PartMap Addr FreeArray :=
    { m with database := m.database.insert call.addr (written call.num call.mask call.value v) }
  have hup : (m.update call.addr fun entry => do
      let array ← changeWord call.num call.mask call.value entry.array
      let word ← getIdx entry.mask call.num
      pure { array := array, mask := ← setIdx entry.mask call.num (word ||| call.mask) }) = .ok m₁ := by
    have hlt : call.num < v.mask.length := hsizedM ▸ hn
    have hset : v.mask.set call.num (v.mask[call.num] ||| call.mask) =
        v.mask.modify call.num fun w => w ||| call.mask := by
      rw [List.modify_eq_set_getElem?, List.getElem?_eq_getElem hlt]
      rfl
    simp [PartMap.update, SortedMap.lookup_eq_some.mpr hv₀, changeWord_eq (hsizedA ▸ hn), written, m₁,
      getIdx_eq (List.getElem?_eq_getElem hlt), setIdx_eq _ hlt, ← hset]
  have hmem₁ : ∀ k w, k ≠ call.addr → ((k, w) ∈ m₁.database.entries ↔ (k, w) ∈ m.database.entries) := fun k w hne => by
    rw [SortedMap.mem_insert]
    simp [hne]
  obtain ⟨m', hrun, hdef, hsized', hmem'⟩ := changeRest_spec call.mask call.value (m := m₁) hn
    (suf.map Prod.fst) hsorted' (fun x hx => by
      rcases SortedMap.mem_insert.mp hx with rfl | ⟨hx, -⟩
      · simpa [written] using ⟨hsizedA, hsizedM⟩
      · exact hsplit.sized x hx) (fun k hk => by
      obtain ⟨⟨w, hw⟩, hlt⟩ := (hmemKeys k).mp hk
      exact ⟨w, (hmem₁ k w hlt.ne').mpr hw⟩)
  have hnoFirst : call.addr ∉ suf.map Prod.fst := fun hin => lt_irrefl _ (hlater _ hin)
  refine ⟨{ c with database := m' }, ?_, rfl, rfl, hdef.trans hsplit.default, hsized', fun other hother => ?_,
    fun k w hw num i => ?_, fun k w hw num i => ?_⟩
  · simp only [ChangePoint.perform, setContextChangePoint_eq, getRegionToChangePoint, hm, hkeys]
    rw [hup, ok_bind, hrun]
    rfl
  · have hkey : ∃ w, (other.addr, w) ∈ m₁.database.entries := by
      by_cases heq : other.addr = call.addr
      · exact ⟨_, SortedMap.mem_insert.mpr (.inl (by rw [heq]))⟩
      · rcases List.mem_append.mp hother with hother | hother
        · obtain ⟨w, hw⟩ := hsplit.keyed other hother
          exact ⟨w, (hmem₁ _ _ heq).mpr hw⟩
        · exact absurd (congrArg ChangePoint.addr (List.mem_singleton.mp hother)) heq
    obtain ⟨w, hw⟩ := hkey
    by_cases hcond : other.addr ∈ suf.map Prod.fst ∧
        ∀ k' ∈ suf.map Prod.fst, k' ≤ other.addr → ∀ w, (k', w) ∈ m₁.database.entries → Blank call.num call.mask w
    · exact ⟨_, (hmem' _ _).mpr ⟨w, hw, .inl ⟨hcond.1, hcond.2, rfl⟩⟩⟩
    · exact ⟨w, (hmem' _ _).mpr ⟨w, hw, .inr ⟨hcond, rfl⟩⟩⟩
  · obtain ⟨u, hu, hcases⟩ := (hmem' k w).mp hw
    have hmask : w.mask = u.mask := by
      rcases hcases with ⟨-, -, rfl⟩ | ⟨-, rfl⟩
      · rfl
      · rfl
    rw [hmask]
    by_cases hk : k = call.addr
    · subst hk
      rcases SortedMap.mem_insert.mp hu with he | ⟨-, hne⟩
      · cases he
        rw [written, getLsbD_modify_or (hsizedM ▸ hn), hsplit.marked _ _ hv₀]
        simp only [List.mem_append, List.mem_singleton, or_and_right, exists_or, exists_eq_left, true_and]
        rfl
      · exact absurd rfl hne
    · rw [hsplit.marked k u ((hmem₁ k u hk).mp hu)]
      simp only [List.mem_append, List.mem_singleton, or_and_right, exists_or, exists_eq_left]
      exact ⟨.inl, fun h => h.resolve_right fun hc => hk hc.1.symm⟩
  · obtain ⟨u, hu, hcases⟩ := (hmem' k w).mp hw
    rw [ChangePoint.bitAfter_append]
    by_cases hk : k = call.addr
    · subst hk
      have hwritten : w = written call.num call.mask call.value v := by
        rcases SortedMap.mem_insert.mp hu with he | ⟨-, hne⟩
        · rcases hcases with ⟨hin, -⟩ | ⟨-, rfl⟩
          · exact absurd hin hnoFirst
          · exact congrArg Prod.snd he
        · exact absurd rfl hne
      rw [hwritten, written, getLsbD_modify (hsizedA ▸ hn) hv, hsplit.value _ _ hv₀]
      exact if_congr ⟨fun hc => ⟨hc, le_refl _, fun _ _ _ hle => hle⟩, fun hc => hc.1⟩ rfl rfl
    · have hold := (hmem₁ k u hk).mp hu
      have hsized := hsplit.sized _ hold
      by_cases hsets : call.Sets num i
      · obtain ⟨rfl, hbit⟩ := hsets
        by_cases hlt : call.addr < k
        · have hin := (hmemKeys k).mpr ⟨⟨u, hold⟩, hlt⟩
          have hiff := hsplit.blank_iff hmasks hmemKeys hmem₁ (k := k) hbit
          rcases hcases with ⟨-, hblank, rfl⟩ | ⟨hno, rfl⟩
          · rw [flowed, getLsbD_modify (hsized.1 ▸ hn) hv, if_pos ⟨rfl, hbit⟩,
              if_pos ⟨⟨rfl, hbit⟩, hlt.le, hiff.mp hblank⟩]
          · rw [if_neg fun hc => hno ⟨hin, hiff.mpr hc.2.2⟩, hsplit.value _ _ hold]
        · have hnot : k ∉ suf.map Prod.fst := fun hin => hlt ((hmemKeys k).mp hin).2
          rcases hcases with ⟨hin, -⟩ | ⟨-, rfl⟩
          · exact absurd hin hnot
          · rw [if_neg fun hc => hlt (lt_of_le_of_ne hc.2.1 (Ne.symm hk)), hsplit.value _ _ hold]
      · rw [if_neg fun hc => hsets hc.1]
        rcases hcases with ⟨-, -, rfl⟩ | ⟨-, rfl⟩
        · rw [flowed, getLsbD_modify (hsized.1 ▸ hn) hv, if_neg (show ¬ (call.num = num ∧ _) from hsets),
            hsplit.value _ _ hold]
        · rw [hsplit.value _ _ hold]

/-- A change flows to the next explicit change of the same bits, whatever the order of the calls. -/
theorem changePoints_flow {c : ContextInternal} (hfresh : c.database.database = SortedMap.empty) (hc : c.Sized)
    {calls : List ChangePoint} (hn : ∀ call ∈ calls, call.num < c.size)
    (hv : ∀ call ∈ calls, call.value &&& call.mask = call.value)
    (hmasks : calls.Pairwise fun x y => x.num = y.num → x.mask = y.mask ∨ x.mask &&& y.mask = 0) :
    ∃ c', calls.foldlM ChangePoint.perform c = .ok c' ∧ c'.trackbase = c.trackbase ∧
      ∀ a num i, ((c'.getContext a).getD num 0).getLsbD i =
        ChangePoint.bitAfter ((c.getDefaultValue.getD num 0).getLsbD i) calls num i a := by
  suffices hrun : ∃ c', calls.foldlM ChangePoint.perform c = .ok c' ∧ c'.size = c.size ∧
      c'.trackbase = c.trackbase ∧ Follows calls c.size c.database.defaultvalue c'.database by
    obtain ⟨c', hok, -, htrack, hfollows⟩ := hrun
    exact ⟨c', hok, htrack, hfollows.getValue⟩
  induction calls using List.reverseRecOn with
  | nil =>
      have hempty : c.database.database.entries = [] := by
        rw [hfresh]
        rfl
      exact ⟨c, rfl, rfl, rfl, rfl, hc.entries, by simp, by simp [hempty], by simp [hempty]⟩
  | append_singleton calls call ih =>
      rw [List.pairwise_append] at hmasks
      obtain ⟨c₁, hok, hsize, htrack, hfollows⟩ := ih (fun call hcall => hn call (by simp [hcall]))
        (fun call hcall => hv call (by simp [hcall])) hmasks.1
      rw [← hsize] at hfollows
      obtain ⟨c', hok', hsize', htrack', hfollows'⟩ := perform_follows hfollows (hsize ▸ hc.default)
        (hsize ▸ hn call (by simp)) (hv call (by simp)) fun other hother => hmasks.2.2 other hother call (by simp)
      refine ⟨c', ?_, hsize'.trans hsize, htrack'.trans htrack, hsize ▸ hfollows'⟩
      rw [List.foldlM_append, hok, ok_bind]
      simp [hok']

def freshContext : ContextInternal where
  size := 1
  database := { database := SortedMap.empty, defaultvalue := { array := [0x5], mask := [0] } }
  trackbase := { database := SortedMap.empty, defaultvalue := [] }

def sampleChanges : List ChangePoint :=
  [⟨Addr.mk (1 : Int) 10, 0, 0xf0, 0x30⟩, ⟨Addr.mk (1 : Int) 5, 0, 0xf, 0x1⟩, ⟨Addr.mk (1 : Int) 4, 0, 0xf0, 0x40⟩]

theorem changePoints_flow_sample : ∃ c', sampleChanges.foldlM ChangePoint.perform freshContext = .ok c' ∧
    c'.trackbase = freshContext.trackbase ∧ ∀ a num i, ((c'.getContext a).getD num 0).getLsbD i =
      ChangePoint.bitAfter ((freshContext.getDefaultValue.getD num 0).getLsbD i) sampleChanges num i a :=
  changePoints_flow rfl ⟨⟨rfl, rfl⟩, fun x hx => absurd hx List.not_mem_nil⟩ (by decide) (by decide) (by decide)

end ChangePoints

/-- The value of a tracked location at a memory range inside of it. -/
def trackedBytes (bigEndian : Bool) (mem : VarnodeData) (tcont : TrackedContext) : BitVec 64 :=
  let endoff := ((mem.offset + mem.size) % 2 ^ 64 + (2 ^ 64 - 1)) % 2 ^ 64
  let tendoff := ((tcont.loc.offset + tcont.loc.size) % 2 ^ 64 + (2 ^ 64 - 1)) % 2 ^ 64
  let res :=
    if bigEndian then
      if endoff ≠ tendoff then tcont.val >>> (8 * ((tendoff + (2 ^ 64 - mem.offset)) % 2 ^ 64) % 64) else tcont.val
    else if mem.offset ≠ tcont.loc.offset then
      tcont.val >>> (8 * ((mem.offset + (2 ^ 64 - tcont.loc.offset)) % 2 ^ 64) % 64)
    else tcont.val
  res &&& BitVec.ofNat 64 (calcMask mem.size)

/-- The first tracked location that the range lies in decides. -/
def trackedValue (bigEndian : Int → Bool) (mem : VarnodeData) : TrackedSet → BitVec 64
  | [] => 0
  | tcont :: tset =>
      let endoff := ((mem.offset + mem.size) % 2 ^ 64 + (2 ^ 64 - 1)) % 2 ^ 64
      let tendoff := ((tcont.loc.offset + tcont.loc.size) % 2 ^ 64 + (2 ^ 64 - 1)) % 2 ^ 64
      if tcont.loc.space ≠ mem.space then trackedValue bigEndian mem tset
      else if tcont.loc.offset > mem.offset then trackedValue bigEndian mem tset
      else if tendoff < endoff then trackedValue bigEndian mem tset
      else trackedBytes (bigEndian tcont.loc.space) mem tcont

def getTrackedValue (bigEndian : Int → Bool) (c : ContextInternal) (mem : VarnodeData) (point : Addr) : BitVec 64 :=
  trackedValue bigEndian mem (c.getTrackedSet point)

end ContextInternal

namespace VarnodeData

/-- A range of one to eight bytes that does not go past the end of its space. -/
structure Small (mem : VarnodeData) : Prop where
  size_pos : 0 < mem.size
  size_le : mem.size ≤ 8
  fits : mem.offset + mem.size ≤ 2 ^ 64

def Inside (mem loc : VarnodeData) : Prop :=
  loc.space = mem.space ∧ loc.offset ≤ mem.offset ∧ mem.offset + mem.size ≤ loc.offset + loc.size

def Apart (x y : VarnodeData) : Prop := x.space = y.space → x.offset + x.size ≤ y.offset ∨ y.offset + y.size ≤ x.offset

/-- The byte at an address of the range when it holds a value. -/
def byteAt (bigEndian : Bool) (loc : VarnodeData) (val : BitVec 64) (addr : Nat) : BitVec 8 :=
  (val >>> (8 * (if bigEndian then loc.offset + loc.size - 1 - addr else addr - loc.offset))).setWidth 8

end VarnodeData

namespace ContextInternal

open VarnodeData

variable {bigEndian : Bool} {mem loc : VarnodeData} {val : BitVec 64}

theorem wrapped_end (h : mem.Small) : ((mem.offset + mem.size) % 2 ^ 64 + (2 ^ 64 - 1)) % 2 ^ 64 =
    mem.offset + mem.size - 1 := by
  have := h.size_pos
  have := h.fits
  omega

theorem getLsbD_calcMask {size : Nat} (h : size ≤ 8) (j : Nat) :
    (BitVec.ofNat 64 (calcMask size)).getLsbD j = decide (j < 8 * size) := by
  have hmask : calcMask size = 2 ^ (8 * size) - 1 := by
    rw [calcMask]
    split
    · rfl
    · have hsize : size = 8 := by omega
      rw [hsize]
  rw [BitVec.getLsbD_ofNat, hmask, Nat.testBit_two_pow_sub_one]
  by_cases hj : j < 8 * size
  · simp [hj, show j < 64 by omega]
  · simp [hj]

/-- How far the value is shifted: for a big-endian range that does not end with the location, by the bytes behind
its first one. -/
def skipped (bigEndian : Bool) (mem loc : VarnodeData) : Nat :=
  if bigEndian then
    if mem.offset + mem.size = loc.offset + loc.size then 0 else loc.offset + loc.size - 1 - mem.offset
  else mem.offset - loc.offset

theorem getLsbD_trackedBytes (hmem : mem.Small) (hloc : loc.Small) (hin : mem.Inside loc) (j : Nat) :
    (trackedBytes bigEndian mem ⟨loc, val⟩).getLsbD j =
      (decide (j < 8 * mem.size) && val.getLsbD (8 * skipped bigEndian mem loc + j)) := by
  have hres : trackedBytes bigEndian mem ⟨loc, val⟩ =
      val >>> (8 * skipped bigEndian mem loc) &&& BitVec.ofNat 64 (calcMask mem.size) := by
    obtain ⟨-, hstart, hend⟩ := hin
    have := hmem.size_pos
    have := hloc.size_le
    have := hloc.fits
    simp only [trackedBytes, wrapped_end hmem, wrapped_end hloc, skipped]
    congr 1
    cases bigEndian with
    | true =>
        simp only [if_true]
        by_cases hsame : mem.offset + mem.size = loc.offset + loc.size
        · rw [if_neg (by omega), if_pos hsame, Nat.mul_zero, BitVec.ushiftRight_zero]
        · rw [if_pos (by omega), if_neg hsame]
          congr 1
          omega
    | false =>
        simp only [Bool.false_eq_true, if_false]
        by_cases hsame : mem.offset = loc.offset
        · rw [if_neg (by omega), hsame, Nat.sub_self, Nat.mul_zero, BitVec.ushiftRight_zero]
        · rw [if_pos hsame]
          congr 1
          omega
  rw [hres, BitVec.getLsbD_and, BitVec.getLsbD_ushiftRight, getLsbD_calcMask hmem.size_le, Bool.and_comm]

/-- The value read has the bytes of the location at the addresses of the range. -/
def Reads (bigEndian : Bool) (mem loc : VarnodeData) (val : BitVec 64) : Prop :=
  ∀ k < mem.size, byteAt bigEndian mem (trackedBytes bigEndian mem ⟨loc, val⟩) (mem.offset + k) =
    byteAt bigEndian loc val (mem.offset + k)

/-- The bytes are right for little-endian spaces, at the end of the location and for a single byte. -/
theorem reads_iff (hmem : mem.Small) (hloc : loc.Small) (hin : mem.Inside loc) :
    (∀ val, Reads bigEndian mem loc val) ↔
      bigEndian = false ∨ mem.offset + mem.size = loc.offset + loc.size ∨ mem.size = 1 := by
  have hpos := hmem.size_pos
  have hle := hloc.size_le
  obtain ⟨hspace, hstart, hend⟩ := hin
  constructor
  · intro hall
    by_contra hbad
    push Not at hbad
    obtain ⟨hbig, hlast, hone⟩ := hbad
    have hbig := (Bool.not_eq_false _).mp hbig
    have hbyte := congrArg (fun b => BitVec.getLsbD b 0)
      (hall (1#64 <<< (8 * (loc.offset + loc.size - (mem.offset + mem.size)))) (mem.size - 1) (by omega))
    have hexpected : loc.offset + loc.size - 1 - (mem.offset + (mem.size - 1)) =
        loc.offset + loc.size - (mem.offset + mem.size) := by omega
    simp only [byteAt, hbig, if_true, BitVec.getLsbD_setWidth, BitVec.getLsbD_ushiftRight, Nat.add_zero,
      getLsbD_trackedBytes hmem hloc ⟨hspace, hstart, hend⟩, skipped, if_neg hlast, BitVec.getLsbD_shiftLeft,
      hexpected] at hbyte
    have hshift : 8 * (loc.offset + loc.size - (mem.offset + mem.size)) < 64 := by omega
    have hfar : 8 * (loc.offset + loc.size - 1 - mem.offset) + 8 * (mem.offset + mem.size - 1 - (mem.offset + (mem.size - 1)))
        - 8 * (loc.offset + loc.size - (mem.offset + mem.size)) ≠ 0 := by omega
    simp [hshift, hfar, BitVec.getLsbD_one] at hbyte
  · rintro hgood val k hk
    apply BitVec.eq_of_getLsbD_eq
    intro i hi
    simp only [byteAt, BitVec.getLsbD_setWidth, BitVec.getLsbD_ushiftRight,
      getLsbD_trackedBytes hmem hloc ⟨hspace, hstart, hend⟩, hi, decide_true, Bool.true_and, skipped]
    cases bigEndian with
    | false =>
        simp only [Bool.false_eq_true, if_false]
        rw [decide_eq_true (by omega), Bool.true_and]
        congr 1
        omega
    | true =>
        have hgood := hgood.resolve_left (by decide)
        simp only [if_true]
        rw [decide_eq_true (by omega), Bool.true_and]
        congr 1
        split <;> omega

theorem trackedValue_cons (big : Int → Bool) {t : TrackedContext} {ts : TrackedSet} (hmem : mem.Small)
    (ht : t.loc.Small) (hin : mem.Inside t.loc) :
    trackedValue big mem (t :: ts) = trackedBytes (big mem.space) mem t := by
  have hpos := ht.size_pos
  obtain ⟨hspace, hstart, hend⟩ := hin
  simp only [trackedValue, wrapped_end hmem, wrapped_end ht]
  rw [if_neg (not_not.mpr hspace), if_neg (by omega), if_neg (by omega), hspace]

theorem trackedValue_cons_of_not (big : Int → Bool) {t : TrackedContext} {ts : TrackedSet} (hmem : mem.Small)
    (ht : t.loc.Small) (hin : ¬ mem.Inside t.loc) : trackedValue big mem (t :: ts) = trackedValue big mem ts := by
  have hpos := ht.size_pos
  simp only [trackedValue, wrapped_end hmem, wrapped_end ht]
  by_cases hspace : t.loc.space = mem.space
  · rw [if_neg (not_not.mpr hspace)]
    by_cases hstart : t.loc.offset > mem.offset
    · rw [if_pos hstart]
    · have hend : ¬ mem.offset + mem.size ≤ t.loc.offset + t.loc.size := fun hend => hin ⟨hspace, by omega, hend⟩
      rw [if_neg hstart, if_pos (by omega)]
  · rw [if_pos hspace]

/-- A range inside a tracked location gets the value of that location, any other one zero. -/
theorem getTrackedValue_exact (big : Int → Bool) (c : ContextInternal) (point : Addr) (hmem : mem.Small)
    (hsmall : ∀ t ∈ c.getTrackedSet point, t.loc.Small)
    (happart : (c.getTrackedSet point).Pairwise fun x y => x.loc.Apart y.loc) :
    (∀ t ∈ c.getTrackedSet point, mem.Inside t.loc →
      c.getTrackedValue big mem point = trackedBytes (big mem.space) mem t ∧
      ((∀ val, Reads (big mem.space) mem t.loc val) ↔
        big mem.space = false ∨ mem.offset + mem.size = t.loc.offset + t.loc.size ∨ mem.size = 1)) ∧
    ((∀ t ∈ c.getTrackedSet point, ¬ mem.Inside t.loc) → c.getTrackedValue big mem point = 0) := by
  rw [getTrackedValue]
  generalize c.getTrackedSet point = tset at hsmall happart ⊢
  refine ⟨fun t ht hin => ⟨?_, reads_iff hmem (hsmall t ht) hin⟩, fun hnone => ?_⟩
  · induction tset with
    | nil => cases ht
    | cons x ts ih =>
        obtain ⟨hx, happart'⟩ := List.pairwise_cons.mp happart
        rcases List.mem_cons.mp ht with rfl | hts
        · exact trackedValue_cons big hmem (hsmall _ (by simp)) hin
        · have hout : ¬ mem.Inside x.loc := fun hin' => by
            have hboth := hx t hts (hin'.1.trans hin.1.symm)
            have := hin.2
            have := hin'.2
            have := hmem.size_pos
            omega
          rw [trackedValue_cons_of_not big hmem (hsmall x (by simp)) hout]
          exact ih (fun t ht => hsmall t (by simp [ht])) happart' hts
  · induction tset with
    | nil => rfl
    | cons x ts ih =>
        rw [trackedValue_cons_of_not big hmem (hsmall x (by simp)) (hnone x (by simp))]
        exact ih (fun t ht => hsmall t (by simp [ht])) (List.pairwise_cons.mp happart).2 fun t ht => hnone t (by simp [ht])

/-- The first two bytes of a big-endian register of four. -/
theorem getTrackedValue_exact_big :
    (∀ t ∈ trackedAt20.getTrackedSet (Addr.mk (1 : Int) 20), VarnodeData.Inside ⟨2, 8, 2⟩ t.loc →
      trackedAt20.getTrackedValue (fun _ => true) ⟨2, 8, 2⟩ (Addr.mk (1 : Int) 20) = trackedBytes true ⟨2, 8, 2⟩ t ∧
      ((∀ val, Reads true ⟨2, 8, 2⟩ t.loc val) ↔ true = false ∨ 8 + 2 = t.loc.offset + t.loc.size ∨ 2 = 1)) ∧
    ((∀ t ∈ trackedAt20.getTrackedSet (Addr.mk (1 : Int) 20), ¬ VarnodeData.Inside ⟨2, 8, 2⟩ t.loc) →
      trackedAt20.getTrackedValue (fun _ => true) ⟨2, 8, 2⟩ (Addr.mk (1 : Int) 20) = 0) := by
  have hset : trackedAt20.getTrackedSet (Addr.mk (1 : Int) 20) = [⟨⟨2, 8, 4⟩, 1⟩] := by decide
  have hsmall : VarnodeData.Small ⟨2, 8, 4⟩ := ⟨by decide, by decide, by decide⟩
  exact getTrackedValue_exact (fun _ => true) trackedAt20 (Addr.mk (1 : Int) 20)
    (show VarnodeData.Small ⟨2, 8, 2⟩ from ⟨by decide, by decide, by decide⟩)
    (by rw [hset]; simpa using hsmall) (by rw [hset]; simp)

end ContextInternal

end GhidraDecompiler.Context
