import GhidraDecompiler.Lib.Fallible
import GhidraDecompiler.Memory.MemoryBank
import Mathlib.Data.Finset.Card
import Mathlib.Data.Nat.ModEq

namespace GhidraDecompiler.Memory

open Pcode Fallible

/-- The address that marks an empty slot. -/
def emptySlot : Word := 0xBADBEEF

structure MemoryHashOverlay where
  alignshift : Nat
  collideskip : Nat
  address : List Word
  value : List Word
  deriving DecidableEq

namespace MemoryHashOverlay

/-- The number of shifts until nothing is left of a value of 32 bits. -/
def shifts : Nat → Nat → Nat
  | 0, _ => 0
  | fuel + 1, remaining => if remaining = 0 then 0 else shifts fuel (remaining / 2) + 1

def new (ws hashsize : Nat) : MemoryHashOverlay where
  alignshift := shifts 32 ((ws + (2 ^ 32 - 1)) % 2 ^ 32)
  collideskip := 1023
  address := List.replicate hashsize emptySlot
  value := List.replicate hashsize 0

def insertFrom (table : MemoryHashOverlay) (addr val : Word) : Nat → Nat → Outcome MemoryHashOverlay
  | 0, _ => .error (.lowlevel "Memory state hash_table is full")
  | steps + 1, offset => do
      let found ← getIdx table.address offset
      if found = addr then do
        let value ← setIdx table.value offset val
        pure { table with value := value }
      else if found = emptySlot then do
        let address ← setIdx table.address offset addr
        let value ← setIdx table.value offset val
        pure { table with address := address, value := value }
      else insertFrom table addr val steps ((offset + table.collideskip) % table.address.length)

/-- The remainder by the size of an empty table panics. -/
def insert (table : MemoryHashOverlay) (addr val : Word) : Outcome MemoryHashOverlay :=
  let size := table.address.length
  if size = 0 then .error .panic else insertFrom table addr val size ((addr >>> table.alignshift).toNat % size)

def lookupFrom (table : MemoryHashOverlay) (addr : Word) : Nat → Nat → Outcome (Option Word)
  | 0, _ => pure none
  | steps + 1, offset => do
      let found ← getIdx table.address offset
      if found = addr then do
        let val ← getIdx table.value offset
        pure (some val)
      else if found = emptySlot then pure none
      else lookupFrom table addr steps ((offset + table.collideskip) % table.address.length)

/-- The part of `find` in the table itself. -/
def lookup (table : MemoryHashOverlay) (addr : Word) : Outcome (Option Word) :=
  let size := table.address.length
  if size = 0 then .error .panic else lookupFrom table addr size ((addr >>> table.alignshift).toNat % size)

def find {σ : Type} (table : MemoryHashOverlay) (underlie : Option (MemoryBank σ Failure)) (s : σ) (addr : Word) :
    Outcome (Word × σ) := do
  match ← table.lookup addr with
  | some val => pure (val, s)
  | none =>
      match underlie with
      | none => pure (0, s)
      | some bank => bank.find s addr

section Probes

variable {table table' : MemoryHashOverlay} {addr other val found : Word} {steps offset o : Nat}

/-- The slots that a search may come to, one after the other. -/
def probes (table : MemoryHashOverlay) : Nat → Nat → List Nat
  | 0, _ => []
  | steps + 1, offset => offset :: probes table steps ((offset + table.collideskip) % table.address.length)

def path (table : MemoryHashOverlay) (addr : Word) : List Nat :=
  probes table table.address.length ((addr >>> table.alignshift).toNat % table.address.length)

/-- A search stops at a slot with the address, or at an empty one. -/
def Stops (table : MemoryHashOverlay) (addr : Word) (o : Nat) : Prop :=
  table.address[o]? = some addr ∨ table.address[o]? = some emptySlot

instance (table : MemoryHashOverlay) (addr : Word) (o : Nat) : Decidable (table.Stops addr o) :=
  inferInstanceAs (Decidable (_ ∨ _))

/-- The slot that an insertion or a search stops at. -/
def target (table : MemoryHashOverlay) (addr : Word) : Option Nat := (table.path addr).find? fun o => table.Stops addr o

/-- As many values as addresses, and each address is at the slot that a search for it stops at. -/
structure Findable (table : MemoryHashOverlay) : Prop where
  size_pos : 0 < table.address.length
  size_eq : table.value.length = table.address.length
  target_eq : ∀ o addr, addr ≠ emptySlot → table.address[o]? = some addr → table.target addr = some o

theorem insertFrom_eq (hsize : table.value.length = table.address.length) (hoffset : offset < table.address.length) :
    table.insertFrom addr val steps offset =
      match (table.probes steps offset).find? fun o => table.Stops addr o with
      | none => .error (.lowlevel "Memory state hash_table is full")
      | some o => .ok { table with address := table.address.set o addr, value := table.value.set o val } := by
  induction steps generalizing offset with
  | zero => rfl
  | succ steps ih =>
      obtain ⟨found, hfound⟩ : ∃ found, table.address[offset]? = some found := ⟨_, List.getElem?_eq_getElem hoffset⟩
      have hset : setIdx table.value offset val = .ok (table.value.set offset val) := setIdx_eq val (by omega)
      rw [insertFrom, getIdx_eq hfound, ok_bind, probes]
      by_cases haddr : found = addr
      · have hstay : table.address.set offset addr = table.address := by
          refine List.ext_getElem? fun i => ?_
          by_cases hi : offset = i
          · rw [← hi, List.getElem?_set_self hoffset, hfound, haddr]
          · rw [List.getElem?_set_ne hi]
        rw [List.find?_cons_of_pos (by simp [Stops, hfound, haddr]), if_pos haddr, hset]
        simp [hstay]
      · by_cases hempty : found = emptySlot
        · rw [List.find?_cons_of_pos (by simp [Stops, hfound, hempty]), if_neg haddr, if_pos hempty,
            setIdx_eq addr hoffset, hset]
          rfl
        · rw [List.find?_cons_of_neg (by simp [Stops, hfound, haddr, hempty]), if_neg haddr, if_neg hempty,
            ih (Nat.mod_lt _ (by omega))]

theorem lookupFrom_eq (hsize : table.value.length = table.address.length) (hoffset : offset < table.address.length) :
    table.lookupFrom addr steps offset =
      .ok (((table.probes steps offset).find? fun o => table.Stops addr o).bind fun o =>
        if table.address[o]? = some addr then table.value[o]? else none) := by
  induction steps generalizing offset with
  | zero => rfl
  | succ steps ih =>
      obtain ⟨found, hfound⟩ : ∃ found, table.address[offset]? = some found := ⟨_, List.getElem?_eq_getElem hoffset⟩
      obtain ⟨val, hval⟩ : ∃ val, table.value[offset]? = some val := ⟨_, List.getElem?_eq_getElem (by omega)⟩
      rw [lookupFrom, getIdx_eq hfound, ok_bind, probes]
      by_cases haddr : found = addr
      · rw [List.find?_cons_of_pos (by simp [Stops, hfound, haddr]), if_pos haddr, getIdx_eq hval]
        simp [hfound, haddr, hval]
      · by_cases hempty : found = emptySlot
        · rw [List.find?_cons_of_pos (by simp [Stops, hfound, hempty]), if_neg haddr, if_pos hempty]
          simp [hfound, haddr]
        · rw [List.find?_cons_of_neg (by simp [Stops, hfound, haddr, hempty]), if_neg haddr, if_neg hempty,
            ih (Nat.mod_lt _ (by omega))]

theorem Findable.insert_eq (h : Findable table) (addr val : Word) :
    table.insert addr val = match table.target addr with
      | none => .error (.lowlevel "Memory state hash_table is full")
      | some o => .ok { table with address := table.address.set o addr, value := table.value.set o val } := by
  rw [insert, if_neg (Nat.ne_of_gt h.size_pos), insertFrom_eq h.size_eq (Nat.mod_lt _ h.size_pos)]
  rfl

/-- What a search gives is what is stored, at whichever slot. -/
theorem Findable.lookup_iff (h : Findable table) (haddr : addr ≠ emptySlot) :
    ∃ result, table.lookup addr = .ok result ∧
      ∀ val, result = some val ↔ ∃ o : Nat, table.address[o]? = some addr ∧ table.value[o]? = some val := by
  rw [lookup, if_neg (Nat.ne_of_gt h.size_pos), lookupFrom_eq h.size_eq (Nat.mod_lt _ h.size_pos)]
  refine ⟨_, rfl, fun val => ?_⟩
  change (table.target addr).bind _ = some val ↔ _
  rw [Option.bind_eq_some_iff]
  constructor
  · rintro ⟨o, -, hval⟩
    split at hval
    · rename_i ho
      exact ⟨o, ho, hval⟩
    · cases hval
  · rintro ⟨o, ho, hval⟩
    exact ⟨o, h.target_eq o addr haddr ho, by rw [if_pos ho, hval]⟩

theorem mem_probes (hoffset : offset < table.address.length) (ho : o ∈ table.probes steps offset) :
    o < table.address.length := by
  induction steps generalizing offset with
  | zero => cases ho
  | succ steps ih =>
      obtain rfl | ho := List.mem_cons.mp ho
      · exact hoffset
      · exact ih (Nat.mod_lt _ (by omega)) ho

theorem Findable.target_spec (h : Findable table) (ho : table.target addr = some o) :
    o < table.address.length ∧ table.Stops addr o :=
  ⟨mem_probes (Nat.mod_lt _ h.size_pos) (List.mem_of_find?_eq_some ho), by simpa using List.find?_some ho⟩

theorem Findable.insert (h : Findable table) (haddr : addr ≠ emptySlot) (ho : table.target addr = some o) :
    Findable { table with address := table.address.set o addr, value := table.value.set o val } := by
  obtain ⟨hlt, hstops⟩ := h.target_spec ho
  refine ⟨by simpa using h.size_pos, by simpa using h.size_eq, fun i other hother hi => ?_⟩
  have hpath (b : Word) : path { table with address := table.address.set o addr, value := table.value.set o val } b =
    table.path b := by
    have hprobes (n k : Nat) : probes { table with address := table.address.set o addr, value := table.value.set o val } n k =
        table.probes n k := by
      induction n generalizing k with
      | zero => rfl
      | succ n ih => rw [probes, ih, probes, List.length_set]
    rw [path, hprobes, path, List.length_set]
  -- a slot where no search for the other address stops does not become one
  have hpass {j : Nat} (hj : ¬table.Stops other j) (hne : other = addr → j ≠ o) :
      ¬Stops { table with address := table.address.set o addr, value := table.value.set o val } other j := by
    rw [Stops, not_or] at hj ⊢
    by_cases hjo : o = j
    · subst hjo
      rw [List.getElem?_set_self hlt, Option.some.injEq, Option.some.injEq]
      exact ⟨fun he => hne he.symm rfl, haddr⟩
    · rwa [List.getElem?_set_ne hjo]
  have hlater (hi' : table.target other = some i) (hne : other = addr → i = o) :
      target { table with address := table.address.set o addr, value := table.value.set o val } other = some i := by
    obtain ⟨-, before, after, hsplit, hbefore⟩ := List.find?_eq_some_iff_append.mp hi'
    have hi'' : Stops { table with address := table.address.set o addr, value := table.value.set o val } other i := Or.inl hi
    rw [target, hpath, List.find?_eq_some_iff_append]
    refine ⟨decide_eq_true hi'', before, after, hsplit, fun j hj => ?_⟩
    have hjstop : ¬table.Stops other j := by simpa using hbefore j hj
    simp only [Bool.not_eq_true', decide_eq_false_iff_not]
    refine hpass hjstop fun he hjo => hjstop ?_
    rw [hjo, he]
    exact hstops
  by_cases hio : o = i
  · subst hio
    rw [List.getElem?_set_self hlt] at hi
    obtain rfl := Option.some.inj hi
    exact hlater ho fun _ => rfl
  · have hi' : table.address[i]? = some other := by rwa [List.getElem?_set_ne hio] at hi
    refine hlater (h.target_eq i other hother hi') fun he => ?_
    rw [← he, h.target_eq i other hother hi'] at ho
    exact Option.some.inj ho

/-- After an insertion the table stores the new value at the address, and elsewhere what it stored before. -/
theorem Findable.stored_insert (h : Findable table) (haddr : addr ≠ emptySlot) (ho : table.target addr = some o)
    (hother : other ≠ emptySlot) (found : Word) :
    (∃ i : Nat, (table.address.set o addr)[i]? = some other ∧ (table.value.set o val)[i]? = some found) ↔
      if other = addr then found = val else ∃ i : Nat, table.address[i]? = some other ∧ table.value[i]? = some found := by
  obtain ⟨hlt, hstops⟩ := h.target_spec ho
  have hvalue : o < table.value.length := h.size_eq ▸ hlt
  constructor
  · rintro ⟨i, hi, hval⟩
    by_cases hio : o = i
    · subst hio
      rw [List.getElem?_set_self hlt, Option.some.injEq] at hi
      rw [List.getElem?_set_self hvalue, Option.some.injEq] at hval
      rw [if_pos hi.symm, hval]
    · rw [List.getElem?_set_ne hio] at hi hval
      rw [if_neg]
      · exact ⟨i, hi, hval⟩
      · rintro rfl
        rw [h.target_eq i other hother hi, Option.some.injEq] at ho
        exact hio ho.symm
  · intro hstored
    by_cases he : other = addr
    · rw [if_pos he] at hstored
      exact ⟨o, by rw [List.getElem?_set_self hlt, he], by rw [List.getElem?_set_self hvalue, hstored]⟩
    · rw [if_neg he] at hstored
      obtain ⟨i, hi, hval⟩ := hstored
      have hio : o ≠ i := by
        rintro rfl
        obtain hs | hs := hstops
        · exact he (Option.some.inj (hi.symm.trans hs))
        · exact hother (Option.some.inj (hi.symm.trans hs))
      exact ⟨i, by rw [List.getElem?_set_ne hio, hi], by rw [List.getElem?_set_ne hio, hval]⟩

theorem findable_new (ws : Nat) {hashsize : Nat} (hsize : 1 ≤ hashsize) : Findable (new ws hashsize) := by
  refine ⟨by rwa [new, List.length_replicate], by simp [new], fun o addr haddr ho => absurd ?_ haddr⟩
  exact (List.eq_of_mem_replicate (List.mem_of_getElem? ho))

theorem probes_eq (hoffset : offset < table.address.length) :
    table.probes steps offset = (List.range steps).map fun k => (offset + k * table.collideskip) % table.address.length := by
  induction steps generalizing offset with
  | zero => rfl
  | succ steps ih =>
      rw [probes, ih (Nat.mod_lt _ (by omega)), List.range_succ_eq_map, List.map_cons, Nat.zero_mul, Nat.add_zero,
        Nat.mod_eq_of_lt hoffset, List.map_map]
      congr 1
      refine List.map_congr_left fun k _ => ?_
      rw [Function.comp, Nat.mod_add_mod, Nat.succ_mul, Nat.add_assoc, Nat.add_comm table.collideskip]

/-- With a stride coprime to the size of the table every slot is probed. -/
theorem mem_path (hcoprime : table.address.length.Coprime table.collideskip) (ho : o < table.address.length) (addr : Word) :
    o ∈ table.path addr := by
  have hpos : 0 < table.address.length := Nat.zero_lt_of_lt ho
  rw [path, probes_eq (Nat.mod_lt _ hpos), List.mem_map]
  generalize (addr >>> table.alignshift).toNat % table.address.length = offset
  let probe (k : Nat) : Nat := (offset + k * table.collideskip) % table.address.length
  have hinj : Set.InjOn probe (Finset.range table.address.length) := by
    intro i hi j hj he
    have hmul : i * table.collideskip ≡ j * table.collideskip [MOD table.address.length] := Nat.ModEq.add_left_cancel' offset he
    have hij := Nat.ModEq.cancel_right_of_coprime hcoprime hmul
    rwa [Nat.ModEq, Nat.mod_eq_of_lt (Finset.mem_range.mp hi), Nat.mod_eq_of_lt (Finset.mem_range.mp hj)] at hij
  have hsubset : (Finset.range table.address.length).image probe ⊆ Finset.range table.address.length :=
    Finset.image_subset_iff.mpr fun k _ => Finset.mem_range.mpr (Nat.mod_lt _ hpos)
  have himage := Finset.eq_of_subset_of_card_le hsubset (by rw [Finset.card_image_of_injOn hinj])
  obtain ⟨k, hk, hprobe⟩ := Finset.mem_image.mp (himage ▸ Finset.mem_range.mpr ho)
  exact ⟨k, List.mem_range.mpr (Finset.mem_range.mp hk), hprobe⟩

/-- Then an insertion fails only if every slot has an address of its own, another one. -/
theorem Findable.full (h : Findable table) (hcoprime : table.address.length.Coprime table.collideskip)
    (hnone : table.target addr = none) : table.address.Nodup ∧ ∀ b ∈ table.address, b ≠ addr ∧ b ≠ emptySlot := by
  have hslot {i : Nat} {b : Word} (hi : table.address[i]? = some b) : b ≠ addr ∧ b ≠ emptySlot := by
    have hlt := (List.getElem?_eq_some_iff.mp hi).1
    have hstop := List.find?_eq_none.mp hnone i (mem_path hcoprime hlt addr)
    rw [decide_eq_true_eq, Stops, hi, Option.some.injEq, Option.some.injEq, not_or] at hstop
    exact hstop
  constructor
  · rw [List.nodup_iff_getElem?_ne_getElem?]
    intro i j hij hj he
    have hjb := List.getElem?_eq_getElem hj
    have hti := h.target_eq i _ (hslot hjb).2 (he.trans hjb)
    rw [h.target_eq j _ (hslot hjb).2 hjb, Option.some.injEq] at hti
    omega
  · intro b hb
    obtain ⟨i, hi⟩ := List.mem_iff_getElem?.mp hb
    exact hslot hi

end Probes

/-- One insertion, which is recorded if it does not fail. -/
def insertOne (r : MemoryHashOverlay × (Word → Option Word)) (store : Word × Word) : MemoryHashOverlay × (Word → Option Word) :=
  match r.1.insert store.1 store.2 with
  | .ok table => (table, Function.update r.2 store.1 (some store.2))
  | .error _ => r

/-- The table after some insertions, with the values of the ones that did not fail. -/
def insertAll (table : MemoryHashOverlay) (stores : List (Word × Word)) : MemoryHashOverlay × (Word → Option Word) :=
  stores.foldl insertOne (table, fun _ => none)

/-- The table stores the recorded values, and no others. -/
structure Records (hashsize : Nat) (r : MemoryHashOverlay × (Word → Option Word)) : Prop where
  findable : Findable r.1
  size : r.1.address.length = hashsize
  collideskip : r.1.collideskip = 1023
  stored : ∀ addr, addr ≠ emptySlot → ∀ val,
    r.2 addr = some val ↔ ∃ i : Nat, r.1.address[i]? = some addr ∧ r.1.value[i]? = some val

theorem records_new (ws : Nat) {hashsize : Nat} (hsize : 1 ≤ hashsize) : Records hashsize (new ws hashsize, fun _ => none) := by
  refine ⟨findable_new ws hsize, List.length_replicate, rfl, fun addr haddr val => ?_⟩
  refine ⟨fun h => (nomatch h), fun ⟨i, hi, _⟩ => absurd ?_ haddr⟩
  exact List.eq_of_mem_replicate (List.mem_of_getElem? hi)

theorem Records.insertOne {hashsize : Nat} {r : MemoryHashOverlay × (Word → Option Word)} {store : Word × Word}
    (h : Records hashsize r) (hstore : store.1 ≠ emptySlot) : Records hashsize (insertOne r store) := by
  rw [MemoryHashOverlay.insertOne, h.findable.insert_eq]
  cases ho : r.1.target store.1 with
  | none => exact h
  | some o =>
      refine ⟨h.findable.insert hstore ho, List.length_set.trans h.size, h.collideskip, fun addr haddr val => ?_⟩
      rw [h.findable.stored_insert hstore ho haddr, ← h.stored addr haddr]
      change Function.update r.2 store.1 (some store.2) addr = some val ↔ _
      rw [Function.update_apply]
      split
      · rw [Option.some.injEq, eq_comm]
      · rfl

theorem Records.insertAll {hashsize : Nat} {r : MemoryHashOverlay × (Word → Option Word)} (stores : List (Word × Word))
    (h : Records hashsize r) (hstores : ∀ store ∈ stores, store.1 ≠ emptySlot) :
    Records hashsize (stores.foldl MemoryHashOverlay.insertOne r) := by
  induction stores generalizing r with
  | nil => exact h
  | cons store stores ih =>
      obtain ⟨hstore, hstores⟩ := List.forall_mem_cons.mp hstores
      exact ih (h.insertOne hstore) hstores

/-- After any insertions a search gives the last value that went into the table at the address, or what lies under it. An
insertion fails only for an address that the table does not have; if the stride is coprime to the size of the table, it
fails only when as many others are recorded as the table has slots. -/
theorem find_insertAll {σ : Type} (underlie : Option (MemoryBank σ Failure)) (words : σ → Word → Word)
    (hunderlie : ∀ bank ∈ underlie, ∀ s addr, ∃ s', bank.find s addr = .ok (words s addr, s') ∧ words s' = words s)
    (ws hashsize : Nat) (hsize : 1 ≤ hashsize) (stores : List (Word × Word))
    (hstores : ∀ store ∈ stores, store.1 ≠ emptySlot) (addr : Word) (haddr : addr ≠ emptySlot) (s : σ) (val : Word) :
    let r := insertAll (new ws hashsize) stores
    (∃ s', r.1.find underlie s addr = .ok ((r.2 addr).getD (if underlie.isSome then words s addr else 0), s') ∧
      words s' = words s) ∧
    ((∃ table, r.1.insert addr val = .ok table) ∨
      r.1.insert addr val = .error (.lowlevel "Memory state hash_table is full") ∧ r.2 addr = none ∧
      (hashsize.Coprime 1023 → ∃ recorded : List Word, recorded.Nodup ∧ recorded.length = hashsize ∧ addr ∉ recorded ∧
        ∀ other ∈ recorded, (r.2 other).isSome)) := by
  intro r
  have h : Records hashsize r := (records_new ws hsize).insertAll stores hstores
  constructor
  · obtain ⟨result, hlookup, hresult⟩ := h.findable.lookup_iff haddr
    have hrecorded : r.2 addr = result := Option.ext fun val => by rw [h.stored addr haddr, hresult]
    simp only [find, hlookup, ok_bind, hrecorded]
    cases result with
    | some val => exact ⟨s, rfl, rfl⟩
    | none =>
        cases underlie with
        | none => exact ⟨s, rfl, rfl⟩
        | some bank => exact hunderlie bank rfl s addr
  · rw [h.findable.insert_eq]
    cases ho : r.1.target addr with
    | some o => exact Or.inl ⟨_, rfl⟩
    | none =>
        refine Or.inr ⟨rfl, ?_, fun hcoprime => ?_⟩
        · rw [Option.eq_none_iff_forall_ne_some]
          intro val hval
          obtain ⟨i, hi, -⟩ := (h.stored addr haddr val).mp hval
          rw [h.findable.target_eq i addr haddr hi] at ho
          cases ho
        · obtain ⟨hnodup, hothers⟩ := h.findable.full (by rwa [h.size, h.collideskip]) ho
          refine ⟨r.1.address, hnodup, h.size, fun hmem => (hothers addr hmem).1 rfl, fun other hother => ?_⟩
          obtain ⟨i, hi⟩ := List.mem_iff_getElem?.mp hother
          have hlt : i < r.1.value.length := by
            rw [h.findable.size_eq]
            exact (List.getElem?_eq_some_iff.mp hi).1
          exact Option.isSome_iff_exists.mpr
            ⟨_, (h.stored other (hothers other hother).2 _).mpr ⟨i, hi, List.getElem?_eq_getElem hlt⟩⟩

/-- A bank that cannot be written, with its own address at every word. -/
def addressBank : MemoryBank Unit Failure := ⟨4, false, fun _ _ _ => .error .panic, fun s addr => .ok (addr, s)⟩

theorem find_insertAll_twice :
    (∃ s', (insertAll (new 4 2) [(0x10, 1), (0x20, 2), (0x10, 3), (0x30, 4)]).1.find (some addressBank) () 0x10 = .ok (3, s')) ∧
      ∃ s', (insertAll (new 4 2) [(0x10, 1), (0x20, 2), (0x10, 3), (0x30, 4)]).1.find (some addressBank) () 0x30 =
        .ok (0x30, s') := by
  have hunderlie : ∀ bank ∈ some addressBank, ∀ (s : Unit) (addr : Word),
      ∃ s', bank.find s addr = .ok (addr, s') ∧ (fun (_ : Unit) (a : Word) => a) s' = fun a => a := by
    rintro bank ⟨⟩ s addr
    exact ⟨s, rfl, rfl⟩
  have hstores : ∀ store ∈ [((0x10 : Word), (1 : Word)), (0x20, 2), (0x10, 3), (0x30, 4)], store.1 ≠ emptySlot := by
    simp [emptySlot]
  constructor
  · obtain ⟨⟨s', hrun, -⟩, -⟩ := find_insertAll (some addressBank) (fun _ a => a) hunderlie 4 2 (by decide) _ hstores 0x10
      (by decide) () 0
    exact ⟨s', hrun⟩
  · obtain ⟨⟨s', hrun, -⟩, -⟩ := find_insertAll (some addressBank) (fun _ a => a) hunderlie 4 2 (by decide) _ hstores 0x30
      (by decide) () 0
    exact ⟨s', hrun⟩

end MemoryHashOverlay

end GhidraDecompiler.Memory
