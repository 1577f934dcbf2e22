import GhidraDecompiler.Lib.SortedMap
import Mathlib.Algebra.Group.Nat.Defs

namespace GhidraDecompiler

/-- The entries that were read ahead, with the state of the map and the key they were read for. -/
structure Prefetch (K V : Type) where
  version : Nat
  start : Option K
  entries : List (K × V)
  complete : Bool
  length : Nat

structure OrderedIndex (K V : Type) [LinearOrder K] where
  map : SortedMap K V
  version : Nat
  prefetch : Prefetch K V

namespace OrderedIndex

def minimumPrefetchLength : Nat := 2
def maximumPrefetchLength : Nat := 16

variable {K V : Type} [LinearOrder K]

def default : OrderedIndex K V where
  map := .empty
  version := 0
  prefetch := ⟨2 ^ 64 - 1, none, [], false, minimumPrefetchLength⟩

def wrappingSucc (version : Nat) : Nat := (version + 1) % 2 ^ 64

def insert (index : OrderedIndex K V) (key : K) (value : V) : OrderedIndex K V :=
  { index with version := wrappingSucc index.version, map := index.map.insert key value }

def remove (index : OrderedIndex K V) (key : K) : OrderedIndex K V :=
  { index with version := wrappingSucc index.version, map := index.map.remove key }

def clear (index : OrderedIndex K V) : OrderedIndex K V :=
  { index with version := wrappingSucc index.version, map := .empty }

/-- The answer that the entries at hand give, if they are enough for one. -/
def bufferedAnswer (prefetch : Prefetch K V) : Option (Option (K × V × Option K)) :=
  match prefetch.entries[0]?, prefetch.entries[1]? with
  | some current, some next => some (some (current.1, current.2, some next.1))
  | some current, none => if prefetch.complete then some (some (current.1, current.2, none)) else none
  | none, _ => if prefetch.complete then some none else none

def reusable (index : OrderedIndex K V) (key : K) : Bool :=
  index.prefetch.version = index.version && index.prefetch.start.any fun start => decide (start ≤ key)

/-- The entries before the key are dropped from the front. -/
def advance (prefetch : Prefetch K V) (key : K) : Prefetch K V :=
  { prefetch with entries := prefetch.entries.dropWhile fun x => x.1 < key, start := some key }

def refill (index : OrderedIndex K V) (key : K) (length : Nat) : Prefetch K V :=
  let entries := (index.map.atLeast key).take length
  ⟨index.version, some key, entries, decide (entries.length < length), length⟩

def fetch (index : OrderedIndex K V) (key : K) (length : Nat) : Option (K × V × Option K) × OrderedIndex K V :=
  let prefetch := index.refill key length
  ((bufferedAnswer prefetch).getD none, { index with prefetch := prefetch })

def entryFrom (index : OrderedIndex K V) (key : K) : Option (K × V × Option K) × OrderedIndex K V :=
  if index.reusable key then
    let prefetch := advance index.prefetch key
    match bufferedAnswer prefetch with
    | some answer => (answer, { index with prefetch := prefetch })
    | none => index.fetch key (min (prefetch.length * 2) maximumPrefetchLength)
  else index.fetch key minimumPrefetchLength

/-- The first entry at a key or after it, with the key of the entry that follows. -/
def firstFrom (m : SortedMap K V) (key : K) : Option (K × V × Option K) :=
  match m.atLeast key with
  | [] => none
  | [current] => some (current.1, current.2, none)
  | current :: next :: _ => some (current.1, current.2, some next.1)

inductive Operation (K V : Type)
  | insert (key : K) (value : V)
  | remove (key : K)
  | clear
  | entryFrom (key : K)

def Operation.mutates : Operation K V → Bool
  | .entryFrom _ => false
  | _ => true

def perform (index : OrderedIndex K V) : Operation K V → OrderedIndex K V
  | .insert key value => index.insert key value
  | .remove key => index.remove key
  | .clear => index.clear
  | .entryFrom key => (index.entryFrom key).2

/-- What an operation does to the map alone. -/
def Operation.onMap (m : SortedMap K V) : Operation K V → SortedMap K V
  | .insert key value => m.insert key value
  | .remove key => m.remove key
  | .clear => .empty
  | .entryFrom _ => m

def run (operations : List (Operation K V)) : OrderedIndex K V := operations.foldl perform default

/-- After so many mutations, the entries at hand are of an older state of the map, or they are the first ones from their
key on, and all of them when they are marked complete. -/
structure Fresh (mutations : Nat) (index : OrderedIndex K V) : Prop where
  version : index.version = mutations
  stale : index.prefetch.start = none ∨ index.prefetch.version ≤ mutations
  length : 2 ≤ index.prefetch.length
  entries : index.prefetch.version = index.version → ∀ start ∈ index.prefetch.start,
    index.prefetch.entries <+: index.map.atLeast start
  complete : index.prefetch.version = index.version → index.prefetch.complete = true →
    ∀ start ∈ index.prefetch.start, index.prefetch.entries = index.map.atLeast start

variable {index : OrderedIndex K V} {mutations : Nat} {m : SortedMap K V} {key start : K}

/-- The entries from a later key on are what is left when the earlier ones are dropped. -/
theorem atLeast_dropWhile (m : SortedMap K V) (h : start ≤ key) :
    m.atLeast key = (m.atLeast start).dropWhile fun x => x.1 < key := by
  have hsorted : (m.atLeast start).Pairwise fun x y => x.1 < y.1 := m.sorted.filter _
  have hfilter : m.atLeast key = (m.atLeast start).filter fun x => key ≤ x.1 := by
    rw [SortedMap.atLeast, SortedMap.atLeast, List.filter_filter]
    refine List.filter_congr fun x _ => ?_
    by_cases hx : key ≤ x.1
    · simp [hx, h.trans hx]
    · simp [hx]
  rw [hfilter]
  clear hfilter
  generalize m.atLeast start = entries at hsorted ⊢
  induction entries with
  | nil => rfl
  | cons x l ih =>
      obtain ⟨hx, hl⟩ := List.pairwise_cons.mp hsorted
      by_cases hlt : x.1 < key
      · rw [List.filter_cons_of_neg (by simpa using hlt), List.dropWhile_cons_of_pos (by simpa using hlt), ih hl]
      · rw [List.dropWhile_cons_of_neg (by simpa using hlt), List.filter_cons_of_pos (by simpa using hlt)]
        congr 1
        refine List.filter_eq_self.mpr fun y hy => ?_
        simpa using (not_lt.mp hlt).trans (hx y hy).le

theorem dropWhile_isPrefix {α : Type} {p : α → Bool} {l l' : List α} (h : l <+: l') :
    l.dropWhile p <+: l'.dropWhile p := by
  obtain ⟨t, rfl⟩ := h
  rw [List.dropWhile_append]
  split
  · rename_i hempty
    rw [List.isEmpty_iff.mp hempty]
    exact List.nil_prefix
  · exact List.prefix_append _ _

/-- An answer from the first entries is the one that the map gives. -/
theorem bufferedAnswer_eq {prefetch : Prefetch K V} (h : prefetch.entries <+: m.atLeast key)
    (hcomplete : prefetch.complete = true → prefetch.entries = m.atLeast key) {answer : Option (K × V × Option K)}
    (hanswer : bufferedAnswer prefetch = some answer) : answer = firstFrom m key := by
  obtain ⟨rest, hrest⟩ := h
  rw [firstFrom, ← hrest]
  cases hentries : prefetch.entries with
  | nil =>
      rw [bufferedAnswer, hentries] at hanswer
      cases hall : prefetch.complete with
      | false => simp [hall] at hanswer
      | true =>
          have hnone := hcomplete hall
          rw [← hrest, List.self_eq_append_right] at hnone
          simp [hall] at hanswer
          rw [hnone, ← hanswer]
          rfl
  | cons current l =>
      rw [bufferedAnswer, hentries] at hanswer
      cases l with
      | nil =>
          cases hall : prefetch.complete with
          | false => simp [hall] at hanswer
          | true =>
              have hnone := hcomplete hall
              rw [← hrest, List.self_eq_append_right] at hnone
              simp [hall] at hanswer
              rw [hnone, ← hanswer]
              rfl
      | cons next l =>
          simp at hanswer
          rw [← hanswer]
          rfl

theorem fresh_default : Fresh 0 (default : OrderedIndex K V) :=
  ⟨rfl, .inl rfl, le_rfl, fun _ _ h => (nomatch h), fun _ _ _ h => (nomatch h)⟩

/-- A mutation makes the entries at hand stale. -/
theorem Fresh.mutate (h : Fresh mutations index) (hfew : mutations + 1 < 2 ^ 64) (m : SortedMap K V) :
    Fresh (mutations + 1) { index with version := wrappingSucc index.version, map := m } := by
  have hversion : wrappingSucc index.version = mutations + 1 := by
    rw [wrappingSucc, h.version, Nat.mod_eq_of_lt hfew]
  have hstale (heq : index.prefetch.version = wrappingSucc index.version) (start : K)
      (hstart : start ∈ index.prefetch.start) : False := by
    rcases h.stale with hnone | hle
    · rw [hnone] at hstart
      cases hstart
    · omega
  exact ⟨hversion, h.stale.imp_right (Nat.le_succ_of_le), h.length, fun heq start hstart => (hstale heq start hstart).elim,
    fun heq _ start hstart => (hstale heq start hstart).elim⟩

theorem fetch_spec (h : Fresh mutations index) (key : K) {length : Nat} (hlength : 2 ≤ length) :
    (index.fetch key length).1 = firstFrom index.map key ∧ Fresh mutations (index.fetch key length).2 := by
  have hprefix : (index.refill key length).entries <+: index.map.atLeast key := List.take_prefix _ _
  have hcomplete : (index.refill key length).complete = true → (index.refill key length).entries = index.map.atLeast key := by
    intro hall
    have hlt := of_decide_eq_true hall
    rw [List.length_take] at hlt
    exact List.take_of_length_le (by omega)
  constructor
  · have hsome : ∃ answer, bufferedAnswer (index.refill key length) = some answer := by
      cases hall : (index.refill key length).complete with
      | true =>
          rw [bufferedAnswer, hall]
          split <;> exact ⟨_, rfl⟩
      | false =>
          have hlen : ¬ (index.refill key length).entries.length < length := of_decide_eq_false hall
          rw [bufferedAnswer, List.getElem?_eq_getElem (by omega), List.getElem?_eq_getElem (by omega)]
          exact ⟨_, rfl⟩
    obtain ⟨answer, hanswer⟩ := hsome
    rw [fetch, hanswer]
    exact bufferedAnswer_eq hprefix hcomplete hanswer
  · exact ⟨h.version, .inr h.version.le, hlength, fun _ start hstart => Option.some.inj hstart ▸ hprefix,
      fun _ hall start hstart => Option.some.inj hstart ▸ hcomplete hall⟩

/-- A question is answered from the map, whether the entries at hand are used or not. -/
theorem entryFrom_spec (h : Fresh mutations index) (key : K) :
    (index.entryFrom key).1 = firstFrom index.map key ∧ Fresh mutations (index.entryFrom key).2 := by
  rw [entryFrom]
  split
  · rename_i hreusable
    rw [reusable, Bool.and_eq_true, decide_eq_true_eq, Option.any_eq_true] at hreusable
    obtain ⟨hsame, start, hstart, hle⟩ := hreusable
    have hle : start ≤ key := of_decide_eq_true hle
    have hprefix : (advance index.prefetch key).entries <+: index.map.atLeast key := by
      rw [atLeast_dropWhile index.map hle]
      exact dropWhile_isPrefix (h.entries hsame start hstart)
    have hcomplete : (advance index.prefetch key).complete = true →
        (advance index.prefetch key).entries = index.map.atLeast key := by
      intro hall
      rw [atLeast_dropWhile index.map hle, ← h.complete hsame hall start hstart]
      rfl
    dsimp only
    split
    · rename_i answer hanswer
      refine ⟨bufferedAnswer_eq hprefix hcomplete hanswer, h.version, .inr ?_, h.length, ?_, ?_⟩
      · exact (hsame.trans h.version).le
      · exact fun _ start hstart => Option.some.inj hstart ▸ hprefix
      · exact fun _ hall start hstart => Option.some.inj hstart ▸ hcomplete hall
    · refine fetch_spec h key (le_min ?_ (by decide))
      have := h.length
      show 2 ≤ index.prefetch.length * 2
      omega
  · exact fetch_spec h key le_rfl

theorem entryFrom_map (index : OrderedIndex K V) (key : K) : (index.entryFrom key).2.map = index.map := by
  rw [entryFrom]
  split
  · dsimp only
    split <;> rfl
  · rfl

/-- One operation, on the map and on what was read ahead. -/
theorem perform_spec (h : Fresh mutations index) (operation : Operation K V)
    (hfew : operation.mutates = true → mutations + 1 < 2 ^ 64) :
    (index.perform operation).map = operation.onMap index.map ∧
      Fresh (if operation.mutates then mutations + 1 else mutations) (index.perform operation) := by
  cases operation with
  | insert key value => exact ⟨rfl, h.mutate (hfew rfl) _⟩
  | remove key => exact ⟨rfl, h.mutate (hfew rfl) _⟩
  | clear => exact ⟨rfl, h.mutate (hfew rfl) _⟩
  | entryFrom key => exact ⟨entryFrom_map index key, (entryFrom_spec h key).2⟩

theorem run_spec (operations : List (Operation K V)) (h : Fresh mutations index)
    (hfew : mutations + operations.countP Operation.mutates < 2 ^ 64) :
    (operations.foldl perform index).map = operations.foldl Operation.onMap index.map ∧
      Fresh (mutations + operations.countP Operation.mutates) (operations.foldl perform index) := by
  induction operations generalizing mutations index with
  | nil => exact ⟨rfl, h⟩
  | cons operation operations ih =>
      rw [List.countP_cons] at hfew
      obtain ⟨hmap, hfresh⟩ := perform_spec h operation fun hmutates => by rw [if_pos hmutates] at hfew; omega
      have hsum : (if operation.mutates then mutations + 1 else mutations) + operations.countP Operation.mutates =
          mutations + (operation :: operations).countP Operation.mutates := by
        rw [List.countP_cons]
        split <;> omega
      obtain ⟨hmaps, hruns⟩ := ih hfresh (by rw [hsum, List.countP_cons]; exact hfew)
      exact ⟨by rw [List.foldl_cons, hmaps, hmap, List.foldl_cons], hsum ▸ hruns⟩

/-- Between any mutations a question is answered as the plain map would answer it. -/
theorem entryFrom_exact (operations : List (Operation K V)) (hfew : operations.countP Operation.mutates < 2 ^ 64 - 1)
    (key : K) : ((run operations).entryFrom key).1 = firstFrom (operations.foldl Operation.onMap .empty) key := by
  obtain ⟨hmap, hfresh⟩ := run_spec operations fresh_default (by omega)
  rw [run, (entryFrom_spec hfresh key).1, hmap]
  rfl

theorem entryFrom_exact_reused : ((run [.insert 3 'a', .insert 5 'b', .entryFrom 1]).entryFrom 4).1 =
    firstFrom ([.insert 3 'a', .insert 5 'b', .entryFrom 1].foldl Operation.onMap .empty) 4 :=
  entryFrom_exact [.insert 3 'a', .insert 5 'b', .entryFrom 1] (by decide) 4

end OrderedIndex

end GhidraDecompiler
