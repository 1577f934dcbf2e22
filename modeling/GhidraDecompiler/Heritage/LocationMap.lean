import GhidraDecompiler.Address
import GhidraDecompiler.Lib.SortedMap
import Mathlib.Data.Set.Lattice
import Mathlib.Order.CompletePartialOrder

namespace GhidraDecompiler.Heritage

structure SizePass where
  size : Int
  pass : Int
  deriving DecidableEq

abbrev LocationMap := SortedMap Address.Key (Address × SizePass)

namespace LocationMap

def new : LocationMap := SortedMap.empty

abbrev Entry := Address.Key × Address × SizePass

/-- The range that `add` is about to store, with the code it reports and the
keys of the ranges that it has taken in. -/
structure Growing where
  addr : Address
  size : Int
  pass : Int
  intersect : Int
  mergedKeys : List Address.Key

structure Added where
  map : LocationMap
  start : Address
  intersect : Int

/-- The entry at which `add` begins to look: the one before the new address or,
when there is none, the first one. -/
def firstKey (m : LocationMap) (addr : Address) : Option Address.Key :=
  match (m.below addr.orderingKey).getLast? with
  | some e => some e.1
  | none => m.entries.head?.map Prod.fst

/-- The first entry is passed over when the new address lies outside of it. -/
def skipFirst (addr : Address) : List Entry → List Entry
  | [] => []
  | e :: entries => if addr.overlap 0 e.2.1 e.2.2.size = -1 then entries else e :: entries

/-- The loop over the following entries. -/
def absorb : List Entry → Growing → Growing
  | [], g => g
  | (key, start, entry) :: entries, g =>
      let position := start.overlap 0 g.addr g.size
      if position = -1 then g
      else absorb entries {
        addr := g.addr
        size := if g.size < asI32 (position + entry.size) then asI32 (position + entry.size) else g.size
        pass := if entry.pass < g.pass then entry.pass else g.pass
        intersect := if entry.pass < g.pass then 1 else g.intersect
        mergedKeys := g.mergedKeys ++ [key] }

def store (m : LocationMap) (g : Growing) : Added :=
  ⟨(g.mergedKeys.foldl SortedMap.remove m).insert g.addr.orderingKey (g.addr, ⟨g.size, g.pass⟩), g.addr, g.intersect⟩

/-- The part of `add` that starts at the chosen entries. -/
def enter (m : LocationMap) (addr : Address) (size pass : Int) : List Entry → Added
  | [] => store m ⟨addr, size, pass, 0, []⟩
  | (key, start, entry) :: entries =>
      let position := addr.overlap 0 start entry.size
      if position ≠ -1 then
        if asI32 (position + size) ≤ entry.size then ⟨m, start, if entry.pass < pass then 2 else 0⟩
        else store m (absorb entries {
          addr := start
          size := asI32 (size + position)
          pass := if entry.pass < pass then entry.pass else pass
          intersect := if entry.pass < pass then 1 else 0
          mergedKeys := [key] })
      else store m (absorb ((key, start, entry) :: entries) ⟨addr, size, pass, 0, []⟩)

def add (m : LocationMap) (addr : Address) (size pass : Int) : Added :=
  match m.firstKey addr with
  | none => store m ⟨addr, size, pass, 0, []⟩
  | some key => enter m addr size pass (skipFirst addr (m.atLeast key))

def find (m : LocationMap) (addr : Address) : Option Address := do
  let e ← (m.upTo addr.orderingKey).getLast?
  if addr.overlap 0 e.2.1 e.2.2.size ≠ -1 then some e.2.1 else none

def findPass (m : LocationMap) (addr : Address) : Int :=
  match (m.upTo addr.orderingKey).getLast? with
  | none => -1
  | some e => if addr.overlap 0 e.2.1 e.2.2.size ≠ -1 then e.2.2.pass else -1

/-- The first and the last offset of a stored range, and the offsets in it. -/
def lo (e : Entry) : Int := e.2.1.offset

def hi (e : Entry) : Int := e.2.1.offset + e.2.2.size

def range (e : Entry) : Set Nat := {x | lo e ≤ x ∧ (x : Int) < hi e}

/-- A stored range of the space: within its bounds and under its own key. -/
structure Stored (spc : AddrSpace) (e : Entry) : Prop where
  key : e.1 = e.2.1.orderingKey
  space : e.2.1.space = spc
  pos : 1 ≤ e.2.2.size
  size_lt : e.2.2.size < 2 ^ 31
  hi_le : hi e ≤ spc.highest + 1

/-- The invariant: stored ranges of one space, in order and disjoint. -/
structure Cover (spc : AddrSpace) (l : List Entry) : Prop where
  stored : ∀ e ∈ l, Stored spc e
  disjoint : ∀ e ∈ l, ∀ e' ∈ l, lo e < lo e' → hi e ≤ lo e'
  sorted : l.Pairwise fun x y => x.1 < y.1

theorem Cover.tail {spc : AddrSpace} {e : Entry} {l : List Entry} (h : Cover spc (e :: l)) : Cover spc l :=
  ⟨fun x hx => h.stored x (by simp [hx]), fun x hx y hy => h.disjoint x (by simp [hx]) y (by simp [hy]),
    (List.pairwise_cons.mp h.sorted).2⟩

theorem Stored.key_lt {spc : AddrSpace} {e e' : Entry} (h : Stored spc e) (h' : Stored spc e') :
    e.1 < e'.1 ↔ lo e < lo e' := by
  rw [h.key, h'.key, Address.key_lt (h.space.trans h'.space.symm), lo, lo, Int.ofNat_lt]

theorem Cover.hi_le_of_cons {spc : AddrSpace} {e x : Entry} {l : List Entry} (h : Cover spc (e :: l))
    (hx : x ∈ l) : hi e ≤ lo x := by
  have hlt := (List.pairwise_cons.mp h.sorted).1 x hx
  rw [(h.stored e (by simp)).key_lt (h.stored x (by simp [hx]))] at hlt
  exact h.disjoint e (by simp) x (by simp [hx]) hlt

theorem Stored.overlap_left {spc : AddrSpace} (hspc : spc.spaceType ≠ .constant) {e : Entry} (h : Stored spc e)
    {a : Address} (hspace : a.space = spc) (ha : a.offset ≤ spc.highest) :
    a.overlap 0 e.2.1 e.2.2.size = if lo e ≤ a.offset ∧ a.offset < hi e then a.offset - lo e else -1 := by
  obtain ⟨_, ⟨_, b⟩, size, _⟩ := e
  obtain ⟨_, a⟩ := a
  obtain ⟨-, rfl, hpos, hlt, hhi⟩ := h
  subst hspace
  simp only [lo, hi] at *
  rw [Address.overlap_eq hspc ha hpos hlt hhi]
  simp

/-- What the loop returns: it takes in the entries that start before the end
of the range it was given. -/
structure Absorbed (l : List Entry) (g g' : Growing) : Prop where
  addr : g'.addr = g.addr
  size_le : g.size ≤ g'.size
  merged : g'.mergedKeys = g.mergedKeys ++ (l.filter fun e => lo e < g.addr.offset + g.size).map Prod.fst
  hi_le : ∀ e ∈ l, lo e < g.addr.offset + g.size → hi e ≤ g.addr.offset + g'.size
  le_lo : ∀ e ∈ l, g.addr.offset + g.size ≤ lo e → g.addr.offset + g'.size ≤ lo e
  size_eq : g'.size = g.size ∨ ∃ e ∈ l, lo e < g.addr.offset + g.size ∧ g.addr.offset + g'.size = hi e
  pass_eq : g'.pass = g.pass ∨ ∃ e ∈ l, lo e < g.addr.offset + g.size ∧ g'.pass = e.2.2.pass
  intersect_one : (∃ e ∈ l, lo e < g.addr.offset + g.size ∧ e.2.2.pass < g.pass) → g'.intersect = 1
  intersect_same : (∀ e ∈ l, lo e < g.addr.offset + g.size → g.pass ≤ e.2.2.pass) → g'.intersect = g.intersect

theorem Absorbed.refl_of_le {l : List Entry} {g : Growing} (h : ∀ e ∈ l, g.addr.offset + g.size ≤ lo e) :
    Absorbed l g g := by
  have hno : ∀ e ∈ l, ¬ lo e < g.addr.offset + g.size := fun e he => not_lt.mpr (h e he)
  refine ⟨rfl, le_rfl, ?_, fun e he hlt => absurd hlt (hno e he), fun e he _ => h e he, .inl rfl, .inl rfl, ?_, fun _ => rfl⟩
  · rw [List.filter_eq_nil_iff.mpr fun e he => by simpa using h e he]
    simp
  · rintro ⟨e, he, hlt, -⟩
    exact absurd hlt (hno e he)

/-- Taking in one more entry before the others. -/
theorem Absorbed.cons {l : List Entry} {e : Entry} {g g₁ g' : Growing} (h : Absorbed l g₁ g')
    (hlt : lo e < g.addr.offset + g.size) (haddr : g₁.addr = g.addr)
    (hsame : ∀ x ∈ l, (lo x < g₁.addr.offset + g₁.size ↔ lo x < g.addr.offset + g.size))
    (hsize : g.size ≤ g₁.size ∧ hi e ≤ g.addr.offset + g₁.size ∧
      (g₁.size = g.size ∨ g.addr.offset + g₁.size = hi e))
    (hpass : g₁.pass = if e.2.2.pass < g.pass then e.2.2.pass else g.pass)
    (hintersect : g₁.intersect = if e.2.2.pass < g.pass then 1 else g.intersect)
    (hmerged : g₁.mergedKeys = g.mergedKeys ++ [e.1]) : Absorbed (e :: l) g g' := by
  have hle := h.size_le
  refine ⟨h.addr.trans haddr, hsize.1.trans hle, ?_, ?_, ?_, ?_, ?_, ?_, ?_⟩
  · rw [h.merged, hmerged, List.filter_cons_of_pos (by simpa using hlt), List.map_cons, List.append_assoc,
      List.singleton_append, List.filter_congr fun x hx => by rw [decide_eq_decide.mpr (hsame x hx)]]
  · intro x hx hx'
    rcases List.mem_cons.mp hx with rfl | hx
    · omega
    · exact haddr ▸ h.hi_le x hx ((hsame x hx).mpr hx')
  · intro x hx hx'
    rcases List.mem_cons.mp hx with rfl | hx
    · omega
    · exact haddr ▸ h.le_lo x hx (not_lt.mp fun hc => not_lt.mpr hx' ((hsame x hx).mp hc))
  · rcases h.size_eq with heq | ⟨x, hx, hx', heq⟩
    · rcases hsize.2.2 with h₁ | h₁
      · exact .inl (heq.trans h₁)
      · exact .inr ⟨e, by simp, hlt, heq ▸ h₁⟩
    · exact .inr ⟨x, by simp [hx], (hsame x hx).mp hx', haddr ▸ heq⟩
  · rcases h.pass_eq with heq | ⟨x, hx, hx', heq⟩
    · rw [hpass] at heq
      split at heq
      · exact .inr ⟨e, by simp, hlt, heq⟩
      · exact .inl heq
    · exact .inr ⟨x, by simp [hx], (hsame x hx).mp hx', heq⟩
  · rintro ⟨x, hx, hx', hp⟩
    by_cases hany : ∃ y ∈ l, lo y < g₁.addr.offset + g₁.size ∧ y.2.2.pass < g₁.pass
    · exact h.intersect_one hany
    · rw [h.intersect_same fun y hy hy' => not_lt.mp fun hc => hany ⟨y, hy, hy', hc⟩, hintersect, if_pos]
      rcases List.mem_cons.mp hx with rfl | hx
      · exact hp
      · by_contra hc
        rw [if_neg hc] at hpass
        exact hany ⟨x, hx, (hsame x hx).mpr hx', hpass ▸ hp⟩
  · intro hall
    have hp := hall e (by simp) hlt
    rw [if_neg (not_lt.mpr hp)] at hpass hintersect
    rw [← hintersect]
    exact h.intersect_same fun x hx hx' => hpass ▸ hall x (by simp [hx]) ((hsame x hx).mp hx')

theorem asI32_eq {x : Int} (hlo : 0 ≤ x) (hhi : x < 2 ^ 31) : asI32 x = x := by
  simp only [asI32, Int.bmod_def]
  omega

theorem absorb_spec {spc : AddrSpace} (hspc : spc.spaceType ≠ .constant) {l : List Entry} (hl : Cover spc l)
    (g : Growing) (hg : g.addr.space = spc) (hpos : 1 ≤ g.size) (hsize : g.size < 2 ^ 31)
    (hend : g.addr.offset + g.size ≤ spc.highest + 1) (hstart : ∀ e ∈ l, (g.addr.offset : Int) ≤ lo e)
    (hfit : ∀ e ∈ l, lo e < g.addr.offset + g.size → hi e - g.addr.offset < 2 ^ 31) :
    Absorbed l g (absorb l g) := by
  induction l generalizing g with
  | nil => exact .refl_of_le (by simp)
  | cons e l ih =>
      have hse := hl.stored e (by simp)
      have hnext : ∀ x ∈ l, hi e ≤ lo x := fun x hx => hl.hi_le_of_cons hx
      have hge := hstart e (by simp)
      have hpe := hse.pos
      have hposition : e.2.1.overlap 0 g.addr g.size =
          if lo e < g.addr.offset + g.size then lo e - g.addr.offset else -1 := by
        obtain ⟨_, ⟨_, b⟩, _⟩ := e
        obtain ⟨⟨_, a⟩, _⟩ := g
        obtain ⟨-, rfl, -, -, hhi⟩ := hse
        subst hg
        simp only [lo, hi] at *
        rw [Address.overlap_eq hspc (by omega) hpos hsize hend]
        split_ifs <;> omega
      by_cases hlt : lo e < g.addr.offset + g.size
      · have hhi : lo e - g.addr.offset + e.2.2.size = hi e - g.addr.offset := by
          simp only [lo, hi]
          omega
        have hfe := hfit e (by simp) hlt
        have hhe := hse.hi_le
        have hle : lo e < hi e := by
          simp only [lo, hi]
          omega
        set g₁ : Growing := {
          addr := g.addr
          size := if g.size < hi e - g.addr.offset then hi e - g.addr.offset else g.size
          pass := if e.2.2.pass < g.pass then e.2.2.pass else g.pass
          intersect := if e.2.2.pass < g.pass then 1 else g.intersect
          mergedKeys := g.mergedKeys ++ [e.1] } with hg₁
        have hstep : absorb (e :: l) g = absorb l g₁ := by
          rw [absorb, hposition, if_pos hlt, if_neg (by omega), hhi, asI32_eq (by omega) hfe]
        -- the next entries start behind this one, so its end adds none of them
        have hsame : ∀ x ∈ l, (lo x < g₁.addr.offset + g₁.size ↔ lo x < g.addr.offset + g.size) := by
          intro x hx
          have := hnext x hx
          simp only [hg₁]
          split_ifs <;> omega
        have hsize₁ : g.size ≤ g₁.size ∧ hi e ≤ g.addr.offset + g₁.size ∧
            (g₁.size = g.size ∨ g.addr.offset + g₁.size = hi e) := by
          simp only [hg₁]
          split_ifs <;> omega
        have hih := ih hl.tail g₁ hg (by omega) (by simp only [hg₁]; split_ifs <;> omega)
          (by simp only [hg₁]; split_ifs <;> omega) (fun x hx => hstart x (by simp [hx]))
          (fun x hx h => hfit x (by simp [hx]) ((hsame x hx).mp h))
        rw [hstep]
        exact hih.cons hlt rfl hsame hsize₁ rfl rfl rfl
      · have hstop : absorb (e :: l) g = g := by
          rw [absorb, hposition, if_neg hlt]
          simp
        rw [hstop]
        refine .refl_of_le fun x hx => ?_
        rcases List.mem_cons.mp hx with rfl | hx
        · omega
        · have := hnext x hx
          simp only [lo, hi] at *
          omega

/-- One call of `add`. -/
structure Request where
  addr : Address
  size : Int
  pass : Int
  deriving DecidableEq

namespace Request

def lo (r : Request) : Int := r.addr.offset

def hi (r : Request) : Int := r.addr.offset + r.size

def range (r : Request) : Set Nat := {x | r.lo ≤ x ∧ (x : Int) < r.hi}

/-- A range of at least one byte that does not run past the end of the space. -/
structure InSpace (spc : AddrSpace) (r : Request) : Prop where
  space : r.addr.space = spc
  pos : 1 ≤ r.size
  size_lt : r.size < 2 ^ 31
  hi_le : r.hi ≤ spc.highest + 1

def Touches (r : Request) (e : Entry) : Prop := LocationMap.lo e < r.hi ∧ r.lo < LocationMap.hi e

instance (r : Request) (e : Entry) : Decidable (r.Touches e) := inferInstanceAs (Decidable (_ ∧ _))

def Inside (r : Request) (e : Entry) : Prop := LocationMap.lo e ≤ r.lo ∧ r.hi ≤ LocationMap.hi e

/-- The ranges that the request touches make up, together with it, a range
whose size is a 32 bit number. -/
def Fits (m : LocationMap) (r : Request) : Prop :=
  ∀ e ∈ m.entries, ∀ e' ∈ m.entries, r.Touches e → r.Touches e' →
    max r.hi (LocationMap.hi e') - min r.lo (LocationMap.lo e) < 2 ^ 31

/-- The request starts below all stored ranges and reaches into the first. -/
def FromBelow (m : LocationMap) (r : Request) : Prop :=
  ∃ e ∈ m.entries.head?, r.lo < LocationMap.lo e ∧ LocationMap.lo e < r.hi

end Request

/-- The lower end of the hull of the request and the ranges it touches. -/
def IsLower (m : LocationMap) (r : Request) (a : Int) : Prop :=
  a = r.lo ∨ ∃ e ∈ m.entries, r.Touches e ∧ a = lo e

def IsUpper (m : LocationMap) (r : Request) (b : Int) : Prop :=
  b = r.hi ∨ ∃ e ∈ m.entries, r.Touches e ∧ b = hi e

/-- The request is stored as part of a range that replaces those it touches. -/
structure Merges (spc : AddrSpace) (m : LocationMap) (r : Request) (a : Added) (new : Entry) : Prop where
  stored : Stored spc new
  start : a.start = new.2.1
  mem : ∀ x, x ∈ a.map.entries ↔ x = new ∨ x ∈ m.entries ∧ ¬ r.Touches x
  lo_le : lo new ≤ r.lo
  le_hi : r.hi ≤ hi new
  touched : ∀ e ∈ m.entries, r.Touches e → lo new ≤ lo e ∧ hi e ≤ hi new
  apart : ∀ e ∈ m.entries, ¬ r.Touches e → hi e ≤ lo new ∨ hi new ≤ lo e
  isLower : IsLower m r (lo new)
  isUpper : IsUpper m r (hi new)
  pass_eq : new.2.2.pass = r.pass ∨ ∃ e ∈ m.entries, r.Touches e ∧ new.2.2.pass = e.2.2.pass
  outside : ∀ e ∈ m.entries, ¬ r.Inside e
  partly : (∃ e ∈ m.entries, r.Touches e ∧ e.2.2.pass < r.pass) → a.intersect = 1
  clear : (∀ e ∈ m.entries, r.Touches e → r.pass ≤ e.2.2.pass) → a.intersect = 0

/-- The two outcomes of a call. -/
def Adds (spc : AddrSpace) (m : LocationMap) (r : Request) (a : Added) : Prop :=
  (∃ e ∈ m.entries, r.Inside e ∧ a = ⟨m, e.2.1, if e.2.2.pass < r.pass then 2 else 0⟩) ∨
  ∃ new, Merges spc m r a new

variable {spc : AddrSpace} {m : LocationMap} {r : Request}

theorem hull_lt (hr : r.InSpace spc) (hfit : r.Fits m) {a b : Int} (ha : IsLower m r a) (hb : IsUpper m r b) :
    b - a < 2 ^ 31 := by
  have hsize := hr.size_lt
  have hrhi : r.hi = r.lo + r.size := rfl
  rcases ha with rfl | ⟨e, he, ht, rfl⟩ <;> rcases hb with rfl | ⟨e', he', ht', rfl⟩
  · omega
  · have := hfit e' he' e' he' ht' ht'
    omega
  · have := hfit e he e he ht ht
    omega
  · have := hfit e he e' he' ht ht'
    omega

theorem Cover.apart (hm : Cover spc m.entries) {e e' : Entry} (he : e ∈ m.entries) (he' : e' ∈ m.entries)
    (hne : e ≠ e') : hi e ≤ lo e' ∨ hi e' ≤ lo e := by
  rcases lt_trichotomy (lo e) (lo e') with hlt | heq | hlt
  · exact .inl (hm.disjoint e he e' he' hlt)
  · refine absurd (SortedMap.eq_of_key_eq (m := m) he he' ?_) hne
    rw [(hm.stored e he).key, (hm.stored e' he').key, Address.orderingKey, Address.orderingKey,
      (hm.stored e he).space, (hm.stored e' he').space, Int.ofNat_inj.mp heq]
  · exact .inr (hm.disjoint e' he' e he hlt)

/-- A range that the request does not touch lies outside of the hull. -/
theorem apart_of_hull (hm : Cover spc m.entries) (hr : r.InSpace spc) {a b : Int} (ha : IsLower m r a)
    (hb : IsUpper m r b) {e : Entry} (he : e ∈ m.entries) (hnt : ¬ r.Touches e) : hi e ≤ a ∨ b ≤ lo e := by
  have hpe := (hm.stored e he).pos
  have hhe : hi e = lo e + e.2.2.size := rfl
  have hrhi : r.hi = r.lo + r.size := rfl
  have hpos := hr.pos
  have hrange : hi e ≤ r.lo ∨ r.hi ≤ lo e := by
    by_contra hc
    push Not at hc
    exact hnt ⟨hc.2, hc.1⟩
  have hdj {e' : Entry} (he' : e' ∈ m.entries) (ht : r.Touches e') : hi e ≤ lo e' ∨ hi e' ≤ lo e :=
    hm.apart he he' fun h => hnt (h ▸ ht)
  rcases ha with rfl | ⟨e₁, he₁, ht₁, rfl⟩ <;> rcases hb with rfl | ⟨e₂, he₂, ht₂, rfl⟩
  · omega
  · have := hdj he₂ ht₂
    obtain ⟨_, _⟩ := ht₂
    omega
  · have := hdj he₁ ht₁
    obtain ⟨_, _⟩ := ht₁
    omega
  · have := hdj he₁ ht₁
    have := hdj he₂ ht₂
    obtain ⟨_, _⟩ := ht₁
    obtain ⟨_, _⟩ := ht₂
    omega

/-- What `add` has found out when it enters the loop over the entries `l` with
the range `g`; `first` holds the entry that contains the address, if there is
one. -/
structure Entered (spc : AddrSpace) (m : LocationMap) (r : Request) (first l : List Entry) (g : Growing) : Prop where
  space : g.addr.space = spc
  hi : g.addr.offset + g.size = r.hi
  lo_le : g.addr.offset ≤ r.lo
  lo_eq : g.addr.offset = r.lo ∨ ∃ e ∈ first, lo e = g.addr.offset
  behind : ∀ e ∈ l, r.lo < lo e
  subset : l ⊆ m.entries
  first_subset : first ⊆ m.entries
  first_eq : ∀ e ∈ first, lo e = g.addr.offset ∧ r.lo < LocationMap.hi e ∧ LocationMap.hi e < r.hi
  keys : g.mergedKeys = first.map Prod.fst
  touched : ∀ e ∈ m.entries, r.Touches e → e ∈ first ∨ e ∈ l
  pass_eq : g.pass = r.pass ∨ ∃ e ∈ first, g.pass = e.2.2.pass
  pass_le : g.pass ≤ r.pass
  partly : (g.pass < r.pass ∨ ∃ e ∈ first, e.2.2.pass < r.pass) → g.intersect = 1
  clear : (∀ e ∈ first, r.pass ≤ e.2.2.pass) → g.intersect = 0

section Store

variable {first l : List Entry} {g g' : Growing}

theorem Entered.touches_iff (hm : Cover spc m.entries) (hr : r.InSpace spc) (h : Entered spc m r first l g)
    {x : Entry} (hx : x ∈ m.entries) : r.Touches x ↔ x ∈ first ∨ x ∈ l ∧ lo x < r.hi := by
  refine ⟨fun hx' => (h.touched x hx hx').imp_right fun hxl => ⟨hxl, hx'.1⟩, ?_⟩
  have hrhi : r.hi = r.lo + r.size := rfl
  have hpos := hr.pos
  rintro (hxf | ⟨hxl, hlt⟩)
  · have := h.first_eq x hxf
    have := h.lo_le
    exact ⟨by omega, by omega⟩
  · have := h.behind x hxl
    have := (hm.stored x hx).pos
    have : LocationMap.hi x = lo x + x.2.2.size := rfl
    exact ⟨hlt, by omega⟩

theorem Entered.isLower (hm : Cover spc m.entries) (hr : r.InSpace spc) (h : Entered spc m r first l g) :
    IsLower m r g.addr.offset :=
  h.lo_eq.imp_right fun ⟨e, he, heq⟩ =>
    ⟨e, h.first_subset he, (h.touches_iff hm hr (h.first_subset he)).mpr (.inl he), heq.symm⟩

theorem Entered.isUpper (hm : Cover spc m.entries) (hr : r.InSpace spc) (h : Entered spc m r first l g)
    (hg : Absorbed l g g') : IsUpper m r (g.addr.offset + g'.size) := by
  rcases hg.size_eq with heq | ⟨e, he, hlt, heq⟩
  · exact .inl (by rw [heq, h.hi])
  · exact .inr ⟨e, h.subset he, (h.touches_iff hm hr (h.subset he)).mpr (.inr ⟨he, h.hi ▸ hlt⟩), heq⟩

theorem Entered.mem_mergedKeys (hm : Cover spc m.entries) (hr : r.InSpace spc) (h : Entered spc m r first l g)
    (hg : Absorbed l g g') {x : Entry} (hx : x ∈ m.entries) : x.1 ∈ g'.mergedKeys ↔ r.Touches x := by
  rw [h.touches_iff hm hr hx, hg.merged, h.keys, h.hi, List.mem_append, List.mem_map, List.mem_map]
  refine or_congr ⟨fun ⟨y, hy, hyx⟩ => ?_, fun hxf => ⟨x, hxf, rfl⟩⟩ ⟨fun ⟨y, hy, hyx⟩ => ?_, fun hxl => ⟨x, ?_, rfl⟩⟩
  · exact SortedMap.eq_of_key_eq (h.first_subset hy) hx hyx ▸ hy
  · obtain ⟨hyl, hlt⟩ := List.mem_filter.mp hy
    obtain rfl := SortedMap.eq_of_key_eq (h.subset hyl) hx hyx
    exact ⟨hyl, by simpa using hlt⟩
  · exact List.mem_filter.mpr ⟨hxl.1, by simpa using hxl.2⟩

theorem Entered.intersect_eq (h : Entered spc m r first l g) (hg : Absorbed l g g') :
    ((∃ e, (e ∈ first ∨ e ∈ l ∧ lo e < r.hi) ∧ e.2.2.pass < r.pass) → g'.intersect = 1) ∧
    ((∀ e, (e ∈ first ∨ e ∈ l ∧ lo e < r.hi) → r.pass ≤ e.2.2.pass) → g'.intersect = 0) := by
  have hone := hg.intersect_one
  have hsame := hg.intersect_same
  rw [h.hi] at hone hsame
  constructor
  · rintro ⟨e, he, hp⟩
    by_cases hany : ∃ y ∈ l, lo y < r.hi ∧ y.2.2.pass < g.pass
    · exact hone hany
    · rw [hsame fun y hy hlt => not_lt.mp fun hc => hany ⟨y, hy, hlt, hc⟩]
      refine h.partly ?_
      rcases he with hef | ⟨hel, hlt⟩
      · exact .inr ⟨e, hef, hp⟩
      · exact .inl (lt_of_le_of_lt (not_lt.mp fun hc => hany ⟨e, hel, hlt, hc⟩) hp)
  · intro hall
    have hpass : g.pass = r.pass := by
      rcases h.pass_eq with heq | ⟨e, he, heq⟩
      · exact heq
      · exact le_antisymm h.pass_le (heq ▸ hall e (.inl he))
    rw [hsame fun e he hlt => hpass ▸ hall e (.inr ⟨he, hlt⟩)]
    exact h.clear fun e he => hall e (.inl he)

theorem Entered.merges (hm : Cover spc m.entries) (hr : r.InSpace spc) (hfit : r.Fits m)
    (h : Entered spc m r first l g) (hg : Absorbed l g g') :
    Merges spc m r (store m g') (g'.addr.orderingKey, g'.addr, ⟨g'.size, g'.pass⟩) := by
  have hoff : g'.addr.offset = g.addr.offset := by rw [hg.addr]
  have hlower := h.isLower hm hr
  have hupper := h.isUpper hm hr hg
  have hsize := hg.size_le
  have hpos := hr.pos
  have hrhi : r.hi = r.lo + r.size := rfl
  have hghi := h.hi
  have hglo := h.lo_le
  have hhi_le : g.addr.offset + g'.size ≤ (spc.highest : Int) + 1 := by
    rcases hupper with heq | ⟨e, he, -, heq⟩
    · have := hr.hi_le
      omega
    · have := (hm.stored e he).hi_le
      omega
  have hsize_lt := hull_lt hr hfit hlower hupper
  have hapart : ∀ e ∈ m.entries, ¬ r.Touches e →
      LocationMap.hi e ≤ g.addr.offset ∨ g.addr.offset + g'.size ≤ lo e :=
    fun e he hnt => apart_of_hull hm hr hlower hupper he hnt
  have htouch {x : Entry} (hx : x ∈ m.entries) := h.touches_iff hm hr hx
  obtain ⟨hpartly, hclear⟩ := h.intersect_eq hg
  refine ⟨⟨rfl, by rw [hg.addr, h.space], by simp only; omega, by simp only; omega,
    by simp only [LocationMap.hi, hoff]; omega⟩, rfl, fun x => ?_, ?_, ?_, ?_, ?_, ?_, ?_, ?_, ?_, ?_, ?_⟩
  · rw [store, SortedMap.mem_insert, SortedMap.mem_removeAll]
    refine or_congr_right ⟨fun hx => ⟨hx.1.1, fun ht => hx.1.2 ((h.mem_mergedKeys hm hr hg hx.1.1).mpr ht)⟩,
      fun hx => ⟨⟨hx.1, fun hk => hx.2 ((h.mem_mergedKeys hm hr hg hx.1).mp hk)⟩, fun hkey => ?_⟩⟩
    -- an untouched range under the new key would start where the new one does
    have hxs := hm.stored x hx.1
    have hlox : lo x = g.addr.offset := by
      rw [hxs.key, hg.addr] at hkey
      exact congrArg (fun k : Address.Key => ((ofLex k).2 : Int)) hkey
    have hxpos := hxs.pos
    have hxhi : LocationMap.hi x = lo x + x.2.2.size := rfl
    have := hapart x hx.1 hx.2
    omega
  · simp only [lo, hoff]; omega
  · simp only [LocationMap.hi, hoff]; omega
  · intro e he ht
    simp only [lo, LocationMap.hi, hoff]
    rcases (htouch he).mp ht with hef | ⟨hel, hlt⟩
    · obtain ⟨_, _, _⟩ := h.first_eq e hef
      simp only [lo, LocationMap.hi] at *
      omega
    · have := hg.hi_le e hel (h.hi ▸ hlt)
      have := h.behind e hel
      simp only [lo, LocationMap.hi] at *
      omega
  · simpa only [lo, LocationMap.hi, hoff] using hapart
  · rwa [lo, hoff]
  · rwa [LocationMap.hi, hoff]
  · rcases hg.pass_eq with heq | ⟨e, he, hlt, heq⟩
    · exact heq ▸ h.pass_eq.imp_right fun ⟨e, he, hpe⟩ =>
        ⟨e, h.first_subset he, (htouch (h.first_subset he)).mpr (.inl he), hpe⟩
    · exact .inr ⟨e, h.subset he, (htouch (h.subset he)).mpr (.inr ⟨he, h.hi ▸ hlt⟩), heq⟩
  · rintro e he ⟨hlo, hhi⟩
    have hpe := (hm.stored e he).pos
    have hhe : LocationMap.hi e = lo e + e.2.2.size := rfl
    rcases (htouch he).mp ⟨by omega, by omega⟩ with hef | ⟨hel, -⟩
    · have := h.first_eq e hef
      omega
    · have := h.behind e hel
      omega
  · rintro ⟨e, he, ht, hp⟩
    exact hpartly ⟨e, (htouch he).mp ht, hp⟩
  · intro hall
    refine hclear fun e he => ?_
    have hem : e ∈ m.entries := he.elim (fun hf => h.first_subset hf) fun hl => h.subset hl.1
    exact hall e hem ((htouch hem).mpr he)

end Store

/-- What is known of the entries at which `add` begins: all of them end behind
the new address, and no other entry is touched. -/
structure Chosen (m : LocationMap) (r : Request) (l : List Entry) : Prop where
  sublist : l.Sublist m.entries
  behind : ∀ e ∈ l, r.lo < hi e
  touched : ∀ e ∈ m.entries, r.Touches e → e ∈ l

theorem Cover.sublist {l l' : List Entry} (h : Cover spc l) (hl : l'.Sublist l) : Cover spc l' :=
  ⟨fun e he => h.stored e (hl.subset he), fun e he e' he' => h.disjoint e (hl.subset he) e' (hl.subset he'),
    h.sorted.sublist hl⟩

section Enter

variable {l : List Entry} {e : Entry} (hspc : spc.spaceType ≠ .constant) (hm : Cover spc m.entries)
  (hr : r.InSpace spc) (hfit : r.Fits m)

include hspc hm hr hfit

/-- No entry contains the address: the loop begins with the request itself. -/
theorem enter_plain (hl : Chosen m r l) (hfar : ∀ e ∈ l, r.lo < lo e) :
    Adds spc m r (store m (absorb l ⟨r.addr, r.size, r.pass, 0, []⟩)) := by
  have hentered : Entered spc m r [] l ⟨r.addr, r.size, r.pass, 0, []⟩ :=
    ⟨hr.space, rfl, le_rfl, .inl rfl, hfar, hl.sublist.subset, by simp, by simp, rfl,
      fun e he ht => .inr (hl.touched e he ht), .inl rfl, le_rfl, by simp, fun _ => rfl⟩
  refine .inr ⟨_, hentered.merges hm hr hfit
    (absorb_spec hspc (hm.sublist hl.sublist) _ hr.space hr.pos hr.size_lt hr.hi_le ?_ ?_)⟩
  · exact fun e he => (hfar e he).le
  · intro e he hlt
    have ht : r.Touches e := ⟨hlt, hl.behind e he⟩
    have := hfit e (hl.sublist.subset he) e (hl.sublist.subset he) ht ht
    simp only [Request.lo] at *
    omega

/-- The first entry contains the address: either all of the request, or it is
the first range to be taken in. -/
theorem enter_first (hl : Chosen m r (e :: l)) (hlo : lo e ≤ r.lo) :
    Adds spc m r (if asI32 (r.lo - lo e + r.size) ≤ e.2.2.size then ⟨m, e.2.1, if e.2.2.pass < r.pass then 2 else 0⟩
      else store m (absorb l {
        addr := e.2.1
        size := asI32 (r.size + (r.lo - lo e))
        pass := if e.2.2.pass < r.pass then e.2.2.pass else r.pass
        intersect := if e.2.2.pass < r.pass then 1 else 0
        mergedKeys := [e.1] })) := by
  have hcover := hm.sublist hl.sublist
  have hse := hcover.stored e (by simp)
  have hnext : ∀ x ∈ l, hi e ≤ lo x := fun x hx => hcover.hi_le_of_cons hx
  have heb := hl.behind e (by simp)
  have hhe : hi e = lo e + e.2.2.size := rfl
  have hrhi : r.hi = r.lo + r.size := rfl
  have hpos := hr.pos
  have hem := hl.sublist.subset (show e ∈ e :: l by simp)
  have hte : r.Touches e := ⟨by omega, heb⟩
  have hfe := hfit e hem e hem hte hte
  have hle := hr.hi_le
  rw [asI32_eq (by omega) (by omega), asI32_eq (by omega) (by omega)]
  by_cases hinside : r.lo - lo e + r.size ≤ e.2.2.size
  · rw [if_pos hinside]
    exact .inl ⟨e, hem, ⟨hlo, by omega⟩, rfl⟩
  · rw [if_neg hinside]
    have hlo' : lo e = e.2.1.offset := rfl
    have hentered : Entered spc m r [e] l {
        addr := e.2.1
        size := r.size + (r.lo - lo e)
        pass := if e.2.2.pass < r.pass then e.2.2.pass else r.pass
        intersect := if e.2.2.pass < r.pass then 1 else 0
        mergedKeys := [e.1] } := by
      refine ⟨hse.space, by simp only; omega, hlo, .inr ⟨e, by simp, rfl⟩, fun x hx => ?_, fun x hx => ?_, by simpa using hem,
        by simp only [List.mem_singleton, forall_eq]; omega, rfl, fun x hx ht => ?_, ?_, ?_, ?_, ?_⟩
      · have := hnext x hx
        omega
      · exact hl.sublist.subset (by simp [hx])
      · simpa using hl.touched x hx ht
      · simp only [List.mem_singleton, exists_eq_left]
        split_ifs <;> simp
      · simp only
        split_ifs <;> omega
      · simp only [List.mem_singleton, exists_eq_left]
        split_ifs <;> simp_all
      · simp only [List.mem_singleton, forall_eq]
        exact fun hp => if_neg (not_lt.mpr hp)
    refine .inr ⟨_, hentered.merges hm hr hfit (absorb_spec hspc hcover.tail _ hse.space ?_ ?_ ?_ ?_ ?_)⟩
    · simp only
      omega
    · simp only
      omega
    · simp only
      omega
    · intro x hx
      have := hnext x hx
      simp only
      omega
    · intro x hx hlt
      have := hnext x hx
      have hxm := hl.sublist.subset (show x ∈ e :: l by simp [hx])
      have htx : r.Touches x := ⟨by simp only at hlt; omega, hl.behind x (by simp [hx])⟩
      have := hfit e hem x hxm hte htx
      simp only
      omega

theorem enter_spec (hl : Chosen m r l) : Adds spc m r (enter m r.addr r.size r.pass l) := by
  cases l with
  | nil => exact enter_plain hspc hm hr hfit hl (by simp)
  | cons e l =>
      have hcover := hm.sublist hl.sublist
      have heb := hl.behind e (by simp)
      have hposition : r.addr.overlap 0 e.2.1 e.2.2.size = if lo e ≤ r.lo ∧ r.lo < hi e then r.lo - lo e else -1 :=
        (hcover.stored e (by simp)).overlap_left hspc hr.space (by
          have := hr.hi_le
          have := hr.pos
          simp only [Request.hi] at *
          omega)
      rw [enter]
      by_cases hlo : lo e ≤ r.lo
      · rw [if_pos ⟨hlo, heb⟩] at hposition
        simp only [hposition]
        rw [if_pos (by omega)]
        exact enter_first hspc hm hr hfit hl hlo
      · rw [if_neg fun h => hlo h.1] at hposition
        simp only [hposition, ne_eq, not_true, if_false]
        refine enter_plain hspc hm hr hfit hl (List.forall_mem_cons.mpr ⟨not_le.mp hlo, fun x hx => ?_⟩)
        have := hcover.hi_le_of_cons hx
        omega

end Enter

theorem Cover.lo_of_mem_below (hm : Cover spc m.entries) {a : Address} (ha : a.space = spc) {e : Entry} :
    e ∈ m.below a.orderingKey ↔ e ∈ m.entries ∧ lo e < a.offset := by
  rw [SortedMap.below, List.mem_filter]
  refine and_congr_right fun he => ?_
  rw [decide_eq_true_eq, (hm.stored e he).key, Address.key_lt ((hm.stored e he).space.trans ha.symm), lo, Int.ofNat_lt]

theorem Cover.mem_atLeast (hm : Cover spc m.entries) {a : Address} (ha : a.space = spc) {e : Entry} :
    e ∈ m.atLeast a.orderingKey ↔ e ∈ m.entries ∧ a.offset ≤ lo e := by
  rw [SortedMap.atLeast, List.mem_filter]
  refine and_congr_right fun he => ?_
  rw [decide_eq_true_eq, (hm.stored e he).key, Address.key_le (ha.trans (hm.stored e he).space.symm), lo, Int.ofNat_le]

theorem chosen_of_split (hspc : spc.spaceType ≠ .constant) (hm : Cover spc m.entries) (hr : r.InSpace spc)
    (pre : List Entry) {suf : List Entry} {e : Entry} (h : m.entries = pre ++ e :: suf)
    (hpre : ∀ x ∈ pre, hi x ≤ r.lo) (hsuf : ∀ x ∈ suf, r.lo ≤ lo x) (hskip : ¬ (lo e ≤ r.lo ∧ r.lo < hi e) → ¬ r.Touches e) :
    Chosen m r (skipFirst r.addr (e :: suf)) := by
  have hposition : r.addr.overlap 0 e.2.1 e.2.2.size = if lo e ≤ r.lo ∧ r.lo < hi e then r.lo - lo e else -1 :=
    (hm.stored e (by simp [h])).overlap_left hspc hr.space (by
      have := hr.hi_le
      have := hr.pos
      simp only [Request.hi] at *
      omega)
  have hbehind : ∀ x ∈ suf, r.lo < hi x := by
    intro x hx
    have := hsuf x hx
    have := (hm.stored x (by simp [h, hx])).pos
    have : hi x = lo x + x.2.2.size := rfl
    omega
  have hsub : suf.Sublist m.entries := h ▸ (List.sublist_cons_self _ _).trans (List.sublist_append_right _ _)
  have hout : ∀ x ∈ pre, ¬ r.Touches x := fun x hx ht => by
    have := hpre x hx
    have := ht.2
    omega
  rw [skipFirst]
  by_cases hin : lo e ≤ r.lo ∧ r.lo < hi e
  · rw [if_neg (by rw [hposition, if_pos hin]; omega)]
    refine ⟨h ▸ List.sublist_append_right _ _, List.forall_mem_cons.mpr ⟨hin.2, hbehind⟩, fun x hx ht => ?_⟩
    rw [h, List.mem_append] at hx
    exact hx.resolve_left fun hx => hout x hx ht
  · rw [if_pos (by rw [hposition, if_neg hin])]
    refine ⟨hsub, hbehind, fun x hx ht => ?_⟩
    rw [h, List.mem_append, List.mem_cons] at hx
    rcases hx with hx | rfl | hx
    · exact absurd ht (hout x hx)
    · exact absurd ht (hskip hin)
    · exact hx

theorem chosen_skipFirst (hspc : spc.spaceType ≠ .constant) (hm : Cover spc m.entries) (hr : r.InSpace spc)
    (hbelow : ¬ r.FromBelow m) {key : Address.Key} (hkey : m.firstKey r.addr = some key) :
    Chosen m r (skipFirst r.addr (m.atLeast key)) := by
  have hsplit := m.entries_eq_append r.addr.orderingKey
  have hsuf : ∀ x ∈ m.atLeast r.addr.orderingKey, r.lo ≤ lo x := fun x hx => ((hm.mem_atLeast hr.space).mp hx).2
  rw [firstKey] at hkey
  split at hkey
  next e hlast =>
    -- the entry before the new address
    obtain rfl := Option.some_inj.mp hkey
    obtain ⟨pre, hpre⟩ := List.getLast?_eq_some_iff.mp hlast
    have hlt := ((hm.lo_of_mem_below hr.space).mp (hpre ▸ List.mem_append_right pre (List.mem_singleton_self e))).2
    rw [hpre, List.append_assoc, List.singleton_append] at hsplit
    rw [SortedMap.atLeast_of_entries_eq _ hsplit]
    refine chosen_of_split hspc hm hr _ hsplit (fun x hx => ?_) hsuf fun hin ht => hin ⟨hlt.le, ht.2⟩
    have hxe : x.1 < e.1 := by
      have hs := m.sorted
      rw [hsplit, List.pairwise_append] at hs
      exact hs.2.2 x hx e (by simp)
    have hxm : x ∈ m.entries := by simp [hsplit, hx]
    have hem : e ∈ m.entries := by simp [hsplit]
    rw [(hm.stored x hxm).key_lt (hm.stored e hem)] at hxe
    exact (hm.disjoint x hxm e hem hxe).trans hlt.le
  next hlast =>
    rw [List.getLast?_eq_none_iff] at hlast
    rw [hlast, List.nil_append] at hsplit
    cases hm' : m.entries with
    | nil => simp [hm'] at hkey
    | cons e suf =>
        obtain rfl : e.1 = key := by simpa [hm'] using hkey
        rw [SortedMap.atLeast_of_entries_eq [] hm']
        refine chosen_of_split hspc hm hr [] hm' (by simp) (fun x hx => ?_) fun hin ht => ?_
        · exact hsuf x (hsplit ▸ hm' ▸ List.mem_cons_of_mem _ hx)
        · have hle := hsuf e (hsplit ▸ hm' ▸ List.mem_cons_self)
          refine hbelow ⟨e, by simp [hm'], lt_of_le_of_ne hle fun heq => hin ⟨heq ▸ le_rfl, ht.2⟩, ht.1⟩

theorem add_spec (hspc : spc.spaceType ≠ .constant) (hm : Cover spc m.entries) (hr : r.InSpace spc)
    (hfit : r.Fits m) (hbelow : ¬ r.FromBelow m) : Adds spc m r (m.add r.addr r.size r.pass) := by
  rw [add]
  split
  next hnone =>
    have hempty : m.entries = [] := by
      rw [firstKey] at hnone
      split at hnone
      · simp at hnone
      · simpa using hnone
    exact enter_plain hspc hm hr hfit (l := []) ⟨by simp, by simp, by simp [hempty]⟩ (by simp)
  next key hkey => exact enter_spec hspc hm hr hfit (chosen_skipFirst hspc hm hr hbelow hkey)

theorem Adds.cover {a : Added} (hm : Cover spc m.entries) (h : Adds spc m r a) : Cover spc a.map.entries := by
  rcases h with ⟨e, -, -, rfl⟩ | ⟨new, h⟩
  · exact hm
  · refine ⟨fun x hx => ?_, fun x hx y hy hlt => ?_, a.map.sorted⟩
    · rcases (h.mem x).mp hx with rfl | hx
      · exact h.stored
      · exact hm.stored x hx.1
    · have hpos := h.stored.pos
      have hnew : hi new = lo new + new.2.2.size := rfl
      rcases (h.mem x).mp hx with rfl | hx <;> rcases (h.mem y).mp hy with rfl | hy
      · omega
      · have := h.apart y hy.1 hy.2
        have := (hm.stored y hy.1).pos
        have : hi y = lo y + y.2.2.size := rfl
        omega
      · have := h.apart x hx.1 hx.2
        omega
      · exact hm.disjoint x hx.1 y hy.1 hlt

def covered (m : LocationMap) : Set Nat := {x | ∃ e ∈ m.entries, x ∈ range e}

theorem Adds.covered_eq {a : Added} (h : Adds spc m r a) : covered a.map = covered m ∪ r.range := by
  ext x
  rcases h with ⟨e, he, hin, rfl⟩ | ⟨new, h⟩
  · refine ⟨.inl, fun hx => hx.elim id fun hx => ⟨e, he, hin.1.trans hx.1, lt_of_lt_of_le hx.2 hin.2⟩⟩
  · constructor
    · rintro ⟨e, he, hx⟩
      rcases (h.mem e).mp he with rfl | he
      · rcases lt_or_ge (x : Int) r.lo with hlt | hge
        · rcases h.isLower with heq | ⟨y, hy, ht, heq⟩
          · exact absurd hx.1 (by omega)
          · exact .inl ⟨y, hy, heq ▸ hx.1, hlt.trans ht.2⟩
        · rcases lt_or_ge (x : Int) r.hi with hlt | hge'
          · exact .inr ⟨hge, hlt⟩
          · rcases h.isUpper with heq | ⟨y, hy, ht, heq⟩
            · exact absurd hx.2 (by omega)
            · exact .inl ⟨y, hy, ht.1.le.trans hge', heq ▸ hx.2⟩
      · exact .inl ⟨e, he.1, hx⟩
    · rintro (⟨e, he, hx⟩ | hx)
      · by_cases ht : r.Touches e
        · have := h.touched e he ht
          exact ⟨new, (h.mem new).mpr (.inl rfl), this.1.trans hx.1, lt_of_lt_of_le hx.2 this.2⟩
        · exact ⟨e, (h.mem e).mpr (.inr ⟨he, ht⟩), hx⟩
      · exact ⟨new, (h.mem new).mpr (.inl rfl), h.lo_le.trans hx.1, lt_of_lt_of_le hx.2 h.le_hi⟩

/-- Looking up an address: at most one stored range can contain it, and the
lookup inspects the last one that starts at or before it. -/
theorem find_spec (hspc : spc.spaceType ≠ .constant) (hm : Cover spc m.entries) {x : Nat} (hx : x ≤ spc.highest) :
    (∀ e ∈ m.entries, x ∈ range e → m.find ⟨spc, x⟩ = some e.2.1) ∧
    ((∀ e ∈ m.entries, x ∉ range e) → m.find ⟨spc, x⟩ = none) := by
  have hupTo {e : Entry} : e ∈ m.upTo (Address.mk spc x).orderingKey ↔ e ∈ m.entries ∧ lo e ≤ x := by
    rw [SortedMap.upTo, List.mem_filter]
    refine and_congr_right fun he => ?_
    rw [decide_eq_true_eq, (hm.stored e he).key, Address.key_le (hm.stored e he).space, lo, Int.ofNat_le]
  constructor
  · intro e he hin
    cases hlast : (m.upTo (Address.mk spc x).orderingKey).getLast? with
    | none =>
        rw [List.getLast?_eq_none_iff] at hlast
        exact absurd (hupTo.mpr ⟨he, hin.1⟩) (by simp [hlast])
    | some y =>
        obtain ⟨pre, hpre⟩ := List.getLast?_eq_some_iff.mp hlast
        have hy := hupTo.mp (hpre ▸ List.mem_append_right pre (List.mem_singleton_self y))
        have hey : e = y := by
          have hmem := hpre ▸ hupTo.mpr ⟨he, hin.1⟩
          rcases List.mem_append.mp hmem with hmem | hmem
          · have hs : (m.upTo (Address.mk spc x).orderingKey).Pairwise fun x y => x.1 < y.1 := m.sorted.filter _
            rw [hpre, List.pairwise_append] at hs
            have hlt := hs.2.2 e hmem y (by simp)
            rw [(hm.stored e he).key_lt (hm.stored y hy.1)] at hlt
            have := hm.disjoint e he y hy.1 hlt
            have := hin.2
            omega
          · simpa using hmem
        subst hey
        have hover := ((hm.stored e he).overlap_left hspc (a := ⟨spc, x⟩) rfl hx).trans (if_pos hin)
        have := hin.1
        simp only [find, hlast, Option.bind_eq_bind, Option.bind_some, hover]
        rw [if_pos (by omega)]
  · intro hnone
    cases hlast : (m.upTo (Address.mk spc x).orderingKey).getLast? with
    | none => simp [find, hlast]
    | some y =>
        have hy := hupTo.mp (List.mem_of_getLast? hlast)
        have hover := ((hm.stored y hy.1).overlap_left hspc (a := ⟨spc, x⟩) rfl hx).trans (if_neg (hnone y hy.1))
        simp [find, hlast, hover]

theorem disjoint_range_iff (hr : r.InSpace spc) {e : Entry} (he : Stored spc e) :
    Disjoint r.range (range e) ↔ ¬ r.Touches e := by
  have hrhi : r.hi = r.lo + r.size := rfl
  have hhi : hi e = lo e + e.2.2.size := rfl
  have hrlo : r.lo = r.addr.offset := rfl
  have hlo : lo e = e.2.1.offset := rfl
  have hpos := hr.pos
  have hpe := he.pos
  rw [Set.disjoint_left]
  constructor
  · rintro hd ⟨h₁, h₂⟩
    refine hd (a := max r.addr.offset e.2.1.offset) ⟨?_, ?_⟩ ⟨?_, ?_⟩ <;> omega
  · intro hnt x hxr hxe
    exact hnt ⟨lt_of_le_of_lt hxe.1 hxr.2, lt_of_le_of_lt hxr.1 hxe.2⟩

theorem range_subset_iff (hr : r.InSpace spc) {e : Entry} : r.range ⊆ range e ↔ r.Inside e := by
  have hrhi : r.hi = r.lo + r.size := rfl
  have hrlo : r.lo = r.addr.offset := rfl
  have hpos := hr.pos
  constructor
  · intro hsub
    have hfirst := hsub (show r.addr.offset ∈ r.range from ⟨by omega, by omega⟩)
    have hlast := hsub (show (r.hi - 1).toNat ∈ r.range from ⟨by omega, by omega⟩)
    refine ⟨hfirst.1, ?_⟩
    have := hlast.2
    omega
  · exact fun hin x hx => ⟨hin.1.trans hx.1, lt_of_lt_of_le hx.2 hin.2⟩

theorem Adds.intersect_eq {a : Added} (hm : Cover spc m.entries) (hr : r.InSpace spc) (h : Adds spc m r a) :
    ((∀ e ∈ m.entries, e.2.2.pass < r.pass → Disjoint r.range (range e)) → a.intersect = 0) ∧
    ((∃ e ∈ m.entries, e.2.2.pass < r.pass ∧ r.range ⊆ range e) → a.intersect = 2) ∧
    ((∃ e ∈ m.entries, e.2.2.pass < r.pass ∧ ¬ Disjoint r.range (range e)) →
      (¬ ∃ e ∈ m.entries, e.2.2.pass < r.pass ∧ r.range ⊆ range e) → a.intersect = 1) := by
  have hdisj {e : Entry} (he : e ∈ m.entries) := disjoint_range_iff hr (hm.stored e he)
  have hrhi : r.hi = r.lo + r.size := rfl
  have hpos := hr.pos
  simp only [range_subset_iff hr]
  rcases h with ⟨e, he, hin, rfl⟩ | ⟨new, h⟩
  · -- all other ranges are apart from the one that holds the request
    have hte : r.Touches e := ⟨by have := hin.1; omega, by have := hin.2; omega⟩
    have honly {x : Entry} (hx : x ∈ m.entries) (ht : r.Touches x) : x = e := by
      by_contra hne
      have := hm.apart hx he hne
      obtain ⟨_, _⟩ := ht
      obtain ⟨_, _⟩ := hin
      omega
    refine ⟨fun hall => if_neg fun hp => (hdisj he).mp (hall e he hp) hte, ?_, ?_⟩
    · rintro ⟨x, hx, hp, hxin⟩
      obtain rfl := honly hx ⟨by have := hxin.1; omega, by have := hxin.2; omega⟩
      exact if_pos hp
    · rintro ⟨x, hx, hp, hnd⟩ hno
      rw [hdisj hx, not_not] at hnd
      obtain rfl := honly hx hnd
      exact absurd ⟨x, hx, hp, hin⟩ hno
  · refine ⟨fun hall => h.clear fun e he ht => not_lt.mp fun hp => (hdisj he).mp (hall e he hp) ht, ?_, ?_⟩
    · rintro ⟨e, he, -, hin⟩
      exact absurd hin (h.outside e he)
    · rintro ⟨e, he, hp, hnd⟩ -
      exact h.partly ⟨e, he, not_not.mp fun hnt => hnd ((hdisj he).mpr hnt), hp⟩

theorem absorb_frame (l : List Entry) (g : Growing) :
    (absorb l g).addr = g.addr ∧ (absorb l g).mergedKeys ⊆ g.mergedKeys ++ l.map Prod.fst := by
  induction l generalizing g with
  | nil => simp [absorb]
  | cons e l ih =>
      rw [absorb]
      split
      · simp
      · obtain ⟨haddr, hkeys⟩ := ih _
        exact ⟨haddr, fun k hk => by simpa using hkeys hk⟩

/-- An `add` below all stored ranges does not look at the first of them. -/
theorem add_keeps_first (hspc : spc.spaceType ≠ .constant) (hm : Cover spc m.entries) (hr : r.InSpace spc) {e : Entry}
    (he : e ∈ m.entries.head?) (hlt : r.lo < lo e) : e ∈ (m.add r.addr r.size r.pass).map.entries := by
  obtain ⟨suf, hsplit⟩ : ∃ suf, m.entries = e :: suf := by
    cases hm' : m.entries with
    | nil => simp [hm'] at he
    | cons x suf => exact ⟨suf, by simpa [hm'] using he⟩
  have hcover : Cover spc (e :: suf) := hsplit ▸ hm
  have hfar : ∀ x ∈ e :: suf, r.lo < lo x := by
    refine List.forall_mem_cons.mpr ⟨hlt, fun x hx => ?_⟩
    have := hcover.hi_le_of_cons hx
    have := (hcover.stored e (by simp)).pos
    have : hi e = lo e + e.2.2.size := rfl
    omega
  have hposition : ∀ x ∈ e :: suf, r.addr.overlap 0 x.2.1 x.2.2.size = -1 := by
    intro x hx
    refine ((hcover.stored x hx).overlap_left hspc hr.space ?_).trans (if_neg fun h => ?_)
    · have := hr.hi_le
      have := hr.pos
      simp only [Request.hi] at *
      omega
    · exact absurd h.1 (not_le.mpr (hfar x hx))
  have hfirst : m.firstKey r.addr = some e.1 := by
    have hnone : m.below r.addr.orderingKey = [] := by
      refine List.eq_nil_iff_forall_not_mem.mpr fun x hx => ?_
      obtain ⟨hxm, hxlt⟩ := (hm.lo_of_mem_below hr.space).mp hx
      exact absurd hxlt (not_lt.mpr (hfar x (hsplit ▸ hxm)).le)
    simp [firstKey, hnone, hsplit]
  have hadd : m.add r.addr r.size r.pass = store m (absorb suf ⟨r.addr, r.size, r.pass, 0, []⟩) := by
    rw [add, hfirst]
    simp only
    rw [SortedMap.atLeast_of_entries_eq [] hsplit, skipFirst, if_pos (hposition e (by simp))]
    cases suf with
    | nil => rfl
    | cons x suf =>
        rw [enter]
        simp only [show r.addr.overlap 0 x.2.1 x.2.2.size = -1 from hposition x (by simp), ne_eq, not_true, if_false]
  obtain ⟨haddr, hkeys⟩ := absorb_frame suf ⟨r.addr, r.size, r.pass, 0, []⟩
  rw [hadd, store, SortedMap.mem_insert, SortedMap.mem_removeAll]
  refine .inr ⟨⟨by simp [hsplit], fun hk => ?_⟩, fun hk => ?_⟩
  · obtain ⟨x, hx, hxe⟩ := List.mem_map.mp (show e.1 ∈ suf.map Prod.fst from hkeys hk)
    exact absurd hxe ((List.pairwise_cons.mp hcover.sorted).1 x hx).ne'
  · rw [haddr, (hcover.stored e (by simp)).key] at hk
    have : e.2.1.offset = r.addr.offset := congrArg (fun k : Address.Key => (ofLex k).2) hk
    simp only [Request.lo, lo] at hlt
    omega

/-- The maps that a sequence of `add` calls in one space builds from the empty
map, none of them from below into the first stored range. -/
inductive History (spc : AddrSpace) : List Request → LocationMap → Prop
  | start : History spc [] new
  | add (rs : List Request) (m : LocationMap) (r : Request) (h : History spc rs m) (hr : r.InSpace spc)
      (hfit : r.Fits m) (hbelow : ¬ r.FromBelow m) : History spc (rs ++ [r]) (m.add r.addr r.size r.pass).map

theorem History.cover (hspc : spc.spaceType ≠ .constant) {rs : List Request} (h : History spc rs m) :
    Cover spc m.entries ∧ covered m = {x | ∃ r ∈ rs, x ∈ r.range} := by
  induction h with
  | start => exact ⟨⟨by simp [new], by simp [new], by simp [new]⟩, by simp [covered, new]⟩
  | add rs m r _ hr hfit hbelow ih =>
      have hadd := add_spec hspc ih.1 hr hfit hbelow
      refine ⟨hadd.cover ih.1, ?_⟩
      rw [hadd.covered_eq, ih.2]
      ext x
      simp only [Set.mem_union, Set.mem_ofPred_eq, List.mem_append, List.mem_singleton]
      constructor
      · rintro (⟨r', hr', hx⟩ | hx)
        · exact ⟨r', .inl hr', hx⟩
        · exact ⟨r, .inr rfl, hx⟩
      · rintro ⟨r', hr' | rfl, hx⟩
        · exact .inl ⟨r', hr', hx⟩
        · exact .inr hx

section Ram

/-- A space of 32 bit addresses. -/
def ram : AddrSpace := ⟨.processor, 4, 1, 3, by decide, by decide⟩

def constantSpace : AddrSpace := ⟨.constant, 8, 1, 0, by decide, by decide⟩

theorem history_ram : History ram [⟨⟨ram, 0x10⟩, 4, 0⟩]
    (LocationMap.new.add ⟨ram, 0x10⟩ 4 0).map :=
  .add [] _ ⟨⟨ram, 0x10⟩, 4, 0⟩ .start ⟨rfl, by decide, by decide, by decide⟩ (by simp [Request.Fits, new])
    (by simp [Request.FromBelow, new])

end Ram

end LocationMap

end GhidraDecompiler.Heritage
