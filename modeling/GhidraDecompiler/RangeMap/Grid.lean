import GhidraDecompiler.RangeMap.SortedTree

namespace GhidraDecompiler

/-- The steps of a line are steps to the neighbours, except at the ends of a block,
where they wrap. A machine word is a line of one block, and the addresses of a
program have a block for each space. -/
class LawfulRangeLine (L : Type) [LinearOrder L] [RangeLine L] where
  block : L → Nat
  convex : ∀ {x y z : L}, x ≤ y → y ≤ z → block x = block z → block y = block z
  plusOne_le_iff : ∀ {x z : L}, x < z → block x = block z → ∀ {p : L}, RangeLine.plusOne x ≤ p ↔ x < p
  le_minusOne_iff : ∀ {x z : L}, x < z → block x = block z → ∀ {p : L}, p ≤ RangeLine.minusOne z ↔ p < z

/-- The ends of the subsorts bound those that records have. -/
def RangeSubsort.Within {S : Type} [LinearOrder S] [RangeSubsort S] (s : S) : Prop :=
  RangeSubsort.fromBool false ≤ s ∧ s ≤ RangeSubsort.fromBool true

instance {S : Type} [LinearOrder S] [RangeSubsort S] (s : S) : Decidable (RangeSubsort.Within s) :=
  inferInstanceAs (Decidable (_ ∧ _))

instance : LawfulRangeLine U64 where
  block _ := 0
  convex _ _ _ := rfl
  plusOne_le_iff {x z} h _ p := by
    have hz : z.val < 2 ^ 64 := z.isLt
    have hx : x.val < z.val := h
    have hval : (x + 1).val = x.val + 1 := by
      rw [Fin.val_add, Nat.mod_eq_of_lt]
      · rfl
      · change x.val + 1 < 2 ^ 64
        omega
    change (x + 1).val ≤ p.val ↔ x.val < p.val
    omega
  le_minusOne_iff {x z} h _ p := by
    have hz : z.val < 2 ^ 64 := z.isLt
    have hx : x.val < z.val := h
    have hval : (z - 1).val = z.val - 1 := by
      rw [Fin.val_sub]
      change (2 ^ 64 - 1 + z.val) % 2 ^ 64 = z.val - 1
      omega
    change p.val ≤ (z - 1).val ↔ p.val < z.val
    omega

namespace RangeMap

open Fallible RangeLine LawfulRangeLine

section Cover

variable {L S : Type} [LinearOrder L] {tree : List (AddrRange L S)} {e : AddrRange L S} {p : L} {v : Nat}

/-- The part is one of the record and holds the point. -/
def holds (v : Nat) (p : L) (e : AddrRange L S) : Bool := e.value = v ∧ e.first ≤ p ∧ p ≤ e.last

/-- The number of parts of a record that hold a point. -/
def cover (tree : List (AddrRange L S)) (v : Nat) (p : L) : Nat := tree.countP (holds v p)

theorem holds_iff : holds v p e = true ↔ e.value = v ∧ e.first ≤ p ∧ p ≤ e.last := by simp [holds]

theorem cover_append (before after : List (AddrRange L S)) :
    cover (before ++ after) v p = cover before v p + cover after v p := List.countP_append

theorem cover_cons : cover (e :: tree) v p = cover tree v p + if holds v p e = true then 1 else 0 := List.countP_cons

theorem cover_insert (before after : List (AddrRange L S)) :
    cover (before ++ e :: after) v p = cover (before ++ after) v p + if holds v p e = true then 1 else 0 := by
  rw [cover_append, cover_append, cover_cons, Nat.add_assoc]

theorem cover_pos : 0 < cover tree v p ↔ ∃ e ∈ tree, e.value = v ∧ e.first ≤ p ∧ p ≤ e.last := by
  simp only [cover, List.countP_pos_iff, holds_iff]

def SamePlace (e f : AddrRange L S) : Prop := e.first = f.first ∧ e.last = f.last

/-- Two sub-ranges are the same or have no point in common. -/
def Apart (e f : AddrRange L S) : Prop := SamePlace e f ∨ e.last < f.first ∨ f.last < e.first

theorem Apart.symm {f : AddrRange L S} (h : Apart e f) : Apart f e := by
  rcases h with ⟨h1, h2⟩ | h | h
  · exact .inl ⟨h1.symm, h2.symm⟩
  · exact .inr (.inr h)
  · exact .inr (.inl h)

/-- The data of a record that its parts repeat. -/
def SameLabel (e f : AddrRange L S) : Prop := e.value = f.value ∧ e.subsort = f.subsort ∧ e.a = f.a ∧ e.b = f.b

end Cover

section Line

variable {L : Type} [LinearOrder L] [RangeLine L] [LawfulRangeLine L]

theorem lt_plusOne {x z : L} (h : x < z) (hb : block x = block z) : x < plusOne x := (plusOne_le_iff h hb).1 le_rfl

theorem plusOne_le {x z : L} (h : x < z) (hb : block x = block z) : plusOne x ≤ z := (plusOne_le_iff h hb).2 h

theorem minusOne_lt {x z : L} (h : x < z) (hb : block x = block z) : minusOne z < z := (le_minusOne_iff h hb).1 le_rfl

theorem le_minusOne {x z : L} (h : x < z) (hb : block x = block z) : x ≤ minusOne z := (le_minusOne_iff h hb).2 h

theorem block_plusOne {x z : L} (h : x < z) (hb : block x = block z) : block (plusOne x) = block z :=
  convex (lt_plusOne h hb).le (plusOne_le h hb) hb

theorem block_minusOne {x z : L} (h : x < z) (hb : block x = block z) : block (minusOne z) = block z :=
  convex (le_minusOne h hb) (minusOne_lt h hb).le hb

theorem plusOne_minusOne {x z : L} (h : x < z) (hb : block x = block z) : plusOne (minusOne z) = z := by
  have hlt := minusOne_lt h hb
  have hbm := block_minusOne h hb
  refine le_antisymm (plusOne_le hlt hbm) (not_lt.1 fun hless => ?_)
  exact absurd ((le_minusOne_iff h hb).2 hless) (not_le.2 (lt_plusOne hlt hbm))

end Line

section Pieces

variable {L S : Type} [LinearOrder L] [RangeLine L] [LawfulRangeLine L] {e f e' f' : AddrRange L S} {p line : L} {v : Nat}

def cutLeft (line : L) (e : AddrRange L S) : AddrRange L S := { e with last := line }

def cutRight (line : L) (e : AddrRange L S) : AddrRange L S := { e with first := plusOne line }

/-- What becomes of a part when the line is cut behind a point. -/
def Piece (line : L) (e e' : AddrRange L S) : Prop :=
  e' = e ∧ (e.last ≤ line ∨ line < e.first) ∨
    e.first ≤ line ∧ line < e.last ∧ (e' = cutLeft line e ∨ e' = cutRight line e)

omit [LawfulRangeLine L] in
theorem Piece.label (h : Piece line e e') : SameLabel e' e := by
  rcases h with ⟨rfl, -⟩ | ⟨-, -, rfl | rfl⟩ <;> exact ⟨rfl, rfl, rfl, rfl⟩

omit [LawfulRangeLine L] in
theorem Piece.last (h : Piece line e e') : e'.last = e.last ∨ e'.last = line := by
  rcases h with ⟨rfl, -⟩ | ⟨-, -, rfl | rfl⟩
  · exact .inl rfl
  · exact .inr rfl
  · exact .inl rfl

theorem Piece.within (h : Piece line e e') (hb : block e.first = block e.last) :
    e.first ≤ e'.first ∧ e'.last ≤ e.last := by
  rcases h with ⟨rfl, -⟩ | ⟨hle, hlt, rfl | rfl⟩
  · exact ⟨le_rfl, le_rfl⟩
  · exact ⟨le_rfl, hlt.le⟩
  · exact ⟨hle.trans (lt_plusOne hlt (convex hle hlt.le hb)).le, le_rfl⟩

theorem Piece.clear (h : Piece line e e') (hb : block e.first = block e.last) :
    e'.last ≤ line ∨ line < e'.first := by
  rcases h with ⟨rfl, h⟩ | ⟨hle, hlt, rfl | rfl⟩
  · exact h
  · exact .inl le_rfl
  · exact .inr (lt_plusOne hlt (convex hle hlt.le hb))

theorem Piece.ordered (h : Piece line e e') (ho : e.first ≤ e.last) (hb : block e.first = block e.last) :
    e'.first ≤ e'.last ∧ block e'.first = block e'.last := by
  rcases h with ⟨rfl, -⟩ | ⟨hle, hlt, rfl | rfl⟩
  · exact ⟨ho, hb⟩
  · exact ⟨hle, hb.trans (convex hle hlt.le hb).symm⟩
  · have hbl := convex hle hlt.le hb
    exact ⟨plusOne_le hlt hbl, block_plusOne hlt hbl⟩

theorem Piece.apart (h : Piece line e e') (h' : Piece line f f') (hbe : block e.first = block e.last)
    (hbf : block f.first = block f.last) (ha : Apart e f) : Apart e' f' := by
  have hwe := h.within hbe
  have hwf := h'.within hbf
  rcases ha with ⟨hfirst, hlast⟩ | hlt | hlt
  · rcases h with ⟨rfl, hue⟩ | ⟨hle, hlt, he⟩
    · rcases h' with ⟨rfl, -⟩ | ⟨hle', hlt', -⟩
      · exact .inl ⟨hfirst, hlast⟩
      · rcases hue with hue | hue
        · exact absurd hlt' (not_lt.2 (hlast ▸ hue))
        · exact absurd hle' (not_le.2 (hfirst ▸ hue))
    · have hbl := lt_plusOne hlt (convex hle hlt.le hbe)
      rcases h' with ⟨rfl, huf⟩ | ⟨-, -, hf⟩
      · rcases huf with huf | huf
        · exact absurd hlt (not_lt.2 (hlast ▸ huf))
        · exact absurd hle (not_le.2 (hfirst ▸ huf))
      · rcases he with rfl | rfl <;> rcases hf with rfl | rfl
        · exact .inl ⟨hfirst, rfl⟩
        · exact .inr (.inl hbl)
        · exact .inr (.inr hbl)
        · exact .inl ⟨rfl, hlast⟩
  · exact .inr (.inl ((hwe.2.trans_lt hlt).trans_le hwf.1))
  · exact .inr (.inr ((hwf.2.trans_lt hlt).trans_le hwe.1))

/-- The two halves of a part hold the points that it holds. -/
theorem holds_halves (hle : e.first ≤ line) (hlt : line < e.last) (hb : block e.first = block e.last) :
    ((if holds v p (cutLeft line e) = true then 1 else 0) +
      if holds v p (cutRight line e) = true then 1 else 0) = if holds v p e = true then 1 else 0 := by
  have hstep : plusOne line ≤ p ↔ line < p := plusOne_le_iff hlt (convex hle hlt.le hb)
  simp only [holds_iff, cutLeft, cutRight, hstep]
  by_cases hv : e.value = v
  · by_cases hp : p ≤ line
    · simp [hv, hp, hp.trans hlt.le, not_lt.2 hp]
    · simp [hv, hp, not_le.1 hp, hle.trans (not_le.1 hp).le]
  · simp [hv]

end Pieces

section Tree

variable {L S : Type} [LinearOrder L] [LinearOrder S] [RangeLine L] [LawfulRangeLine L]
  {tree tree' : List (AddrRange L S)} {e f : AddrRange L S}

/-- The parts are in order, none is empty, each lies in one block, and distinct
sub-ranges have no point in common. -/
structure Grid (tree : List (AddrRange L S)) : Prop where
  sorted : Sorted tree
  ordered : ∀ e ∈ tree, e.first ≤ e.last
  oneBlock : ∀ e ∈ tree, block e.first = block e.last
  apart : ∀ e ∈ tree, ∀ f ∈ tree, Apart e f

theorem Grid.nil : Grid ([] : List (AddrRange L S)) := ⟨.nil, by simp, by simp, by simp⟩

/-- One more part keeps the grid when it is at the place of a part or between all. -/
theorem Grid.insert (h : Grid tree) (hp : tree'.Perm (e :: tree)) (hs : Sorted tree') (ho : e.first ≤ e.last)
    (hb : block e.first = block e.last) (ha : ∀ f ∈ tree, Apart e f) : Grid tree' := by
  have hmem {x : AddrRange L S} (hx : x ∈ tree') : x = e ∨ x ∈ tree := List.mem_cons.1 (hp.mem_iff.1 hx)
  refine ⟨hs, fun x hx => ?_, fun x hx => ?_, fun x hx y hy => ?_⟩
  · rcases hmem hx with rfl | hx
    · exact ho
    · exact h.ordered x hx
  · rcases hmem hx with rfl | hx
    · exact hb
    · exact h.oneBlock x hx
  · rcases hmem hx with rfl | hx' <;> rcases hmem hy with rfl | hy'
    · exact .inl ⟨rfl, rfl⟩
    · exact ha y hy'
    · exact (ha x hx').symm
    · exact h.apart x hx' y hy'

/-- A part that is behind another one in the tree shares its place or starts behind
its end. -/
theorem Grid.pairwise (h : Grid tree) : tree.Pairwise fun e f => SamePlace e f ∨ e.last < f.first := by
  refine h.sorted.imp_of_mem fun {e f} he hf hkey => ?_
  rcases h.apart e he f hf with hsame | hlt | hlt
  · exact .inl hsame
  · exact .inr hlt
  · exact absurd (hlt.trans_le (h.ordered e he)) (not_lt.2 (last_le_of_key_le hkey))

theorem Grid.after {before after : List (AddrRange L S)} (h : Grid (before ++ e :: after)) (hf : f ∈ after) :
    SamePlace e f ∨ e.last < f.first :=
  (List.pairwise_cons.1 (List.pairwise_append.1 h.pairwise).2.1).1 f hf

theorem Grid.before {before after : List (AddrRange L S)} (h : Grid (before ++ e :: after)) (hf : f ∈ before) :
    SamePlace f e ∨ f.last < e.first :=
  (List.pairwise_append.1 h.pairwise).2.2 f hf e (by simp)

/-- The tree with its parts cut behind the line. -/
structure CutAt (line : L) (tree tree' : List (AddrRange L S)) : Prop where
  grid : Grid tree'
  cover_eq : ∀ v p, cover tree' v p = cover tree v p
  piece : ∀ e' ∈ tree', ∃ e ∈ tree, Piece line e e'

omit [LawfulRangeLine L] in
/-- The left half goes before the right one, wherever the hint points. -/
theorem insertLeft_spec {line : L} {before after : List (AddrRange L S)} {hint : Nat}
    (hs : Sorted (before ++ e :: after)) (hhint : hint ≤ before.length + (after.length + 1)) (hlast : line < e.last) :
    ∃ front mid, before = front ++ mid ∧
      insertHint (before ++ cutRight line e :: after) hint (cutLeft line e) =
        .ok (front ++ cutLeft line e :: (mid ++ cutRight line e :: after), front.length) ∧
      Sorted (front ++ cutLeft line e :: (mid ++ cutRight line e :: after)) := by
  have hs' : Sorted (before ++ cutRight line e :: after) := by
    obtain ⟨hb, ha, hba⟩ := List.pairwise_append.1 hs
    obtain ⟨ha₁, ha₂⟩ := List.pairwise_cons.1 ha
    refine List.pairwise_append.2 ⟨hb, List.pairwise_cons.2 ⟨ha₁, ha₂⟩, fun x hx y hy => ?_⟩
    rcases List.mem_cons.1 hy with rfl | hy
    · exact hba x hx e (by simp)
    · exact hba x hx y (by simp [hy])
  obtain ⟨front, back, hsplit, hins, hs'', hfront, -⟩ := insertHint_spec hs' hint
    (by simpa using hhint) (cutLeft line e)
  rcases List.append_eq_append_iff.1 hsplit with ⟨mid, rfl, hmid⟩ | ⟨mid, rfl, rfl⟩
  · cases mid with
    | nil =>
        obtain rfl : back = cutRight line e :: after := by simpa using hmid.symm
        rw [List.append_nil] at hins hs''
        exact ⟨before, [], by simp, hins, hs''⟩
    | cons x mid =>
        obtain ⟨rfl, -⟩ := List.cons.inj hmid
        have hmem : cutRight line e ∈ before ++ cutRight line e :: mid := by simp
        exact absurd (last_le_of_key_le (hfront _ hmem)) (not_le.2 hlast)
  · exact ⟨front, mid, rfl, hins, hs''⟩

/-- The loop that cuts the parts from an index on, which all end behind the line. -/
theorem unzipLoop_spec (line : L) {before after : List (AddrRange L S)} (hint inserted fuel : Nat)
    (hs : Sorted (before ++ after)) (hhint : hint ≤ before.length + after.length)
    (hend : ∀ e ∈ after, line < e.last) (hb : ∀ e ∈ after, block e.first = block e.last)
    (hstart : after.Pairwise fun e f => line < e.first → line < f.first) (hfuel : after.length < fuel) :
    ∃ tree' n, loop (unzipPart line) fuel ⟨before ++ after, before.length, hint, inserted⟩ = .ok (tree', inserted + n) ∧
      Sorted tree' ∧ (∀ v p, cover tree' v p = cover (before ++ after) v p) ∧
      (∀ e' ∈ tree', e' ∈ before ∨ ∃ e ∈ after, Piece line e e') ∧
      tree'.countP (fun e => e.last ≤ line) = before.countP (fun e => e.last ≤ line) + n := by
  induction after generalizing before hint inserted fuel with
  | nil =>
      obtain ⟨fuel, rfl⟩ := Nat.exists_eq_add_of_lt hfuel
      refine ⟨before, 0, loop_succ_leave ?_ _, by simpa using hs, by simp, fun e he => .inl he, rfl⟩
      simp [unzipPart]
  | cons e after ih =>
      obtain ⟨fuel, rfl⟩ : ∃ k, fuel = k + 1 := ⟨fuel - 1, by omega⟩
      have hread : getIdx (before ++ e :: after) before.length = .ok e := getIdx_at rfl rfl
      have hne : before.length ≠ (before ++ e :: after).length := by simp
      have hlast := hend e (by simp)
      by_cases hle : e.first ≤ line
      · have hbe := hb e (by simp)
        have hcur : setIdx (before ++ e :: after) before.length (cutRight line e) =
            .ok (before ++ cutRight line e :: after) := setIdx_at _ rfl rfl
        obtain ⟨front, mid, rfl, hins, hs'⟩ := insertLeft_spec hs (by simpa using hhint) hlast
        have hlen : (front ++ cutLeft line e :: (mid ++ [cutRight line e])).length = (front ++ mid).length + 1 + 1 := by
          simp
          omega
        have htree : front ++ cutLeft line e :: (mid ++ cutRight line e :: after) =
            front ++ cutLeft line e :: (mid ++ [cutRight line e]) ++ after := by simp
        rw [htree] at hs' hins
        obtain ⟨tree', n, hrun, hsorted, hcover, hpiece, hcount⟩ := ih
          (if front.length ≤ hint then hint + 1 else hint) (inserted + 1) fuel hs'
          (by rw [hlen]; simp only [List.length_cons] at hhint; split_ifs <;> omega)
          (fun f hf => hend f (by simp [hf])) (fun f hf => hb f (by simp [hf])) (List.pairwise_cons.1 hstart).2
          (by simpa using hfuel)
        refine ⟨tree', n + 1, ?_, hsorted, fun v p => ?_, fun f hf => ?_, ?_⟩
        · rw [loop_succ_again _ fuel, hrun, Nat.add_right_comm, Nat.add_assoc]
          have hpos : front.length ≤ (front ++ mid).length := by simp
          rw [hlen]
          simp only [cutLeft, cutRight] at hins hcur
          simp only [unzipPart, if_pos hne, hread, ok_bind, if_pos hle, hcur, hins, pure_eq_ok, if_pos hpos]
          rfl
        · rw [hcover, ← htree, cover_insert, ← List.append_assoc, cover_insert, cover_insert (e := e), Nat.add_assoc,
            Nat.add_comm (ite _ _ _), holds_halves hle hlast hbe]
        · rcases hpiece f hf with hf | ⟨x, hx, hxf⟩
          · have hcases : f = cutLeft line e ∨ f = cutRight line e ∨ f ∈ front ++ mid := by
              simp only [List.mem_append, List.mem_cons, List.not_mem_nil, or_false] at hf ⊢
              tauto
            rcases hcases with rfl | rfl | hf
            · exact .inr ⟨e, by simp, .inr ⟨hle, hlast, .inl rfl⟩⟩
            · exact .inr ⟨e, by simp, .inr ⟨hle, hlast, .inr rfl⟩⟩
            · exact .inl hf
          · exact .inr ⟨x, by simp [hx], hxf⟩
        · rw [hcount]
          simp [cutLeft, cutRight, hlast]
          omega
      · refine ⟨before ++ e :: after, 0, loop_succ_leave ?_ _, hs, fun _ _ => rfl, fun f hf => ?_, ?_⟩
        · simp [unzipPart, hread, hle]
        · rcases List.mem_append.1 hf with hf | hf
          · exact .inl hf
          · refine .inr ⟨f, hf, .inl ⟨rfl, .inr ?_⟩⟩
            rcases List.mem_cons.1 hf with rfl | hf
            · exact not_le.1 hle
            · exact (List.pairwise_cons.1 hstart).1 f hf (not_le.1 hle)
        · rw [List.countP_append, List.countP_eq_zero (l := e :: after) |>.2 fun f hf => by simpa using hend f hf, Nat.add_zero]

/-- All the parts that hold the line are next to each other, so that cutting from the
first one on cuts them all. -/
theorem unzip_spec (line : L) {before after : List (AddrRange L S)} (h : Grid (before ++ e :: after))
    (hbefore : ∀ x ∈ before, x.last ≤ line) (hle : e.first ≤ line) (hlt : line < e.last) :
    ∃ tree' n, unzip (before ++ e :: after) line before.length = .ok (tree', n) ∧
      CutAt line (before ++ e :: after) tree' ∧ tree'.countP (fun e => e.last ≤ line) = before.length + n := by
  have hread : getIdx (before ++ e :: after) before.length = .ok e := getIdx_at rfl rfl
  have hpair := (List.pairwise_append.1 h.pairwise).2.1
  have hafter {x : AddrRange L S} (hx : x ∈ e :: after) : x ∈ before ++ e :: after := List.mem_append_right _ hx
  have hend : ∀ x ∈ e :: after, line < x.last := by
    intro x hx
    rcases List.mem_cons.1 hx with rfl | hx'
    · exact hlt
    · rcases h.after hx' with ⟨-, hlast⟩ | hlast
      · exact hlast ▸ hlt
      · exact (hlt.trans hlast).trans_le (h.ordered x (hafter hx))
  have hstart : (e :: after).Pairwise fun x y => line < x.first → line < y.first := by
    refine hpair.imp_of_mem fun {x y} hx _ hxy hline => ?_
    rcases hxy with ⟨hfirst, -⟩ | hxy
    · exact hfirst ▸ hline
    · exact (hline.trans_le (h.ordered x (hafter hx))).trans hxy
  obtain ⟨tree', n, hrun, hsorted, hcover, hpiece, hcount⟩ := unzipLoop_spec line before.length 0
    ((before ++ e :: after).length + 1) h.sorted (by simp) hend (fun x hx => h.oneBlock x (hafter hx)) hstart
    (by simp only [List.length_append, List.length_cons]; omega)
  have hp : ∀ e' ∈ tree', ∃ x ∈ before ++ e :: after, Piece line x e' := by
    intro e' he'
    rcases hpiece e' he' with he | ⟨x, hx, hxe⟩
    · exact ⟨e', by simp [he], .inl ⟨rfl, .inl (hbefore e' he)⟩⟩
    · exact ⟨x, hafter hx, hxe⟩
  refine ⟨tree', n, ?_, ⟨⟨hsorted, fun e' he' => ?_, fun e' he' => ?_, fun e' he' f' hf' => ?_⟩, hcover, hp⟩, ?_⟩
  · rw [unzip, hread, ok_bind, if_neg hlt.ne', hrun, Nat.zero_add]
  · obtain ⟨x, hx, hxe⟩ := hp e' he'
    exact (hxe.ordered (h.ordered x hx) (h.oneBlock x hx)).1
  · obtain ⟨x, hx, hxe⟩ := hp e' he'
    exact (hxe.ordered (h.ordered x hx) (h.oneBlock x hx)).2
  · obtain ⟨x, hx, hxe⟩ := hp e' he'
    obtain ⟨y, hy, hyf⟩ := hp f' hf'
    exact hxe.apart hyf (h.oneBlock x hx) (h.oneBlock y hy) (h.apart x hx y hy)
  · rw [hcount, List.countP_eq_length.2 fun x hx => decide_eq_true (hbefore x hx)]

end Tree

end RangeMap

end GhidraDecompiler
