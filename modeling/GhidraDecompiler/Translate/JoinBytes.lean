import GhidraDecompiler.Lib.Segments
import GhidraDecompiler.Translate.JoinTable

namespace GhidraDecompiler.Translate

open Fallible

variable {bigEndian : Int → Bool} {big : Bool} {p q : VarnodeData} {l pre post : List VarnodeData} {r : JoinRecord} {i : Nat}

theorem asI32_of_lt {x : Int} (h₀ : 0 ≤ x) (h : x < 2 ^ 31) : asI32 x = x := by
  simp only [asI32, Int.bmod_def]
  omega

theorem asU64_natCast (n : Nat) : asU64 n = n % 2 ^ 64 := by
  simp only [asU64]
  omega

/-- The bytes of a piece. -/
def pieceBytes (p : VarnodeData) : List Location := (List.range p.size).map fun k => ⟨p.space, (p.offset + k) % 2 ^ 64⟩

/-- The number of bytes of some pieces. -/
def span (l : List VarnodeData) : Nat := (l.map (·.size)).sum

@[simp] theorem span_nil : span [] = 0 := rfl

@[simp] theorem span_cons (p : VarnodeData) (l : List VarnodeData) : span (p :: l) = p.size + span l := rfl

@[simp] theorem span_append (l l' : List VarnodeData) : span (l ++ l') = span l + span l' := by
  simp [span]

@[simp] theorem span_reverse (l : List VarnodeData) : span l.reverse = span l := by
  rw [span, List.map_reverse, List.sum_reverse, span]

@[simp] theorem length_pieceBytes (p : VarnodeData) : (pieceBytes p).length = p.size := by
  simp [pieceBytes]

@[simp] theorem length_flatMap_pieceBytes (l : List VarnodeData) : (l.flatMap pieceBytes).length = span l := by
  induction l with
  | nil => rfl
  | cons p l ih => rw [List.flatMap_cons, List.length_append, ih, length_pieceBytes, span_cons]

theorem space_of_mem_pieceBytes {byte : Location} (h : byte ∈ pieceBytes p) : byte.space = p.space := by
  obtain ⟨k, -, rfl⟩ := List.mem_map.mp h
  rfl

theorem getElem?_pieceBytes (h : i < p.size) : (pieceBytes p)[i]? = some ⟨p.space, (p.offset + i) % 2 ^ 64⟩ := by
  rw [pieceBytes, List.getElem?_map, List.getElem?_range h]
  rfl

/-- The pieces in the order of their bytes. -/
def walk (big : Bool) (pieces : List VarnodeData) : List VarnodeData := if big then pieces else pieces.reverse

@[simp] theorem span_walk (big : Bool) (l : List VarnodeData) : span (walk big l) = span l := by
  cases big
  · exact span_reverse l
  · rfl

@[simp] theorem length_walk (big : Bool) (l : List VarnodeData) : (walk big l).length = l.length := by
  cases big
  · exact List.length_reverse
  · rfl

@[simp] theorem mem_walk : p ∈ walk big l ↔ p ∈ l := by
  cases big
  · exact List.mem_reverse
  · exact Iff.rfl

/-- The bytes of pieces that are joined. -/
def bytes (big : Bool) (pieces : List VarnodeData) : List Location := (walk big pieces).flatMap pieceBytes

@[simp] theorem length_bytes (big : Bool) (l : List VarnodeData) : (bytes big l).length = span l := by
  rw [bytes, length_flatMap_pieceBytes, span_walk]

/-- A byte is in the space of its piece. -/
theorem exists_piece {byte : Location} (h : (bytes big l)[i]? = some byte) : ∃ p ∈ l, byte.space = p.space := by
  obtain ⟨p, hp, hbyte⟩ := List.mem_flatMap.mp (List.mem_of_getElem? h)
  exact ⟨p, mem_walk.mp hp, space_of_mem_pieceBytes hbyte⟩

/-- The position of a piece that is some steps from the first byte. -/
def position (big : Bool) (count steps : Nat) : Int := if big then (steps : Int) else (count : Int) - 1 - steps

namespace JoinRecord

theorem seek_split {n : Nat} (hspan : span (pre ++ p :: post) < 2 ^ 31) (hlow : span pre ≤ i) (hhigh : i < span pre + p.size) :
    seek (pre ++ p :: post) i n = ((i : Int) - span pre, n + pre.length) := by
  induction pre generalizing i n with
  | nil =>
      rw [List.nil_append, span_cons] at hspan
      rw [span_nil, Nat.zero_add] at hhigh
      have hsize : asI32 p.size = p.size := asI32_of_lt (by omega) (by omega)
      rw [List.nil_append, seek, hsize, if_pos (by omega)]
      simp
  | cons q pre ih =>
      rw [List.cons_append, span_cons] at hspan
      rw [span_cons] at hlow hhigh
      have hlt : span (pre ++ p :: post) = span pre + (p.size + span post) := by rw [span_append, span_cons]
      have hsize : asI32 q.size = q.size := asI32_of_lt (by omega) (by omega)
      have hrest : asI32 ((i : Int) - q.size) = ((i - q.size : Nat) : Int) := by
        rw [asI32_of_lt (by omega) (by omega)]
        omega
      rw [List.cons_append, seek, hsize, if_neg (by omega), hrest, ih (by omega) (by omega) (by omega), span_cons, List.length_cons]
      refine Prod.ext ?_ ?_ <;> dsimp only <;> omega

theorem seek_past {n : Nat} (hlow : span l ≤ i) (hi : i < 2 ^ 31) : (seek l i n).2 = n + l.length := by
  induction l generalizing i n with
  | nil => rfl
  | cons q l ih =>
      rw [span_cons] at hlow
      have hsize : asI32 q.size = q.size := asI32_of_lt (by omega) (by omega)
      have hrest : asI32 ((i : Int) - q.size) = ((i - q.size : Nat) : Int) := by
        rw [asI32_of_lt (by omega) (by omega)]
        omega
      rw [seek, hsize, if_neg (by omega), hrest, ih (by omega) (by omega), List.length_cons]
      omega

/-- An offset that is negative as an `i32` is below every piece. -/
theorem seek_negative {n : Nat} {smallOff : Int} (hsize : p.size < 2 ^ 31) (h : smallOff < 0) :
    seek (p :: post) smallOff n = (smallOff, n) := by
  have hp : asI32 p.size = p.size := asI32_of_lt (by omega) (by omega)
  rw [seek, hp, if_pos (by omega)]

/-- Pieces in spaces of one endianness that make up the unified range. -/
structure Proper (bigEndian : Int → Bool) (big : Bool) (r : JoinRecord) : Prop where
  ne_nil : r.pieces ≠ []
  endian : ∀ p ∈ r.pieces, p.space.any bigEndian = big
  span_eq : span r.pieces = r.unifiedSize
  small : r.unifiedSize < 2 ^ 31

theorem position_bounds {count steps : Nat} (h : steps < count) :
    ¬ (position big count steps < 0 ∨ position big count steps = count) := by
  simp only [position]
  split <;> omega

theorem getAt_position (big : Bool) {pieces : List VarnodeData} (h : walk big pieces = pre ++ p :: post) :
    getAt pieces (position big pieces.length pre.length) = .ok p := by
  have hlen : pre.length < pieces.length := by
    have := congrArg List.length h
    rw [length_walk, List.length_append, List.length_cons] at this
    omega
  have hget : (walk big pieces)[pre.length]? = some p := by
    rw [h, List.getElem?_append_right (Nat.le_refl _), Nat.sub_self, List.getElem?_cons_zero]
  cases big with
  | true => exact getAt_eq hget
  | false =>
      have hpos : position false pieces.length pre.length = ((pieces.length - 1 - pre.length : Nat) : Int) := by
        rw [position, if_neg Bool.false_ne_true]
        omega
      rw [hpos]
      apply getAt_eq
      have hrev : pieces.reverse[pre.length]? = some p := hget
      rwa [List.getElem?_reverse hlen] at hrev

/-- What is returned once the search for the piece is over. -/
def addressAt (pieces : List VarnodeData) (smallOff pos : Int) : Outcome (Location × Int) :=
  if pos < 0 ∨ pos = pieces.length then pure (⟨none, 0⟩, pos)
  else do
    let piece ← getAt pieces pos
    pure (⟨piece.space, (piece.offset + asU64 smallOff) % 2 ^ 64⟩, pos)

theorem getEquivalentAddress_eq (h : r.Proper bigEndian big) (i : Nat) :
    r.getEquivalentAddress bigEndian (r.unifiedOffset + i) = addressAt r.pieces (seek (walk big r.pieces) (asI32 i) 0).1
      (position big r.pieces.length (seek (walk big r.pieces) (asI32 i) 0).2) := by
  obtain ⟨p, l, hpieces⟩ := List.exists_cons_of_ne_nil h.ne_nil
  have hhead : r.pieces.head? = some p := congrArg List.head? hpieces
  have hendian : p.space.any bigEndian = big := h.endian p (hpieces ▸ List.mem_cons_self)
  have hoff : ((r.unifiedOffset + i : Nat) : Int) - r.unifiedOffset = i := by omega
  rw [getEquivalentAddress, if_neg (by omega)]
  dsimp only
  rw [hhead]
  simp only [hendian, hoff]
  cases big <;> rfl

theorem getEquivalentAddress_split (h : r.Proper bigEndian big) (hwalk : walk big r.pieces = pre ++ p :: post)
    (hlow : span pre ≤ i) (hhigh : i < span pre + p.size) : r.getEquivalentAddress bigEndian (r.unifiedOffset + i) =
      .ok (⟨p.space, (p.offset + (i - span pre)) % 2 ^ 64⟩, position big r.pieces.length pre.length) := by
  have hspan : span (pre ++ p :: post) = r.unifiedSize := by rw [← hwalk, span_walk, h.span_eq]
  have hsmall := h.small
  have hsum := hspan
  rw [span_append, span_cons] at hsum
  have hlen : pre.length < r.pieces.length := by
    have := congrArg List.length hwalk
    rw [length_walk, List.length_append, List.length_cons] at this
    omega
  rw [getEquivalentAddress_eq h, hwalk, asI32_of_lt (by omega) (by omega), seek_split (by omega) hlow hhigh]
  rw [addressAt, Nat.zero_add, if_neg (position_bounds hlen), getAt_position big hwalk, ok_bind]
  have hu : asU64 ((i : Int) - span pre) = i - span pre := by
    simp only [asU64]
    omega
  rw [hu]
  rfl

theorem getEquivalentAddress_past (h : r.Proper bigEndian big) (hlow : r.unifiedSize ≤ i) (hi : i < 2 ^ 31) :
    ∃ pos, r.getEquivalentAddress bigEndian (r.unifiedOffset + i) = .ok (⟨none, 0⟩, pos) := by
  have hpast := seek_past (l := walk big r.pieces) (n := 0) (by rwa [span_walk, h.span_eq]) hi
  rw [getEquivalentAddress_eq h, asI32_of_lt (by omega) (by omega), hpast, Nat.zero_add, length_walk, addressAt, if_pos]
  · exact ⟨_, rfl⟩
  · simp only [position]
    split <;> omega

/-- From 2^31 on an offset finds the first piece. -/
theorem getEquivalentAddress_negative (h : r.Proper bigEndian big) (hwalk : walk big r.pieces = p :: post)
    (hlow : 2 ^ 31 ≤ i) (hi : i < 2 ^ 32) : r.getEquivalentAddress bigEndian (r.unifiedOffset + i) =
      .ok (⟨p.space, (p.offset + asU64 (i - 2 ^ 32)) % 2 ^ 64⟩, position big r.pieces.length 0) := by
  have hspan : span (p :: post) = r.unifiedSize := by rw [← hwalk, span_walk, h.span_eq]
  have hsmall := h.small
  rw [span_cons] at hspan
  have hneg : asI32 i = (i : Int) - 2 ^ 32 := by
    simp only [asI32, Int.bmod_def]
    omega
  have hlen : 0 < r.pieces.length := List.length_pos_iff.mpr h.ne_nil
  rw [getEquivalentAddress_eq h, hwalk, hneg, seek_negative (by omega) (by omega)]
  have hfirst : walk big r.pieces = [] ++ p :: post := hwalk
  have hget : getAt r.pieces (position big r.pieces.length 0) = .ok p := getAt_position big hfirst
  rw [addressAt, if_neg (position_bounds hlen), hget, ok_bind]
  rfl

/-- Every offset in the range of a record has its byte. -/
theorem getEquivalentAddress_bytes (h : r.Proper bigEndian big) {byte : Location} (hi : (bytes big r.pieces)[i]? = some byte) :
    ∃ pos, r.getEquivalentAddress bigEndian (r.unifiedOffset + i) = .ok (byte, pos) := by
  obtain ⟨hlt, -⟩ := List.getElem?_eq_some_iff.mp hi
  obtain ⟨pre, p, post, hwalk, hlow, hhigh⟩ := Segments.exists_split pieceBytes (l := walk big r.pieces) hlt
  rw [length_flatMap_pieceBytes] at hlow hhigh
  rw [length_pieceBytes] at hhigh
  have hinside : i - span pre < (pieceBytes p).length := by rw [length_pieceBytes]; omega
  have hget := @Segments.getElem?_split _ _ pieceBytes pre post p _ hinside
  rw [length_flatMap_pieceBytes, Nat.add_sub_cancel' hlow, getElem?_pieceBytes (by omega), ← hwalk] at hget
  rw [bytes, hget] at hi
  exact ⟨_, Option.some.inj hi ▸ getEquivalentAddress_split h hwalk hlow hhigh⟩

end JoinRecord

end GhidraDecompiler.Translate
