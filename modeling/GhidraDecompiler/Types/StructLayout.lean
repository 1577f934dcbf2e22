import Mathlib.Data.List.Induction
import GhidraDecompiler.Types.DecodeStruct

/-! Where the members of a decoded structure lie. -/

namespace GhidraDecompiler.Types

open Fallible

namespace BitRange

/-- The position of the first bit in memory, counted from the begin of the structure. -/
def startBit (a : BitRange) : Int :=
  if a.isBigEndian then 8 * (a.byteOffset + a.byteSize) - a.leastSigBit - a.numBits
  else 8 * a.byteOffset + a.leastSigBit

def endBit (a : BitRange) : Int := a.startBit + a.numBits

/-- A range as it is decoded: the container ends with the last byte that is needed. -/
structure Decoded (a : BitRange) : Prop where
  byteOffset : 0 ≤ a.byteOffset
  leastSigBit : 0 ≤ a.leastSigBit
  numBits : 0 ≤ a.numBits
  byteSize : a.byteSize = (a.leastSigBit + a.numBits + 7) / 8

variable {a b : BitRange}

theorem overlapCode_eq_neg_one (h : a.isBigEndian = b.isBigEndian) :
    a.overlapCode b = -1 ↔ a.endBit ≤ b.startBit := by
  cases ha : a.isBigEndian with
  | true =>
      rw [ha] at h
      simp only [overlapCode, translateLsb, endBit, startBit, ha, ← h, if_true, true_and, not_true_eq_false, false_and,
        if_false]
      constructor
      · intro hc
        split_ifs at hc <;> omega
      · intro hle
        rw [if_pos (by omega)]
  | false =>
      rw [ha] at h
      simp only [overlapCode, translateLsb, endBit, startBit, ha, ← h, Bool.false_eq_true, if_false, false_and,
        not_false_eq_true, true_and]
      constructor
      · intro hc
        split_ifs at hc <;> omega
      · intro hle
        rw [if_pos (by omega)]

theorem Decoded.startBit_ge (h : a.Decoded) : 8 * a.byteOffset ≤ a.startBit := by
  obtain ⟨h₁, h₂, h₃, h₄⟩ := h
  simp only [startBit]
  split_ifs <;> omega

theorem Decoded.endBit_le (h : a.Decoded) : a.endBit ≤ 8 * (a.byteOffset + a.byteSize) := by
  obtain ⟨h₁, h₂, h₃, h₄⟩ := h
  simp only [endBit, startBit]
  split_ifs <;> omega

/-- The smallest container of whole bytes is what the bits take. -/
theorem Decoded.minimizeContainer (h : a.Decoded) (hb : a.isByteRange = true) :
    a.minimizeContainer.byteOffset = a.startBit / 8 ∧ a.minimizeContainer.byteSize = a.numBits / 8 ∧
      a.startBit % 8 = 0 ∧ a.numBits % 8 = 0 := by
  obtain ⟨h₁, h₂, h₃, h₄⟩ := h
  simp only [isByteRange, decide_eq_true_eq] at hb
  simp only [BitRange.minimizeContainer, startBit]
  cases ha : a.isBigEndian with
  | true =>
      simp only [if_true]
      split_ifs <;> simp only <;> omega
  | false =>
      simp only [Bool.false_eq_true, if_false]
      split_ifs <;> simp only <;> omega

theorem Decoded.startBit_div (h : a.Decoded) (hfirst : a.leastSigBit = 0 ∨ a.isBigEndian = true) :
    a.startBit / 8 = a.byteOffset := by
  obtain ⟨h₁, h₂, h₃, h₄⟩ := h
  simp only [startBit]
  cases ha : a.isBigEndian with
  | true =>
      rw [if_pos rfl]
      omega
  | false =>
      rw [if_neg (by decide)]
      rw [ha] at hfirst
      simp only [Bool.false_eq_true, or_false] at hfirst
      omega

end BitRange

open BitRange

def TypeField.HasByte (x : TypeField) (byte : Int) : Prop := x.offset ≤ byte ∧ byte < x.offset + x.tp.size

def TypeBitField.HasBit (x : TypeBitField) (bit : Int) : Prop := x.bits.startBit ≤ bit ∧ bit < x.bits.endBit

namespace Struct

/-- The fields are in order, apart and inside of the structure, and so are the bits of
the bitfields, none of which is in a byte of a field. -/
structure WellFormed (s : Struct) : Prop where
  sorted : s.field.Pairwise fun x y => x.offset ≤ y.offset
  disjoint : s.field.Pairwise fun x y => ∀ byte, ¬ (x.HasByte byte ∧ y.HasByte byte)
  inside : ∀ x ∈ s.field, 0 ≤ x.offset ∧ x.offset + x.tp.size ≤ s.size
  bitSorted : s.bitfield.Pairwise fun x y => x.bits.overlapCode y.bits = -1
  bitDisjoint : s.bitfield.Pairwise fun x y => ∀ bit, ¬ (x.HasBit bit ∧ y.HasBit bit)
  bitInside : ∀ x ∈ s.bitfield, (0 ≤ x.bits.byteOffset ∧ x.bits.byteOffset + x.bits.byteSize ≤ s.size) ∧
    ∀ bit, x.HasBit bit → 0 ≤ bit ∧ bit < 8 * s.size
  apart : ∀ x ∈ s.bitfield, ∀ y ∈ s.field, ∀ bit, ¬ (x.HasBit bit ∧ y.HasByte (bit / 8))

/-- A bitfield that is taken below the computed end, because the last bitfield is below
it, starts behind every ordinary field so far. -/
def CleanStep (types : TypeFactory) (st : Struct × FieldAccum) : Element → Prop
  | .bitfield ident offset size first name tp =>
      ∀ cur, TypeBitField.decode types ident offset size first name tp = .ok cur →
        cur.bits.byteOffset < st.2.calcSize → st.1.previousOverlaps cur.bits = .ok false →
        ∀ x ∈ st.1.field, x.offset + x.tp.size ≤ cur.bits.startBit / 8
  | _ => True

def initAccum : FieldAccum := ⟨-1, 0, 1, ""⟩

def Clean (types : TypeFactory) (s : Struct) (elements : List Element) : Prop :=
  ∀ pre e post st, elements = pre ++ e :: post → pre.foldlM (decodeElement types) (s, initAccum) = .ok st →
    CleanStep types st e

/-- A bitfield with bits, whose first one is at the begin of its container when it takes
whole bytes. -/
def Plain : Element → Prop
  | .bitfield _ _ size first _ _ => 0 < size ∧ (size % 8 = 0 → first % 8 = 0 → first = 0)
  | _ => True

end Struct

variable {types : TypeFactory} {s s' : Struct} {accum accum' : FieldAccum} {e : Element}
  {st st' : Struct × FieldAccum}

theorem i32_eq_ok {x y : Int} (h : i32 x = .ok y) : y = x := by
  rw [i32] at h
  split at h <;> cases h
  rfl

theorem TypeBitField.decode_eq_ok {ident offset size first : Int} {name : String} {tp : Datatype} {cur : TypeBitField}
    (h : TypeBitField.decode types ident offset size first name tp = .ok cur) :
    cur.bits.Decoded ∧ cur.bits.isBigEndian = types.bigEndian ∧ cur.bits.byteOffset = offset ∧
      cur.bits.numBits = size ∧ cur.bits.leastSigBit = first := by
  rw [TypeBitField.decode] at h
  split_ifs at h with h₁ h₂ h₃
  obtain ⟨most, hmost, h⟩ := bind_eq_ok.mp h
  obtain ⟨bits, hbits, h⟩ := bind_eq_ok.mp h
  cases i32_eq_ok hmost
  cases i32_eq_ok hbits
  cases h
  exact ⟨⟨by simp only; omega, by simp only; omega, by simp only; omega, rfl⟩, rfl, rfl, rfl, rfl⟩

namespace Struct

/-- What a `<field>` does when it is taken. -/
structure TookField (st st' : Struct × FieldAccum) (cur : TypeField) : Prop where
  offset_nonneg : 0 ≤ cur.offset
  lastOff_le : st.2.lastOff ≤ cur.offset
  calcSize_le : st.2.calcSize ≤ cur.offset
  fits : cur.offset + cur.tp.size ≤ st.1.size
  size : st'.1.size = st.1.size
  field : st'.1.field = st.1.field ++ [cur]
  bitfield : st'.1.bitfield = st.1.bitfield
  lastOff : st'.2.lastOff = cur.offset
  calcSize : st'.2.calcSize = cur.offset + cur.tp.size

/-- What a `<bitfield>` does when it is taken: it is kept as it is, or as the field of
the bytes it takes. -/
structure TookBits (types : TypeFactory) (st st' : Struct × FieldAccum) (cur : TypeBitField) : Prop where
  decoded : cur.bits.Decoded
  bigEndian : cur.bits.isBigEndian = types.bigEndian
  lastOff_le : st.2.lastOff ≤ cur.bits.byteOffset
  above : st.2.calcSize ≤ cur.bits.byteOffset ∨ (st.1.previousOverlaps cur.bits = .ok false ∧
    ∃ previous, st.1.bitfield.getLast? = some previous ∧ previous.bits.overlapCode cur.bits = -1)
  fits : cur.bits.byteOffset + cur.bits.byteSize ≤ st.1.size
  size : st'.1.size = st.1.size
  lastOff : st'.2.lastOff = cur.bits.byteOffset
  calcSize : st'.2.calcSize = cur.bits.byteOffset + cur.bits.byteSize
  members : (st'.1.field = st.1.field ∧ st'.1.bitfield = st.1.bitfield ++ [cur]) ∨
    (st'.1.bitfield = st.1.bitfield ∧ cur.bits.isByteRange = true ∧ ∃ x : TypeField, x.offset = cur.bits.startBit / 8 ∧
      x.tp.size = cur.bits.numBits / 8 ∧ st'.1.field = st.1.field ++ [x])

theorem overlapWarning_lastOff (s : Struct) (accum : FieldAccum) (kind name : String) :
    (s.overlapWarning accum kind name).lastOff = accum.lastOff := by
  rw [overlapWarning]
  split <;> rfl

theorem overlapWarning_calcSize (s : Struct) (accum : FieldAccum) (kind name : String) :
    (s.overlapWarning accum kind name).calcSize = accum.calcSize := by
  rw [overlapWarning]
  split <;> rfl

theorem decodeField_cases {ident offset : Int} {name : String} {tp : Datatype}
    (h : st.1.decodeField st.2 ident offset name tp = .ok st') :
    (st'.1 = st.1 ∧ st'.2.lastOff = st.2.lastOff ∧ st'.2.calcSize = st.2.calcSize) ∨
      ∃ cur, TookField st st' cur := by
  rw [decodeField, bind_eq_ok] at h
  obtain ⟨cur, hcur, h⟩ := h
  have hoff : 0 ≤ cur.offset := by
    rw [TypeField.decode] at hcur
    split_ifs at hcur <;> cases hcur <;> simp only <;> omega
  split at h
  · cases h
  split at h
  · cases h
  split at h
  · cases h
  rename_i hlast
  split at h
  · cases h
    exact .inl ⟨rfl, overlapWarning_lastOff .., overlapWarning_calcSize ..⟩
  · obtain ⟨calcSize, hcalc, h⟩ := bind_eq_ok.mp h
    cases i32_eq_ok hcalc
    split at h
    · cases h
    · cases h
      exact .inr ⟨cur, hoff, by omega, by omega, by omega, rfl, rfl, rfl, rfl, rfl⟩

theorem overlapTest_eq_ok {a b : BitRange} {code : Int} (h : a.overlapTest b = .ok code) : code = a.overlapCode b := by
  rw [BitRange.overlapTest] at h
  obtain ⟨_, -, h⟩ := bind_eq_ok.mp h
  obtain ⟨_, -, h⟩ := bind_eq_ok.mp h
  obtain ⟨_, -, h⟩ := bind_eq_ok.mp h
  obtain ⟨_, -, h⟩ := bind_eq_ok.mp h
  cases h
  rfl

theorem previousOverlaps_false {bits : BitRange} (h : s.previousOverlaps bits = .ok false) :
    ∃ previous, s.bitfield.getLast? = some previous ∧ previous.bits.overlapCode bits = -1 := by
  rw [previousOverlaps] at h
  cases hl : s.bitfield.getLast? with
  | none =>
      rw [hl] at h
      cases h
  | some previous =>
      rw [hl] at h
      obtain ⟨code, hcode, h⟩ := bind_eq_ok.mp h
      rw [pure_eq_ok, Except.ok.injEq, decide_eq_false_iff_not, not_not] at h
      exact ⟨previous, rfl, by rw [← overlapTest_eq_ok hcode, h]⟩

theorem byteField_eq_ok {cur : TypeBitField} {x : TypeField} (hd : cur.bits.Decoded)
    (hb : cur.bits.isByteRange = true) (h : byteField types cur = .ok x) :
    x.offset = cur.bits.startBit / 8 ∧ x.tp.size = cur.bits.numBits / 8 := by
  obtain ⟨hoff, hsize, -, -⟩ := hd.minimizeContainer hb
  rw [byteField] at h
  obtain ⟨dt, hdt, h⟩ := bind_eq_ok.mp h
  cases h
  refine ⟨hoff, ?_⟩
  rw [← hsize]
  rw [byteType] at hdt
  split at hdt
  · exact types.getBase_size _ _ _ hdt
  · rename_i hne
    cases hdt
    exact not_not.mp hne

theorem decodeBitField_cases {ident offset size first : Int} {name : String} {tp : Datatype}
    (h : st.1.decodeBitField types st.2 ident offset size first name tp = .ok st') :
    ∃ cur, TypeBitField.decode types ident offset size first name tp = .ok cur ∧
      ((st'.1 = st.1 ∧ st'.2.lastOff = st.2.lastOff ∧ st'.2.calcSize = st.2.calcSize ∧
        st.1.previousOverlaps cur.bits = .ok true) ∨ TookBits types st st' cur) := by
  rw [decodeBitField, bind_eq_ok] at h
  obtain ⟨cur, hcur, h⟩ := h
  obtain ⟨hd, he, -⟩ := TypeBitField.decode_eq_ok hcur
  refine ⟨cur, hcur, ?_⟩
  split at h
  · cases h
  split at h
  · cases h
  split at h
  · cases h
  rename_i hlast
  obtain ⟨left, hleft, h⟩ := bind_eq_ok.mp h
  rw [leftOut] at hleft
  cases left with
  | true =>
      cases h
      split at hleft
      · exact .inl ⟨rfl, overlapWarning_lastOff .., overlapWarning_calcSize .., hleft⟩
      · cases hleft
  | false =>
      have habove : st.2.calcSize ≤ cur.bits.byteOffset ∨ (st.1.previousOverlaps cur.bits = .ok false ∧
          ∃ previous, st.1.bitfield.getLast? = some previous ∧ previous.bits.overlapCode cur.bits = -1) := by
        split at hleft
        · exact .inr ⟨hleft, previousOverlaps_false hleft⟩
        · exact .inl (by omega)
      obtain ⟨calcSize, hcalc, h⟩ := bind_eq_ok.mp h
      cases i32_eq_ok hcalc
      simp only at h
      split at h
      · cases h
      rename_i hfits
      refine .inr ?_
      split at h
      · rename_i hb
        obtain ⟨x, hx, h⟩ := bind_eq_ok.mp h
        cases h
        obtain ⟨hoff, hsize⟩ := byteField_eq_ok hd hb hx
        exact ⟨hd, he, by omega, habove, by omega, rfl, rfl, rfl, .inr ⟨rfl, hb, x, hoff, hsize, rfl⟩⟩
      · cases h
        exact ⟨hd, he, by omega, habove, by omega, rfl, rfl, rfl, .inl ⟨rfl, rfl⟩⟩

/-- The members are laid out one behind the other, up to the computed end. -/
structure Laid (types : TypeFactory) (st : Struct × FieldAccum) : Prop where
  fields : st.1.field.Pairwise fun x y => x.offset + x.tp.size ≤ y.offset
  fieldRange : ∀ x ∈ st.1.field, 0 ≤ x.offset ∧ x.offset + x.tp.size ≤ st.2.calcSize ∧
    x.offset + x.tp.size ≤ st.1.size
  bits : st.1.bitfield.Pairwise fun x y => x.bits.endBit ≤ y.bits.startBit
  bitRange : ∀ x ∈ st.1.bitfield, x.bits.Decoded ∧ x.bits.isBigEndian = types.bigEndian ∧
    x.bits.endBit ≤ 8 * st.2.calcSize ∧ x.bits.byteOffset + x.bits.byteSize ≤ st.1.size
  apart : ∀ x ∈ st.1.bitfield, ∀ y ∈ st.1.field, x.bits.endBit ≤ 8 * y.offset ∨
    8 * (y.offset + y.tp.size) ≤ x.bits.startBit

theorem pairwise_append_single {α : Type} {R : α → α → Prop} {l : List α} {x : α} (h : l.Pairwise R)
    (hx : ∀ y ∈ l, R y x) : (l ++ [x]).Pairwise R :=
  List.pairwise_append.mpr ⟨h, List.pairwise_singleton R x, fun y hy z hz => by
    rw [List.mem_singleton.mp hz]
    exact hx y hy⟩

theorem Laid.tookField {cur : TypeField} (h : Laid types st) (ht : TookField st st' cur) : Laid types st' := by
  have hsize := cur.tp.size_nonneg
  have hlast := ht.calcSize_le
  have hfits := ht.fits
  have hoff := ht.offset_nonneg
  refine ⟨?_, fun x hx => ?_, ht.bitfield ▸ h.bits, fun x hx => ?_, fun x hx y hy => ?_⟩
  · rw [ht.field]
    refine pairwise_append_single h.fields fun x hx => ?_
    have := h.fieldRange x hx
    omega
  · rw [ht.field, List.mem_append, List.mem_singleton] at hx
    rw [ht.calcSize, ht.size]
    rcases hx with hx | rfl
    · have := h.fieldRange x hx
      omega
    · omega
  · rw [ht.bitfield] at hx
    obtain ⟨hd, he, hend, hin⟩ := h.bitRange x hx
    rw [ht.calcSize, ht.size]
    exact ⟨hd, he, by omega, hin⟩
  · rw [ht.bitfield] at hx
    rw [ht.field, List.mem_append, List.mem_singleton] at hy
    rcases hy with hy | rfl
    · exact h.apart x hx y hy
    · have := (h.bitRange x hx).2.2.1
      omega

/-- Every bitfield so far ends before one that is taken. -/
theorem Laid.endBit_le {cur x : TypeBitField} (h : Laid types st) (ht : TookBits types st st' cur)
    (hx : x ∈ st.1.bitfield) : x.bits.endBit ≤ cur.bits.startBit := by
  obtain ⟨hd, he, hend, -⟩ := h.bitRange x hx
  rcases ht.above with hle | ⟨-, previous, hlast, hcode⟩
  · have := ht.decoded.startBit_ge
    omega
  · obtain ⟨init, hinit⟩ := List.getLast?_eq_some_iff.mp hlast
    have hmem : previous ∈ st.1.bitfield := by rw [hinit]; simp
    obtain ⟨hpd, hpe, -⟩ := h.bitRange previous hmem
    rw [overlapCode_eq_neg_one (hpe.trans ht.bigEndian.symm)] at hcode
    have hp := h.bits
    rw [hinit, List.pairwise_append] at hp
    rw [hinit, List.mem_append, List.mem_singleton] at hx
    rcases hx with hx | rfl
    · have hxp := hp.2.2 x hx previous (by simp)
      have hnum := hpd.numBits
      simp only [BitRange.endBit] at hcode hxp ⊢
      omega
    · exact hcode

theorem Laid.tookBits {cur : TypeBitField} (h : Laid types st) (ht : TookBits types st st' cur)
    (hclean : st.2.calcSize ≤ cur.bits.byteOffset ∨
      ∀ x ∈ st.1.field, x.offset + x.tp.size ≤ cur.bits.startBit / 8) : Laid types st' := by
  have hstart := ht.decoded.startBit_ge
  have hend := ht.decoded.endBit_le
  have hoff := ht.decoded.byteOffset
  have hnum := ht.decoded.numBits
  have hfits := ht.fits
  have hendBit : cur.bits.endBit = cur.bits.startBit + cur.bits.numBits := rfl
  have hfields : ∀ x ∈ st.1.field, x.offset + x.tp.size ≤ cur.bits.startBit / 8 := by
    rcases hclean with hle | hall
    · intro x hx
      have := h.fieldRange x hx
      omega
    · exact hall
  have hbits : ∀ x ∈ st.1.bitfield, x.bits.endBit ≤ cur.bits.startBit := fun x hx => h.endBit_le ht hx
  have holdField : ∀ x ∈ st.1.field, 0 ≤ x.offset ∧ x.offset + x.tp.size ≤ st'.2.calcSize ∧
      x.offset + x.tp.size ≤ st'.1.size := by
    intro x hx
    have := h.fieldRange x hx
    have := hfields x hx
    rw [ht.calcSize, ht.size]
    omega
  have holdBits : ∀ x ∈ st.1.bitfield, x.bits.Decoded ∧ x.bits.isBigEndian = types.bigEndian ∧
      x.bits.endBit ≤ 8 * st'.2.calcSize ∧ x.bits.byteOffset + x.bits.byteSize ≤ st'.1.size := by
    intro x hx
    obtain ⟨hd, he, -, hin⟩ := h.bitRange x hx
    have := hbits x hx
    rw [ht.calcSize, ht.size]
    exact ⟨hd, he, by omega, hin⟩
  rcases ht.members with ⟨hf, hb⟩ | ⟨hb, hrange, x, hxo, hxs, hf⟩
  · refine ⟨hf ▸ h.fields, fun x hx => holdField x (hf ▸ hx), ?_, fun x hx => ?_, fun x hx y hy => ?_⟩
    · rw [hb]
      exact pairwise_append_single h.bits hbits
    · rw [hb, List.mem_append, List.mem_singleton] at hx
      rcases hx with hx | rfl
      · exact holdBits x hx
      · rw [ht.calcSize, ht.size]
        exact ⟨ht.decoded, ht.bigEndian, hend, hfits⟩
    · rw [hf] at hy
      rw [hb, List.mem_append, List.mem_singleton] at hx
      rcases hx with hx | rfl
      · exact h.apart x hx y hy
      · have := hfields y hy
        exact .inr (by omega)
  · obtain ⟨-, -, hmod, hnmod⟩ := ht.decoded.minimizeContainer hrange
    refine ⟨?_, fun y hy => ?_, hb ▸ h.bits, fun y hy => holdBits y (hb ▸ hy), fun y hy z hz => ?_⟩
    · rw [hf]
      exact pairwise_append_single h.fields fun y hy => hxo ▸ hfields y hy
    · rw [hf, List.mem_append, List.mem_singleton] at hy
      rcases hy with hy | rfl
      · exact holdField y hy
      · rw [ht.calcSize, ht.size]
        omega
    · rw [hb] at hy
      rw [hf, List.mem_append, List.mem_singleton] at hz
      rcases hz with hz | rfl
      · exact h.apart y hy z hz
      · have := hbits y hy
        exact .inl (by omega)

theorem Laid.skipped (h : Laid types st) (hs : st'.1 = st.1) (hc : st'.2.calcSize = st.2.calcSize) :
    Laid types st' := by
  obtain ⟨s, accum⟩ := st
  obtain ⟨s', accum'⟩ := st'
  simp only at hs hc
  subst hs
  exact ⟨h.fields, fun x hx => hc ▸ h.fieldRange x hx, h.bits, fun x hx => hc ▸ h.bitRange x hx, h.apart⟩

theorem Laid.step (h : Laid types st) (hstep : decodeElement types st e = .ok st') (hclean : CleanStep types st e) :
    Laid types st' := by
  cases e with
  | field ident offset name tp =>
      rcases decodeField_cases hstep with ⟨hs, hl, hc⟩ | ⟨cur, ht⟩
      · exact h.skipped hs hc
      · exact h.tookField ht
  | bitfield ident offset size first name tp =>
      obtain ⟨cur, hcur, ⟨hs, hl, hc, -⟩ | ht⟩ := decodeBitField_cases hstep
      · exact h.skipped hs hc
      · refine h.tookBits ht ?_
        rcases ht.above with hle | ⟨hover, -⟩
        · exact .inl hle
        · rcases Int.lt_or_le cur.bits.byteOffset st.2.calcSize with hlt | hle
          · exact .inr (hclean cur hcur hlt hover)
          · exact .inl hle
  | other => cases hstep
  | malformed failure => cases hstep

theorem Laid.wellFormed (h : Laid types st) : st.1.WellFormed where
  sorted := h.fields.imp fun {x y} hxy => by
    have := x.tp.size_nonneg
    omega
  disjoint := h.fields.imp fun {x y} hxy byte hbyte => by
    obtain ⟨⟨-, h₁⟩, h₂, -⟩ := hbyte
    omega
  inside x hx := ⟨(h.fieldRange x hx).1, (h.fieldRange x hx).2.2⟩
  bitSorted := (List.Pairwise.and_mem.mp h.bits).imp fun {x y} hxy => by
    have he := (h.bitRange x hxy.1).2.1.trans (h.bitRange y hxy.2.1).2.1.symm
    exact (overlapCode_eq_neg_one he).mpr hxy.2.2
  bitDisjoint := h.bits.imp fun {x y} hxy bit hbit => by
    obtain ⟨⟨-, h₁⟩, h₂, -⟩ := hbit
    omega
  bitInside x hx := by
    obtain ⟨hd, -, -, hin⟩ := h.bitRange x hx
    refine ⟨⟨hd.byteOffset, hin⟩, fun bit hbit => ?_⟩
    have h₁ := hd.startBit_ge
    have h₂ := hd.endBit_le
    have h₃ := hd.byteOffset
    obtain ⟨h₄, h₅⟩ := hbit
    omega
  apart x hx y hy bit hbit := by
    obtain ⟨⟨h₁, h₂⟩, h₃, h₄⟩ := hbit
    rcases h.apart x hx y hy with hle | hle <;> omega

theorem run_snoc {pre : List Element} :
    (pre ++ [e]).foldlM (decodeElement types) st = .ok st' ↔
      ∃ mid, pre.foldlM (decodeElement types) st = .ok mid ∧ decodeElement types mid e = .ok st' := by
  rw [List.foldlM_append, bind_eq_ok]
  simp only [List.foldlM_cons, List.foldlM_nil, bind_pure]

theorem laid_fresh (types : TypeFactory) (name : String) (size alignment : Int) :
    Laid types (fresh name size alignment, initAccum) where
  fields := List.Pairwise.nil
  fieldRange x hx := by cases hx
  bits := List.Pairwise.nil
  bitRange x hx := by cases hx
  apart x hx := by cases hx

theorem laid_run {name : String} {size alignment : Int} {elements : List Element}
    (hrun : elements.foldlM (decodeElement types) (fresh name size alignment, initAccum) = .ok st)
    (hclean : Clean types (fresh name size alignment) elements) : Laid types st := by
  induction elements using List.reverseRecOn generalizing st with
  | nil =>
      cases hrun
      exact laid_fresh types name size alignment
  | append_singleton pre e ih =>
      obtain ⟨mid, hpre, hstep⟩ := run_snoc.mp hrun
      refine (ih hpre fun pre' x post st hsplit => ?_).step hstep (hclean pre e [] mid rfl hpre)
      exact hclean pre' x (post ++ [e]) st (by simp [hsplit])

/-- Members stay where they are. -/
theorem step_prefix (hstep : decodeElement types st e = .ok st') :
    st.1.field <+: st'.1.field ∧ st.1.bitfield <+: st'.1.bitfield := by
  cases e with
  | field ident offset name tp =>
      rcases decodeField_cases hstep with ⟨hs, -, -⟩ | ⟨cur, ht⟩
      · rw [hs]
        exact ⟨List.prefix_refl _, List.prefix_refl _⟩
      · rw [ht.field, ht.bitfield]
        exact ⟨List.prefix_append _ _, List.prefix_refl _⟩
  | bitfield ident offset size first name tp =>
      obtain ⟨cur, -, ⟨hs, -, -, -⟩ | ht⟩ := decodeBitField_cases hstep
      · rw [hs]
        exact ⟨List.prefix_refl _, List.prefix_refl _⟩
      · rcases ht.members with ⟨hf, hb⟩ | ⟨hb, -, x, -, -, hf⟩
        · rw [hf, hb]
          exact ⟨List.prefix_refl _, List.prefix_append _ _⟩
        · rw [hf, hb]
          exact ⟨List.prefix_append _ _, List.prefix_refl _⟩
  | other => cases hstep
  | malformed failure => cases hstep

theorem run_prefix {elements : List Element} (hrun : elements.foldlM (decodeElement types) st = .ok st') :
    st.1.field <+: st'.1.field ∧ st.1.bitfield <+: st'.1.bitfield := by
  induction elements generalizing st with
  | nil =>
      cases hrun
      exact ⟨List.prefix_refl _, List.prefix_refl _⟩
  | cons e elements ih =>
      rw [List.foldlM_cons, bind_eq_ok] at hrun
      obtain ⟨mid, hstep, hrun⟩ := hrun
      obtain ⟨h₁, h₂⟩ := step_prefix hstep
      obtain ⟨h₃, h₄⟩ := ih hrun
      exact ⟨h₁.trans h₃, h₂.trans h₄⟩

/-- Fields start at or below the last offset. -/
def Low (st : Struct × FieldAccum) : Prop := ∀ x ∈ st.1.field, x.offset ≤ st.2.lastOff

theorem Low.step (h : Low st) (hstep : decodeElement types st e = .ok st') (hp : Plain e) : Low st' := by
  cases e with
  | field ident offset name tp =>
      rcases decodeField_cases hstep with ⟨hs, hl, -⟩ | ⟨cur, ht⟩
      · intro x hx
        rw [hl]
        exact h x (hs ▸ hx)
      · intro x hx
        have hle := ht.lastOff_le
        rw [ht.field, List.mem_append, List.mem_singleton] at hx
        rw [ht.lastOff]
        rcases hx with hx | rfl
        · exact Int.le_trans (h x hx) hle
        · exact Int.le_refl _
  | bitfield ident offset size first name tp =>
      obtain ⟨cur, hcur, ⟨hs, hl, -, -⟩ | ht⟩ := decodeBitField_cases hstep
      · intro x hx
        rw [hl]
        exact h x (hs ▸ hx)
      · intro x hx
        have hle := ht.lastOff_le
        rw [ht.lastOff]
        rcases ht.members with ⟨hf, -⟩ | ⟨-, hrange, y, hyo, -, hf⟩
        · exact Int.le_trans (h x (hf ▸ hx)) hle
        · rw [hf, List.mem_append, List.mem_singleton] at hx
          rcases hx with hx | rfl
          · exact Int.le_trans (h x hx) hle
          · obtain ⟨-, -, -, hsize, hfirst⟩ := TypeBitField.decode_eq_ok hcur
            simp only [BitRange.isByteRange, decide_eq_true_eq, hsize, hfirst] at hrange
            have hzero : cur.bits.leastSigBit = 0 := by rw [hfirst, hp.2 hrange.1 hrange.2]
            exact Int.le_of_eq (by rw [hyo, ht.decoded.startBit_div (.inl hzero)])
  | other => cases hstep
  | malformed failure => cases hstep

theorem low_run {name : String} {size alignment : Int} {elements : List Element}
    (hrun : elements.foldlM (decodeElement types) (fresh name size alignment, initAccum) = .ok st)
    (hp : ∀ e ∈ elements, Plain e) : Low st := by
  induction elements using List.reverseRecOn generalizing st with
  | nil =>
      cases hrun
      intro x hx
      cases hx
  | append_singleton pre e ih =>
      obtain ⟨mid, hpre, hstep⟩ := run_snoc.mp hrun
      exact (ih hpre fun x hx => hp x (by simp [hx])).step hstep (hp e (by simp))

/-- A bitfield that is taken below the end of a field shares its first byte with it. -/
theorem cleanStep_of_wellFormed {r : Struct} (hlow : Low st) (hp : Plain e)
    (hstep : decodeElement types st e = .ok st') (hfield : st'.1.field <+: r.field)
    (hbits : st'.1.bitfield <+: r.bitfield) (hr : r.WellFormed) : CleanStep types st e := by
  cases e with
  | bitfield ident offset size first name tp =>
      intro cur hcur hlt hover x hx
      obtain ⟨cur', hcur', ⟨-, -, -, hleft⟩ | ht⟩ := decodeBitField_cases hstep
      · rw [hcur] at hcur'
        cases hcur'
        rw [hover] at hleft
        cases hleft
      · rw [hcur] at hcur'
        cases hcur'
        by_contra hge
        have hstart := ht.decoded.startBit_ge
        have hoff : x.offset ≤ cur.bits.startBit / 8 := by
          have := hlow x hx
          have := ht.lastOff_le
          omega
        have hbyte : x.HasByte (cur.bits.startBit / 8) := ⟨hoff, by omega⟩
        have hnum : 0 < cur.bits.numBits := by
          rw [(TypeBitField.decode_eq_ok hcur).2.2.2.1]
          exact hp.1
        rcases ht.members with ⟨hf, hb⟩ | ⟨-, hrange, y, hyo, hys, hf⟩
        · have hxr : x ∈ r.field := hfield.subset (hf ▸ hx)
          have hcr : cur ∈ r.bitfield := hbits.subset (by rw [hb]; simp)
          exact hr.apart cur hcr x hxr cur.bits.startBit ⟨⟨Int.le_refl _, by simp only [BitRange.endBit]; omega⟩, hbyte⟩
        · obtain ⟨-, -, -, hmod⟩ := ht.decoded.minimizeContainer hrange
          have hpair : st'.1.field.Pairwise fun x y => ∀ byte, ¬ (x.HasByte byte ∧ y.HasByte byte) :=
            hr.disjoint.sublist hfield.sublist
          rw [hf, List.pairwise_append] at hpair
          exact hpair.2.2 x hx y (by simp) _ ⟨hbyte, by omega, by omega⟩
  | field => trivial
  | other => trivial
  | malformed => trivial

/-- A structure that is decoded is well formed if no bitfield is taken below the end of
an ordinary field; and only if, where bitfields have bits and those of whole bytes start
with their container. -/
theorem decodeFieldsStruct_wellFormed {name warning : String} {size alignment : Int} {elements : List Element}
    {r : Struct} (h : decodeFieldsStruct types (fresh name size alignment) elements = .ok (warning, r)) :
    (Clean types (fresh name size alignment) elements → r.WellFormed) ∧
      ((∀ e ∈ elements, Plain e) → r.WellFormed → Clean types (fresh name size alignment) elements) := by
  rw [decodeFieldsStruct, bind_eq_ok] at h
  obtain ⟨⟨s, accum⟩, hrun, h⟩ := h
  obtain ⟨alignSize, -, h⟩ := bind_eq_ok.mp h
  cases h
  constructor
  · intro hclean
    have hw := (laid_run hrun hclean).wellFormed
    exact ⟨hw.sorted, hw.disjoint, hw.inside, hw.bitSorted, hw.bitDisjoint, hw.bitInside, hw.apart⟩
  · intro hp hw pre e post st hsplit hpre
    subst hsplit
    change (pre ++ e :: post).foldlM (decodeElement types) (fresh name size alignment, initAccum) = .ok (s, accum) at hrun
    rw [List.foldlM_append, hpre, ok_bind, List.foldlM_cons, bind_eq_ok] at hrun
    obtain ⟨st', hstep, hrun⟩ := hrun
    obtain ⟨hfield, hbits⟩ := run_prefix hrun
    have hws : s.WellFormed :=
      ⟨hw.sorted, hw.disjoint, hw.inside, hw.bitSorted, hw.bitDisjoint, hw.bitInside, hw.apart⟩
    exact cleanStep_of_wellFormed (low_run hpre fun x hx => hp x (by simp [hx])) (hp e (by simp)) hstep hfield hbits hws

/-- Little endian base types of any size. -/
def littleTypes : TypeFactory where
  bigEndian := false
  getBase size metatype := if h : 0 ≤ size then .ok ⟨metatype, size, 1, false, h⟩ else .error .panic
  getBase_size size metatype tp h := by
    split at h <;> cases h
    rfl

theorem int4_size_nonneg : (0 : Int) ≤ 4 := by decide

def int4 : Datatype := ⟨.int, 4, 4, false, int4_size_nonneg⟩

/-- Bits in the first byte, and then a field that starts behind them. -/
theorem decodeFieldsStruct_wellFormed_bits : ∃ warning r,
    decodeFieldsStruct littleTypes (fresh "s" 8 (-1)) [.bitfield 0 0 3 0 "a" int4, .field (-1) 4 "f" int4] =
      .ok (warning, r) ∧ r.WellFormed ∧ r.field.length = 1 ∧ r.bitfield.length = 1 := by
  obtain ⟨warning, r, h, hlen⟩ : ∃ warning r, decodeFieldsStruct littleTypes (fresh "s" 8 (-1))
      [.bitfield 0 0 3 0 "a" int4, .field (-1) 4 "f" int4] = .ok (warning, r) ∧ r.field.length = 1 ∧
      r.bitfield.length = 1 := ⟨_, _, rfl, rfl, rfl⟩
  refine ⟨warning, r, h, (decodeFieldsStruct_wellFormed h).1 ?_, hlen⟩
  intro pre e post st hsplit hpre
  match pre, hsplit with
  | [], hsplit =>
      cases hsplit
      cases hpre
      intro cur _ _ _ x hx
      cases hx
  | [_], hsplit =>
      cases hsplit
      trivial
  | _ :: _ :: pre, hsplit => simp at hsplit

/-- A field of four bytes at offset 1 does not keep a later bitfield out of its first
byte when another bitfield is in byte 0. -/
theorem decodeFieldsStruct_shared : ∃ warning r,
    decodeFieldsStruct littleTypes (fresh "s" 8 (-1))
      [.bitfield 0 0 3 0 "a" int4, .field (-1) 1 "f" int4, .bitfield 1 1 3 0 "b" int4] = .ok (warning, r) ∧
    ¬ r.WellFormed := by
  refine ⟨_, _, rfl, fun hw => ?_⟩
  exact hw.apart ⟨"b", int4, ⟨1, 1, 0, 3, false⟩, 1⟩ (by decide) ⟨1, 1, "f", int4⟩ (by decide) 8
    ⟨⟨by decide, by decide⟩, by decide, by decide⟩

end Struct

end GhidraDecompiler.Types
