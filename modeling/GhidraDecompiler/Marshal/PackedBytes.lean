import GhidraDecompiler.Marshal.PackedDecode

/-! What the bytes of the encoder look like to the decoder. -/

namespace GhidraDecompiler.Marshal

open PackedFormat PackedEncode PackedDecode

section Headers

variable {header : Byte} {id : BitVec 32}

def headers : List Byte := [elementStart, elementEnd, attributeHeader]

/-- An id of twelve bits, which is what two bytes hold. -/
def SmallId (id : BitVec 32) : Prop := id.toNat < 4096

instance (id : BitVec 32) : Decidable (SmallId id) := inferInstanceAs (Decidable (_ < _))

/-- One byte, or two of which the first says so. -/
inductive HeaderOf (header : Byte) (id : BitVec 32) : List Byte → Prop
  | short (b : Byte) (kind : b &&& headerMask = header) (extend : b &&& headerextendMask = 0)
      (value : (b &&& elementidMask).setWidth 32 = id) : HeaderOf header id [b]
  | extended (b e : Byte) (kind : b &&& headerMask = header) (extend : b &&& headerextendMask ≠ 0)
      (value : extendId b e = id) (ne : e ≠ 0) : HeaderOf header id [b, e]

theorem low_bits : ∀ header ∈ headers, ∀ k : Fin 32, (header ||| BitVec.ofNat 8 k) &&& headerMask = header ∧
    (header ||| BitVec.ofNat 8 k) &&& headerextendMask = 0 ∧
    (header ||| BitVec.ofNat 8 k) &&& elementidMask = BitVec.ofNat 8 k := by
  decide

theorem low_bits_extended : ∀ header ∈ headers, ∀ k : Fin 32,
    (header ||| headerextendMask ||| BitVec.ofNat 8 k) &&& headerMask = header ∧
    (header ||| headerextendMask ||| BitVec.ofNat 8 k) &&& headerextendMask ≠ 0 ∧
    (header ||| headerextendMask ||| BitVec.ofNat 8 k) &&& elementidMask = BitVec.ofNat 8 k := by
  decide

theorem toNat_and_rawdata {w : Nat} (hw : 7 ≤ w) (x : BitVec w) : (x &&& BitVec.ofNat w (2 ^ 7 - 1)).toNat = x.toNat % 2 ^ 7 := by
  have hlt : 2 ^ 7 - 1 < 2 ^ w := (Nat.sub_lt (by decide) (by decide)).trans_le (Nat.pow_le_pow_right (by decide) hw)
  rw [BitVec.toNat_and, BitVec.toNat_ofNat, Nat.mod_eq_of_lt hlt, Nat.and_two_pow_sub_one_eq_mod]

theorem marker_bits (y : Byte) : ((y &&& rawdataMask) ||| rawdataMarker) &&& rawdataMask = y &&& rawdataMask := by
  rw [BitVec.and_or_distrib_right, BitVec.and_assoc, BitVec.and_self]
  exact BitVec.or_zero

theorem marker_ne_zero (y : Byte) : (y &&& rawdataMask) ||| rawdataMarker ≠ 0 := by
  intro h
  have hbit := congrArg (·.getLsbD 7) h
  simp [rawdataMask, rawdataMarker] at hbit

theorem extendId_eq (h : SmallId id) {b e : Byte} (hb : b &&& elementidMask = (id >>> rawdataBitsperbyte).setWidth 8)
    (he : e &&& rawdataMask = id.setWidth 8 &&& rawdataMask) : extendId b e = id := by
  rw [SmallId] at h
  have hhigh : ((id >>> 7).setWidth 8).setWidth 32 = id >>> 7 := by
    apply BitVec.eq_of_toNat_eq
    rw [BitVec.toNat_setWidth, BitVec.toNat_setWidth, BitVec.toNat_ushiftRight, Nat.shiftRight_eq_div_pow]
    omega
  have hlow : (id.setWidth 8 &&& rawdataMask).setWidth 32 = id &&& 0x7f := by
    apply BitVec.eq_of_toNat_eq
    have hbyte : (id.setWidth 8 &&& rawdataMask).toNat = id.toNat % 2 ^ 8 % 2 ^ 7 := by
      rw [← BitVec.toNat_setWidth]
      exact toNat_and_rawdata (by decide) _
    have hword : (id &&& 0x7f).toNat = id.toNat % 2 ^ 7 := toNat_and_rawdata (by decide) _
    rw [BitVec.toNat_setWidth, hbyte, hword]
    omega
  rw [extendId, hb, he, rawdataBitsperbyte, hhigh, hlow]
  exact DigitGroups.shiftLeft_or_digit 7 id 0

theorem writeHeader_headerOf (hh : header ∈ headers) (hid : SmallId id) : HeaderOf header id (writeHeader header id) := by
  rw [writeHeader]
  split
  · next hlarge =>
      rw [SmallId] at hid
      have hk : id.toNat / 2 ^ 7 < 32 := by omega
      have hhigh : (id >>> rawdataBitsperbyte).setWidth 8 = BitVec.ofNat 8 (id.toNat / 2 ^ 7) := by
        apply BitVec.eq_of_toNat_eq
        rw [BitVec.toNat_setWidth, BitVec.toNat_ushiftRight, BitVec.toNat_ofNat, Nat.shiftRight_eq_div_pow,
          rawdataBitsperbyte]
      obtain ⟨hkind, hextend, hvalue⟩ := low_bits_extended header hh ⟨_, hk⟩
      rw [hhigh]
      refine .extended _ _ hkind hextend ?_ (marker_ne_zero _)
      apply extendId_eq hid
      · rw [hhigh]
        exact hvalue
      · exact marker_bits _
  · next hsmall =>
      have hk : id.toNat < 32 := by
        have : ¬ 31 < id.toNat := hsmall
        omega
      have hbyte : id.setWidth 8 = BitVec.ofNat 8 id.toNat := by
        apply BitVec.eq_of_toNat_eq
        rw [BitVec.toNat_setWidth, BitVec.toNat_ofNat]
      obtain ⟨hkind, hextend, hvalue⟩ := low_bits header hh ⟨_, hk⟩
      rw [hbyte]
      refine .short _ hkind hextend ?_
      rw [hvalue]
      apply BitVec.eq_of_toNat_eq
      rw [BitVec.toNat_setWidth, BitVec.toNat_ofNat]
      change id.toNat % 2 ^ 8 % 2 ^ 32 = id.toNat
      omega

end Headers

section Integers

variable {val : Word}

theorem lenCode_le (val : Word) : lenCode val ≤ 10 := by
  rw [lenCode]
  split_ifs <;> decide

theorem val_lt (val : Word) : val.toNat < 2 ^ (7 * lenCode val) := by
  have hlt := val.isLt
  rw [lenCode]
  simp only [BitVec.lt_def, BitVec.ofNat_eq_ofNat, BitVec.toNat_ofNat]
  split_ifs with h
  · rw [h]
    decide
  all_goals omega

theorem piece_eq (val : Word) (n : Nat) :
    ((((val >>> (rawdataBitsperbyte * n)).setWidth 8 &&& rawdataMask) ||| rawdataMarker) &&& rawdataMask).setWidth 64 =
      DigitGroups.digit 7 val n := by
  rw [marker_bits, DigitGroups.digit, rawdataBitsperbyte]
  generalize val >>> (7 * n) = x
  apply BitVec.eq_of_toNat_eq
  have hbyte : (x.setWidth 8 &&& rawdataMask).toNat = x.toNat % 2 ^ 8 % 2 ^ 7 := by
    rw [← BitVec.toNat_setWidth]
    exact toNat_and_rawdata (by decide) _
  rw [BitVec.toNat_setWidth, hbyte, toNat_and_rawdata (by decide)]
  omega

@[simp] theorem length_writePieces (val : Word) (n : Nat) : (writePieces val n).length = n := by
  induction n with
  | zero => rfl
  | succ n ih => rw [writePieces, List.length_cons, ih]

theorem typeByte_bits : ∀ t : Fin 16, ∀ n : Fin 16,
    (BitVec.ofNat 8 t <<< typecodeShift ||| BitVec.ofNat 8 n) >>> typecodeShift = BitVec.ofNat 8 t ∧
      (BitVec.ofNat 8 t <<< typecodeShift ||| BitVec.ofNat 8 n) &&& lengthcodeMask = BitVec.ofNat 8 n := by
  decide

end Integers

end GhidraDecompiler.Marshal
