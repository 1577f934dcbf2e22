import GhidraDecompiler.Marshal.PackedBytes

namespace GhidraDecompiler.Marshal.PackedDecode

open PackedFormat PackedEncode

section Cursor

variable {d : PackedDecode} {pos : Nat} {b : Byte} {bytes post : List Byte}

/-- All of the buffer may be read. -/
def Ready (d : PackedDecode) : Prop := d.buffer.length ≤ d.limit

theorem drop_append_length (h : d.buffer.drop pos = bytes ++ post) : d.buffer.drop (pos + bytes.length) = post := by
  rw [← List.drop_drop, h, List.drop_left]

theorem drop_succ (h : d.buffer.drop pos = b :: post) : d.buffer.drop (pos + 1) = post := by
  rw [← List.drop_drop, h]
  rfl

theorem pos_lt (h : d.buffer.drop pos = bytes ++ post) (hpost : post ≠ []) : pos + bytes.length < d.buffer.length := by
  have hlen := congrArg List.length h
  rw [List.length_drop, List.length_append] at hlen
  have := List.length_pos_iff.mpr hpost
  omega

theorem getByte_eq (h : d.buffer.drop pos = b :: post) : d.getByte pos = b := by
  have hhead := congrArg (·[0]?) h
  simp only [List.getElem?_drop, Nat.add_zero, List.getElem?_cons_zero] at hhead
  rw [getByte, List.getD, hhead, Option.getD_some]

theorem getNextByte_eq (hd : d.Ready) (h : d.buffer.drop pos = b :: post) (hpost : post ≠ []) :
    d.getNextByte pos = .ok (b, pos + 1) := by
  have hpos : pos + [b].length < d.buffer.length := pos_lt h hpost
  rw [List.length_singleton] at hpos
  rw [Ready] at hd
  rw [getNextByte, if_neg (by omega), getByte_eq h]

theorem nextCur_eq (hd : d.Ready) (h : d.buffer.drop d.curPos = b :: post) (hpost : post ≠ []) :
    d.nextCur = .ok (b, { d with curPos := d.curPos + 1 }) := by
  rw [nextCur, getNextByte_eq hd h hpost]
  rfl

theorem nextEnd_eq (hd : d.Ready) (h : d.buffer.drop d.endPos = b :: post) (hpost : post ≠ []) :
    d.nextEnd = .ok (b, { d with endPos := d.endPos + 1 }) := by
  rw [nextEnd, getNextByte_eq hd h hpost]
  rfl

theorem advancePosition_eq (hd : d.Ready) (h : d.buffer.drop pos = bytes ++ post) (hpost : post ≠ []) :
    advancePosition d.limit pos bytes.length = .ok (pos + bytes.length) := by
  have hpos := pos_lt h hpost
  rw [Ready] at hd
  rw [advancePosition, if_neg (by omega)]

end Cursor

section Headers

variable {d : PackedDecode} {pos : Nat} {header t : Byte} {id : BitVec 32} {hdr post : List Byte}

theorem headerId_eq (hd : d.Ready) (hh : HeaderOf header id hdr) (h : d.buffer.drop pos = hdr ++ post) (hpost : post ≠ []) :
    d.getByte pos &&& headerMask = header ∧ d.headerId pos (d.getByte pos) = .ok id := by
  cases hh with
  | short b kind extend value =>
      rw [getByte_eq h]
      refine ⟨kind, ?_⟩
      rw [headerId, if_neg (by simpa using extend), value]
      rfl
  | extended b e kind extend value ne =>
      rw [getByte_eq h]
      refine ⟨kind, ?_⟩
      have hpos := pos_lt h hpost
      have hplus : d.getBytePlus1 pos = .ok e := by
        rw [Ready] at hd
        rw [getBytePlus1, if_neg (by simp at hpos; omega), getByte_eq (drop_succ h)]
      rw [headerId, if_pos extend, hplus, ← value]
      rfl

theorem readAttributeHeader_eq (hd : d.Ready) (hh : HeaderOf header id hdr) (h : d.buffer.drop d.curPos = hdr ++ t :: post)
    (hpost : post ≠ []) :
    d.readAttributeHeader = .ok (t, { d with curPos := d.curPos + hdr.length + 1 }) := by
  cases hh with
  | short b kind extend value =>
      have hnext : d.nextCur = .ok (b, { d with curPos := d.curPos + 1 }) := nextCur_eq hd h (by simp)
      have htype : nextCur { d with curPos := d.curPos + 1 } = .ok (t, { d with curPos := d.curPos + 1 + 1 }) :=
        nextCur_eq hd (drop_succ h) hpost
      simp only [readAttributeHeader, hnext, Bind.bind, Except.bind, extend, ne_eq, not_true_eq_false, if_false, htype]
      rfl
  | extended b e kind extend value ne =>
      have hnext : d.nextCur = .ok (b, { d with curPos := d.curPos + 1 }) := nextCur_eq hd h (by simp)
      have hnext' : nextCur { d with curPos := d.curPos + 1 } = .ok (e, { d with curPos := d.curPos + 1 + 1 }) :=
        nextCur_eq hd (drop_succ h) (by simp)
      have htype : nextCur { d with curPos := d.curPos + 1 + 1 } = .ok (t, { d with curPos := d.curPos + 1 + 1 + 1 }) :=
        nextCur_eq hd (drop_succ (drop_succ h)) hpost
      simp only [readAttributeHeader, hnext, Bind.bind, Except.bind, extend, ne_eq, not_false_eq_true, if_true, hnext', htype]
      rfl

end Headers

section Integers

variable {d : PackedDecode} {val : Word} {post : List Byte}

theorem readPieces_eq (hd : d.Ready) (n : Nat) (h : d.buffer.drop d.curPos = writePieces val n ++ post) (hpost : post ≠ []) :
    readPieces n (val >>> (7 * n)) d = .ok (val, { d with curPos := d.curPos + n }) := by
  induction n generalizing d with
  | zero => simp [readPieces]
  | succ n ih =>
      rw [writePieces, List.cons_append] at h
      have hnext := nextCur_eq hd h (by simp [hpost])
      simp only [readPieces, hnext, Bind.bind, Except.bind, piece_eq]
      rw [rawdataBitsperbyte, DigitGroups.shiftLeft_or_digit]
      have hrest : readPieces n (val >>> (7 * n)) { d with curPos := d.curPos + 1 } = _ := ih hd (drop_succ h)
      rw [hrest]
      simp only [Nat.add_assoc, Nat.add_comm 1]

theorem readInteger_eq (hd : d.Ready) (h : d.buffer.drop d.curPos = writePieces val (lenCode val) ++ post) (hpost : post ≠ []) :
    d.readInteger (lenCode val) = .ok (val, { d with curPos := d.curPos + lenCode val }) := by
  have hzero : val >>> (7 * lenCode val) = 0 := by
    apply BitVec.eq_of_toNat_eq
    rw [BitVec.toNat_ushiftRight, Nat.shiftRight_eq_div_pow, Nat.div_eq_of_lt (val_lt val)]
    rfl
  rw [readInteger, ← hzero, readPieces_eq hd _ h hpost]

/-- The type byte before the pieces of an integer. -/
theorem typeByte_integer {t : Nat} (ht : t < 16) (val : Word) :
    (BitVec.ofNat 8 t <<< typecodeShift ||| BitVec.ofNat 8 (lenCode val)) >>> typecodeShift = BitVec.ofNat 8 t ∧
      readLengthCode (BitVec.ofNat 8 t <<< typecodeShift ||| BitVec.ofNat 8 (lenCode val)) = lenCode val := by
  have hle := lenCode_le val
  obtain ⟨hcode, hlen⟩ := typeByte_bits ⟨t, ht⟩ ⟨lenCode val, by omega⟩
  refine ⟨hcode, ?_⟩
  rw [readLengthCode, hlen, BitVec.toNat_ofNat]
  change lenCode val % 2 ^ 8 = lenCode val
  omega

end Integers

section Skipping

variable {d : PackedDecode} {t : Byte} {id : BitVec 32} {payload post : List Byte}

/-- The type byte and what follows it: nothing, the pieces of an integer, or a text
with its length. -/
inductive BodyOf : Byte → List Byte → Prop
  | flag (t : Byte) (ht : t >>> typecodeShift = typecodeBoolean ∨ t >>> typecodeShift = typecodeSpecialspace) : BodyOf t []
  | integer (t : Nat) (ht : t ∈ [2, 3, 4, 5]) (val : Word) :
      BodyOf (BitVec.ofNat 8 t <<< typecodeShift ||| BitVec.ofNat 8 (lenCode val)) (writePieces val (lenCode val))
  | text (bytes : List Byte) (len : Word) (hlen : len.toNat = bytes.length) (hsmall : bytes.length < 2 ^ 32) :
      BodyOf (typecodeString <<< typecodeShift ||| BitVec.ofNat 8 (lenCode len)) (writePieces len (lenCode len) ++ bytes)

theorem skipAttributeRemaining_eq (hd : d.Ready) (hb : BodyOf t payload) (h : d.buffer.drop d.curPos = payload ++ post)
    (hpost : post ≠ []) : d.skipAttributeRemaining t = .ok { d with curPos := d.curPos + payload.length } := by
  cases hb with
  | flag _ ht =>
      rw [skipAttributeRemaining, if_pos ht]
      rfl
  | integer t ht val =>
      have hlt : ∀ t ∈ [2, 3, 4, 5], t < 16 ∧ BitVec.ofNat 8 t ≠ typecodeBoolean ∧ BitVec.ofNat 8 t ≠ typecodeSpecialspace ∧
          BitVec.ofNat 8 t ≠ typecodeString := by
        decide
      obtain ⟨ht, hbool, hspecial, hstring⟩ := hlt t ht
      obtain ⟨hcode, hlen⟩ := typeByte_integer ht val
      have hadvance := advancePosition_eq hd h hpost
      rw [length_writePieces] at hadvance
      rw [skipAttributeRemaining, hcode, if_neg (by simp [hbool, hspecial]), if_neg hstring, hlen, hadvance, length_writePieces]
      rfl
  | text bytes len hlen hsmall =>
      rw [List.append_assoc] at h
      obtain ⟨hcode, hlength⟩ := typeByte_integer (t := 7) (by decide) len
      have hread := readInteger_eq hd h (by simp [hpost])
      have hrest := drop_append_length h
      rw [length_writePieces] at hrest
      have htrunc : (len.setWidth 32).toNat = bytes.length := by
        rw [BitVec.toNat_setWidth, hlen, Nat.mod_eq_of_lt hsmall]
      have hadvance : advancePosition d.limit (d.curPos + lenCode len) bytes.length = _ := advancePosition_eq hd hrest hpost
      have hcode' : (typecodeString <<< typecodeShift ||| BitVec.ofNat 8 (lenCode len)) >>> typecodeShift = typecodeString := hcode
      rw [skipAttributeRemaining, hcode', if_neg (by decide), if_pos rfl]
      have hlength' : readLengthCode (typecodeString <<< typecodeShift ||| BitVec.ofNat 8 (lenCode len)) = lenCode len := hlength
      simp only [hlength', hread, Bind.bind, Except.bind, htrunc, hadvance, List.length_append, length_writePieces, Nat.add_assoc]
      rfl

theorem skipAttribute_eq {hdr : List Byte} (hd : d.Ready) (hh : HeaderOf attributeHeader id hdr) (hb : BodyOf t payload)
    (h : d.buffer.drop d.curPos = (hdr ++ t :: payload) ++ post) (hpost : post ≠ []) :
    d.skipAttribute = .ok { d with curPos := d.curPos + (hdr ++ t :: payload).length } := by
  rw [List.append_assoc, List.cons_append] at h
  have hread := readAttributeHeader_eq hd hh h (by simp [hpost])
  have hrest := drop_succ (drop_append_length h)
  have hskip : skipAttributeRemaining { d with curPos := d.curPos + hdr.length + 1 } t = _ :=
    skipAttributeRemaining_eq hd hb hrest hpost
  have hpos : d.curPos + hdr.length + 1 + payload.length = d.curPos + (hdr ++ t :: payload).length := by
    rw [List.length_append, List.length_cons]
    omega
  simp only [skipAttribute, hread, Bind.bind, Except.bind, hskip, hpos]

end Skipping

end GhidraDecompiler.Marshal.PackedDecode

namespace GhidraDecompiler.Marshal.Attribute

open PackedFormat PackedEncode PackedDecode

/-- The id under which the attribute is found. -/
def id : Attribute → BitVec 32
  | .bool attribId _ => attribId.id
  | .signedInteger attribId _ => attribId.id
  | .unsignedInteger attribId _ => attribId.id
  | .string attribId _ => attribId.id
  | .stringIndexed attribId index _ => attribId.id + index
  | .space attribId _ => attribId.id
  | .opcode attribId _ => attribId.id

/-- Texts are shorter than the lengths that are skipped. -/
def Short : Attribute → Prop
  | .string _ val => val.utf8ByteSize < 2 ^ 32
  | .stringIndexed _ _ val => val.utf8ByteSize < 2 ^ 32
  | _ => True

@[simp] theorem length_stringBytes (val : String) : (stringBytes val).length = val.utf8ByteSize := by
  rw [stringBytes, List.length_map, Array.length_toList]
  rfl

theorem text_body {val : String} (h : val.utf8ByteSize < 2 ^ 32) : ∃ t payload,
    writeInteger (typecodeString <<< typecodeShift) (BitVec.ofNat 64 val.utf8ByteSize) ++ stringBytes val = t :: payload ∧
      BodyOf t payload := by
  refine ⟨_, _, rfl, .text _ _ ?_ ?_⟩
  · rw [BitVec.toNat_ofNat, length_stringBytes]
    omega
  · rw [length_stringBytes]
    exact h

theorem bytes_eq (a : Attribute) (h : a.Short) :
    ∃ t payload, a.bytes = writeHeader attributeHeader a.id ++ t :: payload ∧ BodyOf t payload := by
  cases a with
  | bool attribId val =>
      refine ⟨_, [], rfl, .flag _ ?_⟩
      cases val <;> decide
  | signedInteger attribId val =>
      simp only [bytes, writeSignedInteger]
      split
      · exact ⟨_, _, rfl, .integer 3 (by decide) _⟩
      · exact ⟨_, _, rfl, .integer 2 (by decide) _⟩
  | unsignedInteger attribId val => exact ⟨_, _, rfl, .integer 4 (by decide) _⟩
  | string attribId val =>
      obtain ⟨t, payload, heq, hbody⟩ := text_body h
      exact ⟨t, payload, by rw [bytes, writeString, heq]; rfl, hbody⟩
  | stringIndexed attribId index val =>
      obtain ⟨t, payload, heq, hbody⟩ := text_body h
      exact ⟨t, payload, by rw [bytes, writeStringIndexed, heq]; rfl, hbody⟩
  | space attribId spc =>
      simp only [bytes, writeSpace]
      split
      · exact ⟨_, [], rfl, .flag _ (by decide)⟩
      · exact ⟨_, [], rfl, .flag _ (by decide)⟩
      · exact ⟨_, [], rfl, .flag _ (by decide)⟩
      · split
        · exact ⟨_, [], rfl, .flag _ (by decide)⟩
        · exact ⟨_, [], rfl, .flag _ (by decide)⟩
      · exact ⟨_, _, rfl, .integer 5 (by decide) _⟩
  | opcode attribId opc => exact ⟨_, _, rfl, .integer 2 (by decide) _⟩

end GhidraDecompiler.Marshal.Attribute
