import GhidraDecompiler.Marshal.PackedReads

namespace GhidraDecompiler.Marshal

open PackedFormat PackedEncode PackedDecode

namespace Attribute

def kind : Attribute → Kind
  | .bool _ _ => .bool
  | .signedInteger _ _ => .signedInteger
  | .unsignedInteger _ _ => .unsignedInteger
  | .string _ _ => .string
  | .stringIndexed _ _ _ => .string
  | .space _ _ => .space
  | .opcode _ _ => .opcode

def value : Attribute → Value
  | .bool _ val => .bool val
  | .signedInteger _ val => .signedInteger val
  | .unsignedInteger _ val => .unsignedInteger val
  | .string _ val => .string val
  | .stringIndexed _ _ val => .string val
  | .space _ spc => .space spc
  | .opcode _ opc => .opcode opc

end Attribute

/-- The decoder finds the space again: by its index, or as the one space of its kind. -/
def AddrSpaceManager.Finds (manager : AddrSpaceManager) (spc : AddrSpace) : Prop :=
  match spc.spaceType with
  | .fspec | .iop => False
  | .join => manager.joinspace = some spc
  | .spacebase => spc.isFormalStackSpace = true ∧ manager.stackspace = some spc
  | _ => 0 ≤ spc.index ∧ spc.index < 2 ^ 31 ∧ manager.getSpace spc.index.toNat = some spc

/-- Spaces are those of the manager, and opcodes come before the last one. -/
def Attribute.Known (manager : Option AddrSpaceManager) : Attribute → Prop
  | .space _ spc => ∃ m, manager = some m ∧ m.Finds spc
  | .opcode _ opc => opc ≠ .max
  | _ => True

structure Attribute.Legal (manager : Option AddrSpaceManager) (a : Attribute) : Prop where
  small : SmallId a.id
  short : a.Short
  known : a.Known manager

namespace PackedDecode

section Reading

variable {d : PackedDecode} {id : BitVec 32} {post : List Byte}

/-- Behind the attribute, which has been read. -/
def after (d : PackedDecode) (bytes : List Byte) : PackedDecode :=
  { d with curPos := d.curPos + bytes.length, attributeRead := true }

/-- The header of an attribute and an integer. -/
theorem readHeaderInteger {t : Nat} {val : Word} (hd : d.Ready) (hid : SmallId id) (ht : t < 16)
    (h : d.buffer.drop d.curPos =
      (writeHeader attributeHeader id ++ writeInteger (BitVec.ofNat 8 t <<< typecodeShift) val) ++ post) (hpost : post ≠ []) :
    ∃ tb d₁, d.readAttributeHeader = .ok (tb, d₁) ∧ tb >>> typecodeShift = BitVec.ofNat 8 t ∧
      readLengthCode tb = lenCode val ∧ d₁.readInteger (lenCode val) =
        .ok (val, { d with curPos :=
          d.curPos + (writeHeader attributeHeader id ++ writeInteger (BitVec.ofNat 8 t <<< typecodeShift) val).length }) := by
  have hh : HeaderOf attributeHeader id (writeHeader attributeHeader id) := writeHeader_headerOf (by decide) hid
  rw [List.append_assoc, writeInteger, List.cons_append] at h
  have hread := readAttributeHeader_eq hd hh h (by simp [hpost])
  obtain ⟨hcode, hlen⟩ := typeByte_integer ht val
  refine ⟨_, _, hread, hcode, hlen, ?_⟩
  have hint := readInteger_eq (d := { d with curPos := d.curPos + (writeHeader attributeHeader id).length + 1 }) hd
    (drop_succ (drop_append_length h)) hpost
  rw [hint]
  simp only [writeInteger, List.length_append, List.length_cons, length_writePieces]
  congr 3
  omega

/-- The header of an attribute whose value is in the type byte. -/
theorem readHeaderFlag {t : Byte} (hd : d.Ready) (hid : SmallId id)
    (h : d.buffer.drop d.curPos = (writeHeader attributeHeader id ++ [t]) ++ post) (hpost : post ≠ []) :
    d.readAttributeHeader = .ok (t, { d with curPos := d.curPos + (writeHeader attributeHeader id ++ [t]).length }) := by
  have hh : HeaderOf attributeHeader id (writeHeader attributeHeader id) := writeHeader_headerOf (by decide) hid
  rw [List.append_assoc, List.singleton_append] at h
  rw [readAttributeHeader_eq hd hh h hpost, List.length_append, List.length_singleton, Nat.add_assoc]

theorem readBool_eq {val : Bool} {attribId : AttributeId} (hd : d.Ready) (hid : SmallId attribId.id)
    (h : d.buffer.drop d.curPos = writeBool attribId val ++ post) (hpost : post ≠ []) :
    d.readBool = .ok (val, d.after (writeBool attribId val)) := by
  have hheader := readHeaderFlag hd hid h hpost
  simp only [readBool, hheader, Bind.bind, Except.bind]
  cases val <;> rfl

theorem readUnsignedInteger_eq {val : Word} {attribId : AttributeId} (hd : d.Ready) (hid : SmallId attribId.id)
    (h : d.buffer.drop d.curPos = writeUnsignedInteger attribId val ++ post) (hpost : post ≠ []) :
    d.readUnsignedInteger = .ok (val, d.after (writeUnsignedInteger attribId val)) := by
  obtain ⟨tb, d₁, hheader, hcode, hlen, hint⟩ := readHeaderInteger (t := 4) hd hid (by decide) h hpost
  simp only [readUnsignedInteger, hheader, Bind.bind, Except.bind, hcode, hlen, hint]
  rfl

theorem readSignedInteger_eq {val : Word} {attribId : AttributeId} (hd : d.Ready) (hid : SmallId attribId.id)
    (h : d.buffer.drop d.curPos = writeSignedInteger attribId val ++ post) (hpost : post ≠ []) :
    d.readSignedInteger = .ok (val, d.after (writeSignedInteger attribId val)) := by
  by_cases hneg : val.toInt < 0
  · have hbytes : writeSignedInteger attribId val =
        writeHeader attributeHeader attribId.id ++ writeInteger (BitVec.ofNat 8 3 <<< typecodeShift) (-val) := by
      rw [writeSignedInteger, if_pos hneg]
      rfl
    rw [hbytes] at h ⊢
    obtain ⟨tb, d₁, hheader, hcode, hlen, hint⟩ := readHeaderInteger hd hid (by decide) h hpost
    simp only [readSignedInteger, hheader, Bind.bind, Except.bind, hcode, hlen, hint]
    exact congrArg (fun v => Except.ok (v, _)) (BitVec.neg_neg (x := val))
  · have hbytes : writeSignedInteger attribId val =
        writeHeader attributeHeader attribId.id ++ writeInteger (BitVec.ofNat 8 2 <<< typecodeShift) val := by
      rw [writeSignedInteger, if_neg hneg]
      rfl
    rw [hbytes] at h ⊢
    obtain ⟨tb, d₁, hheader, hcode, hlen, hint⟩ := readHeaderInteger hd hid (by decide) h hpost
    simp only [readSignedInteger, hheader, Bind.bind, Except.bind, hcode, hlen, hint]
    rfl

theorem opcodeTable_get (opc : OpCode) : opcodeTable[opc.ctorIdx]? = some opc := by
  cases opc <;> rfl

theorem readOpcode_eq {opc : OpCode} {attribId : AttributeId} (hd : d.Ready) (hid : SmallId attribId.id) (hopc : opc ≠ .max)
    (h : d.buffer.drop d.curPos = writeOpcode attribId opc ++ post) (hpost : post ≠ []) :
    d.readOpcode = .ok (opc, d.after (writeOpcode attribId opc)) := by
  obtain ⟨tb, d₁, hheader, hcode, hlen, hint⟩ := readHeaderInteger (t := 2) hd hid (by decide) h hpost
  have hsigned : d.readSignedInteger = .ok (BitVec.ofNat 64 opc.ctorIdx, d.after (writeOpcode attribId opc)) := by
    simp only [readSignedInteger, hheader, Bind.bind, Except.bind, hcode, hlen, hint]
    rfl
  have hval : ((BitVec.ofNat 64 opc.ctorIdx).setWidth 32).toInt = opc.ctorIdx := by
    cases opc <;> rfl
  have hlt : opc.ctorIdx < OpCode.max.ctorIdx := by
    revert hopc
    cases opc <;> decide
  simp only [readOpcode, hsigned, Bind.bind, Except.bind, hval]
  rw [if_neg (by omega), Int.toNat_natCast, opcodeTable_get]
  rfl

theorem byteArray_stringBytes (val : String) : byteArray (stringBytes val) = val.toByteArray := by
  rw [byteArray, stringBytes, List.map_map]
  have hid : (UInt8.ofBitVec ∘ UInt8.toBitVec) = id := rfl
  rw [hid, List.map_id]

theorem textOf_stringBytes (fromUtf8Lossy : List Byte → String) (val : String) :
    textOf fromUtf8Lossy (stringBytes val) = val := by
  rw [textOf, byteArray_stringBytes, String.fromUTF8?, dif_pos val.isValidUTF8]
  rfl

/-- The bytes of a text attribute. -/
def textBytes (id : BitVec 32) (val : String) : List Byte :=
  writeHeader attributeHeader id ++
    (writeInteger (typecodeString <<< typecodeShift) (BitVec.ofNat 64 val.utf8ByteSize) ++ stringBytes val)

theorem readString_eq (fromUtf8Lossy : List Byte → String) {val : String} (hd : d.Ready) (hid : SmallId id)
    (hsize : val.utf8ByteSize < 2 ^ 64) (h : d.buffer.drop d.curPos = textBytes id val ++ post) (hpost : post ≠ []) :
    d.readString fromUtf8Lossy = .ok (val, d.after (textBytes id val)) := by
  have hlen : (BitVec.ofNat 64 val.utf8ByteSize).toNat = val.utf8ByteSize := by
    rw [BitVec.toNat_ofNat, Nat.mod_eq_of_lt hsize]
  rw [textBytes, ← List.append_assoc] at h ⊢
  have h' := h
  rw [List.append_assoc] at h'
  obtain ⟨tb, d₁, hheader, hcode, hlength, hint⟩ := readHeaderInteger (t := 7) hd hid (by decide) h' (by simp [hpost])
  have hrest := drop_append_length h'
  generalize hc : d.curPos + (writeHeader attributeHeader id ++ writeInteger (7#8 <<< typecodeShift) _).length = c at hint
  have hc' : d.buffer.drop c = stringBytes val ++ post := by
    rw [← hc]
    exact hrest
  have hadvance : advancePosition d.limit c val.utf8ByteSize = .ok (c + val.utf8ByteSize) := by
    have := advancePosition_eq hd hc' hpost
    rwa [Attribute.length_stringBytes] at this
  have hpos := pos_lt hc' hpost
  rw [Attribute.length_stringBytes] at hpos
  have hlimit : d.buffer.length ≤ d.limit := hd
  have hstart : min c d.buffer.length = c := Nat.min_eq_left (by omega)
  have htake : min val.utf8ByteSize (d.buffer.length - c) = val.utf8ByteSize := Nat.min_eq_left (by omega)
  have hpad : max (min val.utf8ByteSize (d.limit - c)) val.utf8ByteSize - val.utf8ByteSize = 0 := by omega
  have hbytes : (d.buffer.drop c).take val.utf8ByteSize = stringBytes val := by
    rw [hc', ← Attribute.length_stringBytes, List.take_left]
  have hafter : d.curPos + (writeHeader attributeHeader id ++ writeInteger (typecodeString <<< typecodeShift)
      (BitVec.ofNat 64 val.utf8ByteSize) ++ stringBytes val).length = c + val.utf8ByteSize := by
    rw [List.length_append, Attribute.length_stringBytes, ← Nat.add_assoc]
    exact congrArg (· + val.utf8ByteSize) hc
  have hcode' : tb >>> typecodeShift = typecodeString := hcode
  simp only [readString, hheader, Bind.bind, Except.bind, hcode', ne_eq, not_true_eq_false, if_false, hlength, hint, hlen, hstart,
    htake, hpad, hbytes, List.replicate_zero, List.append_nil, hadvance, textOf_stringBytes, after, hafter]
  rfl

theorem readSpace_eq {spc : AddrSpace} {manager : AddrSpaceManager} {attribId : AttributeId} (hd : d.Ready)
    (hid : SmallId attribId.id) (hm : d.manager = some manager) (hspc : manager.Finds spc)
    (h : d.buffer.drop d.curPos = writeSpace attribId spc ++ post) (hpost : post ≠ []) :
    d.readSpace = .ok (spc, d.after (writeSpace attribId spc)) := by
  obtain ⟨spaceType, index, formal⟩ := spc
  have href : ∀ c, managerRef { d with curPos := c } = .ok manager := by
    intro c
    simp only [managerRef, hm]
  have hindexed : 0 ≤ index ∧ index < 2 ^ 31 ∧ manager.getSpace index.toNat = some ⟨spaceType, index, formal⟩ →
      writeSpace attribId ⟨spaceType, index, formal⟩ = writeHeader attributeHeader attribId.id ++
        writeInteger (BitVec.ofNat 8 5 <<< typecodeShift) (BitVec.ofInt 64 index) →
      d.readSpace = .ok (⟨spaceType, index, formal⟩, d.after (writeSpace attribId ⟨spaceType, index, formal⟩)) := by
    rintro ⟨hpos, hlt, hget⟩ hbytes
    rw [hbytes] at h ⊢
    obtain ⟨tb, d₁, hheader, hcode, hlength, hint⟩ := readHeaderInteger hd hid (by decide) h hpost
    have hval : (BitVec.ofInt 64 index).toNat = index.toNat := by
      rw [BitVec.toNat_ofInt]
      omega
    have hbound : index.toNat < manager.numSpaces := by
      rw [AddrSpaceManager.numSpaces]
      by_contra hge
      rw [AddrSpaceManager.getSpace, List.getElem?_eq_none (Nat.le_of_not_lt hge)] at hget
      cases hget
    have hcode' : tb >>> typecodeShift = typecodeAddressspace := hcode
    simp only [readSpace, hheader, Bind.bind, Except.bind, hcode', if_true, hlength, hint, href, hval, hget]
    rw [if_neg (by omega)]
    rfl
  cases spaceType with
  | fspec => exact absurd hspc id
  | iop => exact absurd hspc id
  | join =>
      have hfound : manager.joinspace = some ⟨.join, index, formal⟩ := hspc
      have hheader := readHeaderFlag hd hid h hpost
      simp only [readSpace, hheader, Bind.bind, Except.bind, href, hfound]
      rfl
  | spacebase =>
      obtain ⟨hformal, hfound⟩ := hspc
      simp only at hformal
      subst hformal
      have hheader := readHeaderFlag hd hid h hpost
      simp only [readSpace, hheader, Bind.bind, Except.bind, href, hfound]
      rfl
  | constant => exact hindexed hspc rfl
  | processor => exact hindexed hspc rfl
  | internal => exact hindexed hspc rfl

/-- The call for its kind returns the value of the attribute at the cursor. -/
theorem read_eq (fromUtf8Lossy : List Byte → String) {a : Attribute} (hd : d.Ready) (ha : a.Legal d.manager)
    (h : d.buffer.drop d.curPos = a.bytes ++ post) (hpost : post ≠ []) :
    d.read fromUtf8Lossy a.kind = .ok (a.value, d.after a.bytes) := by
  cases a with
  | bool attribId val =>
      simp only [read, Attribute.kind, readBool_eq hd ha.small h hpost]
      rfl
  | signedInteger attribId val =>
      simp only [read, Attribute.kind, readSignedInteger_eq hd ha.small h hpost]
      rfl
  | unsignedInteger attribId val =>
      simp only [read, Attribute.kind, readUnsignedInteger_eq hd ha.small h hpost]
      rfl
  | string attribId val =>
      have hsize : val.utf8ByteSize < 2 ^ 64 := lt_trans ha.short (by decide)
      simp only [read, Attribute.kind, readString_eq fromUtf8Lossy hd ha.small hsize h hpost]
      rfl
  | stringIndexed attribId index val =>
      have hsize : val.utf8ByteSize < 2 ^ 64 := lt_trans ha.short (by decide)
      simp only [read, Attribute.kind, readString_eq fromUtf8Lossy hd ha.small hsize h hpost]
      rfl
  | space attribId spc =>
      obtain ⟨manager, hm, hspc⟩ := ha.known
      simp only [read, Attribute.kind, readSpace_eq hd ha.small hm hspc h hpost]
      rfl
  | opcode attribId opc =>
      simp only [read, Attribute.kind, readOpcode_eq hd ha.small ha.known h hpost]
      rfl

end Reading

section Lists

variable {d : PackedDecode} {post : List Byte} {attribs : List Attribute}

/-- The first byte is not the header of an attribute. -/
def EndsAttributes (post : List Byte) : Prop := ∃ b tail, post = b :: tail ∧ b &&& headerMask ≠ attributeHeader

theorem EndsAttributes.ne_nil (h : EndsAttributes post) : post ≠ [] := by
  obtain ⟨b, tail, rfl, _⟩ := h
  simp

theorem bytes_ne_nil {a : Attribute} (h : a.Short) : a.bytes ≠ [] := by
  obtain ⟨t, payload, heq, _⟩ := a.bytes_eq h
  simp [heq]

theorem attribute_at {a : Attribute} {manager : Option AddrSpaceManager} (hd : d.Ready) (ha : a.Legal manager)
    (h : d.buffer.drop d.curPos = a.bytes ++ post) (hpost : post ≠ []) :
    d.getByte d.curPos &&& headerMask = attributeHeader ∧ d.headerId d.curPos (d.getByte d.curPos) = .ok a.id ∧
      d.skipAttribute = .ok { d with curPos := d.curPos + a.bytes.length } := by
  obtain ⟨t, payload, heq, hbody⟩ := a.bytes_eq ha.short
  have hh : HeaderOf attributeHeader a.id (writeHeader attributeHeader a.id) := writeHeader_headerOf (by decide) ha.small
  rw [heq] at h ⊢
  have hheader := h
  rw [List.append_assoc] at hheader
  obtain ⟨hkind, hid⟩ := headerId_eq hd hh hheader (by simp)
  exact ⟨hkind, hid, skipAttribute_eq hd hh hbody h hpost⟩

theorem skipAttributes_eq {manager : Option AddrSpaceManager} (hd : d.Ready) (ha : ∀ a ∈ attribs, a.Legal manager)
    (h : d.buffer.drop d.curPos = attribs.flatMap Attribute.bytes ++ post) (hpost : EndsAttributes post) {fuel : Nat}
    (hfuel : attribs.length < fuel) :
    skipAttributes fuel d = .ok { d with curPos := d.curPos + (attribs.flatMap Attribute.bytes).length } := by
  induction attribs generalizing d fuel with
  | nil =>
      obtain ⟨fuel, rfl⟩ := Nat.exists_eq_add_of_lt hfuel
      obtain ⟨b, tail, rfl, hb⟩ := hpost
      simp only [skipAttributes, getByte_eq h, if_neg hb]
      rfl
  | cons a attribs ih =>
      obtain ⟨fuel, rfl⟩ : ∃ n, fuel = n + 1 := ⟨fuel - 1, by omega⟩
      rw [List.flatMap_cons, List.append_assoc] at h
      obtain ⟨hkind, -, hskip⟩ := attribute_at hd (ha a (by simp)) h (by simp [hpost.ne_nil])
      have hrest := ih (d := { d with curPos := d.curPos + a.bytes.length }) hd (fun b hb => ha b (by simp [hb])) (drop_append_length h) (by simpa using hfuel)
      simp only [skipAttributes, if_pos hkind, hskip, Bind.bind, Except.bind, hrest, List.flatMap_cons, List.length_append,
        Nat.add_assoc]

theorem findFrom_eq {manager : Option AddrSpaceManager} {attribId : AttributeId} {a : Attribute} {before : List Attribute}
    (hd : d.Ready) (hb : ∀ b ∈ before, b.Legal manager ∧ attribId.id ≠ b.id) (ha : a.Legal manager) (hid : attribId.id = a.id)
    (h : d.buffer.drop d.curPos = before.flatMap Attribute.bytes ++ (a.bytes ++ post)) (hpost : post ≠ []) {fuel : Nat}
    (hfuel : before.length < fuel) :
    findFrom attribId fuel d = .ok { d with curPos := d.curPos + (before.flatMap Attribute.bytes).length } := by
  induction before generalizing d fuel with
  | nil =>
      obtain ⟨fuel, rfl⟩ := Nat.exists_eq_add_of_lt hfuel
      obtain ⟨hkind, hheader, -⟩ := attribute_at hd ha h hpost
      simp only [findFrom, hkind, hheader, ne_eq, not_true_eq_false, if_false, Bind.bind, Except.bind, if_pos hid]
      rfl
  | cons b before ih =>
      obtain ⟨fuel, rfl⟩ : ∃ n, fuel = n + 1 := ⟨fuel - 1, by omega⟩
      rw [List.flatMap_cons, List.append_assoc] at h
      obtain ⟨hlegal, hne⟩ := hb b (by simp)
      obtain ⟨hkind, hheader, hskip⟩ := attribute_at hd hlegal h (by simp [hpost])
      have hrest := ih (d := { d with curPos := d.curPos + b.bytes.length }) hd (fun c hc => hb c (by simp [hc])) (drop_append_length h) (by simpa using hfuel)
      simp only [findFrom, hkind, hheader, ne_eq, not_true_eq_false, if_false, Bind.bind, Except.bind, if_neg hne, hskip, hrest,
        List.flatMap_cons, List.length_append, Nat.add_assoc]

end Lists

end PackedDecode

end GhidraDecompiler.Marshal
