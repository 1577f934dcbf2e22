import GhidraDecompiler.Address
import GhidraDecompiler.Marshal.Codec
import GhidraDecompiler.Types.DecodeStruct

namespace GhidraDecompiler.Types

open Fallible Marshal Codec

def elemField : Nat := 49
def elemBitfield : Nat := 289
def attribId : Nat := 9
def attribName : Nat := 14
def attribOffset : Nat := 16
def attribSize : Nat := 19
def attribFirst : Nat := 27

inductive Member
  | field (member : TypeField)
  | bitfield (member : TypeBitField)
  deriving DecidableEq

structure FieldAttributes where
  ident : Int
  offset : Int
  name : String

structure BitFieldAttributes where
  ident : Int
  name : String
  bits : BitRange

def fieldReader : Reader FieldAttributes := fun attrib =>
  if attrib = attribName then
    some fun val acc => do
      let name ← asText val
      pure { acc with name := name }
  else if attrib = attribOffset then
    some fun val acc => do
      let offset ← asSigned val
      pure { acc with offset := asI32 offset }
  else if attrib = attribId then
    some fun val acc => do
      let ident ← asSigned val
      pure { acc with ident := asI32 ident }
  else none

def bitFieldReader : Reader BitFieldAttributes := fun attrib =>
  if attrib = attribName then
    some fun val acc => do
      let name ← asText val
      pure { acc with name := name }
  else if attrib = attribId then
    some fun val acc => do
      let ident ← asSigned val
      pure { acc with ident := asI32 ident }
  else if attrib = attribOffset then
    some fun val acc => do
      let offset ← asSigned val
      pure { acc with bits := { acc.bits with byteOffset := asI32 offset } }
  else if attrib = attribSize then
    some fun val acc => do
      let size ← asSigned val
      pure { acc with bits := { acc.bits with numBits := asI32 size } }
  else if attrib = attribFirst then
    some fun val acc => do
      let first ← asSigned val
      pure { acc with bits := { acc.bits with leastSigBit := asI32 first } }
  else none

section

variable (encodeRef : Datatype → List Item)

def TypeField.attributes (field : TypeField) : Attributes :=
  [(attribName, .text field.name), (attribOffset, .signedInteger field.offset)] ++
    if field.ident ≠ field.offset then [(attribId, .signedInteger field.ident)] else []

def TypeField.encode (field : TypeField) : List Item :=
  .element elemField field.attributes :: (encodeRef field.tp ++ [.close elemField])

def TypeBitField.encode (bitfield : TypeBitField) : List Item :=
  .element elemBitfield [(attribName, .text bitfield.name), (attribOffset, .signedInteger bitfield.bits.byteOffset),
      (attribSize, .signedInteger bitfield.bits.numBits), (attribFirst, .signedInteger bitfield.bits.leastSigBit)] ::
    (encodeRef bitfield.tp ++ [.close elemBitfield])

def Member.encode : Member → List Item
  | .field member => member.encode encodeRef
  | .bitfield member => member.encode encodeRef

end

section

variable (codec : Codec) (types : TypeFactory) (decodeType : codec.State → Outcome (Datatype × codec.State))

def TypeField.decodeElement (d : codec.State) : Outcome (TypeField × codec.State) := do
  let (elemId, d) ← codec.openElementExpect elemField d
  let (attributes, d) ← visitAttributes fieldReader codec (codec.left d) ⟨-1, -1, ""⟩ d
  let (tp, d) ← decodeType d
  let field ← TypeField.decode attributes.ident attributes.offset attributes.name tp
  let d ← codec.closeElement elemId d
  pure (field, d)

def TypeBitField.decodeElement (d : codec.State) : Outcome (TypeBitField × codec.State) := do
  let (elemId, d) ← codec.openElementExpect elemBitfield d
  let (attributes, d) ← visitAttributes bitFieldReader codec (codec.left d) ⟨-1, "", ⟨-1, -1, -1, -1, false⟩⟩ d
  let (tp, d) ← decodeType d
  let bitfield ← TypeBitField.decode types attributes.ident attributes.bits.byteOffset attributes.bits.numBits
    attributes.bits.leastSigBit attributes.name tp
  let d ← codec.closeElement elemId d
  pure (bitfield, d)

/-- A member is read by the function of its kind. -/
def Member.decode (member : Member) (d : codec.State) : Outcome (Member × codec.State) :=
  match member with
  | .field _ => do
      let (found, d) ← TypeField.decodeElement codec decodeType d
      pure (.field found, d)
  | .bitfield _ => do
      let (found, d) ← TypeBitField.decodeElement codec types decodeType d
      pure (.bitfield found, d)

end

def Member.tp : Member → Datatype
  | .field member => member.tp
  | .bitfield member => member.tp

def Member.name : Member → String
  | .field member => member.name
  | .bitfield member => member.name

def Member.ident : Member → Int
  | .field member => member.ident
  | .bitfield member => member.ident

/-- The place of a field is set. The container of a bitfield is the one that decoding gives it. -/
def Member.Placed (types : TypeFactory) : Member → Prop
  | .field member => 0 ≤ member.offset ∧ member.offset < 2 ^ 31
  | .bitfield member => member.bits.byteSize = (member.bits.leastSigBit + member.bits.numBits + 7) / 8 ∧
      member.bits.isBigEndian = types.bigEndian

def Member.IsField : Member → Prop
  | .field _ => True
  | .bitfield _ => False

section

variable {codec : Codec} {encodeRef : Datatype → List Item} {types : TypeFactory}
  {decodeType : codec.State → Outcome (Datatype × codec.State)} {field : TypeField} {bitfield : TypeBitField}
  {rest : List Item} {d : codec.State}

/-- The attributes that encoding writes for a field give back the member, whether the number was left out or not. -/
theorem visit_field (hname : field.name ≠ "") (hident : 0 ≤ field.ident ∧ field.ident < 2 ^ 31)
    (hoffset : 0 ≤ field.offset ∧ field.offset < 2 ^ 31) :
    ∃ acc, field.attributes.foldlM (visit fieldReader) ⟨-1, -1, ""⟩ = .ok acc ∧
      TypeField.decode acc.ident acc.offset acc.name field.tp = .ok field := by
  have hoff : asI32 field.offset = field.offset := asI32_of_bounds (by omega) hoffset.2
  have hid : asI32 field.ident = field.ident := asI32_of_bounds (by omega) hident.2
  by_cases hsame : field.ident = field.offset
  · refine ⟨⟨-1, field.offset, field.name⟩, ?_, ?_⟩
    · simp [TypeField.attributes, hsame, List.foldlM_cons, visit, fieldReader, attribName, attribOffset, asText, asSigned,
        hoff]
    · dsimp only
      rw [TypeField.decode, if_neg hname, if_neg (by omega), if_pos (by decide), ← hsame]
      cases field
      simp_all
  · refine ⟨⟨field.ident, field.offset, field.name⟩, ?_, ?_⟩
    · simp [TypeField.attributes, hsame, List.foldlM_cons, visit, fieldReader, attribName, attribOffset, attribId, asText,
        asSigned, hoff, hid]
    · dsimp only
      rw [TypeField.decode, if_neg hname, if_neg (by omega), if_neg (by omega)]

theorem attributes_ne_zero : ∀ entry ∈ field.attributes, entry.1 ≠ 0 := by
  intro entry hentry
  rw [TypeField.attributes, List.mem_append] at hentry
  split at hentry <;> simp [attribName, attribOffset, attribId] at hentry
  · rcases hentry with (rfl | rfl) | rfl <;> simp
  · rcases hentry with rfl | rfl <;> simp

theorem TypeField.decodeElement_encode (hrefs : ∀ d rest, (codec.view d).items = encodeRef field.tp ++ rest →
      ∃ d', decodeType d = .ok (field.tp, d') ∧ (codec.view d').items = rest)
    (hname : field.name ≠ "") (hident : 0 ≤ field.ident ∧ field.ident < 2 ^ 31)
    (hoffset : 0 ≤ field.offset ∧ field.offset < 2 ^ 31)
    (h : (codec.view d).items = field.encode encodeRef ++ rest) :
    ∃ d', TypeField.decodeElement codec decodeType d = .ok (field, d') ∧ (codec.view d').items = rest := by
  rw [TypeField.encode, List.cons_append, List.append_assoc] at h
  obtain ⟨d₁, hopen, hview₁⟩ := openElementExpect_element h
  obtain ⟨acc, hacc, hdecode⟩ := visit_field hname hident hoffset
  have hleft := codec.view_lt_left d₁
  have hfuel : (codec.view d₁).next.length < codec.left d₁ := by omega
  have hfold : (codec.view d₁).next.foldlM (visit fieldReader) ⟨-1, -1, ""⟩ = .ok acc := by
    rw [hview₁]
    exact hacc
  obtain ⟨d₂, hvisit, hitems₂⟩ := visitAttributes_ok (by rw [hview₁]; exact attributes_ne_zero) hfuel hfold
  obtain ⟨d₃, htp, hitems₃⟩ := hrefs d₂ ([.close elemField] ++ rest) (by rw [hitems₂, hview₁])
  obtain ⟨d₄, hclose, hitems₄⟩ := codec.closeElement_eq d₃ elemField rest hitems₃
  refine ⟨d₄, ?_, hitems₄⟩
  rw [TypeField.decodeElement, hopen, ok_bind]
  dsimp only
  rw [hvisit, ok_bind]
  dsimp only
  rw [htp, ok_bind]
  dsimp only
  rw [hdecode, ok_bind, hclose, ok_bind, pure_eq_ok]

/-- A bitfield is written without its number, which decoding insists on. -/
theorem TypeBitField.decodeElement_encode (hrefs : ∀ d rest, (codec.view d).items = encodeRef bitfield.tp ++ rest →
      ∃ d', decodeType d = .ok (bitfield.tp, d') ∧ (codec.view d').items = rest)
    (hname : bitfield.name ≠ "") (h : (codec.view d).items = bitfield.encode encodeRef ++ rest) :
    TypeBitField.decodeElement codec types decodeType d =
      .error (.lowlevel "<bitfield> id attribute must not be empty") := by
  rw [TypeBitField.encode, List.cons_append, List.append_assoc] at h
  obtain ⟨d₁, hopen, hview₁⟩ := openElementExpect_element h
  have hleft := codec.view_lt_left d₁
  have hids : ∀ entry ∈ (codec.view d₁).next, entry.1 ≠ 0 := by
    rw [hview₁]
    intro entry hentry
    simp [attribName, attribOffset, attribSize, attribFirst] at hentry
    rcases hentry with rfl | rfl | rfl | rfl <;> simp
  have hfuel : (codec.view d₁).next.length < codec.left d₁ := by omega
  have hfold : (codec.view d₁).next.foldlM (visit bitFieldReader) ⟨-1, "", ⟨-1, -1, -1, -1, false⟩⟩ =
      .ok ⟨-1, bitfield.name, ⟨asI32 bitfield.bits.byteOffset, -1, asI32 bitfield.bits.leastSigBit,
        asI32 bitfield.bits.numBits, false⟩⟩ := by
    rw [hview₁]
    simp [List.foldlM_cons, visit, bitFieldReader, attribName, attribOffset, attribId, attribSize, attribFirst, asText,
      asSigned]
  obtain ⟨d₂, hvisit, hitems₂⟩ := visitAttributes_ok hids hfuel hfold
  obtain ⟨d₃, htp, -⟩ := hrefs d₂ ([.close elemBitfield] ++ rest) (by rw [hitems₂, hview₁])
  rw [TypeBitField.decodeElement, hopen, ok_bind]
  dsimp only
  rw [hvisit, ok_bind]
  dsimp only
  rw [htp, ok_bind]
  dsimp only
  rw [TypeBitField.decode, if_neg hname, if_pos (by decide), error_bind]

/-- A member is read back if and only if it is a field. -/
theorem Member.decode_encode_iff {codec : Codec} {encodeRef : Datatype → List Item} {types : TypeFactory}
    {decodeType : codec.State → Outcome (Datatype × codec.State)} (member : Member)
    (hrefs : ∀ d rest, (codec.view d).items = encodeRef member.tp ++ rest →
      ∃ d', decodeType d = .ok (member.tp, d') ∧ (codec.view d').items = rest)
    (hname : member.name ≠ "") (hident : 0 ≤ member.ident ∧ member.ident < 2 ^ 31) (hplaced : member.Placed types)
    (rest : List Item) (d : codec.State) (h : (codec.view d).items = member.encode encodeRef ++ rest) :
    (∃ d', member.decode codec types decodeType d = .ok (member, d') ∧ (codec.view d').items = rest) ↔
      member.IsField := by
  cases member with
  | field field =>
      obtain ⟨d', hdecode, hitems⟩ := TypeField.decodeElement_encode hrefs hname hident hplaced h
      refine ⟨fun _ => trivial, fun _ => ⟨d', ?_, hitems⟩⟩
      rw [Member.decode, hdecode]
      rfl
  | bitfield bitfield =>
      refine ⟨fun ⟨d', hdecode, _⟩ => ?_, False.elim⟩
      rw [Member.decode, TypeBitField.decodeElement_encode hrefs hname h, error_bind] at hdecode
      cases hdecode

end

def elemTyperef : Nat := 63

def int4 : Datatype := ⟨.int, 4, 4, false, by decide⟩

/-- A reference to a data-type that is known by its name. -/
def typeref (_ : Datatype) : List Item :=
  [.element elemTyperef [(attribName, .text "int4"), (attribId, .unsignedInteger 8)], .close elemTyperef]

def resolve (d : written.State) : Outcome (Datatype × written.State) := do
  let (elemId, d) ← written.openElementExpect elemTyperef d
  let (val, d) ← written.readAttr attribName d
  let name ← asText val
  let d ← written.closeElement elemId d
  if name = "int4" then pure (int4, d) else .error (.lowlevel ("Unable to resolve type: " ++ name))

theorem resolve_typeref (d : written.State) (rest : List Item) (h : (written.view d).items = typeref int4 ++ rest) :
    ∃ d', resolve d = .ok (int4, d') ∧ (written.view d').items = rest := by
  obtain ⟨d₁, hopen, hview₁⟩ := openElementExpect_element h
  obtain ⟨d₂, hread, hview₂⟩ := written.readAttr_eq d₁ attribName (.text "int4") (by rw [hview₁]; rfl)
  obtain ⟨d₃, hclose, hitems₃⟩ := written.closeElement_eq d₂ elemTyperef rest (by rw [hview₂, View.rewound, hview₁]; rfl)
  refine ⟨d₃, ?_, hitems₃⟩
  rw [resolve, hopen, ok_bind]
  dsimp only
  rw [hread, ok_bind]
  dsimp only
  rw [asText, pure_eq_ok, ok_bind, hclose, ok_bind, if_pos rfl, pure_eq_ok]

def littleEndian : TypeFactory := ⟨false, fun _ _ => .error .panic, fun _ _ _ h => by cases h⟩

/-- A field whose number is not its offset. -/
def sparseField : Member := .field ⟨2, 8, "a", int4⟩

def lowBits : TypeBitField := ⟨"a", int4, ⟨0, 1, 0, 3, false⟩, 0⟩

theorem Member.decode_encode_field :
    (∃ d', sparseField.decode written littleEndian resolve (inputOf (sparseField.encode typeref)) = .ok (sparseField, d') ∧
      (written.view d').items = []) ↔ sparseField.IsField :=
  Member.decode_encode_iff sparseField resolve_typeref (by decide) (by decide) ⟨by decide, by decide⟩ []
    (inputOf (sparseField.encode typeref)) (items_inputOf _)

/-- No bitfield is read back. -/
theorem Member.decode_encode_bitfield :
    ¬ ∀ (codec : Codec) (encodeRef : Datatype → List Item) (types : TypeFactory)
        (decodeType : codec.State → Outcome (Datatype × codec.State)) (member : Member),
      (∀ d rest, (codec.view d).items = encodeRef member.tp ++ rest →
        ∃ d', decodeType d = .ok (member.tp, d') ∧ (codec.view d').items = rest) →
      member.name ≠ "" → 0 ≤ member.ident ∧ member.ident < 2 ^ 31 → member.Placed types →
      ∀ (rest : List Item) (d : codec.State), (codec.view d).items = member.encode encodeRef ++ rest →
        ∃ d', member.decode codec types decodeType d = .ok (member, d') ∧ (codec.view d').items = rest := by
  intro h
  have hitems := items_inputOf (lowBits.encode typeref)
  have hfails : TypeBitField.decodeElement written littleEndian resolve (inputOf (lowBits.encode typeref)) =
      .error (.lowlevel "<bitfield> id attribute must not be empty") :=
    TypeBitField.decodeElement_encode resolve_typeref (by decide) hitems
  obtain ⟨d', hdecode, -⟩ := h written typeref littleEndian resolve (.bitfield lowBits) resolve_typeref (by decide)
    (by decide) ⟨by decide, rfl⟩ [] (inputOf (lowBits.encode typeref)) hitems
  rw [Member.decode, hfails, error_bind] at hdecode
  cases hdecode

end GhidraDecompiler.Types
