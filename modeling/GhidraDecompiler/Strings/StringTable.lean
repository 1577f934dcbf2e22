import GhidraDecompiler.Lib.SortedMap
import GhidraDecompiler.Marshal.Codec
import Mathlib.Algebra.Group.Nat.Defs
import Mathlib.Algebra.Group.Int.Defs

namespace GhidraDecompiler.Strings

open Fallible Marshal Codec

structure StringData where
  isTruncated : Bool
  byteData : List UInt8
  deriving DecidableEq

def elemBytes : Nat := 83
def elemString : Nat := 84
def elemStringmanage : Nat := 85
def attribTrunc : Nat := 69
def attribContent : Nat := 1

/-- A byte as two digits, and a new line after every twenty of them. -/
def byteText (x : UInt8 × Nat) : List Char :=
  [Nat.digitChar (x.1.toNat / 16), Nat.digitChar (x.1.toNat % 16)] ++ if x.2 % 20 = 19 then ['\n', ' ', ' '] else []

def contentText (byteData : List UInt8) : String :=
  String.ofList ('\n' :: (byteData.zipIdx.flatMap byteText ++ ['\n']))

def asI8 (x : Int) : Int := x.bmod (2 ^ 8)

def signedByte (byte : UInt8) : Int := asI8 byte.toNat

def isSpaceChar (byte : UInt8) : Bool := byte ∈ [0x20, 0x09, 0x0a, 0x0b, 0x0c, 0x0d]

def skipSpace (bytes : List UInt8) : List UInt8 := bytes.dropWhile isSpaceChar

def digitOf (c : Int) : Int :=
  if c ≤ 57 then asI8 (c - 48)
  else if c ≤ 70 then asI8 (asI8 (c + 10) - 65)
  else asI8 (asI8 (c + 10) - 97)

/-- One pass of the loop over the characters. Past the end of the text a character is -1, so that a pair that is not
complete ends the loop. -/
def readByte : List UInt8 → Option (UInt8 × List UInt8)
  | b₁ :: b₂ :: bytes =>
      if 0 < signedByte b₁ ∧ 0 < signedByte b₂ then
        some (UInt8.ofInt (digitOf (signedByte b₁) * 16 + digitOf (signedByte b₂)), skipSpace bytes)
      else none
  | _ => none

theorem readByte_length {bytes rest : List UInt8} {byte : UInt8} (h : readByte bytes = some (byte, rest)) :
    rest.length < bytes.length := by
  unfold readByte at h
  split at h
  · rename_i b₁ b₂ tail
    split at h
    · obtain ⟨-, rfl⟩ := Prod.mk.inj (Option.some.inj h)
      have hsuffix := (List.dropWhile_suffix (l := tail) isSpaceChar).length_le
      simp only [skipSpace, List.length_cons]
      omega
    · cases h
  · cases h

def readBytes (bytes : List UInt8) : List UInt8 :=
  match _h : readByte bytes with
  | some (byte, rest) => byte :: readBytes rest
  | none => []
  termination_by bytes.length
  decreasing_by exact readByte_length _h

section

variable {A : Type} [LinearOrder A] (encodeAddr : A → List Item)

def encodeString (x : A × StringData) : List Item :=
  .element elemString [] :: (encodeAddr x.1 ++
    [.element elemBytes [(attribTrunc, .bool x.2.isTruncated), (attribContent, .text (contentText x.2.byteData))],
      .close elemBytes])

def encodeTable (stringMap : SortedMap A StringData) : List Item :=
  .element elemStringmanage [] :: (stringMap.entries.flatMap (encodeString encodeAddr) ++ [.close elemStringmanage])

variable (codec : Codec) (decodeAddr : codec.State → Outcome (A × codec.State))

def decodeStrings : Nat → SortedMap A StringData → codec.State → Outcome (SortedMap A StringData × codec.State)
  | 0, _, _ => .error .outOfFuel
  | fuel + 1, stringMap, d => do
      let (subId, d) ← codec.openElement d
      if subId ≠ elemString then pure (stringMap, d)
      else do
        let (addr, d) ← decodeAddr d
        let (subId2, d) ← codec.openElementExpect elemBytes d
        let (val, d) ← codec.readAttr attribTrunc d
        let isTruncated ← asBool val
        let (val, d) ← codec.readAttr attribContent d
        let content ← asText val
        let stringData := (stringMap.lookup addr).getD ⟨false, []⟩
        let bytes := readBytes (skipSpace content.toByteArray.data.toList)
        let d ← codec.closeElement subId2 d
        let d ← codec.closeElement subId d
        decodeStrings fuel (stringMap.insert addr ⟨isTruncated, stringData.byteData ++ bytes⟩) d

def decodeTable (stringMap : SortedMap A StringData) (d : codec.State) :
    Outcome (SortedMap A StringData × codec.State) := do
  let (elemId, d) ← codec.openElementExpect elemStringmanage d
  let (stringMap, d) ← decodeStrings codec decodeAddr (codec.left d) stringMap d
  let d ← codec.closeElement elemId d
  pure (stringMap, d)

end

section content

/-- The byte of a character below 128. -/
def asciiByte (c : Char) : UInt8 := UInt8.ofNat c.toNat

theorem utf8EncodeChar_ascii {c : Char} (h : c.toNat < 128) : String.utf8EncodeChar c = [asciiByte c] := by
  have hle : c.val.toNat ≤ 0x7f := Nat.le_of_lt_succ h
  simp only [String.utf8EncodeChar, if_pos hle]
  rfl

theorem digitChar_ascii {n : Nat} (h : n < 16) : (Nat.digitChar n).toNat < 128 := by
  have hall : ∀ k : Fin 16, (Nat.digitChar k).toNat < 128 := by decide
  exact hall ⟨n, h⟩

/-- A digit is read back, and is no space. -/
theorem digitOf_digitChar {n : Nat} (h : n < 16) :
    0 < signedByte (asciiByte (Nat.digitChar n)) ∧ digitOf (signedByte (asciiByte (Nat.digitChar n))) = n ∧
      isSpaceChar (asciiByte (Nat.digitChar n)) = false := by
  have hall : ∀ k : Fin 16, 0 < signedByte (asciiByte (Nat.digitChar k)) ∧
      digitOf (signedByte (asciiByte (Nat.digitChar k))) = (k : Nat) ∧
      isSpaceChar (asciiByte (Nat.digitChar k)) = false := by decide
  exact hall ⟨n, h⟩

theorem byteText_ascii (x : UInt8 × Nat) : ∀ c ∈ byteText x, c.toNat < 128 := by
  have hbyte := x.1.toNat_lt
  intro c hc
  rw [byteText, List.mem_append] at hc
  rcases hc with hc | hc
  · simp only [List.mem_cons, List.not_mem_nil, or_false] at hc
    rcases hc with rfl | rfl
    · exact digitChar_ascii (by omega)
    · exact digitChar_ascii (Nat.mod_lt _ (by decide))
  · split at hc
    · simp only [List.mem_cons, List.not_mem_nil, or_false] at hc
      rcases hc with rfl | rfl | rfl <;> decide
    · cases hc

theorem ofList_bytes (cs : List Char) :
    (String.ofList cs).toByteArray.data.toList = cs.flatMap String.utf8EncodeChar := by
  simp [List.utf8Encode]

theorem contentText_bytes (byteData : List UInt8) :
    (contentText byteData).toByteArray.data.toList =
      asciiByte '\n' :: ((byteData.zipIdx.flatMap byteText).map asciiByte ++ [asciiByte '\n']) := by
  have hall : ∀ c ∈ '\n' :: (byteData.zipIdx.flatMap byteText ++ ['\n']), c.toNat < 128 := by
    intro c hc
    simp only [List.mem_cons, List.mem_append, List.mem_flatMap, List.not_mem_nil, or_false] at hc
    rcases hc with rfl | ⟨x, _, hx⟩ | rfl
    · decide
    · exact byteText_ascii x c hx
    · decide
  rw [contentText, ofList_bytes, List.flatMap_congr fun c hc => utf8EncodeChar_ascii (hall c hc), ← List.map_eq_flatMap]
  simp

theorem skipSpace_newline (bytes : List UInt8) : skipSpace (asciiByte '\n' :: bytes) = skipSpace bytes :=
  List.dropWhile_cons_of_pos (by decide)

theorem skipSpace_blank (bytes : List UInt8) : skipSpace (asciiByte ' ' :: bytes) = skipSpace bytes :=
  List.dropWhile_cons_of_pos (by decide)

theorem readBytes_nil : readBytes [] = [] := by
  rw [readBytes]
  rfl

theorem readBytes_cons {b₁ b₂ : UInt8} (h₁ : 0 < signedByte b₁) (h₂ : 0 < signedByte b₂) (bytes : List UInt8) :
    readBytes (b₁ :: b₂ :: bytes) =
      UInt8.ofInt (digitOf (signedByte b₁) * 16 + digitOf (signedByte b₂)) :: readBytes (skipSpace bytes) := by
  have hread : readByte (b₁ :: b₂ :: bytes) =
      some (UInt8.ofInt (digitOf (signedByte b₁) * 16 + digitOf (signedByte b₂)), skipSpace bytes) := by
    simp [readByte, h₁, h₂]
  rw [readBytes]
  split
  · rename_i hsome
    obtain ⟨hbyte, hrest⟩ := Prod.mk.inj (Option.some.inj (hread.symm.trans hsome))
    rw [hbyte, hrest]
  · rename_i hnone
    cases hread.symm.trans hnone

/-- The loop over the characters reads the bytes of every line. -/
theorem readBytes_lines (byteData : List UInt8) (k : Nat) :
    readBytes (skipSpace (((byteData.zipIdx k).flatMap byteText).map asciiByte ++ [asciiByte '\n'])) = byteData := by
  induction byteData generalizing k with
  | nil =>
      have hempty : skipSpace [asciiByte '\n'] = [] := (skipSpace_newline []).trans rfl
      rw [List.zipIdx_nil, List.flatMap_nil, List.map_nil, List.nil_append, hempty, readBytes_nil]
  | cons b byteData ih =>
      have hbyte := b.toNat_lt
      obtain ⟨hpos₁, hdigit₁, hspace₁⟩ := digitOf_digitChar (n := b.toNat / 16) (by omega)
      obtain ⟨hpos₂, hdigit₂, -⟩ := digitOf_digitChar (n := b.toNat % 16) (Nat.mod_lt _ (by decide))
      have hvalue : UInt8.ofInt (((b.toNat / 16 : Nat) : Int) * 16 + ((b.toNat % 16 : Nat) : Int)) = b := by
        have hsum : ((b.toNat / 16 : Nat) : Int) * 16 + ((b.toNat % 16 : Nat) : Int) = (b.toNat : Int) := by omega
        have hsmall : ((b.toNat : Int) % 2 ^ 8).toNat = b.toNat := by omega
        rw [hsum, UInt8.ofInt, hsmall, UInt8.ofNat_toNat]
      have hline : skipSpace (((if k % 20 = 19 then ['\n', ' ', ' '] else []).map asciiByte) ++
            (((byteData.zipIdx (k + 1)).flatMap byteText).map asciiByte ++ [asciiByte '\n'])) =
          skipSpace (((byteData.zipIdx (k + 1)).flatMap byteText).map asciiByte ++ [asciiByte '\n']) := by
        split
        · exact (skipSpace_newline _).trans ((skipSpace_blank _).trans (skipSpace_blank _))
        · rfl
      rw [List.zipIdx_cons, List.flatMap_cons, List.map_append, byteText, List.map_append, List.append_assoc,
        List.append_assoc, skipSpace]
      rw [List.map_cons, List.map_cons, List.map_nil, List.cons_append, List.cons_append, List.nil_append,
        List.dropWhile_cons_of_neg (by simp [hspace₁]), readBytes_cons hpos₁ hpos₂, hdigit₁, hdigit₂, hvalue, hline, ih]

theorem readBytes_contentText (byteData : List UInt8) :
    readBytes (skipSpace (contentText byteData).toByteArray.data.toList) = byteData := by
  rw [contentText_bytes, skipSpace_newline, readBytes_lines]

end content

section

variable {A : Type} [LinearOrder A] {encodeAddr : A → List Item} {codec : Codec}
  {decodeAddr : codec.State → Outcome (A × codec.State)} {d : codec.State} {rest : List Item}
  {stringMap : SortedMap A StringData}

/-- An entry is read in full, and then its own end must come, which encoding leaves out. -/
theorem decodeStrings_entry (haddr : ∀ addr d rest, (codec.view d).items = encodeAddr addr ++ rest →
      ∃ d', decodeAddr d = .ok (addr, d') ∧ (codec.view d').items = rest)
    {x : A × StringData} (h : (codec.view d).items = encodeString encodeAddr x ++ rest) (fuel : Nat) :
    ∃ d', (codec.view d').items = rest ∧ decodeStrings codec decodeAddr (fuel + 1) stringMap d = (do
      let d ← codec.closeElement elemString d'
      decodeStrings codec decodeAddr fuel (stringMap.insert x.1
        ⟨x.2.isTruncated, ((stringMap.lookup x.1).getD ⟨false, []⟩).byteData ++ x.2.byteData⟩) d) := by
  rw [encodeString, List.cons_append, List.append_assoc] at h
  obtain ⟨d₁, hopen, hview₁⟩ := openElement_element h
  obtain ⟨d₂, hread, hitems₂⟩ := haddr x.1 d₁ _ (by rw [hview₁])
  obtain ⟨d₃, hopen₃, hview₃⟩ := openElementExpect_element hitems₂
  obtain ⟨d₄, htrunc, hview₄⟩ := codec.readAttr_eq d₃ attribTrunc (.bool x.2.isTruncated) (by rw [hview₃]; rfl)
  obtain ⟨d₅, hcontent, hview₅⟩ := codec.readAttr_eq d₄ attribContent (.text (contentText x.2.byteData))
    (by rw [hview₄, View.rewound, hview₃]; rfl)
  have hitems₅ : (codec.view d₅).items = .close elemBytes :: rest := by
    rw [hview₅, View.rewound, hview₄, View.rewound, hview₃]
    rfl
  obtain ⟨d₆, hclose, hitems₆⟩ := codec.closeElement_eq d₅ elemBytes rest hitems₅
  refine ⟨d₆, hitems₆, ?_⟩
  rw [decodeStrings, hopen, ok_bind]
  dsimp only
  rw [if_neg (not_not.mpr rfl), hread, ok_bind]
  dsimp only
  rw [hopen₃, ok_bind]
  dsimp only
  rw [htrunc, ok_bind]
  dsimp only
  rw [asBool, pure_eq_ok, ok_bind, hcontent, ok_bind]
  dsimp only
  rw [asText, pure_eq_ok, ok_bind, hclose, ok_bind, readBytes_contentText]

theorem decodeTable_empty (h : (codec.view d).items = encodeTable encodeAddr .empty ++ rest) :
    ∃ d', decodeTable codec decodeAddr .empty d = .ok (.empty, d') ∧ (codec.view d').items = rest := by
  rw [encodeTable, List.cons_append, List.append_assoc] at h
  obtain ⟨d₁, hopen, hview₁⟩ := openElementExpect_element h
  have hleft := codec.view_lt_left d₁
  obtain ⟨fuel, hfuel⟩ : ∃ fuel, codec.left d₁ = fuel + 1 := ⟨codec.left d₁ - 1, by omega⟩
  obtain ⟨d₂, hend, hview₂⟩ := openElement_close (d := d₁) (by rw [hview₁]; rfl)
  obtain ⟨d₃, hclose, hitems₃⟩ := codec.closeElement_eq d₂ elemStringmanage rest (by rw [hview₂, hview₁]; rfl)
  refine ⟨d₃, ?_, hitems₃⟩
  rw [decodeTable, hopen, ok_bind]
  dsimp only
  rw [hfuel, decodeStrings, hend, ok_bind]
  dsimp only
  rw [if_pos (by decide), pure_eq_ok, ok_bind]
  dsimp only
  rw [hclose, ok_bind, pure_eq_ok]

/-- The first entry of a table cannot be closed. -/
theorem decodeTable_cons (haddr : ∀ addr d rest, (codec.view d).items = encodeAddr addr ++ rest →
      ∃ d', decodeAddr d = .ok (addr, d') ∧ (codec.view d').items = rest)
    {x : A × StringData} {entries : List (A × StringData)} (hentries : stringMap.entries = x :: entries)
    (h : (codec.view d).items = encodeTable encodeAddr stringMap ++ rest) :
    ∃ e, decodeTable codec decodeAddr .empty d = .error e := by
  rw [encodeTable, List.cons_append, List.append_assoc, hentries, List.flatMap_cons, List.append_assoc] at h
  obtain ⟨d₁, hopen, hview₁⟩ := openElementExpect_element h
  have hleft := codec.view_lt_left d₁
  obtain ⟨fuel, hfuel⟩ : ∃ fuel, codec.left d₁ = fuel + 1 := ⟨codec.left d₁ - 1, by omega⟩
  obtain ⟨d₂, hitems₂, hentry⟩ := decodeStrings_entry haddr (d := d₁) (by rw [hview₁]) fuel
  obtain ⟨e, hfails⟩ := codec.closeElement_other d₂ elemString (by
    rw [hitems₂]
    intro items heq
    cases entries with
    | nil => cases heq
    | cons y entries => cases heq)
  refine ⟨e, ?_⟩
  rw [decodeTable, hopen, ok_bind]
  dsimp only
  rw [hfuel, hentry, hfails, error_bind, error_bind]

/-- A table is read back if and only if it has no entries. -/
theorem decodeTable_encodeTable_iff (haddr : ∀ addr d rest, (codec.view d).items = encodeAddr addr ++ rest →
      ∃ d', decodeAddr d = .ok (addr, d') ∧ (codec.view d').items = rest)
    (stringMap : SortedMap A StringData) (rest : List Item) (d : codec.State)
    (h : (codec.view d).items = encodeTable encodeAddr stringMap ++ rest) :
    (∃ d', decodeTable codec decodeAddr .empty d = .ok (stringMap, d') ∧ (codec.view d').items = rest) ↔
      stringMap = .empty := by
  constructor
  · rintro ⟨d', hok, -⟩
    cases hentries : stringMap.entries with
    | nil => exact SortedMap.ext hentries
    | cons x entries =>
        obtain ⟨e, hfails⟩ := decodeTable_cons haddr hentries h
        rw [hfails] at hok
        cases hok
  · rintro rfl
    exact decodeTable_empty h

end

/-- An address in one space, by its offset. -/
def addrElement (offset : Nat) : List Item :=
  [.element 11 [(20, .space 3), (16, .unsignedInteger offset)], .close 11]

def readAddr (d : written.State) : Outcome (Nat × written.State) := do
  let (elemId, d) ← written.openElementExpect 11 d
  let (val, d) ← written.readAttr 20 d
  let _ ← asSpace val
  let (val, d) ← written.readAttr 16 d
  let offset ← asUnsigned val
  let d ← written.closeElement elemId d
  pure (offset, d)

theorem readAddr_addrElement (addr : Nat) (d : written.State) (rest : List Item)
    (h : (written.view d).items = addrElement addr ++ rest) :
    ∃ d', readAddr d = .ok (addr, d') ∧ (written.view d').items = rest := by
  obtain ⟨d₁, hopen, hview₁⟩ := openElementExpect_element h
  obtain ⟨d₂, hspace, hview₂⟩ := written.readAttr_eq d₁ 20 (.space 3) (by rw [hview₁]; rfl)
  obtain ⟨d₃, hoffset, hview₃⟩ := written.readAttr_eq d₂ 16 (.unsignedInteger addr)
    (by rw [hview₂, View.rewound, hview₁]; rfl)
  obtain ⟨d₄, hclose, hitems₄⟩ := written.closeElement_eq d₃ 11 rest
    (by rw [hview₃, View.rewound, hview₂, View.rewound, hview₁]; rfl)
  refine ⟨d₄, ?_, hitems₄⟩
  rw [readAddr, hopen, ok_bind]
  dsimp only
  rw [hspace, ok_bind]
  dsimp only
  rw [asSpace, pure_eq_ok, ok_bind, hoffset, ok_bind]
  dsimp only
  rw [asUnsigned, pure_eq_ok, ok_bind, hclose, ok_bind, pure_eq_ok]

def oneString : SortedMap Nat StringData := SortedMap.empty.insert 4096 ⟨false, [0x41, 0]⟩

theorem decodeTable_encodeTable_one :
    (∃ d', decodeTable written readAddr .empty (inputOf (encodeTable addrElement oneString)) = .ok (oneString, d') ∧
      (written.view d').items = []) ↔ oneString = .empty :=
  decodeTable_encodeTable_iff readAddr_addrElement oneString [] (inputOf (encodeTable addrElement oneString))
    (items_inputOf _)

/-- A table with one string is not read back. -/
theorem decodeTable_encodeTable_lost :
    ¬ ∀ (A : Type) (_ : LinearOrder A) (encodeAddr : A → List Item) (codec : Codec)
        (decodeAddr : codec.State → Outcome (A × codec.State)) (stringMap : SortedMap A StringData),
      (∀ addr d rest, (codec.view d).items = encodeAddr addr ++ rest →
        ∃ d', decodeAddr d = .ok (addr, d') ∧ (codec.view d').items = rest) →
      ∀ (rest : List Item) (d : codec.State), (codec.view d).items = encodeTable encodeAddr stringMap ++ rest →
        ∃ d', decodeTable codec decodeAddr .empty d = .ok (stringMap, d') ∧ (codec.view d').items = rest := by
  intro h
  obtain ⟨d', hdecode, -⟩ := h Nat inferInstance addrElement written readAddr oneString readAddr_addrElement []
    (inputOf (encodeTable addrElement oneString)) (items_inputOf _)
  obtain ⟨e, hfails⟩ := decodeTable_cons readAddr_addrElement rfl
    (items_inputOf (encodeTable addrElement oneString))
  rw [hfails] at hdecode
  cases hdecode

end GhidraDecompiler.Strings
