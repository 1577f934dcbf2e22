import GhidraDecompiler.Strings.Encodings

namespace GhidraDecompiler.Strings

open Fallible Encoding

/-- The bytes of a text in UTF-8. -/
abbrev utf8Text (text : List Char) : List UInt8 := text.flatMap String.utf8EncodeChar

variable {e : Encoding} {bigend : Bool} {text : List Char} {buffer pre tail out : List UInt8} {maximumChars count skip : Int}
  {c : Char}

theorem bytes_cons (e : Encoding) (bigend : Bool) (c : Char) (text : List Char) :
    e.bytes bigend (c :: text) = e.encode bigend c ++ e.bytes bigend text := List.flatMap_cons

theorem bytes_append (e : Encoding) (bigend : Bool) (text text' : List Char) :
    e.bytes bigend (text ++ text') = e.bytes bigend text ++ e.bytes bigend text' := List.flatMap_append

theorem drop_pre (pre rest : List UInt8) : (pre ++ rest).drop ((pre.length : Int).toNat) = rest := by
  rw [Int.toNat_natCast, List.drop_left]

theorem getCodepoint_at (e : Encoding) (bigend : Bool) (c : Char) (pre rest : List UInt8) (skip : Int) :
    getCodepoint ((pre ++ (e.encode bigend c ++ rest)).drop ((pre.length : Int).toNat)) e.charsize bigend skip =
      ((c.toNat : Int), ((e.encode bigend c).length : Int)) := by
  rw [drop_pre, getCodepoint_encode]

theorem index_lt (e : Encoding) (bigend : Bool) (c : Char) (pre rest : List UInt8) :
    (pre.length : Int) < ((pre ++ (e.encode bigend c ++ rest)).length : Int) := by
  have := length_encode_pos e bigend c
  simp only [List.length_append]
  omega

/-- The loop counts characters that are not zero and goes on behind them. -/
theorem checkCharactersLoop_bytes (hbuffer : buffer = pre ++ (e.bytes bigend text ++ tail)) (hzero : '\x00' ∉ text) (fuel : Nat)
    (count skip : Int) :
    ∃ skip', checkCharactersLoop buffer buffer.length e.charsize bigend (fuel + text.length) pre.length count skip =
      checkCharactersLoop buffer buffer.length e.charsize bigend fuel (pre ++ e.bytes bigend text).length
        (count + text.length) skip' := by
  induction text generalizing pre count skip with
  | nil => exact ⟨skip, by simp [bytes]⟩
  | cons c text ih =>
      have hc : c ≠ '\x00' := fun h => hzero (h ▸ List.mem_cons_self)
      have hpos := toNat_pos hc
      have hsplit : buffer = pre ++ (e.encode bigend c ++ (e.bytes bigend text ++ tail)) := by
        rw [hbuffer, bytes_cons, List.append_assoc]
      have hnext : buffer = (pre ++ e.encode bigend c) ++ (e.bytes bigend text ++ tail) := by
        rw [hsplit, List.append_assoc]
      obtain ⟨skip', hrest⟩ := ih hnext (fun h => hzero (List.mem_cons_of_mem _ h)) (count + 1) (e.encode bigend c).length
      have hlt := index_lt e bigend c pre (e.bytes bigend text ++ tail)
      rw [← hsplit] at hlt
      refine ⟨skip', ?_⟩
      rw [List.length_cons, ← Nat.add_assoc, checkCharactersLoop, if_pos hlt]
      have hread := getCodepoint_at e bigend c pre (e.bytes bigend text ++ tail) skip
      rw [← hsplit] at hread
      simp only [hread, if_neg (show ¬(c.toNat : Int) < 0 by omega), if_neg (show ¬(c.toNat : Int) = 0 by omega)]
      have hindex : (pre.length : Int) + (e.encode bigend c).length = ((pre ++ e.encode bigend c).length : Nat) := by simp
      rw [hindex, hrest, bytes_cons, List.append_assoc]
      congr 1
      push_cast
      ring

/-- Below the limit the loop writes the characters and goes on behind them. -/
theorem writeUnicodeLoop_bytes (hbuffer : buffer = pre ++ (e.bytes bigend text ++ tail)) (hzero : '\x00' ∉ text)
    (hmax : count + text.length < maximumChars) (fuel : Nat) (out : List UInt8) (skip : Int) :
    ∃ skip', writeUnicodeLoop maximumChars buffer buffer.length e.charsize bigend (fuel + text.length) out pre.length count skip =
      writeUnicodeLoop maximumChars buffer buffer.length e.charsize bigend fuel (out ++ utf8Text text)
        (pre ++ e.bytes bigend text).length (count + text.length) skip' := by
  induction text generalizing pre count out skip with
  | nil => exact ⟨skip, by simp [bytes]⟩
  | cons c text ih =>
      have hc : c ≠ '\x00' := fun h => hzero (h ▸ List.mem_cons_self)
      have hpos := toNat_pos hc
      rw [List.length_cons] at hmax
      have hsplit : buffer = pre ++ (e.encode bigend c ++ (e.bytes bigend text ++ tail)) := by
        rw [hbuffer, bytes_cons, List.append_assoc]
      have hnext : buffer = (pre ++ e.encode bigend c) ++ (e.bytes bigend text ++ tail) := by
        rw [hsplit, List.append_assoc]
      have hcount : count + 1 + text.length < maximumChars := by omega
      obtain ⟨skip', hrest⟩ := ih hnext (fun h => hzero (List.mem_cons_of_mem _ h)) hcount
        (out ++ String.utf8EncodeChar c) (e.encode bigend c).length
      have hlt := index_lt e bigend c pre (e.bytes bigend text ++ tail)
      rw [← hsplit] at hlt
      refine ⟨skip', ?_⟩
      rw [List.length_cons, ← Nat.add_assoc, writeUnicodeLoop, if_pos hlt]
      have hread := getCodepoint_at e bigend c pre (e.bytes bigend text ++ tail) skip
      rw [← hsplit] at hread
      simp only [hread, if_neg (show ¬(c.toNat : Int) < 0 by omega), if_neg (show ¬(c.toNat : Int) = 0 by omega), writeUtf8_char,
        ok_bind]
      rw [if_neg (by omega)]
      have hindex : (pre.length : Int) + (e.encode bigend c).length = ((pre ++ e.encode bigend c).length : Nat) := by simp
      have hcount : count + 1 + (text.length : Int) = count + (text.length + 1 : Nat) := by omega
      rw [hindex, hrest, bytes_cons, List.append_assoc, hcount, List.append_assoc]
      rfl

/-- What a pass does at a character. -/
theorem writeUnicodeLoop_char (hc : c ≠ '\x00') (pre rest : List UInt8) (fuel : Nat) (out : List UInt8) (count skip : Int) :
    writeUnicodeLoop maximumChars (pre ++ (e.encode bigend c ++ rest)) (pre ++ (e.encode bigend c ++ rest)).length e.charsize bigend
        (fuel + 1) out pre.length count skip =
      if count + 1 ≥ maximumChars then .ok (true, out ++ String.utf8EncodeChar c)
      else writeUnicodeLoop maximumChars (pre ++ (e.encode bigend c ++ rest)) (pre ++ (e.encode bigend c ++ rest)).length e.charsize
        bigend fuel (out ++ String.utf8EncodeChar c) (pre ++ e.encode bigend c).length (count + 1) (e.encode bigend c).length := by
  have hpos := toNat_pos hc
  rw [writeUnicodeLoop, if_pos (index_lt e bigend c pre rest)]
  simp only [getCodepoint_at, if_neg (show ¬(c.toNat : Int) < 0 by omega), if_neg (show ¬(c.toNat : Int) = 0 by omega),
    writeUtf8_char, ok_bind]
  split
  · rfl
  · simp

/-- At the limit the loop stops behind the last character that it may write. -/
theorem writeUnicodeWith_limit (h₁ : 1 ≤ maximumChars) (hle : maximumChars ≤ text.length) (hzero : '\x00' ∉ text.take maximumChars.toNat)
    (out tail : List UInt8) :
    writeUnicodeWith maximumChars out (e.bytes bigend text ++ tail) (e.bytes bigend text ++ tail).length e.charsize bigend =
      .ok (true, out ++ utf8Text (text.take maximumChars.toNat)) := by
  obtain ⟨k, rfl⟩ : ∃ k : Nat, maximumChars = k + 1 := ⟨(maximumChars - 1).toNat, by omega⟩
  have hk : k < text.length := by omega
  have htake : text.take ((k : Int) + 1).toNat = text.take k ++ [text[k]] := by
    rw [show ((k : Int) + 1).toNat = k + 1 by omega, List.take_add_one, List.getElem?_eq_getElem hk, Option.toList_some]
  rw [htake] at hzero ⊢
  have hne : text[k] ≠ '\x00' := fun h => hzero (by simp [h])
  have hbytes : e.bytes bigend text ++ tail =
      [] ++ (e.bytes bigend (text.take k) ++ (e.encode bigend text[k] ++ (e.bytes bigend (text.drop (k + 1)) ++ tail))) := by
    have hsplit : text.take k ++ text[k] :: text.drop (k + 1) = text := by
      rw [← List.drop_eq_getElem_cons hk, List.take_append_drop]
    have hsum := bytes_append e bigend (text.take k) (text[k] :: text.drop (k + 1))
    rw [hsplit, bytes_cons] at hsum
    rw [hsum, List.nil_append, List.append_assoc, List.append_assoc]
  have hlen := length_le_bytes e bigend text
  obtain ⟨fuel, hfuel⟩ : ∃ fuel, ((e.bytes bigend text ++ tail).length : Int).toNat + 1 = (fuel + 1) + (text.take k).length := by
    refine ⟨((e.bytes bigend text ++ tail).length : Int).toNat - k, ?_⟩
    simp only [List.length_append, List.length_take] at hlen ⊢
    omega
  have hlentake : (text.take k).length = k := List.length_take_of_le (Nat.le_of_lt hk)
  have hcount : 0 + ((text.take k).length : Int) < (k : Int) + 1 := by omega
  obtain ⟨skip, hrun⟩ := writeUnicodeLoop_bytes hbytes
    (fun h => hzero (List.mem_append_left _ h)) hcount (fuel + 1) out e.charsize
  rw [writeUnicodeWith, hfuel]
  refine hrun.trans ?_
  rw [hbytes, List.nil_append, List.nil_append, writeUnicodeLoop_char hne, if_pos (by omega), List.append_assoc]
  simp only [utf8Text, List.flatMap_append, List.flatMap_singleton]

/-- Below the limit the loop gets to what follows the characters. -/
theorem writeUnicodeWith_below (hlt : (text.length : Int) < maximumChars) (hzero : '\x00' ∉ text) (out tail : List UInt8) :
    ∃ fuel skip, tail.length ≤ fuel ∧
      writeUnicodeWith maximumChars out (e.bytes bigend text ++ tail) (e.bytes bigend text ++ tail).length e.charsize bigend =
        writeUnicodeLoop maximumChars (e.bytes bigend text ++ tail) (e.bytes bigend text ++ tail).length e.charsize bigend
          (fuel + 1) (out ++ utf8Text text) (e.bytes bigend text).length text.length skip := by
  have hlen := length_le_bytes e bigend text
  have hcount : 0 + (text.length : Int) < maximumChars := by omega
  have hbuffer : e.bytes bigend text ++ tail = [] ++ (e.bytes bigend text ++ tail) := (List.nil_append _).symm
  obtain ⟨skip, hrun⟩ := writeUnicodeLoop_bytes hbuffer hzero hcount ((e.bytes bigend text ++ tail).length - text.length + 1) out e.charsize
  refine ⟨(e.bytes bigend text ++ tail).length - text.length, skip, ?_, ?_⟩
  · rw [List.length_append]
    omega
  · rw [writeUnicodeWith]
    have hfuel : ((e.bytes bigend text ++ tail).length : Int).toNat + 1 =
        (e.bytes bigend text ++ tail).length - text.length + 1 + text.length := by
      rw [List.length_append]
      omega
    rw [hfuel]
    refine hrun.trans ?_
    simp

end GhidraDecompiler.Strings
