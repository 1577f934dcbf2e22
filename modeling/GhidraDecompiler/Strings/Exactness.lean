import GhidraDecompiler.Strings.Defects

namespace GhidraDecompiler.Strings

open Fallible Encoding

variable {e : Encoding} {bigend : Bool} {text : List Char} {buf bad out rest tail : List UInt8} {maximumChars count skip : Int} {c : Char}

/-- What may follow a text: nothing, or a terminator. -/
def Terminated (e : Encoding) (bigend : Bool) (rest : List UInt8) : Prop :=
  rest = [] ∨ ∃ more, rest = e.encode bigend '\x00' ++ more

theorem getCodepoint_terminator (e : Encoding) (bigend : Bool) (more : List UInt8) (skip : Int) :
    (getCodepoint (e.encode bigend '\x00' ++ more) e.charsize bigend skip).1 = 0 := by
  rw [getCodepoint_encode]
  rfl

theorem index_tail (e : Encoding) (bigend : Bool) (text : List Char) (h : tail ≠ []) :
    ((e.bytes bigend text).length : Int) < ((e.bytes bigend text ++ tail).length : Nat) := by
  have := List.length_pos_iff.mpr h
  rw [List.length_append]
  omega

theorem checkCharacters_text (hzero : '\x00' ∉ text) (hrest : Terminated e bigend rest) :
    checkCharacters (e.bytes bigend text ++ rest) (e.bytes bigend text ++ rest).length e.charsize bigend = .ok text.length := by
  have hlen := length_le_bytes e bigend text
  obtain ⟨fuel, hfuel⟩ : ∃ fuel, ((e.bytes bigend text ++ rest).length : Int).toNat + 1 = (fuel + 1) + text.length := by
    refine ⟨((e.bytes bigend text ++ rest).length : Int).toNat - text.length, ?_⟩
    rw [List.length_append]
    omega
  obtain ⟨skip, hrun⟩ := checkCharactersLoop_bytes (List.nil_append (e.bytes bigend text ++ rest)).symm hzero (fuel + 1) 0
    e.charsize
  rw [checkCharacters, hfuel]
  refine hrun.trans ?_
  rw [List.nil_append, Int.zero_add, checkCharactersLoop]
  obtain rfl | ⟨more, rfl⟩ := hrest
  · rw [List.append_nil, if_neg (Int.lt_irrefl _)]
  · rw [if_pos (index_tail e bigend text (by simp [encode_ne_nil]))]
    simp only [drop_pre, getCodepoint_terminator, Int.lt_irrefl, if_false, if_true]

/-- What a pass does where no character is read. -/
theorem writeUnicodeLoop_stop (htail : tail ≠ []) (hread : (getCodepoint tail e.charsize bigend skip).1 ≤ 0) (fuel : Nat) (out : List UInt8)
    (count : Int) :
    writeUnicodeLoop maximumChars (e.bytes bigend text ++ tail) (e.bytes bigend text ++ tail).length e.charsize bigend (fuel + 1) out
      (e.bytes bigend text).length count skip = .ok (decide ((getCodepoint tail e.charsize bigend skip).1 = 0), out) := by
  rw [writeUnicodeLoop, if_pos (index_tail e bigend text htail)]
  simp only [drop_pre]
  split
  · rename_i hneg
    rw [decide_eq_false (by omega)]
  · rename_i hneg
    rw [if_pos (by omega), decide_eq_true (by omega)]

theorem writeUnicodeLoop_end (fuel : Nat) (out : List UInt8) (count : Int) :
    writeUnicodeLoop maximumChars buf buf.length e.charsize bigend (fuel + 1) out buf.length count skip = .ok (true, out) := by
  rw [writeUnicodeLoop, if_neg (Int.lt_irrefl _)]

theorem writeUnicodeWith_text (h₁ : 1 ≤ maximumChars) (hzero : '\x00' ∉ text) (hrest : Terminated e bigend rest) (out : List UInt8) :
    writeUnicodeWith maximumChars out (e.bytes bigend text ++ rest) (e.bytes bigend text ++ rest).length e.charsize bigend =
      .ok (true, out ++ utf8Text (text.take maximumChars.toNat)) := by
  by_cases hle : maximumChars ≤ text.length
  · exact writeUnicodeWith_limit h₁ hle (fun h => hzero (List.mem_of_mem_take h)) out rest
  · have hlt : (text.length : Int) < maximumChars := by omega
    obtain ⟨fuel, skip, -, hrun⟩ := writeUnicodeWith_below (e := e) hlt hzero out rest
    rw [hrun, List.take_of_length_le (by omega)]
    obtain rfl | ⟨more, rfl⟩ := hrest
    · rw [List.append_nil]
      exact writeUnicodeLoop_end fuel _ _
    · rw [writeUnicodeLoop_stop (by simp [encode_ne_nil]) (getCodepoint_terminator e bigend more skip).le,
        getCodepoint_terminator]
      rfl

/-- The characters of a text are read back from its bytes in UTF-8. -/
theorem codepoints_utf8 (hzero : '\x00' ∉ text) (bigend : Bool) {fuel : Nat} (hfuel : text.length ≤ fuel) :
    codepoints 1 bigend (fuel + 1) (utf8Text text) = text.map fun c => (c.toNat : Int) := by
  induction text generalizing fuel with
  | nil => rfl
  | cons c text ih =>
      obtain ⟨fuel, rfl⟩ : ∃ n, fuel = n + 1 := ⟨fuel - 1, by rw [List.length_cons] at hfuel; omega⟩
      have hc : c ≠ '\x00' := fun h => hzero (h ▸ List.mem_cons_self)
      have hpos := toNat_pos hc
      have hsplit : utf8Text (c :: text) = String.utf8EncodeChar c ++ utf8Text text := List.flatMap_cons
      have hread := getCodepoint_encode .utf8 bigend c (utf8Text text) 1
      simp only [encode, charsize] at hread
      rw [codepoints, hsplit, if_neg (by simp [String.utf8EncodeChar_ne_nil])]
      simp only [hread]
      rw [if_neg (by omega), Int.toNat_natCast, List.drop_left, ih (fun h => hzero (List.mem_cons_of_mem _ h))
        (by rw [List.length_cons] at hfuel; omega), List.map_cons]

theorem getCodepoint_char {charsize : Int} (h : 0 < (getCodepoint buf charsize bigend skip).1) :
    (∃ c : Char, (getCodepoint buf charsize bigend skip).1 = c.toNat) ∧ 0 < (getCodepoint buf charsize bigend skip).2 := by
  rw [getCodepoint] at h ⊢
  cases hread : decode buf charsize bigend with
  | none => simp [hread] at h
  | some r =>
      obtain ⟨v, sk⟩ := r
      have hsk : 0 < sk := by
        simp only [decode, decodeUtf16, decodeUtf8, decodeUtf32] at hread
        split_ifs at hread <;> simp only [reduceCtorEq, Option.some.injEq, Prod.mk.injEq] at hread <;> omega
      simp only [hread] at h ⊢
      split_ifs at h ⊢
      · simp at h
      · simp at h
      · obtain ⟨c, hc⟩ := exists_char (n := v.toNat) (by omega)
        exact ⟨⟨c, by simp only; omega⟩, hsk⟩
      · obtain ⟨c, hc⟩ := exists_char (n := v.toNat) (by simp only at h; omega)
        exact ⟨⟨c, by simp only at h ⊢; omega⟩, hsk⟩

/-- Every pass takes a byte, and what it writes is a character. -/
theorem writeUnicodeLoop_ok (maximumChars : Int) (buffer : List UInt8) (size charsize : Int) (bigend : Bool) (fuel : Nat)
    (out : List UInt8) (index count skip : Int) (hpos : 0 < fuel) (hfuel : size < index + fuel) :
    ∃ r, writeUnicodeLoop maximumChars buffer size charsize bigend fuel out index count skip = .ok r := by
  induction fuel generalizing out index count skip with
  | zero => omega
  | succ fuel ih =>
      rw [writeUnicodeLoop]
      split
      · simp only
        split
        · exact ⟨_, rfl⟩
        · split
          · exact ⟨_, rfl⟩
          · have hpositive : 0 < (getCodepoint (buffer.drop index.toNat) charsize bigend skip).1 := by omega
            obtain ⟨⟨c, hc⟩, hsk⟩ := getCodepoint_char hpositive
            rw [hc, writeUtf8_char, ok_bind]
            split
            · exact ⟨_, rfl⟩
            · exact ih _ _ _ _ (by omega) (by omega)
      · exact ⟨_, rfl⟩

theorem writeUnicodeWith_ok (maximumChars : Int) (out buffer : List UInt8) (size charsize : Int) (bigend : Bool) :
    ∃ r, writeUnicodeWith maximumChars out buffer size charsize bigend = .ok r :=
  writeUnicodeLoop_ok maximumChars buffer size charsize bigend _ out 0 0 charsize (by omega) (by omega)

/-- The call reports a failure, or it writes only characters of the text. -/
def Handled (text : List Char) (out : List UInt8) (r : Outcome (Bool × List UInt8)) : Prop :=
  (∃ o, r = .ok (false, o)) ∨ ∃ k ≤ text.length, r = .ok (true, out ++ utf8Text (text.take k))

theorem handled_of_stop (htail : tail ≠ []) (hread : ∀ skip, (getCodepoint tail e.charsize bigend skip).1 ≤ 0)
    (hzero : '\x00' ∉ text) (hlt : (text.length : Int) < maximumChars) (out : List UInt8) :
    Handled text out
      (writeUnicodeWith maximumChars out (e.bytes bigend text ++ tail) (e.bytes bigend text ++ tail).length e.charsize bigend) := by
  obtain ⟨fuel, skip, -, hrun⟩ := writeUnicodeWith_below (e := e) hlt hzero out tail
  rw [hrun, writeUnicodeLoop_stop htail (hread skip)]
  cases decide ((getCodepoint tail e.charsize bigend skip).1 = 0) with
  | false => exact Or.inl ⟨_, rfl⟩
  | true => exact Or.inr ⟨text.length, Nat.le_refl _, by rw [List.take_length]⟩

theorem Handled.longer {text' : List Char} {r : Outcome (Bool × List UInt8)} (h : Handled text out r) (hpre : text <+: text') :
    Handled text' out r := by
  obtain hfalse | ⟨k, hk, hr⟩ := h
  · exact Or.inl hfalse
  · obtain ⟨more, rfl⟩ := hpre
    refine Or.inr ⟨k, by rw [List.length_append]; omega, ?_⟩
    rw [hr, List.take_append_of_le_length hk]

/-- At the limit or at a zero the call stops before it gets to the rest. -/
theorem handled_before (h₁ : 1 ≤ maximumChars) (hstop : '\x00' ∈ text ∨ maximumChars ≤ text.length) (out tail : List UInt8) :
    Handled text out
      (writeUnicodeWith maximumChars out (e.bytes bigend text ++ tail) (e.bytes bigend text ++ tail).length e.charsize bigend) := by
  by_cases hlimit : '\x00' ∉ text.take maximumChars.toNat ∧ maximumChars ≤ text.length
  · rw [writeUnicodeWith_limit h₁ hlimit.2 hlimit.1]
    exact Or.inr ⟨maximumChars.toNat, by omega, rfl⟩
  · have hmem : '\x00' ∈ text.take maximumChars.toNat := by
      by_contra hnot
      have hlarge : ¬maximumChars ≤ text.length := fun hle => hlimit ⟨hnot, hle⟩
      rw [List.take_of_length_le (by omega)] at hnot
      exact hnot (hstop.resolve_right hlarge)
    obtain ⟨before, more, htake, hbefore⟩ := List.eq_append_cons_of_mem hmem
    have hlen : before.length < maximumChars.toNat := by
      have hle := List.length_take_le maximumChars.toNat text
      rw [htake, List.length_append, List.length_cons] at hle
      omega
    have htext : text = before ++ '\x00' :: (more ++ text.drop maximumChars.toNat) := by
      conv_lhs => rw [← List.take_append_drop maximumChars.toNat text, htake]
      simp
    have hbytes : e.bytes bigend text ++ tail = e.bytes bigend before ++
        (e.encode bigend '\x00' ++ (e.bytes bigend (more ++ text.drop maximumChars.toNat) ++ tail)) := by
      conv_lhs => rw [htext]
      rw [bytes_append, bytes_cons, List.append_assoc, List.append_assoc]
    rw [hbytes]
    refine (handled_of_stop (by simp [encode_ne_nil]) (fun skip => ?_) hbefore (by omega) out).longer ?_
    · exact (getCodepoint_terminator e bigend _ skip).le
    · rw [htext]
      exact List.prefix_append _ _

/-- A defect is handled exactly when the call does not get to it as to a unit
that zeros complete to a character. -/
theorem handled_defect_iff (h₁ : 1 ≤ maximumChars) (h : e.Defect bigend bad) (text : List Char) (out : List UInt8) :
    Handled text out
        (writeUnicodeWith maximumChars out (e.bytes bigend text ++ bad) (e.bytes bigend text ++ bad).length e.charsize bigend) ↔
      ¬('\x00' ∉ text ∧ (text.length : Int) < maximumChars ∧ e.Completes bigend bad) := by
  by_cases hstop : '\x00' ∈ text ∨ maximumChars ≤ text.length
  · refine iff_of_true (handled_before h₁ hstop out bad) ?_
    rintro ⟨hzero, hlt, -⟩
    obtain hmem | hle := hstop
    · exact hzero hmem
    · omega
  · obtain ⟨hzero, hlt⟩ := not_or.mp hstop
    rw [not_le] at hlt
    simp only [hzero, hlt, not_false_eq_true, true_and]
    by_cases hcomp : e.Completes bigend bad
    · refine iff_of_false ?_ (not_not.mpr hcomp)
      obtain ⟨c, hc, k, hk, hencode⟩ := hcomp
      have hpos := toNat_pos hc
      obtain ⟨fuel, skip, hfuel, hrun⟩ := writeUnicodeWith_below (e := e) hlt hzero out bad
      have hbad := List.length_pos_iff.mpr (defect_ne_nil h)
      obtain ⟨fuel, rfl⟩ : ∃ n, fuel = n + 1 := ⟨fuel - 1, by omega⟩
      have hresult : writeUnicodeWith maximumChars out (e.bytes bigend text ++ bad) (e.bytes bigend text ++ bad).length e.charsize
          bigend = .ok (true, out ++ utf8Text text ++ String.utf8EncodeChar c) := by
        rw [hrun, writeUnicodeLoop, if_pos (index_tail e bigend text (defect_ne_nil h))]
        simp only [drop_pre, getCodepoint_completes hencode]
        rw [if_neg (by omega), if_neg (by omega), writeUtf8_char, ok_bind]
        split
        · rfl
        · rw [writeUnicodeLoop, if_neg]
          rw [hencode, List.length_append, List.length_append]
          omega
      rw [hresult]
      rintro (⟨o, ho⟩ | ⟨k, hk, hr⟩)
      · cases ho
      · simp only [Except.ok.injEq, Prod.mk.injEq, true_and] at hr
        have hlen := congrArg List.length hr
        have hsub : (utf8Text (text.take k)).length ≤ (utf8Text text).length := by
          conv_rhs => rw [← List.take_append_drop k text, utf8Text, List.flatMap_append, List.length_append]
          exact Nat.le_add_right _ _
        have hchar : 0 < (String.utf8EncodeChar c).length := List.length_pos_iff.mpr String.utf8EncodeChar_ne_nil
        simp only [List.length_append] at hlen
        omega
    · refine iff_of_true ?_ hcomp
      refine handled_of_stop (defect_ne_nil h) (fun skip => ?_) hzero hlt out
      by_contra hpos
      exact hcomp (completes_of_pos h (not_le.mp hpos))

/-- Texts are transcoded exactly, no buffer is an error, and a buffer that ends
in a defect is handled unless zeros complete the unit that is cut. -/
theorem transcoding_exact_iff (e : Encoding) (bigend : Bool) (maximumChars : Int) (h₁ : 1 ≤ maximumChars) (out : List UInt8) :
    (∀ text rest, '\x00' ∉ text → Terminated e bigend rest →
      checkCharacters (e.bytes bigend text ++ rest) (e.bytes bigend text ++ rest).length e.charsize bigend = .ok text.length ∧
        writeUnicodeWith maximumChars out (e.bytes bigend text ++ rest) (e.bytes bigend text ++ rest).length e.charsize bigend =
          .ok (true, out ++ utf8Text (text.take maximumChars.toNat)) ∧
        ∀ bigend' fuel, text.length ≤ fuel → codepoints 1 bigend' (fuel + 1) (utf8Text (text.take maximumChars.toNat)) =
          (text.take maximumChars.toNat).map fun c => (c.toNat : Int)) ∧
      (∀ buffer size charsize, ∃ r, writeUnicodeWith maximumChars out buffer size charsize bigend = .ok r) ∧
      ∀ text bad, e.Defect bigend bad →
        (Handled text out (writeUnicodeWith maximumChars out (e.bytes bigend text ++ bad) (e.bytes bigend text ++ bad).length
            e.charsize bigend) ↔
          ¬('\x00' ∉ text ∧ (text.length : Int) < maximumChars ∧ e.Completes bigend bad)) := by
  refine ⟨fun text rest hzero hrest => ⟨checkCharacters_text hzero hrest, writeUnicodeWith_text h₁ hzero hrest out, ?_⟩, ?_, ?_⟩
  · intro bigend' fuel hfuel
    refine codepoints_utf8 (fun h => hzero (List.mem_of_mem_take h)) bigend' ?_
    rw [List.length_take]
    omega
  · exact fun buffer size charsize => writeUnicodeWith_ok maximumChars out buffer size charsize bigend
  · exact fun text bad h => handled_defect_iff h₁ h text out

/-- The bytes of a pair of surrogates, of a truncated one and of its first half. -/
theorem transcoding_exact_pair :
    writeUnicodeWith 5 [] [0xD8, 0x3D, 0xDE, 0x00] 4 2 true = .ok (true, [0xF0, 0x9F, 0x98, 0x80]) ∧
      ¬Encoding.utf16.Completes true [0xD8, 0x3D] := by
  obtain ⟨htext, -, hdefect⟩ := transcoding_exact_iff .utf16 true 5 (by decide) []
  refine ⟨(htext [Char.ofNat 0x1F600] [] (by decide) (Or.inl rfl)).2.1, ?_⟩
  have hcut : Encoding.utf16.Defect true [0xD8, 0x3D] :=
    .truncated (c := Char.ofNat 0x1F600) (by decide) (by decide) (by decide)
  have hiff := hdefect [] [0xD8, 0x3D] hcut
  have hhandled : Handled [] [] (writeUnicodeWith 5 [] [0xD8, 0x3D] 2 2 true) := Or.inl ⟨[], by rfl⟩
  exact fun hcomp => hiff.mp hhandled ⟨by decide, by decide, hcomp⟩

/-- One byte of a unit of two is read as a character. -/
theorem truncated_unit_written :
    Encoding.utf16.Defect false [0x3D] ∧ writeUnicodeWith 5 [] [0x3D] 1 2 false = .ok (true, [0x3D]) ∧
      ¬∀ (e : Encoding) (bigend : Bool) (maximumChars : Int) (text : List Char) (bad out : List UInt8), 1 ≤ maximumChars →
        e.Defect bigend bad → Handled text out (writeUnicodeWith maximumChars out (e.bytes bigend text ++ bad)
          (e.bytes bigend text ++ bad).length e.charsize bigend) := by
  have hcut : Encoding.utf16.Defect false [0x3D] := .truncated (c := Char.ofNat 0x1F600) (by decide) (by decide) (by decide)
  have hrun : writeUnicodeWith 5 [] [0x3D] 1 2 false = .ok (true, [0x3D]) := by rfl
  refine ⟨hcut, hrun, fun h => ?_⟩
  have hhandled : Handled [] [] (writeUnicodeWith 5 [] [0x3D] 1 2 false) := h .utf16 false 5 [] [0x3D] [] (by decide) hcut
  rw [hrun] at hhandled
  obtain ⟨o, ho⟩ | ⟨k, hk, hr⟩ := hhandled
  · cases ho
  · obtain rfl : k = 0 := Nat.le_zero.mp hk
    cases hr

end GhidraDecompiler.Strings
