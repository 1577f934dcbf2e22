import GhidraDecompiler.Strings.Transcoding
import GhidraDecompiler.Strings.ZeroFill

namespace GhidraDecompiler.Strings

open Fallible Encoding

variable {e : Encoding} {bigend : Bool} {text : List Char} {buf bad out rest : List UInt8} {maximumChars count skip : Int} {c c' : Char}
  {u : Nat}

namespace Encoding

/-- The bytes that would stand for a surrogate. -/
def surrogateBytes (e : Encoding) (bigend : Bool) (u : Nat) : List UInt8 :=
  match e with
  | utf8 => [.ofNat (u / 4096 % 0x10 + 0xe0), .ofNat (u / 64 % 0x40 + 0x80), .ofNat (u % 0x40 + 0x80)]
  | utf16 => unitBytes bigend u
  | utf32 => quadBytes bigend u

/-- The end of a buffer that breaks off inside a character, or that starts with
a surrogate without its partner. -/
inductive Defect (e : Encoding) (bigend : Bool) : List UInt8 → Prop
  | truncated {bad : List UInt8} {c : Char} (hne : bad ≠ []) (hlt : bad.length < (e.encode bigend c).length)
      (h : bad <+: e.encode bigend c) : Defect e bigend bad
  | surrogate {u : Nat} {rest : List UInt8} (hu : 0xD800 ≤ u ∧ u ≤ 0xDFFF)
      (hpair : e = utf16 → u ≤ 0xDBFF → ¬∃ t more, (0xDC00 ≤ t ∧ t ≤ 0xDFFF) ∧ rest = unitBytes bigend t ++ more) :
      Defect e bigend (e.surrogateBytes bigend u ++ rest)

/-- Zeros would complete a character that is not zero. -/
def Completes (e : Encoding) (bigend : Bool) (bad : List UInt8) : Prop :=
  ∃ c : Char, c ≠ '\x00' ∧ ∃ k, 0 < k ∧ e.encode bigend c = bad ++ List.replicate k 0

end Encoding

/-- A buffer is read as if zeros followed it. -/
theorem getCodepoint_completes {k : Nat} (h : e.encode bigend c = bad ++ List.replicate k 0) (skip : Int) :
    getCodepoint bad e.charsize bigend skip = ((c.toNat : Int), ((e.encode bigend c).length : Int)) := by
  have hread := getCodepoint_encode e bigend c [] skip
  rw [List.append_nil, h] at hread
  rw [getCodepoint_congr (fun i => (byteAt_append_zeros bad k i).symm), hread, h]

/-- No encoding of a character starts another one. -/
theorem encode_prefix (h : e.encode bigend c <+: e.encode bigend c') : c = c' := by
  obtain ⟨rest, hrest⟩ := h
  have hread := getCodepoint_encode e bigend c rest 0
  have hread' := getCodepoint_encode e bigend c' [] 0
  rw [List.append_nil, ← hrest, hread, Prod.mk.injEq] at hread'
  exact Char.toNat_inj.mp (Int.ofNat_inj.mp hread'.1)

/-- With wide units a code point that is read is the character in the padded bytes. -/
theorem getCodepoint_padded (hwide : e ≠ .utf8) (hpos : 0 < (getCodepoint buf e.charsize bigend skip).1) :
    ∃ c : Char, c ≠ '\x00' ∧ e.encode bigend c = padded buf (e.encode bigend c).length := by
  cases hread : decode buf e.charsize bigend with
  | none =>
      rw [getCodepoint, hread] at hpos
      exact absurd hpos (by simp)
  | some r =>
      obtain ⟨v, sk⟩ := r
      have hv : (0 : Int) < v ∧ (v < 0xd800 ∨ 0xdfff < v ∧ v < 0x110000) := by
        simp only [getCodepoint, hread] at hpos
        split at hpos
        · split at hpos
          · exact absurd hpos (by simp)
          · split at hpos
            · exact absurd hpos (by simp)
            · simp only at hpos
              omega
        · simp only at hpos
          omega
      have hchar : ∃ c : Char, v = c.toNat ∧ e.encode bigend c = padded buf (e.encode bigend c).length := by
        cases e with
        | utf8 => exact absurd rfl hwide
        | utf16 => exact decodeUtf16_padded hread
        | utf32 => exact decodeUtf32_padded hread (Int.le_of_lt hv.1) hv.2
      obtain ⟨c, hc, hbytes⟩ := hchar
      refine ⟨c, ?_, hbytes⟩
      rintro rfl
      have : v = 0 := hc
      omega

/-- A defect does not start with a whole character. -/
theorem not_prefix_defect (h : e.Defect bigend bad) (hwide : e ≠ .utf8) : ¬e.encode bigend c <+: bad := by
  intro hpre
  cases h with
  | truncated hne hlt hbad =>
      obtain rfl := encode_prefix (hpre.trans hbad)
      have := hpre.length_le
      omega
  | @surrogate u rest hu hpair =>
      have hc := char_lt c
      obtain ⟨more, hmore⟩ := hpre
      cases e with
      | utf8 => exact hwide rfl
      | utf16 =>
          have hunit : readUtf16 (unitBytes bigend u ++ rest) bigend = u := readUtf16_unit bigend rest (by omega)
          have hrest : (unitBytes bigend u ++ rest).drop 2 = rest := drop_unit bigend u rest
          simp only [encode, units, surrogateBytes] at hmore
          rw [← hmore] at hunit hrest
          split at hunit
          · rename_i hsmall
            rw [List.flatMap_singleton, readUtf16_unit bigend more (by omega)] at hunit
            omega
          · rename_i hlarge
            rw [if_neg hlarge] at hrest
            rw [List.flatMap_cons, List.append_assoc, List.flatMap_singleton] at hunit hrest
            rw [readUtf16_unit bigend _ (by omega)] at hunit
            rw [drop_unit] at hrest
            exact hpair rfl (by omega) ⟨_, more, by omega, hrest.symm⟩
      | utf32 =>
          have hleft := decodeUtf32_quad (n := u) bigend rest (by omega)
          have hright := decodeUtf32_quad (n := c.toNat) bigend more (by omega)
          simp only [encode, surrogateBytes] at hmore
          rw [← hmore, hright] at hleft
          simp at hleft
          omega

/-- In UTF-8 a zero is never the trail of a character, and surrogates are refused. -/
theorem getCodepoint_defect_utf8 (h : Encoding.utf8.Defect bigend bad) (skip : Int) :
    (getCodepoint bad 1 bigend skip).1 = -1 := by
  have hdecode : decode bad 1 bigend = decodeUtf8 bad := rfl
  cases h with
  | @truncated _ c hne hlt hpre =>
      have hnone : decodeUtf8 bad = none := by
        have hpos := List.length_pos_iff.mpr hne
        have hc := char_lt c
        have hval : c.val.toNat = c.toNat := rfl
        have hfirst : byteAt bad 0 = byteAt (String.utf8EncodeChar c) 0 := byteAt_prefix hpre hpos
        simp only [encode] at hlt
        have hlast (i : Nat) (hi : bad.length ≤ i) : byteAt bad i &&& 0xc0 ≠ 0x80 := by
          rw [byteAt_of_le hi]
          decide
        simp only [String.utf8EncodeChar, hval] at hlt hfirst
        split at hlt
        · rw [List.length_singleton] at hlt
          omega
        · rename_i hone
          rw [if_neg hone] at hfirst
          split at hlt
          · rename_i htwo
            obtain ⟨hmark, hlead, -⟩ := lead_two (x := c.toNat / 64 % 0x20) (by omega)
            rw [if_pos htwo, byteAt_zero, toNat_byte (by omega)] at hfirst
            simp only [decodeUtf8, hfirst, if_neg hmark, if_pos hlead]
            rw [if_pos (hlast 1 (Nat.le_of_lt_succ hlt))]
          · rename_i htwo
            rw [if_neg htwo] at hfirst
            split at hlt
            · rename_i hthree
              obtain ⟨hmark, hnot, hlead, -⟩ := lead_three (x := c.toNat / 4096 % 0x10) (by omega)
              rw [if_pos hthree, byteAt_zero, toNat_byte (by omega)] at hfirst
              simp only [decodeUtf8, hfirst, if_neg hmark, if_neg hnot, if_pos hlead]
              rw [if_pos (Or.inr (hlast 2 (Nat.le_of_lt_succ hlt)))]
            · rename_i hthree
              obtain ⟨hmark, hnot, hnot', hlead, -⟩ := lead_four (x := c.toNat / 262144 % 0x08) (by omega)
              rw [if_neg hthree, byteAt_zero, toNat_byte (by omega)] at hfirst
              simp only [decodeUtf8, hfirst, if_neg hmark, if_neg hnot, if_neg hnot', if_pos hlead]
              rw [if_pos (Or.inr (Or.inr (hlast 3 (Nat.le_of_lt_succ hlt))))]
      rw [getCodepoint, hdecode, hnone]
  | @surrogate u rest hu hpair =>
      obtain ⟨hmark, hnot, hlead, hx⟩ := lead_three (x := u / 4096 % 0x10) (by omega)
      obtain ⟨htrail, hy⟩ := trail (x := u / 64 % 0x40) (by omega)
      obtain ⟨htrail', hz⟩ := trail (x := u % 0x40) (by omega)
      have hsome : decodeUtf8 (surrogateBytes utf8 bigend u ++ rest) = some ((u : Int), 3) := by
        simp only [decodeUtf8, surrogateBytes, List.cons_append, byteAt_zero, byteAt_succ,
          toNat_byte (n := u / 4096 % 0x10 + 0xe0) (by omega), toNat_byte (n := u / 64 % 0x40 + 0x80) (by omega),
          toNat_byte (n := u % 0x40 + 0x80) (by omega), if_neg hmark, if_neg hnot, if_pos hlead, htrail, htrail', hx, hy, hz,
          assemble_three (y := u / 64 % 0x40) (z := u % 0x40) (by omega) (by omega)]
        simp
        omega
      rw [getCodepoint, hdecode, hsome]
      simp only
      rw [if_pos (by omega), if_neg (by omega), if_pos (by omega)]

/-- Where a character is read at a defect, zeros have completed it. -/
theorem completes_of_pos (h : e.Defect bigend bad) (hpos : 0 < (getCodepoint bad e.charsize bigend skip).1) : e.Completes bigend bad := by
  by_cases hwide : e = .utf8
  · subst hwide
    have hread : (getCodepoint bad Encoding.utf8.charsize bigend skip).1 = -1 := getCodepoint_defect_utf8 h skip
    omega
  · obtain ⟨c, hc, hbytes⟩ := getCodepoint_padded hwide hpos
    refine ⟨c, hc, (e.encode bigend c).length - bad.length, ?_, ?_⟩
    · by_contra hle
      rw [padded_eq_take (by omega)] at hbytes
      exact not_prefix_defect h hwide (hbytes ▸ List.take_prefix _ _)
    · rw [← padded_eq_append, ← hbytes]
      by_contra hle
      rw [padded_eq_take (by omega)] at hbytes
      exact not_prefix_defect h hwide (hbytes ▸ List.take_prefix _ _)

theorem defect_ne_nil (h : e.Defect bigend bad) : bad ≠ [] := by
  cases h with
  | truncated hne => exact hne
  | surrogate => cases e <;> simp [surrogateBytes, ← List.length_pos_iff]

end GhidraDecompiler.Strings
