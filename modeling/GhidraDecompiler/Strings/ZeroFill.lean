import GhidraDecompiler.Strings.Encodings

namespace GhidraDecompiler.Strings

open Fallible Encoding

variable {e : Encoding} {bigend : Bool} {buf buf' bad rest : List UInt8} {c : Char} {skip v sk : Int} {u n : Nat}

theorem byteAt_drop (buf : List UInt8) (n i : Nat) : byteAt (buf.drop n) i = byteAt buf (n + i) := by
  rw [byteAt, byteAt, List.getElem?_drop]

theorem byteAt_append_zeros (buf : List UInt8) (n i : Nat) : byteAt (buf ++ List.replicate n 0) i = byteAt buf i := by
  rw [byteAt, byteAt, List.getElem?_append]
  split
  · rfl
  · rename_i hge
    rw [List.getElem?_replicate, List.getElem?_eq_none (Nat.le_of_not_lt hge)]
    split <;> rfl

theorem byteAt_of_le {i : Nat} (h : buf.length ≤ i) : byteAt buf i = 0 := by
  rw [byteAt, List.getElem?_eq_none h]
  rfl

theorem byteAt_prefix {i : Nat} (h : bad <+: buf) (hi : i < bad.length) : byteAt bad i = byteAt buf i := by
  obtain ⟨rest, rfl⟩ := h
  rw [byteAt, byteAt, List.getElem?_append_left hi]

theorem readUtf16_congr (h : ∀ i, byteAt buf i = byteAt buf' i) (bigend : Bool) : readUtf16 buf bigend = readUtf16 buf' bigend := by
  rw [readUtf16, readUtf16, h 0, h 1]

theorem decodeUtf16_congr (h : ∀ i, byteAt buf i = byteAt buf' i) (bigend : Bool) :
    decodeUtf16 buf bigend = decodeUtf16 buf' bigend := by
  have hdrop (i : Nat) : byteAt (buf.drop 2) i = byteAt (buf'.drop 2) i := by rw [byteAt_drop, byteAt_drop, h]
  rw [decodeUtf16, decodeUtf16, readUtf16_congr h, readUtf16_congr hdrop]

theorem decodeUtf8_congr (h : ∀ i, byteAt buf i = byteAt buf' i) : decodeUtf8 buf = decodeUtf8 buf' := by
  rw [decodeUtf8, decodeUtf8, h 0, h 1, h 2, h 3]

theorem decodeUtf32_congr (h : ∀ i, byteAt buf i = byteAt buf' i) (bigend : Bool) :
    decodeUtf32 buf bigend = decodeUtf32 buf' bigend := by
  rw [decodeUtf32, decodeUtf32, h 0, h 1, h 2, h 3]

/-- Only the bytes matter, and those past the end are zero. -/
theorem decode_congr (h : ∀ i, byteAt buf i = byteAt buf' i) (charsize : Int) (bigend : Bool) :
    decode buf charsize bigend = decode buf' charsize bigend := by
  rw [decode, decode, decodeUtf16_congr h, decodeUtf8_congr h, decodeUtf32_congr h]

theorem getCodepoint_congr (h : ∀ i, byteAt buf i = byteAt buf' i) (charsize : Int) (bigend : Bool) (skip : Int) :
    getCodepoint buf charsize bigend skip = getCodepoint buf' charsize bigend skip := by
  simp only [getCodepoint, decode_congr h]

/-- The first bytes of a buffer, with zeros where it has ended. -/
def padded (buf : List UInt8) (n : Nat) : List UInt8 := (List.range n).map fun i => UInt8.ofNat (byteAt buf i)

theorem padded_two (buf : List UInt8) : padded buf 2 = [.ofNat (byteAt buf 0), .ofNat (byteAt buf 1)] := rfl

theorem padded_four (buf : List UInt8) :
    padded buf 4 = [.ofNat (byteAt buf 0), .ofNat (byteAt buf 1), .ofNat (byteAt buf 2), .ofNat (byteAt buf 3)] := rfl

theorem padded_eq_take (h : n ≤ buf.length) : padded buf n = buf.take n := by
  apply List.ext_getElem
  · simp [padded, h]
  · intro i hi hi'
    have hlt : i < buf.length := by
      rw [List.length_take] at hi'
      omega
    simp [padded, byteAt, List.getElem?_eq_getElem hlt]

theorem padded_eq_append (h : buf.length ≤ n) : padded buf n = buf ++ List.replicate (n - buf.length) 0 := by
  apply List.ext_getElem
  · simp [padded, h]
  · intro i hi hi'
    rw [List.getElem_append]
    split
    · rename_i hlt
      simp [padded, byteAt, List.getElem?_eq_getElem hlt]
    · rename_i hge
      simp [padded, byteAt_of_le (Nat.le_of_not_lt hge)]

theorem unitBytes_readUtf16 (buf : List UInt8) (bigend : Bool) : unitBytes bigend (readUtf16 buf bigend) = padded buf 2 := by
  have h₀ := byteAt_lt buf 0
  have h₁ := byteAt_lt buf 1
  rw [padded_two]
  cases bigend
  · simp only [unitBytes, readUtf16, if_neg Bool.false_ne_true, Nat.shiftLeft_eq]
    rw [show (byteAt buf 1 * 2 ^ 8 + byteAt buf 0) % 256 = byteAt buf 0 by omega,
      show (byteAt buf 1 * 2 ^ 8 + byteAt buf 0) / 256 = byteAt buf 1 by omega]
  · simp only [unitBytes, readUtf16, if_true, Nat.shiftLeft_eq]
    rw [show (byteAt buf 0 * 2 ^ 8 + byteAt buf 1) % 256 = byteAt buf 1 by omega,
      show (byteAt buf 0 * 2 ^ 8 + byteAt buf 1) / 256 = byteAt buf 0 by omega]

theorem padded_drop (buf : List UInt8) : padded buf 4 = padded buf 2 ++ padded (buf.drop 2) 2 := by
  rw [padded_four, padded_two, padded_two, byteAt_drop, byteAt_drop]
  rfl

theorem readUtf16_lt (buf : List UInt8) (bigend : Bool) : readUtf16 buf bigend < 65536 := by
  have h₀ := byteAt_lt buf 0
  have h₁ := byteAt_lt buf 1
  cases bigend <;> simp only [readUtf16, if_neg Bool.false_ne_true, if_true, Nat.shiftLeft_eq] <;> omega

/-- The character of a code point outside the surrogates. -/
theorem exists_char (h : n < 0xd800 ∨ 0xdfff < n ∧ n < 0x110000) : ∃ c : Char, c.toNat = n := by
  refine ⟨Char.ofNat n, ?_⟩
  have hvalid : n.isValidChar := h
  rw [Char.ofNat, dif_pos hvalid]
  rfl

theorem decodeUtf16_padded (h : decodeUtf16 buf bigend = some (v, sk)) : ∃ c : Char, v = c.toNat ∧
    encode utf16 bigend c = padded buf (encode utf16 bigend c).length := by
  have hlt := readUtf16_lt buf bigend
  have hlt' := readUtf16_lt (buf.drop 2) bigend
  have hunit := unitBytes_readUtf16 buf bigend
  have hunit' := unitBytes_readUtf16 (buf.drop 2) bigend
  simp only [decodeUtf16] at h
  generalize readUtf16 buf bigend = u at h hlt hunit
  generalize readUtf16 (buf.drop 2) bigend = t at h hlt' hunit'
  split at h
  · rename_i hhigh
    split at h
    · cases h
    · rename_i hlow
      rw [not_not] at hlow
      simp only [Option.some.injEq, Prod.mk.injEq, Nat.shiftLeft_eq] at h
      obtain ⟨c, hc⟩ := exists_char (n := 0x10000 + (u - 0xD800) * 0x400 + (t - 0xDC00)) (by omega)
      refine ⟨c, ?_, ?_⟩
      · rw [← h.1, hc]
        push_cast
        omega
      · have hencode : encode utf16 bigend c = unitBytes bigend u ++ unitBytes bigend t := by
          simp only [encode, units, hc]
          rw [if_neg (by omega), List.flatMap_cons, List.flatMap_singleton,
            show 0xD800 + (0x10000 + (u - 0xD800) * 0x400 + (t - 0xDC00) - 0x10000) / 0x400 = u by omega,
            show 0xDC00 + (0x10000 + (u - 0xD800) * 0x400 + (t - 0xDC00) - 0x10000) % 0x400 = t by omega]
        rw [hencode, List.length_append, length_unitBytes, length_unitBytes, hunit, hunit']
        exact (padded_drop buf).symm
  · split at h
    · cases h
    · rename_i hhigh hlow
      simp only [Option.some.injEq, Prod.mk.injEq] at h
      obtain ⟨c, hc⟩ := exists_char (n := u) (by omega)
      refine ⟨c, by rw [← h.1, hc], ?_⟩
      have hencode : encode utf16 bigend c = unitBytes bigend u := by
        simp only [encode, units, hc]
        rw [if_pos hlt, List.flatMap_singleton]
      rw [hencode, length_unitBytes, hunit]

theorem quadBytes_eq {b₀ b₁ b₂ b₃ : Nat} (h₁ : b₁ < 256) (h₂ : b₂ < 256) (h₃ : b₃ < 256) :
    quadBytes true (((b₀ * 256 + b₁) * 256 + b₂) * 256 + b₃) = [.ofNat b₀, .ofNat b₁, .ofNat b₂, .ofNat b₃] ∧
      quadBytes false (((b₀ * 256 + b₁) * 256 + b₂) * 256 + b₃) = [.ofNat b₃, .ofNat b₂, .ofNat b₁, .ofNat b₀] := by
  have e₀ : (((b₀ * 256 + b₁) * 256 + b₂) * 256 + b₃) / 65536 / 256 = b₀ := by omega
  have e₁ : (((b₀ * 256 + b₁) * 256 + b₂) * 256 + b₃) / 65536 % 256 = b₁ := by omega
  have e₂ : (((b₀ * 256 + b₁) * 256 + b₂) * 256 + b₃) % 65536 / 256 = b₂ := by omega
  have e₃ : (((b₀ * 256 + b₁) * 256 + b₂) * 256 + b₃) % 65536 % 256 = b₃ := by omega
  simp [quadBytes, unitBytes, e₀, e₁, e₂, e₃]

theorem decodeUtf32_padded (h : decodeUtf32 buf bigend = some (v, sk)) (hpos : 0 ≤ v)
    (hvalid : v < 0xd800 ∨ 0xdfff < v ∧ v < 0x110000) :
    ∃ c : Char, v = c.toNat ∧ encode utf32 bigend c = padded buf (encode utf32 bigend c).length := by
  obtain ⟨c, hc⟩ := exists_char (n := v.toNat) (by omega)
  refine ⟨c, by omega, ?_⟩
  have h₀ := byteAt_lt buf 0
  have h₁ := byteAt_lt buf 1
  have h₂ := byteAt_lt buf 2
  have h₃ := byteAt_lt buf 3
  simp only [decodeUtf32, Option.some.injEq, Prod.mk.injEq] at h
  rw [show encode utf32 bigend c = quadBytes bigend c.toNat from rfl, length_quadBytes, padded_four, hc, ← h.1]
  cases bigend
  · rw [if_neg Bool.false_ne_true] at h ⊢
    have hsum : fromBytes (byteAt buf 3) (byteAt buf 2) (byteAt buf 1) (byteAt buf 0) =
        (((byteAt buf 3 * 256 + byteAt buf 2) * 256 + byteAt buf 1) * 256 + byteAt buf 0 : Nat) := by
      have hv := h.1
      rw [fromBytes, asI32, Int.bmod_def] at hv ⊢
      omega
    rw [hsum, Int.toNat_natCast]
    exact (quadBytes_eq h₂ h₁ h₀).2
  · rw [if_pos rfl] at h ⊢
    have hsum : fromBytes (byteAt buf 0) (byteAt buf 1) (byteAt buf 2) (byteAt buf 3) =
        (((byteAt buf 0 * 256 + byteAt buf 1) * 256 + byteAt buf 2) * 256 + byteAt buf 3 : Nat) := by
      have hv := h.1
      rw [fromBytes, asI32, Int.bmod_def] at hv ⊢
      omega
    rw [hsum, Int.toNat_natCast]
    exact (quadBytes_eq h₁ h₂ h₃).1

end GhidraDecompiler.Strings
