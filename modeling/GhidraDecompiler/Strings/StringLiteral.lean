import GhidraDecompiler.Strings.Exactness
import GhidraDecompiler.Xml.Tags

namespace GhidraDecompiler.Strings

open Fallible Encoding

def unicodeNeedsEscape (codepoint : Int) : Bool :=
  if codepoint < 0x20 then true
  else if codepoint < 0x7f then codepoint = 92 || codepoint = 0x22 || codepoint = 0x27
  else if codepoint < 0x100 then codepoint ≤ 0xa0
  else if codepoint ≥ 0x2fa20 then true
  else if codepoint < 0x2000 then
    (0x180b ≤ codepoint && codepoint ≤ 0x180e) || codepoint = 0x61c || codepoint = 0x1680
  else if codepoint < 0x3000 then
    codepoint < 0x2010 || (0x2028 ≤ codepoint && codepoint ≤ 0x202f) || codepoint = 0x205f || codepoint = 0x2060 ||
      (0x2066 ≤ codepoint && codepoint ≤ 0x206f)
  else if codepoint < 0xe000 then codepoint = 0x3000 || codepoint ≥ 0xd7fc
  else if codepoint < 0xf900 then true
  else if 0xfe00 ≤ codepoint ∧ codepoint ≤ 0xfe0f then true
  else if codepoint = 0xfeff then true
  else if 0xfff0 ≤ codepoint ∧ codepoint ≤ 0xffff then !(codepoint = 0xfffc || codepoint = 0xfffd)
  else false

/-- A number in hexadecimal with at least so many digits. -/
def hexText (width value : Nat) : List Char :=
  List.replicate (width - (Nat.toDigits 16 value).length) '0' ++ Nat.toDigits 16 value

def printCharHexEscape (out : String) (val : Int) : String :=
  let value := (val % 2 ^ 32).toNat
  let width := if val < 256 then 2 else if val < 65536 then 4 else 8
  out ++ "\\x" ++ String.ofList (hexText width value)

section print

variable (fromUtf8Lossy : List UInt8 → String)

def writeUtf8Char (out : String) (onechar : Int) : String :=
  match writeUtf8 [] onechar with
  | .ok bytes => out ++ Xml.bytesToString fromUtf8Lossy bytes
  | .error _ => out

def printUnicodeCStyle (out : String) (onechar : Int) : String :=
  if unicodeNeedsEscape onechar then
    if onechar = 0 then out ++ "\\0"
    else if onechar = 7 then out ++ "\\a"
    else if onechar = 8 then out ++ "\\b"
    else if onechar = 9 then out ++ "\\t"
    else if onechar = 10 then out ++ "\\n"
    else if onechar = 11 then out ++ "\\v"
    else if onechar = 12 then out ++ "\\f"
    else if onechar = 13 then out ++ "\\r"
    else if onechar = 92 then out ++ "\\\\"
    else if onechar = 0x22 then out ++ "\\\""
    else if onechar = 0x27 then out ++ "\\'"
    else printCharHexEscape out onechar
  else writeUtf8Char fromUtf8Lossy out onechar

/-- Slicing the buffer panics behind its end. -/
def escapeCharacterDataLoop (buf : List UInt8) (count charsize : Int) (bigend : Bool) :
    Nat → String → Int → Int → Int → Outcome (Bool × String)
  | 0, _, _, _, _ => .error .outOfFuel
  | fuel + 1, out, index, skip, codepoint =>
      if index < count then
        if buf.length < index.toNat then .error .panic
        else
          let (codepoint, skip) := getCodepoint (buf.drop index.toNat) charsize bigend skip
          if codepoint = 0 ∨ codepoint = -1 then .ok (codepoint = 0, out)
          else escapeCharacterDataLoop buf count charsize bigend fuel (printUnicodeCStyle fromUtf8Lossy out codepoint)
            (index + skip) skip codepoint
      else .ok (codepoint = 0, out)

def escapeCharacterData (out : String) (buf : List UInt8) (count charsize : Int) (bigend : Bool) : Outcome (Bool × String) :=
  escapeCharacterDataLoop fromUtf8Lossy buf count charsize bigend (count.toNat + 1) out 0 charsize 0

/-- What is printed for a sequence of code points. -/
def printed (text : List Char) : String := text.foldl (fun out c => printUnicodeCStyle fromUtf8Lossy out c.toNat) ""

end print

/-- The value of a hexadecimal digit of C. -/
def hexValue (c : Char) : Option Nat :=
  if '0' ≤ c ∧ c ≤ '9' then some (c.toNat - '0'.toNat)
  else if 'a' ≤ c ∧ c ≤ 'f' then some (c.toNat - 'a'.toNat + 10)
  else if 'A' ≤ c ∧ c ≤ 'F' then some (c.toNat - 'A'.toNat + 10)
  else none

def simpleEscape : Char → Option Nat
  | 'a' => some 7
  | 'b' => some 8
  | 't' => some 9
  | 'n' => some 10
  | 'v' => some 11
  | 'f' => some 12
  | 'r' => some 13
  | '\\' => some 92
  | '"' => some 0x22
  | '\'' => some 0x27
  | '?' => some 0x3f
  | _ => none

/-- The rest of a literal by the rules of C, up to the closing quote. A
hexadecimal escape that has been read so far is pending: it takes every digit
that follows. -/
def decodeRest : Option Nat → List Char → Option (List Nat)
  | _, [] => none
  | pending, c :: rest =>
      match pending, hexValue c with
      | some v, some d => decodeRest (some (16 * v + d)) rest
      | _, _ =>
          (pending.toList ++ ·) <$>
            if c = '"' then if rest = [] then some [] else none
            else if c = '\\' then
              match rest with
              | [] => none
              | escape :: rest =>
                  if escape = 'x' then
                    if (rest.head?.bind hexValue).isSome then decodeRest (some 0) rest else none
                  else
                    match simpleEscape escape with
                    | some v => (v :: ·) <$> decodeRest none rest
                    | none => none
            else (c.toNat :: ·) <$> decodeRest none rest

example : decodeRest none ['"'] = some [] := by
  rw [decodeRest] <;> simp

/-- The code points that a string literal of C stands for. -/
def decodeLiteral : List Char → Option (List Nat)
  | '"' :: rest => decodeRest none rest
  | _ => none

/-- A code point that is printed as a hexadecimal escape. -/
def hexEscaped (c : Char) : Bool :=
  unicodeNeedsEscape c.toNat && !([0, 7, 8, 9, 10, 11, 12, 13, 92, 0x22, 0x27].contains c.toNat)

/-- No hexadecimal escape runs on into the character after it. -/
def EscapesEnd (text : List Char) : Prop :=
  text.IsChain fun c c' => ¬(hexEscaped c = true ∧ (hexValue c').isSome)

variable {c c' : Char} {text : List Char} {rest l : List Char} {v w n : Nat} {ws : List Nat}

/-- The letter of a simple escape. -/
def simpleLetter (n : Nat) : Option Char :=
  if n = 0 then some '0'
  else if n = 7 then some 'a'
  else if n = 8 then some 'b'
  else if n = 9 then some 't'
  else if n = 10 then some 'n'
  else if n = 11 then some 'v'
  else if n = 12 then some 'f'
  else if n = 13 then some 'r'
  else if n = 92 then some '\\'
  else if n = 0x22 then some '"'
  else if n = 0x27 then some '\''
  else none

/-- What stands for a character in a literal. -/
def literalOf (c : Char) : List Char :=
  if unicodeNeedsEscape c.toNat then
    match simpleLetter c.toNat with
    | some letter => ['\\', letter]
    | none => '\\' :: 'x' :: hexText (if c.toNat < 256 then 2 else if c.toNat < 65536 then 4 else 8) c.toNat
  else [c]

theorem writeUtf8Char_toList (fromUtf8Lossy : List UInt8 → String) (out : String) (c : Char) :
    (writeUtf8Char fromUtf8Lossy out c.toNat).toList = out.toList ++ [c] := by
  have hbytes : String.utf8EncodeChar c = Xml.utf8 (String.ofList [c]) := by
    rw [Xml.utf8_ofList, List.flatMap_singleton]
  rw [writeUtf8Char, writeUtf8_char, List.nil_append]
  simp only
  rw [hbytes, Xml.XmlParser.bytesToString_utf8]
  simp

theorem printUnicodeCStyle_escape (fromUtf8Lossy : List UInt8 → String) (out : String) (h : unicodeNeedsEscape (n : Int) = true) :
    printUnicodeCStyle fromUtf8Lossy out n =
      match simpleLetter n with
      | some letter => out ++ String.ofList ['\\', letter]
      | none => printCharHexEscape out n := by
  rw [printUnicodeCStyle, if_pos h]
  by_cases hsimple : n = 0 ∨ n = 7 ∨ n = 8 ∨ n = 9 ∨ n = 10 ∨ n = 11 ∨ n = 12 ∨ n = 13 ∨ n = 92 ∨ n = 0x22 ∨ n = 0x27
  · rcases hsimple with rfl | rfl | rfl | rfl | rfl | rfl | rfl | rfl | rfl | rfl | rfl <;> rfl
  · simp only [not_or] at hsimple
    obtain ⟨h0, h7, h8, h9, h10, h11, h12, h13, h92, h34, h39⟩ := hsimple
    rw [if_neg (by omega), if_neg (by omega), if_neg (by omega), if_neg (by omega), if_neg (by omega), if_neg (by omega),
      if_neg (by omega), if_neg (by omega), if_neg (by omega), if_neg (by omega), if_neg (by omega)]
    simp only [simpleLetter, h0, h7, h8, h9, h10, h11, h12, h13, h92, h34, h39, if_false]

theorem printCharHexEscape_toList (out : String) (c : Char) : (printCharHexEscape out c.toNat).toList =
    out.toList ++ '\\' :: 'x' :: hexText (if c.toNat < 256 then 2 else if c.toNat < 65536 then 4 else 8) c.toNat := by
  have hc := char_lt c
  have hmod : (c.toNat : Int) % 2 ^ 32 = c.toNat := by omega
  have hwidth : (if (c.toNat : Int) < 256 then 2 else if (c.toNat : Int) < 65536 then 4 else 8) =
      (if c.toNat < 256 then 2 else if c.toNat < 65536 then 4 else 8) := by
    split_ifs <;> first | rfl | omega
  rw [printCharHexEscape, hmod, Int.toNat_natCast, hwidth]
  simp

theorem printUnicodeCStyle_toList (fromUtf8Lossy : List UInt8 → String) (out : String) (c : Char) :
    (printUnicodeCStyle fromUtf8Lossy out c.toNat).toList = out.toList ++ literalOf c := by
  rw [literalOf]
  cases hescape : unicodeNeedsEscape c.toNat with
  | true =>
      rw [printUnicodeCStyle_escape fromUtf8Lossy out hescape, if_pos rfl]
      cases simpleLetter c.toNat with
      | none => exact printCharHexEscape_toList out c
      | some letter => simp
  | false =>
      rw [printUnicodeCStyle, hescape, if_neg Bool.false_ne_true, if_neg Bool.false_ne_true]
      exact writeUtf8Char_toList fromUtf8Lossy out c

theorem printed_toList (fromUtf8Lossy : List UInt8 → String) (text : List Char) :
    (printed fromUtf8Lossy text).toList = text.flatMap literalOf := by
  have hfold (out : String) : (text.foldl (fun out c => printUnicodeCStyle fromUtf8Lossy out c.toNat) out).toList =
      out.toList ++ text.flatMap literalOf := by
    induction text generalizing out with
    | nil => simp
    | cons c text ih => rw [List.foldl_cons, ih, printUnicodeCStyle_toList, List.flatMap_cons, List.append_assoc]
  rw [printed, hfold]
  rfl

theorem hexValue_digitChar (h : n < 16) : hexValue n.digitChar = some n := by
  have hall : ∀ k : Fin 16, hexValue k.val.digitChar = some k.val := by decide
  exact hall ⟨n, h⟩

theorem decodeRest_digit (hv : hexValue c = some w) (v : Nat) (rest : List Char) :
    decodeRest (some v) (c :: rest) = decodeRest (some (16 * v + w)) rest :=
  decodeRest.eq_2 c rest v w hv

/-- A pending escape takes all digits of a number. -/
theorem decodeRest_toDigits (n : Nat) (rest : List Char) :
    decodeRest (some 0) (Nat.toDigits 16 n ++ rest) = decodeRest (some n) rest := by
  induction n using Nat.strong_induction_on generalizing rest with
  | _ n ih =>
      rw [Nat.toDigits_eq_if (by decide)]
      split
      · rename_i hlt
        rw [List.singleton_append, decodeRest_digit (hexValue_digitChar hlt), Nat.mul_zero, Nat.zero_add]
      · rename_i hge
        rw [List.append_assoc, ih (n / 16) (by omega), List.singleton_append,
          decodeRest_digit (hexValue_digitChar (Nat.mod_lt n (by decide))), Nat.div_add_mod]

theorem decodeRest_hexText (width n : Nat) (rest : List Char) :
    decodeRest (some 0) (hexText width n ++ rest) = decodeRest (some n) rest := by
  have hzeros (k : Nat) (l : List Char) : decodeRest (some 0) (List.replicate k '0' ++ l) = decodeRest (some 0) l := by
    induction k with
    | zero => rfl
    | succ k ih => rw [List.replicate_succ, List.cons_append, decodeRest_digit (w := 0) (by decide), ih]
  rw [hexText, List.append_assoc, hzeros, decodeRest_toDigits]

theorem hexText_head (width n : Nat) (rest : List Char) : ((hexText width n ++ rest).head?.bind hexValue).isSome := by
  have hhead : ∀ c ∈ (Nat.toDigits 16 n).head?, (hexValue c).isSome := by
    intro c hc
    induction n using Nat.strong_induction_on with
    | _ n ih =>
        rw [Nat.toDigits_eq_if (by decide)] at hc
        split at hc
        · rename_i hlt
          simp only [List.head?_cons, Option.mem_def, Option.some.injEq] at hc
          rw [← hc, hexValue_digitChar hlt]
          rfl
        · rename_i hge
          rw [List.head?_append_of_ne_nil _ Nat.toDigits_ne_nil] at hc
          exact ih (n / 16) (by omega) hc
  rw [hexText]
  cases width - (Nat.toDigits 16 n).length with
  | zero =>
      cases hdigits : Nat.toDigits 16 n with
      | nil => exact absurd hdigits Nat.toDigits_ne_nil
      | cons c ds =>
          rw [hdigits] at hhead
          exact hhead c rfl
  | succ k => rfl

/-- A pending escape ends at a character that is no digit. -/
theorem decodeRest_ends (h : hexValue c = none) (v : Nat) (rest : List Char) :
    decodeRest (some v) (c :: rest) = (v :: ·) <$> decodeRest none (c :: rest) := by
  rw [decodeRest.eq_def, decodeRest.eq_def none]
  simp only [h, Option.toList_some, Option.toList_none, List.singleton_append, List.nil_append, Option.map_eq_map, Option.map_id']

theorem decodeRest_raw (hquote : c ≠ '"') (hslash : c ≠ '\\') (rest : List Char) :
    decodeRest none (c :: rest) = (c.toNat :: ·) <$> decodeRest none rest := by
  rw [decodeRest.eq_def]
  simp [hquote, hslash]

theorem decodeRest_simple (hv : simpleEscape c = some v) (hx : c ≠ 'x') (rest : List Char) :
    decodeRest none ('\\' :: c :: rest) = (v :: ·) <$> decodeRest none rest := by
  rw [decodeRest.eq_def]
  simp [hx, hv]

theorem decodeRest_hex (h : (rest.head?.bind hexValue).isSome) :
    decodeRest none ('\\' :: 'x' :: rest) = decodeRest (some 0) rest := by
  rw [decodeRest.eq_def]
  simp [h]

theorem decodeRest_quote : decodeRest none ['"'] = some [] := rfl

/-- Digits only make a pending value larger. -/
theorem decodeRest_le (h : decodeRest (some v) l = some ws) : ∃ w ws', ws = w :: ws' ∧ v ≤ w := by
  induction l generalizing v with
  | nil => simp [decodeRest] at h
  | cons c rest ih =>
      cases hc : hexValue c with
      | some d =>
          rw [decodeRest_digit hc] at h
          obtain ⟨w, ws', hws, hle⟩ := ih h
          exact ⟨w, ws', hws, by omega⟩
      | none =>
          rw [decodeRest_ends hc, Option.map_eq_map, Option.map_eq_some_iff] at h
          obtain ⟨ws', -, rfl⟩ := h
          exact ⟨v, ws', rfl, Nat.le_refl v⟩

theorem simpleLetter_eq_none : simpleLetter n = none ↔ [0, 7, 8, 9, 10, 11, 12, 13, 92, 0x22, 0x27].contains n = false := by
  by_cases hsimple : n = 0 ∨ n = 7 ∨ n = 8 ∨ n = 9 ∨ n = 10 ∨ n = 11 ∨ n = 12 ∨ n = 13 ∨ n = 92 ∨ n = 0x22 ∨ n = 0x27
  · rcases hsimple with rfl | rfl | rfl | rfl | rfl | rfl | rfl | rfl | rfl | rfl | rfl <;> decide
  · simp only [not_or] at hsimple
    obtain ⟨h0, h7, h8, h9, h10, h11, h12, h13, h92, h34, h39⟩ := hsimple
    simp [simpleLetter, h0, h7, h8, h9, h10, h11, h12, h13, h92, h34, h39]

theorem simpleEscape_letter (hc : n ≠ 0) (h : simpleLetter n = some c) : simpleEscape c = some n ∧ c ≠ 'x' := by
  have hmem : n = 7 ∨ n = 8 ∨ n = 9 ∨ n = 10 ∨ n = 11 ∨ n = 12 ∨ n = 13 ∨ n = 92 ∨ n = 0x22 ∨ n = 0x27 := by
    by_contra hnot
    simp only [not_or] at hnot
    have hnone : simpleLetter n = none := by
      rw [simpleLetter_eq_none]
      simp [hc, hnot]
    rw [hnone] at h
    cases h
  rcases hmem with rfl | rfl | rfl | rfl | rfl | rfl | rfl | rfl | rfl | rfl <;> obtain rfl := Option.some.inj h <;>
    exact ⟨rfl, by decide⟩

/-- What a literal says for one character, before the rest of it. -/
theorem decodeRest_literalOf (hc : c ≠ '\x00') (rest : List Char) :
    decodeRest none (literalOf c ++ rest) =
      if hexEscaped c then decodeRest (some c.toNat) rest else (c.toNat :: ·) <$> decodeRest none rest := by
  have hpos := toNat_pos hc
  cases hescape : unicodeNeedsEscape c.toNat with
  | false =>
      have hraw (d : Char) (hd : unicodeNeedsEscape d.toNat = true) : c ≠ d := by
        rintro rfl
        rw [hd] at hescape
        cases hescape
      rw [literalOf, hexEscaped, hescape, Bool.false_and, if_neg Bool.false_ne_true, if_neg Bool.false_ne_true, List.singleton_append]
      exact decodeRest_raw (hraw '"' (by decide)) (hraw '\\' (by decide)) rest
  | true =>
      rw [literalOf, hexEscaped, hescape, Bool.true_and, if_pos rfl]
      cases hletter : simpleLetter c.toNat with
      | none =>
          simp only [simpleLetter_eq_none.mp hletter, Bool.not_false, if_true, List.cons_append]
          rw [decodeRest_hex (hexText_head _ _ rest), decodeRest_hexText]
      | some letter =>
          obtain ⟨hvalue, hx⟩ := simpleEscape_letter (by omega) hletter
          have hcontains : [0, 7, 8, 9, 10, 11, 12, 13, 92, 0x22, 0x27].contains c.toNat = true := by
            by_contra hnot
            rw [simpleLetter_eq_none.mpr (by simpa using hnot)] at hletter
            cases hletter
          simp only [hcontains, Bool.not_true, if_neg Bool.false_ne_true]
          exact decodeRest_simple hvalue hx rest

/-- The digits of C are printed as they are. -/
theorem hexValue_raw (h : (hexValue c).isSome) : unicodeNeedsEscape c.toNat = false := by
  have hbounds : (48 ≤ c.toNat ∧ c.toNat ≤ 57) ∨ (97 ≤ c.toNat ∧ c.toNat ≤ 102) ∨ (65 ≤ c.toNat ∧ c.toNat ≤ 70) := by
    simp only [hexValue] at h
    split_ifs at h with h₁ h₂ h₃
    · exact Or.inl h₁
    · exact Or.inr (Or.inl h₂)
    · exact Or.inr (Or.inr h₃)
    · cases h
  rw [unicodeNeedsEscape, if_neg (by omega), if_pos (by omega)]
  simp
  omega

/-- The first character that is printed for a character is a digit only when
the character is. -/
theorem literalOf_head (c : Char) : ∃ d more, literalOf c = d :: more ∧ (hexValue d = none ∧ hexValue c = none ∨ d = c) := by
  cases hescape : unicodeNeedsEscape c.toNat with
  | false => exact ⟨c, [], by rw [literalOf, hescape]; rfl, Or.inr rfl⟩
  | true =>
      have hnone : hexValue c = none := by
        by_contra hsome
        rw [hexValue_raw (Option.isSome_iff_ne_none.mpr hsome)] at hescape
        cases hescape
      rw [literalOf, hescape, if_pos rfl]
      cases simpleLetter c.toNat with
      | none => exact ⟨_, _, rfl, Or.inl ⟨by decide, hnone⟩⟩
      | some letter => exact ⟨_, _, rfl, Or.inl ⟨by decide, hnone⟩⟩

/-- What a literal says behind a hexadecimal escape: the escape ends, or it
takes the next character. -/
theorem decodeRest_pending (v : Nat) (text : List Char) :
    decodeRest (some v) (text.flatMap literalOf ++ ['"']) =
      if (text.head?.bind hexValue).isSome then decodeRest (some v) (text.flatMap literalOf ++ ['"'])
      else (v :: ·) <$> decodeRest none (text.flatMap literalOf ++ ['"']) := by
  split
  · rfl
  · rename_i hnot
    cases text with
    | nil => exact decodeRest_ends (by decide) v []
    | cons c text =>
        obtain ⟨d, more, hliteral, hd⟩ := literalOf_head c
        have hnone : hexValue d = none := by
          obtain ⟨hd, -⟩ | rfl := hd
          · exact hd
          · simpa using hnot
        rw [List.flatMap_cons, hliteral, List.cons_append, List.cons_append]
        exact decodeRest_ends hnone v _

theorem decodeRest_taken {d : Char} (hd : (hexValue d).isSome) (hv : 0 < v) :
    decodeRest (some v) ((d :: text).flatMap literalOf ++ ['"']) ≠ some (v :: ws) := by
  obtain ⟨k, hk⟩ := Option.isSome_iff_exists.mp hd
  have hliteral : literalOf d = [d] := by
    rw [literalOf, hexValue_raw hd]
    rfl
  rw [List.flatMap_cons, hliteral, List.cons_append, List.nil_append, List.cons_append, decodeRest_digit hk]
  intro heq
  obtain ⟨w, ws', hws, hle⟩ := decodeRest_le heq
  rw [List.cons.injEq] at hws
  omega

theorem decodeRest_text_iff (hzero : '\x00' ∉ text) :
    decodeRest none (text.flatMap literalOf ++ ['"']) = some (text.map Char.toNat) ↔ EscapesEnd text := by
  induction text with
  | nil => exact iff_of_true rfl List.IsChain.nil
  | cons c text ih =>
      have hc : c ≠ '\x00' := fun h => hzero (h ▸ List.mem_cons_self)
      have hpos := toNat_pos hc
      have htail := ih fun h => hzero (List.mem_cons_of_mem _ h)
      have hchain : EscapesEnd (c :: text) ↔ ¬(hexEscaped c = true ∧ (text.head?.bind hexValue).isSome) ∧ EscapesEnd text := by
        cases text with
        | nil => simp [EscapesEnd]
        | cons c' text => simp [EscapesEnd]
      have hcons (r : Option (List Nat)) : (c.toNat :: ·) <$> r = some (c.toNat :: text.map Char.toNat) ↔ r = some (text.map Char.toNat) := by
        cases r <;> simp
      rw [List.flatMap_cons, List.append_assoc, decodeRest_literalOf hc, List.map_cons, hchain]
      by_cases hhex : hexEscaped c = true
      · rw [if_pos hhex]
        by_cases hdigit : (text.head?.bind hexValue).isSome
        · refine iff_of_false ?_ fun h => h.1 ⟨hhex, hdigit⟩
          cases text with
          | nil => simp at hdigit
          | cons d text => exact decodeRest_taken hdigit hpos
        · rw [decodeRest_pending, if_neg hdigit, hcons, htail]
          simp [hdigit]
      · rw [if_neg hhex, hcons, htail]
        simp [hhex]

/-- A literal stands for the code points that it was printed for exactly when
no hexadecimal escape is followed by a digit. -/
theorem decodeLiteral_printed_iff (fromUtf8Lossy : List UInt8 → String) (text : List Char) (hzero : '\x00' ∉ text) :
    decodeLiteral ('"' :: (printed fromUtf8Lossy text).toList ++ ['"']) = some (text.map Char.toNat) ↔ EscapesEnd text := by
  rw [printed_toList]
  exact decodeRest_text_iff hzero

theorem decodeLiteral_printed_sample :
    decodeLiteral ('"' :: (printed (fun _ => "") ['\n', Char.ofNat 1, 'z', 'a']).toList ++ ['"']) = some [10, 1, 122, 97] :=
  (decodeLiteral_printed_iff (fun _ => "") ['\n', Char.ofNat 1, 'z', 'a'] (by decide)).mpr (by
    simp only [EscapesEnd, List.isChain_cons_cons, List.isChain_singleton]
    decide)

/-- An escape takes the digit after it: the literal reads `"\x01A"`. -/
theorem decodeLiteral_digit_taken :
    (printed (fun _ => "") [Char.ofNat 1, 'A']).toList = "\\x01A".toList ∧
      decodeLiteral ('"' :: (printed (fun _ => "") [Char.ofNat 1, 'A']).toList ++ ['"']) = some [0x1A] ∧
      ¬∀ (fromUtf8Lossy : List UInt8 → String) (text : List Char), '\x00' ∉ text →
        decodeLiteral ('"' :: (printed fromUtf8Lossy text).toList ++ ['"']) = some (text.map Char.toNat) := by
  have hprinted : (printed (fun _ => "") [Char.ofNat 1, 'A']).toList = "\\x01A".toList := by
    rw [printed_toList]
    decide
  refine ⟨hprinted, by rw [hprinted]; decide, fun h => ?_⟩
  have hsame := h (fun _ => "") [Char.ofNat 1, 'A'] (by decide)
  rw [hprinted] at hsame
  exact absurd hsame (by decide)

/-- The loop prints characters that are not zero and goes on behind them. -/
theorem escapeCharacterDataLoop_bytes (fromUtf8Lossy : List UInt8 → String) {e : Encoding} {bigend : Bool} {buffer pre tail : List UInt8}
    (hbuffer : buffer = pre ++ (e.bytes bigend text ++ tail)) (hzero : '\x00' ∉ text) (fuel : Nat) (out : String) (skip codepoint : Int) :
    ∃ skip' codepoint', escapeCharacterDataLoop fromUtf8Lossy buffer buffer.length e.charsize bigend (fuel + text.length) out pre.length
        skip codepoint =
      escapeCharacterDataLoop fromUtf8Lossy buffer buffer.length e.charsize bigend fuel
        (text.foldl (fun out c => printUnicodeCStyle fromUtf8Lossy out c.toNat) out) (pre ++ e.bytes bigend text).length skip' codepoint' := by
  induction text generalizing pre out skip codepoint with
  | nil => exact ⟨skip, codepoint, by simp [bytes]⟩
  | cons c text ih =>
      have hc : c ≠ '\x00' := fun h => hzero (h ▸ List.mem_cons_self)
      have hpos := toNat_pos hc
      have hsplit : buffer = pre ++ (e.encode bigend c ++ (e.bytes bigend text ++ tail)) := by
        rw [hbuffer, bytes_cons, List.append_assoc]
      have hnext : buffer = (pre ++ e.encode bigend c) ++ (e.bytes bigend text ++ tail) := by
        rw [hsplit, List.append_assoc]
      obtain ⟨skip', codepoint', hrest⟩ := ih hnext (fun h => hzero (List.mem_cons_of_mem _ h))
        (printUnicodeCStyle fromUtf8Lossy out c.toNat) (e.encode bigend c).length c.toNat
      have hlt := index_lt e bigend c pre (e.bytes bigend text ++ tail)
      rw [← hsplit] at hlt
      have hread := getCodepoint_at e bigend c pre (e.bytes bigend text ++ tail) skip
      rw [← hsplit] at hread
      refine ⟨skip', codepoint', ?_⟩
      rw [List.length_cons, ← Nat.add_assoc, escapeCharacterDataLoop, if_pos hlt, if_neg (by omega)]
      simp only [hread]
      have hindex : (pre.length : Int) + (e.encode bigend c).length = ((pre ++ e.encode bigend c).length : Nat) := by simp
      rw [if_neg (by omega), hindex, hrest, bytes_cons, List.append_assoc, List.foldl_cons]

/-- The characters of an encoded buffer are printed up to its end or terminator. -/
theorem escapeCharacterData_text (fromUtf8Lossy : List UInt8 → String) (e : Encoding) (bigend : Bool) (hzero : '\x00' ∉ text)
    {rest : List UInt8} (hrest : Terminated e bigend rest) :
    ∃ b, escapeCharacterData fromUtf8Lossy "" (e.bytes bigend text ++ rest) (e.bytes bigend text ++ rest).length e.charsize bigend =
      .ok (b, printed fromUtf8Lossy text) := by
  have hlen := length_le_bytes e bigend text
  obtain ⟨fuel, hfuel⟩ : ∃ fuel, ((e.bytes bigend text ++ rest).length : Int).toNat + 1 = (fuel + 1) + text.length := by
    refine ⟨((e.bytes bigend text ++ rest).length : Int).toNat - text.length, ?_⟩
    rw [List.length_append]
    omega
  obtain ⟨skip, codepoint, hrun⟩ := escapeCharacterDataLoop_bytes fromUtf8Lossy
    (List.nil_append (e.bytes bigend text ++ rest)).symm hzero (fuel + 1) "" e.charsize 0
  rw [escapeCharacterData, hfuel, printed]
  rw [List.length_nil, Int.ofNat_zero] at hrun
  rw [hrun, List.nil_append, escapeCharacterDataLoop]
  obtain rfl | ⟨more, rfl⟩ := hrest
  · rw [List.append_nil, if_neg (Int.lt_irrefl _)]
    exact ⟨_, rfl⟩
  · rw [if_pos (index_tail e bigend text (by simp [encode_ne_nil])), if_neg (by rw [List.length_append]; omega)]
    simp only [drop_pre]
    rw [if_pos (Or.inl (getCodepoint_terminator e bigend more skip))]
    exact ⟨_, rfl⟩

end GhidraDecompiler.Strings
