import GhidraDecompiler.PrintLanguage.PushInteger

namespace GhidraDecompiler.PrintLanguage

open Pcode Strings

variable {base n : Nat} {cs suffix : List Char} {c : Char}

theorem isDigit_digitChar (hn : n < base) (hbase : base ≤ 16) : isDigit base (Nat.digitChar n) := by
  rw [isDigit, hexValue_digitChar (by omega)]
  simpa using hn

theorem toDigits_isDigit (hone : 1 < base) (hbase : base ≤ 16) (n : Nat) : ∀ c ∈ Nat.toDigits base n, isDigit base c := by
  induction n using Nat.strong_induction_on with
  | _ n ih =>
      rw [Nat.toDigits_eq_if hone]
      split
      · rename_i hlt
        simpa using isDigit_digitChar hlt hbase
      · rename_i hge
        have hdiv : n / base < n := Nat.div_lt_self (by omega) hone
        have hmod : n % base < base := Nat.mod_lt n (by omega)
        intro c hc
        rcases List.mem_append.mp hc with hc | hc
        · exact ih (n / base) hdiv c hc
        · rw [List.mem_singleton.mp hc]
          exact isDigit_digitChar hmod hbase

theorem digitsValue_append (cs : List Char) (c : Char) :
    digitsValue base (cs ++ [c]) = base * digitsValue base cs + (hexValue c).getD 0 := by
  simp [digitsValue]

theorem digitsValue_toDigits (hone : 1 < base) (hbase : base ≤ 16) (n : Nat) :
    digitsValue base (Nat.toDigits base n) = n := by
  induction n using Nat.strong_induction_on with
  | _ n ih =>
      rw [Nat.toDigits_eq_if hone]
      split
      · rename_i hlt
        simp [digitsValue, hexValue_digitChar (show n < 16 by omega)]
      · rename_i hge
        have hdiv : n / base < n := Nat.div_lt_self (by omega) hone
        have hmod : n % base < base := Nat.mod_lt n (by omega)
        rw [digitsValue_append, ih (n / base) hdiv, hexValue_digitChar (by omega), Option.getD_some, Nat.div_add_mod]

theorem suffix_head (hsuffix : suffix ∈ suffixes) (hc : c ∈ suffix.head?) : hexValue c = none := by
  simp only [suffixes, List.mem_cons, List.not_mem_nil, or_false] at hsuffix
  rcases hsuffix with rfl | rfl | rfl | rfl | rfl | rfl <;> simp at hc <;> subst hc <;> decide

/-- The digits of a number end where its suffix begins. -/
theorem readDigits_append (hcs : ∀ c ∈ cs, isDigit base c) (hsuffix : suffix ∈ suffixes) :
    readDigits base (cs ++ suffix) = some (digitsValue base cs) := by
  have htake : suffix.takeWhile (isDigit base) = [] ∧ suffix.dropWhile (isDigit base) = suffix := by
    cases suffix with
    | nil => exact ⟨rfl, rfl⟩
    | cons c suffix =>
        have hc : isDigit base c = false := by rw [isDigit, suffix_head hsuffix rfl]; rfl
        exact ⟨List.takeWhile_cons_of_neg (by simp [hc]), List.dropWhile_cons_of_neg (by simp [hc])⟩
  rw [readDigits, List.dropWhile_append_of_pos hcs, List.takeWhile_append_of_pos hcs, htake.1, htake.2, if_pos hsuffix,
    List.append_nil]

theorem readDigits_toDigits (hone : 1 < base) (hbase : base ≤ 16) (n : Nat) (hsuffix : suffix ∈ suffixes) :
    readDigits base (Nat.toDigits base n ++ suffix) = some n := by
  rw [readDigits_append (toDigits_isDigit hone hbase n) hsuffix, digitsValue_toDigits hone hbase]

/-- The first digit of a positive number is not zero. -/
theorem toDigits_head (hone : 1 < base) (hbase : base ≤ 16) (hn : 0 < n) :
    ∃ d cs, 0 < d ∧ d < base ∧ Nat.toDigits base n = Nat.digitChar d :: cs := by
  induction n using Nat.strong_induction_on with
  | _ n ih =>
      rw [Nat.toDigits_eq_if hone]
      split
      · rename_i hlt
        exact ⟨n, [], hn, hlt, rfl⟩
      · rename_i hge
        have hdiv : n / base < n := Nat.div_lt_self hn hone
        have hpos : 0 < n / base := Nat.div_pos (by omega) (by omega)
        obtain ⟨d, cs, hd, hlt, heq⟩ := ih (n / base) hdiv hpos
        exact ⟨d, cs ++ [Nat.digitChar (n % base)], hd, hlt, by rw [heq]; rfl⟩

theorem readMagnitude_decimal (n : Nat) (hsuffix : suffix ∈ suffixes) :
    readMagnitude (Nat.toDigits 10 n ++ suffix) = some n := by
  cases Nat.eq_zero_or_pos n with
  | inl hzero =>
      have hall : ∀ suffix ∈ suffixes, readMagnitude (['0'] ++ suffix) = some 0 := by decide
      rw [hzero, Nat.toDigits_zero, hall suffix hsuffix]
  | inr hpos =>
      obtain ⟨d, cs, hd, hlt, heq⟩ := toDigits_head (show 1 < 10 by decide) (by decide) hpos
      have hne : Nat.digitChar d ≠ '0' := by
        have hall : ∀ k : Fin 10, 0 < (k : Nat) → Nat.digitChar k ≠ '0' := by decide
        exact hall ⟨d, hlt⟩ hd
      have hread := readDigits_toDigits (show 1 < 10 by decide) (by decide) n hsuffix
      rw [heq, List.cons_append] at hread ⊢
      rw [readMagnitude, hread]
      all_goals
        intro cs' heq'
        exact absurd (List.cons.inj heq').1 hne

theorem readMagnitude_octal (n : Nat) (hsuffix : suffix ∈ suffixes) :
    readMagnitude ('0' :: (Nat.toDigits 8 n ++ suffix)) = some n := by
  have hread := readDigits_toDigits (show 1 < 8 by decide) (by decide) n hsuffix
  have hdigits := toDigits_isDigit (show 1 < 8 by decide) (by decide) n
  cases hcs : Nat.toDigits 8 n with
  | nil => exact absurd hcs Nat.toDigits_ne_nil
  | cons c cs =>
      have hc : isDigit 8 c = true := hdigits c (by rw [hcs]; exact List.mem_cons_self)
      rw [hcs] at hread
      rw [readMagnitude, hread]
      all_goals
        intro cs' heq
        have hletter := (List.cons.inj heq).1
        rw [hletter] at hc
        exact absurd hc (by decide)

theorem readMagnitude_hexadecimal (n : Nat) (hsuffix : suffix ∈ suffixes) :
    readMagnitude ('0' :: 'x' :: (Nat.toDigits 16 n ++ suffix)) = some n :=
  readDigits_toDigits (by decide) (by decide) n hsuffix

section binary

theorem binaryDigits_pow (val k : Nat) : binaryDigits val (2 ^ k) =
    (if val.testBit k then '1' else '0') :: (match k with
      | 0 => []
      | k + 1 => binaryDigits val (2 ^ k)) := by
  have hmask : 2 ^ k &&& val ≠ 0 ↔ val.testBit k = true := by
    rw [Nat.two_pow_and]
    cases val.testBit k <;> simp
  rw [binaryDigits, dif_neg (by positivity)]
  congr 1
  · simp [hmask]
  · cases k with
    | zero => rw [binaryDigits, dif_pos (by decide)]
    | succ k => rw [Nat.shiftRight_one, Nat.pow_succ, Nat.mul_div_cancel _ (by decide)]

theorem bitChar_isDigit (b : Bool) : isDigit 2 (if b then '1' else '0') := by cases b <;> decide

theorem binaryDigits_isDigit (val k : Nat) : ∀ c ∈ binaryDigits val (2 ^ k), isDigit 2 c := by
  induction k with
  | zero =>
      rw [binaryDigits_pow]
      simpa using bitChar_isDigit (val.testBit 0)
  | succ k ih =>
      rw [binaryDigits_pow]
      intro c hc
      rcases List.mem_cons.mp hc with rfl | hc
      · exact bitChar_isDigit _
      · exact ih c hc

/-- The loop over the mask writes the low bits of the value. -/
theorem digitsValue_binaryDigits (val k init : Nat) :
    (binaryDigits val (2 ^ k)).foldl (fun n c => 2 * n + (hexValue c).getD 0) init =
      2 ^ (k + 1) * init + val % 2 ^ (k + 1) := by
  have hbit (b : Bool) : (hexValue (if b then '1' else '0')).getD 0 = b.toNat := by cases b <;> decide
  induction k generalizing init with
  | zero =>
      rw [binaryDigits_pow]
      simp only [List.foldl_cons, List.foldl_nil, hbit, Nat.testBit_zero]
      have := Nat.mod_two_eq_zero_or_one val
      rcases this with h | h <;> simp [h]
  | succ k ih =>
      rw [binaryDigits_pow, List.foldl_cons, ih, hbit]
      have hsplit : val % 2 ^ (k + 1 + 1) = 2 ^ (k + 1) * (val.testBit (k + 1)).toNat + val % 2 ^ (k + 1) := by
        rw [Nat.mod_pow_succ, Nat.testBit_eq_decide_div_mod_eq]
        have := Nat.mod_two_eq_zero_or_one (val / 2 ^ (k + 1))
        rcases this with h | h
        · simp [h]
        · simp [h]; omega
      rw [hsplit]
      ring

/-- The padding covers every bit of the value. -/
theorem readMagnitude_binary (val : Word) (hsuffix : suffix ∈ suffixes) : ∃ cs : List Char,
    (∀ out, formatBinary out val = out ++ String.ofList cs) ∧ readMagnitude ('0' :: 'b' :: (cs ++ suffix)) = some val.toNat := by
  by_cases hzero : val = 0#64
  · refine ⟨['0'], fun out => ?_, ?_⟩
    · rw [formatBinary, mostsigbitSet, if_pos hzero]
      rfl
    · have hall : ∀ suffix ∈ suffixes, readMagnitude ('0' :: 'b' :: (['0'] ++ suffix)) = some 0 := by decide
      rw [hall suffix hsuffix, hzero]
      rfl
  · obtain ⟨k, hk, hval⟩ : ∃ k, (∀ out, formatBinary out val = out ++ String.ofList (binaryDigits val.toNat (2 ^ k))) ∧
        val.toNat < 2 ^ (k + 1) := by
      have hlog : val.toNat.log2 < 64 := (Nat.log2_lt (by simpa [← BitVec.toNat_inj] using hzero)).mpr val.isLt
      have hlt (k : Nat) (h : val.toNat.log2 ≤ k) : val.toNat < 2 ^ (k + 1) :=
        Nat.lt_log2_self.trans_le (Nat.pow_le_pow_right (by decide) (by omega))
      have hmsb := mostsigbitSet_eq hzero
      refine ⟨if mostsigbitSet val ≤ 7 then 7 else if mostsigbitSet val ≤ 15 then 15
        else if mostsigbitSet val ≤ 31 then 31 else 63, fun out => ?_, hlt _ ?_⟩
      · rw [formatBinary]
        dsimp only
        rw [if_neg (by omega), Nat.one_shiftLeft]
      · rw [hmsb]
        split_ifs <;> omega
    refine ⟨binaryDigits val.toNat (2 ^ k), hk, ?_⟩
    have hread := readDigits_append (binaryDigits_isDigit val.toNat k) hsuffix
    rw [digitsValue, digitsValue_binaryDigits, Nat.mul_zero, Nat.zero_add, Nat.mod_eq_of_lt hval] at hread
    exact hread

end binary

/-- The text after the sign, in whatever format it is: a magnitude that is not signed itself. -/
theorem digits_read (print : PrintC) (text : String) (val : Word) (sz : Int) {displayFormat : Nat}
    (hformat : displayFormat ≠ forceChar) (hsuffix : suffix ∈ suffixes) : ∃ c cs, c ≠ '-' ∧
      (print.digits text val sz displayFormat).toList = text.toList ++ c :: cs ∧
      readMagnitude (c :: cs ++ suffix) = some val.toNat := by
  rw [PrintC.digits]
  split_ifs with hhex hdec hoct
  · exact ⟨'0', 'x' :: Nat.toDigits 16 val.toNat, by decide, by simp, readMagnitude_hexadecimal _ hsuffix⟩
  · cases hcs : Nat.toDigits 10 val.toNat with
    | nil => exact absurd hcs Nat.toDigits_ne_nil
    | cons c cs =>
        have hc : isDigit 10 c := toDigits_isDigit (by decide) (by decide) val.toNat c (hcs ▸ List.mem_cons_self)
        refine ⟨c, cs, ?_, by simp, hcs ▸ readMagnitude_decimal val.toNat hsuffix⟩
        rintro rfl
        exact absurd hc (by decide)
  · exact ⟨'0', Nat.toDigits 8 val.toNat, by decide, by simp, readMagnitude_octal _ hsuffix⟩
  · obtain ⟨cs, hformat, hread⟩ := readMagnitude_binary val hsuffix
    exact ⟨'0', 'b' :: cs, by decide, by simp [hformat], hread⟩

theorem suffix_mem (print : PrintC) (forceUnsignedToken forceSizedToken : Bool) :
    (if forceUnsignedToken then ['U'] else []) ++ (if forceSizedToken then print.sizeSuffix.toList else []) ∈ suffixes := by
  have hall : ∀ sizeSuffix ∈ ["", "L", "LL"], ∀ forceUnsignedToken forceSizedToken : Bool,
      (if forceUnsignedToken then ['U'] else []) ++ (if forceSizedToken then sizeSuffix.toList else []) ∈ suffixes := by
    decide
  exact hall _ print.sizeSuffix_mem _ _

theorem defaultFormat_ne (print : PrintC) (val : Word) : print.defaultFormat val ≠ forceChar := by
  rw [PrintC.defaultFormat]
  split_ifs <;> decide

/-- The complement within the size is the distance to the highest value. -/
theorem toNat_xor_calcMask {size : Nat} (h : ByteSize size) {val : Word} (hval : val.toNat < 2 ^ (8 * size)) :
    (val ^^^ Pcode.calcMask size).toNat = 2 ^ (8 * size) - (val.toNat + 1) := by
  apply Nat.eq_of_testBit_eq
  intro i
  rw [Nat.testBit_two_pow_sub_succ hval, ← BitVec.getLsbD, BitVec.getLsbD_xor, getLsbD_calcMask h, ← BitVec.getLsbD]
  by_cases hi : i < 8 * size
  · simp [hi]
  · have hhigh : val.getLsbD i = false :=
      Nat.testBit_lt_two_pow (hval.trans_le (Nat.pow_le_pow_right (by decide) (by omega)))
    simp [hi, hhigh]

/-- The magnitude of a negative constant and the constant add up to the modulus. -/
theorem toNat_negated {size : Nat} (h : ByteSize size) {val : Word} (hval : val.toNat < 2 ^ (8 * size))
    (hneg : (val ^^^ Pcode.calcMask size).toNat < val.toNat) :
    ((val ^^^ Pcode.calcMask size) + 1).toNat = 2 ^ (8 * size) - val.toNat := by
  have hflip := toNat_xor_calcMask h hval
  have hword := val.isLt
  rw [BitVec.toNat_add, show (1 : Word).toNat = 1 from rfl, Nat.mod_eq_of_lt (by omega), hflip]
  omega

/-- The text after the sign, with its suffix. -/
theorem suffixed_read (print : PrintC) (text : String) (val : Word) (sz : Int) {displayFormat : Nat}
    (hformat : displayFormat ≠ forceChar) (forceUnsignedToken forceSizedToken : Bool) : ∃ c cs, c ≠ '-' ∧
      (if forceSizedToken then
          (if forceUnsignedToken then print.digits text val sz displayFormat ++ "U"
            else print.digits text val sz displayFormat) ++ print.sizeSuffix
        else if forceUnsignedToken then print.digits text val sz displayFormat ++ "U"
        else print.digits text val sz displayFormat).toList = text.toList ++ c :: cs ∧
      readMagnitude (c :: cs) = some val.toNat := by
  obtain ⟨c, cs, hc, hdigits, hread⟩ := digits_read print text val sz hformat
    (suffix_mem print forceUnsignedToken forceSizedToken)
  refine ⟨c, cs ++ ((if forceUnsignedToken then ['U'] else []) ++
    (if forceSizedToken then print.sizeSuffix.toList else [])), hc, ?_, hread⟩
  rw [← List.cons_append, ← List.append_assoc, ← hdigits]
  cases forceUnsignedToken <;> cases forceSizedToken <;> simp

theorem readLiteral_unsigned {c : Char} {cs : List Char} (hc : c ≠ '-') :
    readLiteral (c :: cs) = (readMagnitude (c :: cs)).map fun n => (n : Int) := by
  rw [readLiteral]
  intro cs' heq
  exact hc (List.cons.inj heq).1

/-- Every literal denotes the constant it is printed for. -/
theorem pushInteger_denotes (print : PrintC) (val : Word) (sz : Int) (hsz : 1 ≤ sz ∧ sz ≤ 8)
    (hval : val.toNat < 2 ^ (8 * sz.toNat)) (sign : Bool) (vn : Option Varnode) (displayFormat : Nat)
    (hformat : formatOf vn displayFormat ≠ forceChar) (text : String)
    (h : print.pushInteger val sz sign vn displayFormat = some text) :
    ∃ z, readLiteral text.toList = some z ∧ z ≡ val.toNat [ZMOD 2 ^ (8 * sz.toNat)] := by
  obtain ⟨size, rfl⟩ : ∃ size : Nat, sz = size := ⟨sz.toNat, by omega⟩
  rw [Int.toNat_natCast] at hval ⊢
  have hsize : ByteSize size := by constructor <;> omega
  rw [PrintC.pushInteger] at h
  split at h
  · cases h
  · have hchosen (val : Word) : (if formatOf vn displayFormat ≠ 0 then formatOf vn displayFormat
        else print.defaultFormat val) ≠ forceChar := by
      split
      · exact hformat
      · exact defaultFormat_ne print val
    replace h := Option.some.inj h
    cases hneg : sign && decide (formatOf vn displayFormat ≠ forceChar) &&
        decide ((val ^^^ Pcode.calcMask size).toNat < val.toNat) with
    | true =>
        rw [hneg] at h
        have hflip : (val ^^^ Pcode.calcMask size).toNat < val.toNat :=
          of_decide_eq_true (Bool.and_eq_true_iff.mp hneg).2
        obtain ⟨c, cs, -, htext, hread⟩ := suffixed_read print "-" ((val ^^^ Pcode.calcMask size) + 1) size
          (hchosen ((val ^^^ Pcode.calcMask size) + 1))
          (if sign && decide (formatOf vn displayFormat ≠ forceChar) then false else forces Varnode.isUnsignedPrint vn)
          (forces Varnode.isLongPrint vn)
        refine ⟨-(((val ^^^ Pcode.calcMask size) + 1).toNat : Int), ?_, ?_⟩
        · have hlist : text.toList = '-' :: c :: cs := (congrArg String.toList h.symm).trans htext
          rw [hlist, readLiteral, hread]
          rfl
        · rw [toNat_negated hsize hval hflip, Int.modEq_iff_dvd]
          refine ⟨1, ?_⟩
          push_cast [hval.le]
          ring
    | false =>
        rw [hneg] at h
        obtain ⟨c, cs, hc, htext, hread⟩ := suffixed_read print "" val size (hchosen val)
          (if sign && decide (formatOf vn displayFormat ≠ forceChar) then false else forces Varnode.isUnsignedPrint vn)
          (forces Varnode.isLongPrint vn)
        refine ⟨val.toNat, ?_, rfl⟩
        have hlist : text.toList = c :: cs := (congrArg String.toList h.symm).trans htext
        rw [hlist, readLiteral_unsigned hc, hread]
        rfl

def printC : PrintC := ⟨false, false, "L", false, fun text _ => text, by decide⟩

/-- The lowest value of a byte. -/
theorem pushInteger_denotes_lowest : ∃ z, readLiteral "-128".toList = some z ∧ z ≡ (128#64).toNat [ZMOD 2 ^ (8 * (1 : Int).toNat)] :=
  pushInteger_denotes printC 128#64 1 (by decide) (by decide) true none forceDec (by decide) "-128" (by decide)

end GhidraDecompiler.PrintLanguage
