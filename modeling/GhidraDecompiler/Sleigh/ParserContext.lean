import Mathlib.Data.List.GetD
import Mathlib.Data.List.Basic
import Mathlib.Algebra.Group.Nat.Defs
import Mathlib.Algebra.Group.Int.Defs

namespace GhidraDecompiler.Sleigh

abbrev Word32 := BitVec 32

/-- Shifts by an amount of which only the low five bits count. -/
def wrappingShl (w : Word32) (n : Int) : Word32 := w <<< (n % 32).toNat

def wrappingShr (w : Word32) (n : Int) : Word32 := w >>> (n % 32).toNat

inductive SleighError where
  | badData (text : String)
  | lowlevel (text : String)
  deriving DecidableEq

structure ParserContext where
  buf : List (BitVec 8)
  context : List Word32

namespace ParserContext

def maxInstructionLen : Nat := 16

/-- Bytes in the order of their addresses, the first one the most significant. -/
def gather (ctx : ParserContext) (off : Nat) (size : Int) : Word32 :=
  (List.range size.toNat).foldl (fun res index => res <<< 8 ||| (ctx.buf.getD (off + index) 0).setWidth 32) 0

def tooLong : SleighError := .badData "Instruction is using more than 16 bytes"

def getInstructionBytes (ctx : ParserContext) (bytestart size : Int) (off : Nat) : Except SleighError Word32 :=
  let off := ((off + bytestart) % 2 ^ 32).toNat
  if maxInstructionLen ≤ off then .error tooLong else .ok (ctx.gather off size)

def getInstructionBits (ctx : ParserContext) (startbit size : Int) (off : Nat) : Except SleighError Word32 :=
  let off := ((off + startbit.tdiv 8) % 2 ^ 32).toNat
  if maxInstructionLen ≤ off then .error tooLong else
    let startbit := startbit.tmod 8
    let bytesize := (startbit + size - 1).tdiv 8 + 1
    .ok (wrappingShr (wrappingShl (ctx.gather off bytesize) (8 * (4 - bytesize) + startbit)) (32 - size))

def contextWord (ctx : ParserContext) (index : Int) : Word32 :=
  if index < 0 then 0 else ctx.context.getD index.toNat 0

def getContextBytes (ctx : ParserContext) (bytestart size : Int) : Word32 :=
  let intstart := bytestart.tdiv 4
  let byteOffset := bytestart.tmod 4
  let res := wrappingShr (wrappingShl (ctx.contextWord intstart) (byteOffset * 8)) ((4 - size) * 8)
  let remaining := size - 4 + byteOffset
  if remaining > 0 ∧ intstart + 1 < ctx.context.length then
    res ||| wrappingShr (ctx.contextWord (intstart + 1)) ((4 - remaining) * 8)
  else res

def getContextBits (ctx : ParserContext) (startbit size : Int) : Word32 :=
  let intstart := startbit.tdiv 32
  let bitOffset := startbit.tmod 32
  let res := wrappingShr (wrappingShl (ctx.contextWord intstart) bitOffset) (32 - size)
  let remaining := size - 32 + bitOffset
  if remaining > 0 ∧ intstart + 1 < ctx.context.length then
    res ||| wrappingShr (ctx.contextWord (intstart + 1)) (32 - remaining)
  else res

end ParserContext

/-- The word of a sequence at an index, zero outside of it. -/
def wordAt (words : List Word32) (index : Int) : Word32 :=
  if index < 0 then 0 else words.getD index.toNat 0

/-- The bit of a sequence of words at a position, counted from the most significant bit of the first word. -/
def bitAt (words : List Word32) (position : Int) : Bool :=
  (wordAt words (position / 32)).getMsbD (position % 32).toNat

/-- The last bits of the word are those from `start` on, the other ones are zero. -/
def IsSlice (bit : Int → Bool) (start size : Int) (word : Word32) : Prop :=
  ∀ k < 32, word.getMsbD k = (decide (32 ≤ k + size) && bit (start + size - 32 + k))

theorem getMsbD_shiftRight (w : Word32) (n k : Nat) (hk : k < 32) :
    (w >>> n).getMsbD k = (decide (n ≤ k) && w.getMsbD (k - n)) := by
  rw [BitVec.getMsbD_ushiftRight]
  by_cases h : n ≤ k
  · simp [h, hk, Nat.not_lt.2 h]
  · simp [h, Nat.lt_of_not_le h]

theorem IsSlice.congr {bit bit' : Int → Bool} {start start' size : Int} {word : Word32}
    (h : IsSlice bit start size word)
    (heq : ∀ i, 0 ≤ i → i < size → bit (start + i) = bit' (start' + i)) : IsSlice bit' start' size word := by
  intro k hk
  rw [h k hk]
  by_cases hs : 32 ≤ k + size
  · have h1 : start + size - 32 + k = start + (size - 32 + k) := by omega
    have h2 : start' + size - 32 + k = start' + (size - 32 + k) := by omega
    rw [h1, h2, heq _ (by omega) (by omega)]
  · simp [hs]

theorem IsSlice.unique {bit : Int → Bool} {start size : Int} {word word' : Word32}
    (h : IsSlice bit start size word) (h' : IsSlice bit start size word') : word = word' :=
  BitVec.eq_of_getMsbD_eq fun k hk => (h k hk).trans (h' k hk).symm

/-- Two neighbouring words, of which the first one is shifted to the left by the bits before the slice. -/
theorem isSlice_of_words (bit : Int → Bool) {hi lo : Word32} (base : Int) (shift : Nat) {size : Nat}
    (hhi : ∀ i : Nat, i < 32 → hi.getMsbD i = bit (base + i))
    (hlo : ∀ i : Nat, i < 32 → lo.getMsbD i = bit (base + 32 + i)) (hshift : shift < 32) (hsize : size ≤ 32) :
    IsSlice bit (base + shift) size (hi <<< shift >>> (32 - size) ||| lo >>> (64 - shift - size)) := by
  intro k hk
  rw [BitVec.getMsbD_or, getMsbD_shiftRight _ _ _ hk, getMsbD_shiftRight _ _ _ hk, BitVec.getMsbD_shiftLeft]
  by_cases hfirst : k - (32 - size) + shift < 32
  · have hrest : ¬ 64 - shift - size ≤ k := by omega
    by_cases hin : 32 - size ≤ k
    · rw [hhi _ hfirst]
      have hpos : base + ((k - (32 - size) + shift : Nat) : Int) = base + shift + size - 32 + k := by omega
      have hin' : (32 : Int) ≤ k + size := by omega
      rw [hpos]
      simp [hrest, hin, hin']
    · have hin' : ¬ (32 : Int) ≤ k + size := by omega
      simp [hrest, hin, hin']
  · have hzero : hi.getMsbD (k - (32 - size) + shift) = false := BitVec.getMsbD_of_ge _ _ (by omega)
    have hrest : 64 - shift - size ≤ k := by omega
    have hin' : (32 : Int) ≤ k + size := by omega
    have hpos : base + 32 + ((k - (64 - shift - size) : Nat) : Int) = base + shift + size - 32 + k := by omega
    rw [hzero, hlo _ (by omega), hpos]
    simp [hrest, hin']

theorem getMsbD_wordAt (words : List Word32) (index : Int) (i : Nat) (hi : i < 32) :
    (wordAt words index).getMsbD i = bitAt words (32 * index + i) := by
  have hquot : (32 * index + i) / 32 = index := by omega
  have hrem : ((32 * index + i) % 32).toNat = i := by omega
  rw [bitAt, hquot, hrem]

/-- What is cut out of two neighbouring words of a sequence. -/
theorem isSlice_wordAt (words : List Word32) (start : Int) (size : Nat) (hsize : size ≤ 32) :
    IsSlice (bitAt words) start size (wordAt words (start / 32) <<< (start % 32).toNat >>> (32 - size)
      ||| wordAt words (start / 32 + 1) >>> (64 - (start % 32).toNat - size)) := by
  have hslice := isSlice_of_words (bitAt words) (32 * (start / 32)) (start % 32).toNat
    (fun i hi => getMsbD_wordAt words (start / 32) i hi)
    (fun i hi => by
      rw [getMsbD_wordAt words (start / 32 + 1) i hi]
      congr 1
      omega) (by omega) hsize
  have hstart : 32 * (start / 32) + ((start % 32).toNat : Int) = start := by omega
  rwa [hstart] at hslice

theorem wordAt_of_length_le {words : List Word32} {index : Int} (h : words.length ≤ index) : wordAt words index = 0 := by
  unfold wordAt
  split
  · rfl
  · exact List.getD_eq_default _ _ (by omega)

theorem wrappingShl_of_lt (w : Word32) (n : Nat) (h : n < 32) : wrappingShl w n = w <<< n := by
  unfold wrappingShl
  congr 1
  omega

theorem wrappingShr_of_lt (w : Word32) (n : Nat) (h : n < 32) : wrappingShr w n = w >>> n := by
  unfold wrappingShr
  congr 1
  omega

theorem shiftRight_of_le (w : Word32) (n : Nat) (h : 32 ≤ n) : w >>> n = 0 := by
  apply BitVec.eq_of_getMsbD_eq
  intro k hk
  have : ¬ n ≤ k := by omega
  rw [getMsbD_shiftRight _ _ _ hk]
  simp [this]

namespace ParserContext

def contextBit (ctx : ParserContext) : Int → Bool := bitAt ctx.context

/-- The bits of the instruction at an offset in the buffer, zero behind its end. -/
def instructionBit (ctx : ParserContext) (off : Nat) (position : Int) : Bool :=
  (ctx.buf.getD (off + position / 8).toNat 0).getMsbD (position % 8).toNat

theorem contextWord_eq_wordAt (ctx : ParserContext) (index : Int) :
    ctx.contextWord index = wordAt ctx.context index := rfl

/-- Context bits are exact at every place and for every size. -/
theorem getContextBits_isSlice (ctx : ParserContext) (startbit size : Nat) (hpos : 0 < size) (hsize : size ≤ 32) :
    IsSlice ctx.contextBit startbit size (ctx.getContextBits startbit size) := by
  have hslice := isSlice_wordAt ctx.context startbit size hsize
  have hres : ctx.getContextBits startbit size =
      wordAt ctx.context ((startbit : Int) / 32) <<< ((startbit : Int) % 32).toNat >>> (32 - size)
        ||| wordAt ctx.context ((startbit : Int) / 32 + 1) >>> (64 - ((startbit : Int) % 32).toNat - size) := by
    have hdiv : (startbit : Int).tdiv 32 = (startbit : Int) / 32 := Int.tdiv_eq_ediv_of_nonneg (by omega)
    have hmod : (startbit : Int).tmod 32 = (startbit : Int) % 32 := Int.tmod_eq_emod_of_nonneg (by omega)
    have hshl : ∀ w, wrappingShl w ((startbit : Int) % 32) = w <<< ((startbit : Int) % 32).toNat := fun w => by
      rw [← wrappingShl_of_lt _ _ (by omega), Int.toNat_of_nonneg (by omega)]
    have hshr : ∀ w, wrappingShr w (32 - (size : Int)) = w >>> (32 - size) := fun w => by
      rw [← wrappingShr_of_lt _ _ (by omega)]
      congr 1
      omega
    unfold getContextBits
    simp only [hdiv, hmod, contextWord_eq_wordAt, hshl, hshr]
    split
    case isTrue hmore =>
      have hrest : ∀ w, wrappingShr w (32 - ((size : Int) - 32 + (startbit : Int) % 32)) =
          w >>> (64 - ((startbit : Int) % 32).toNat - size) := fun w => by
        rw [← wrappingShr_of_lt _ _ (by omega)]
        congr 1
        omega
      rw [hrest]
    case isFalse hmore =>
      by_cases hfit : (size : Int) - 32 + (startbit : Int) % 32 > 0
      · have hend : wordAt ctx.context ((startbit : Int) / 32 + 1) = 0 := wordAt_of_length_le (by omega)
        simp [hend]
      · have hnone := shiftRight_of_le (wordAt ctx.context ((startbit : Int) / 32 + 1))
          (64 - ((startbit : Int) % 32).toNat - size) (by omega)
        simp [hnone]
  rwa [hres]

/-- Context bytes are the bits of these bytes. -/
theorem getContextBytes_eq_getContextBits (ctx : ParserContext) (bytestart size : Nat) :
    ctx.getContextBytes bytestart size = ctx.getContextBits (8 * bytestart : Nat) (8 * size : Nat) := by
  have hdiv : (bytestart : Int).tdiv 4 = (bytestart : Int) / 4 := Int.tdiv_eq_ediv_of_nonneg (by omega)
  have hmod : (bytestart : Int).tmod 4 = (bytestart : Int) % 4 := Int.tmod_eq_emod_of_nonneg (by omega)
  have hdiv' : ((8 * bytestart : Nat) : Int).tdiv 32 = (bytestart : Int) / 4 := by
    rw [Int.tdiv_eq_ediv_of_nonneg (by omega)]
    omega
  have hmod' : ((8 * bytestart : Nat) : Int).tmod 32 = (bytestart : Int) % 4 * 8 := by
    rw [Int.tmod_eq_emod_of_nonneg (by omega)]
    omega
  have hunused : (4 - (size : Int)) * 8 = 32 - (8 * size : Nat) := by omega
  have hremaining : (4 - ((size : Int) - 4 + (bytestart : Int) % 4)) * 8 =
      32 - (((8 * size : Nat) : Int) - 32 + (bytestart : Int) % 4 * 8) := by omega
  have hmore : ((size : Int) - 4 + (bytestart : Int) % 4 > 0) =
      (((8 * size : Nat) : Int) - 32 + (bytestart : Int) % 4 * 8 > 0) := propext (by omega)
  unfold getContextBytes getContextBits
  simp only [hdiv, hmod, hdiv', hmod', hunused, hremaining, hmore]

theorem gather_succ (ctx : ParserContext) (off n : Nat) :
    ctx.gather off (n + 1 : Nat) = ctx.gather off n <<< 8 ||| (ctx.buf.getD (off + n) 0).setWidth 32 := by
  simp only [gather, Int.toNat_natCast, List.range_succ, List.foldl_append, List.foldl_cons, List.foldl_nil]

theorem gather_isSlice (ctx : ParserContext) (off n : Nat) :
    IsSlice (ctx.instructionBit off) 0 (8 * n : Nat) (ctx.gather off n) := by
  induction n with
  | zero =>
      intro k hk
      have hnone : ¬ (32 : Int) ≤ k + (8 * 0 : Nat) := by omega
      rw [decide_eq_false hnone]
      simp [gather]
  | succ n ih =>
      intro k hk
      rw [gather_succ, BitVec.getMsbD_or, BitVec.getMsbD_shiftLeft, BitVec.getMsbD_setWidth]
      by_cases hlow : k + 8 < 32
      · have hbyte : ¬ 24 ≤ k := by omega
        rw [ih _ hlow]
        have hposition : 0 + ((8 * n : Nat) : Int) - 32 + ((k + 8 : Nat) : Int) = 0 + (8 * (n + 1) : Nat) - 32 + k := by
          omega
        have hin : decide ((32 : Int) ≤ ((k + 8 : Nat) : Int) + (8 * n : Nat)) =
            decide ((32 : Int) ≤ k + (8 * (n + 1) : Nat)) := decide_eq_decide.2 (by omega)
        rw [hposition, hin]
        simp [hbyte]
      · have hzero : (ctx.gather off n).getMsbD (k + 8) = false := BitVec.getMsbD_of_ge _ _ (by omega)
        have hin : (32 : Int) ≤ k + (8 * (n + 1) : Nat) := by omega
        have hquot : ((off : Int) + (0 + ((8 * (n + 1) : Nat) : Int) - 32 + k) / 8).toNat = off + n := by omega
        have hrem : ((0 + ((8 * (n + 1) : Nat) : Int) - 32 + k) % 8).toNat = k + 8 - 32 := by omega
        have hbyte : 24 ≤ k := by omega
        rw [hzero, decide_eq_true hin, instructionBit, hquot, hrem]
        simp [hbyte]

theorem instructionBit_add (ctx : ParserContext) (off bytes : Nat) (position : Int) :
    ctx.instructionBit (off + bytes) position = ctx.instructionBit off (8 * bytes + position) := by
  have hquot : ((off + bytes : Nat) : Int) + position / 8 = off + (8 * bytes + position) / 8 := by omega
  have hrem : (8 * (bytes : Int) + position) % 8 = position % 8 := by omega
  rw [instructionBit, instructionBit, hquot, hrem]

theorem getInstructionBytes_eq (ctx : ParserContext) (bytestart size off : Nat) (hoff : off + bytestart < 2 ^ 32) :
    ctx.getInstructionBytes bytestart size off =
      if maxInstructionLen ≤ off + bytestart then .error tooLong else .ok (ctx.gather (off + bytestart) size) := by
  have hsum : (((off : Int) + bytestart) % 2 ^ 32).toNat = off + bytestart := by omega
  simp only [getInstructionBytes, hsum]

theorem gather_isSlice_bytes (ctx : ParserContext) (bytestart size off : Nat) :
    IsSlice (ctx.instructionBit off) (8 * bytestart : Nat) (8 * size : Nat) (ctx.gather (off + bytestart) size) :=
  (ctx.gather_isSlice (off + bytestart) size).congr fun i _ _ => by
    rw [instructionBit_add]
    congr 1
    omega

/-- The number of bytes that `getInstructionBits` reads, and what it returns. -/
def bytesOf (startbit size : Nat) : Nat := (startbit % 8 + size - 1) / 8 + 1

theorem getInstructionBits_eq (ctx : ParserContext) {startbit size off : Nat} (hpos : 0 < size) (hsize : size ≤ 32)
    (hoff : off + startbit / 8 < 2 ^ 32) :
    ctx.getInstructionBits startbit size off =
      if maxInstructionLen ≤ off + startbit / 8 then .error tooLong
      else .ok (wrappingShl (ctx.gather (off + startbit / 8) (bytesOf startbit size))
        (8 * (4 - bytesOf startbit size) + (startbit % 8 : Nat)) >>> (32 - size)) := by
  have hdiv : (startbit : Int).tdiv 8 = (startbit / 8 : Nat) := by
    rw [Int.tdiv_eq_ediv_of_nonneg (by omega)]
    rfl
  have hmod : (startbit : Int).tmod 8 = (startbit % 8 : Nat) := by
    rw [Int.tmod_eq_emod_of_nonneg (by omega)]
    rfl
  have hbytes : (((startbit % 8 : Nat) : Int) + size - 1).tdiv 8 + 1 = (bytesOf startbit size : Nat) := by
    rw [Int.tdiv_eq_ediv_of_nonneg (by omega), bytesOf]
    omega
  have hsum : (((off : Int) + (startbit / 8 : Nat)) % 2 ^ 32).toNat = off + startbit / 8 := by omega
  have hshr : ∀ w, wrappingShr w (32 - (size : Int)) = w >>> (32 - size) := fun w => by
    rw [← wrappingShr_of_lt _ _ (by omega)]
    congr 1
    omega
  unfold getInstructionBits
  simp only [hdiv, hmod, hbytes, hsum, hshr]

/-- Bits that lie in four bytes are exact. -/
theorem getInstructionBits_isSlice (ctx : ParserContext) {startbit size off : Nat} (hpos : 0 < size)
    (hfour : startbit % 8 + size ≤ 32) (hoff : off + startbit / 8 < maxInstructionLen) :
    ∃ word, ctx.getInstructionBits startbit size off = .ok word ∧
      IsSlice (ctx.instructionBit off) startbit size word := by
  have hnot : ¬ maxInstructionLen ≤ off + startbit / 8 := by omega
  rw [maxInstructionLen] at hoff
  have hbytes : bytesOf startbit size = (startbit % 8 + size - 1) / 8 + 1 := rfl
  rw [getInstructionBits_eq ctx hpos (by omega) (by omega), if_neg hnot]
  refine ⟨_, rfl, ?_⟩
  have hshift : (8 * (4 - (bytesOf startbit size : Int)) + (startbit % 8 : Nat)) =
      (8 * (4 - bytesOf startbit size) + startbit % 8 : Nat) := by omega
  rw [hshift, wrappingShl_of_lt _ _ (by omega)]
  have hgather := ctx.gather_isSlice_bytes (startbit / 8) (bytesOf startbit size) off
  intro k hk
  rw [getMsbD_shiftRight _ _ _ hk, BitVec.getMsbD_shiftLeft]
  by_cases hin : 32 - size ≤ k
  · have hin' : (32 : Int) ≤ k + size := by omega
    rw [hgather _ (by omega)]
    have hgathered : (32 : Int) ≤ ((k - (32 - size) + (8 * (4 - bytesOf startbit size) + startbit % 8) : Nat) : Int)
        + (8 * bytesOf startbit size : Nat) := by omega
    have hposition : ((8 * (startbit / 8) : Nat) : Int) + (8 * bytesOf startbit size : Nat) - 32
        + ((k - (32 - size) + (8 * (4 - bytesOf startbit size) + startbit % 8) : Nat) : Int)
        = startbit + size - 32 + k := by omega
    rw [hposition]
    simp only [hin, hin', hgathered, decide_true, Bool.true_and]
  · have hin' : ¬ (32 : Int) ≤ k + size := by omega
    simp [hin, hin']

/-- Five bytes do not fit into a word: the last bit is lost. -/
theorem getInstructionBits_five (startbit size off : Nat) (hsize : size ≤ 32) (hfive : 32 < startbit % 8 + size)
    (hoff : off + startbit / 8 < maxInstructionLen) (context : List Word32) :
    ∃ word, getInstructionBits ⟨List.replicate (off + startbit / 8 + 4) 0 ++ [0xff], context⟩ startbit size off
        = .ok word ∧ ¬ IsSlice (instructionBit ⟨List.replicate (off + startbit / 8 + 4) 0 ++ [0xff], context⟩ off)
          startbit size word := by
  have hnot : ¬ maxInstructionLen ≤ off + startbit / 8 := by omega
  rw [maxInstructionLen] at hoff
  have hbytes : bytesOf startbit size = 5 := by
    rw [bytesOf]
    omega
  rw [getInstructionBits_eq _ (by omega) hsize (by omega), if_neg hnot, hbytes]
  refine ⟨_, rfl, fun hslice => ?_⟩
  have hlast := hslice 31 (by omega)
  have hshift : ((8 * (4 - ((5 : Nat) : Int)) + (startbit % 8 : Nat)) % 32).toNat = 24 + startbit % 8 := by omega
  have hzero : ∀ w : Word32, w.getMsbD (31 - (32 - size) + (24 + startbit % 8)) = false := fun w =>
    BitVec.getMsbD_of_ge _ _ (by omega)
  rw [getMsbD_shiftRight _ _ _ (by omega), wrappingShl, hshift, BitVec.getMsbD_shiftLeft, hzero] at hlast
  have hquot : ((off : Int) + (startbit + size - 32 + (31 : Nat)) / 8).toNat = off + startbit / 8 + 4 := by omega
  have hrem : (((startbit : Int) + size - 32 + (31 : Nat)) % 8).toNat < 8 := by omega
  rw [instructionBit, hquot, List.getD_append_right _ _ _ _ (by simp), List.length_replicate, Nat.sub_self] at hlast
  have hin : (32 : Int) ≤ (31 : Nat) + size := by omega
  generalize (((startbit : Int) + size - 32 + (31 : Nat)) % 8).toNat = i at hrem hlast
  have hones : ∀ i < 8, (0xff : BitVec 8).getMsbD i = true := by decide
  rw [decide_eq_true hin, List.getD_cons_zero, hones i hrem] at hlast
  simp at hlast

/-- Which bits of the instruction are extracted exactly, whatever the buffer holds. -/
theorem getInstructionBits_exact_iff (startbit size off : Nat) (hpos : 0 < size) (hsize : size ≤ 32)
    (hoff : off + startbit / 8 < 2 ^ 32) :
    (∀ ctx : ParserContext, ∃ word, ctx.getInstructionBits startbit size off = .ok word ∧
      IsSlice (ctx.instructionBit off) startbit size word) ↔
    off + startbit / 8 < maxInstructionLen ∧ startbit % 8 + size ≤ 32 := by
  constructor
  · intro hexact
    have hlen : off + startbit / 8 < maxInstructionLen := by
      by_contra hlen
      obtain ⟨word, hword, _⟩ := hexact ⟨[], []⟩
      rw [getInstructionBits_eq _ hpos hsize hoff, if_pos (by omega)] at hword
      cases hword
    refine ⟨hlen, ?_⟩
    by_contra hfive
    obtain ⟨word, hword, hnot⟩ := getInstructionBits_five startbit size off hsize (by omega) hlen []
    obtain ⟨word', hword', hslice⟩ := hexact _
    rw [hword] at hword'
    cases hword'
    exact hnot hslice
  · rintro ⟨hlen, hfour⟩ ctx
    exact ctx.getInstructionBits_isSlice hpos hfour hlen

end ParserContext

end GhidraDecompiler.Sleigh
