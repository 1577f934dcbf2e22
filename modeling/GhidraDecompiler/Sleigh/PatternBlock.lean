import GhidraDecompiler.Sleigh.ParserContext
import Mathlib.Data.List.DropRight

namespace GhidraDecompiler.Sleigh

structure PatternBlock where
  offset : Int
  nonzerosize : Int
  maskvec : List Word32
  valvec : List Word32
  deriving DecidableEq

namespace PatternBlock

/-- The number of bytes up to the most significant one that is not zero. -/
def significantBytes : Nat → Word32 → Nat
  | 0, _ => 0
  | fuel + 1, w => if w = 0 then 0 else significantBytes fuel (w >>> 8) + 1

def trailingZeroBytes : Nat → Word32 → Nat
  | 0, _ => 0
  | fuel + 1, w => if w &&& 0xff = 0 then trailingZeroBytes fuel (w >>> 8) + 1 else 0

/-- The bytes of the words are moved to the front. -/
def shiftWords (suboff : Nat) : List Word32 → List Word32
  | [] => []
  | [w] => [w <<< (suboff * 8)]
  | w :: w' :: ws => (w <<< (suboff * 8) ||| w' >>> ((4 - suboff) * 8)) :: shiftWords suboff (w' :: ws)

/-- The front part of `normalize`: words that are zero, and then bytes, are cut off. -/
def cutFront (block : PatternBlock) : PatternBlock :=
  let cut := (block.maskvec.takeWhile (· = 0)).length
  let block := { block with
    offset := block.offset + 4 * cut
    maskvec := block.maskvec.drop cut
    valvec := block.valvec.drop cut }
  match block.maskvec with
  | [] => block
  | first :: _ =>
      let suboff := 4 - significantBytes 4 first
      if suboff = 0 then block
      else { block with
        offset := block.offset + suboff
        maskvec := shiftWords suboff block.maskvec
        valvec := shiftWords suboff block.valvec }

/-- Words that are zero are cut off at the end. -/
def cutBack (block : PatternBlock) : PatternBlock :=
  let size := (block.maskvec.rdropWhile (· = 0)).length
  { block with maskvec := block.maskvec.take size, valvec := block.valvec.take size }

def normalize (block : PatternBlock) : PatternBlock :=
  if block.nonzerosize ≤ 0 then { block with offset := 0, maskvec := [], valvec := [] }
  else
    let block := block.cutFront
    let block := if block.maskvec = [] then block else block.cutBack
    match block.maskvec.getLast? with
    | none => { block with offset := 0, nonzerosize := 0 }
    | some last => { block with nonzerosize := 4 * block.maskvec.length - trailingZeroBytes 4 last }

def getLength (block : PatternBlock) : Int := block.offset + block.nonzerosize

def getBits (vec : List Word32) (offset startbit size : Int) : Word32 :=
  let startbit := startbit - 8 * offset
  let wordnum1 := startbit % 2 ^ 32 / 32
  let shift := startbit % 2 ^ 32 % 32
  let wordnum2 := (startbit + size - 1) % 2 ^ 32 / 32
  let res := wrappingShl (vec.getD wordnum1.toNat 0) shift
  let res := if wordnum1 ≠ wordnum2 then res ||| wrappingShr (vec.getD wordnum2.toNat 0) (32 - shift) else res
  wrappingShr res (32 - size)

def getMask (block : PatternBlock) (startbit size : Int) : Word32 := getBits block.maskvec block.offset startbit size

def getValue (block : PatternBlock) (startbit size : Int) : Word32 := getBits block.valvec block.offset startbit size

def alwaysTrue (block : PatternBlock) : Bool := block.nonzerosize = 0

/-- The words are compared with what is read from their offsets on, up to the first one that differs. -/
def matchWords (read : Int → Except SleighError Word32) : List (Word32 × Word32) → Int → Except SleighError Bool
  | [], _ => .ok true
  | (mask, val) :: words, off => do
      let data ← read off
      if mask &&& data ≠ val then pure false else matchWords read words (off + 4)

def isInstructionMatch (block : PatternBlock) (ctx : ParserContext) (off : Nat) : Except SleighError Bool :=
  if block.nonzerosize ≤ 0 then .ok (block.nonzerosize = 0)
  else matchWords (fun bytestart => ctx.getInstructionBytes bytestart 4 off)
    (block.maskvec.zip block.valvec) block.offset

def isContextMatch (block : PatternBlock) (ctx : ParserContext) : Except SleighError Bool :=
  if block.nonzerosize ≤ 0 then .ok (block.nonzerosize = 0)
  else matchWords (fun bytestart => .ok (ctx.getContextBytes bytestart 4))
    (block.maskvec.zip block.valvec) block.offset

end PatternBlock

inductive DisjointPattern where
  | instruction (block : PatternBlock)
  | context (block : PatternBlock)
  | combine (context instr : PatternBlock)
  deriving DecidableEq

namespace DisjointPattern

def getBlock : DisjointPattern → Bool → Option PatternBlock
  | instruction block, inContext => if inContext then none else some block
  | context block, inContext => if inContext then some block else none
  | combine cblock instr, inContext => if inContext then some cblock else some instr

def getMask (pattern : DisjointPattern) (startbit size : Int) (inContext : Bool) : Word32 :=
  match pattern.getBlock inContext with
  | some block => block.getMask startbit size
  | none => 0

def getValue (pattern : DisjointPattern) (startbit size : Int) (inContext : Bool) : Word32 :=
  match pattern.getBlock inContext with
  | some block => block.getValue startbit size
  | none => 0

def isMatch (ctx : ParserContext) (off : Nat) : DisjointPattern → Except SleighError Bool
  | instruction block => block.isInstructionMatch ctx off
  | context block => block.isContextMatch ctx
  | combine cblock instr => do
      if ! (← instr.isInstructionMatch ctx off) then pure false else cblock.isContextMatch ctx

end DisjointPattern

structure DecisionNode where
  list : List (DisjointPattern × Nat)
  children : List DecisionNode
  contextdecision : Bool
  startbit : Int
  bitsize : Int

namespace DecisionNode

def unableToResolve (addr : String) : SleighError := .badData (addr ++ ": Unable to resolve constructor")

def noChild : SleighError := .lowlevel "decision tree has no child for field value"

/-- The leaf of the tree: its patterns are tried in turn. The address is the one shown in the error. -/
def resolveLeaf (ctx : ParserContext) (off : Nat) (addr : String) :
    List (DisjointPattern × Nat) → Except SleighError Nat
  | [] => .error (unableToResolve addr)
  | (pattern, ct) :: list => do
      if ← pattern.isMatch ctx off then pure ct else resolveLeaf ctx off addr list

def field (ctx : ParserContext) (off : Nat) (contextdecision : Bool) (startbit bitsize : Int) :
    Except SleighError Word32 :=
  if contextdecision then .ok (ctx.getContextBits startbit bitsize) else ctx.getInstructionBits startbit bitsize off

mutual

def resolve (ctx : ParserContext) (off : Nat) (addr : String) : DecisionNode → Except SleighError Nat
  | ⟨list, children, contextdecision, startbit, bitsize⟩ =>
      if bitsize = 0 then resolveLeaf ctx off addr list
      else do
        let val ← field ctx off contextdecision startbit bitsize
        resolveChild ctx off addr children val.toNat

def resolveChild (ctx : ParserContext) (off : Nat) (addr : String) : List DecisionNode → Nat → Except SleighError Nat
  | [], _ => .error noChild
  | child :: _, 0 => resolve ctx off addr child
  | _ :: children, val + 1 => resolveChild ctx off addr children val

end

end DecisionNode

section Bits

variable {words : List Word32}

theorem bitAt_of_neg {position : Int} (h : position < 0) : bitAt words position = false := by
  have hneg : position / 32 < 0 := by omega
  simp [bitAt, wordAt, hneg]

theorem bitAt_nil (position : Int) : bitAt [] position = false := by
  simp [bitAt, wordAt]

theorem bitAt_of_length_le {position : Int} (h : 32 * (words.length : Int) ≤ position) :
    bitAt words position = false := by
  rw [bitAt, wordAt_of_length_le (by omega)]
  exact BitVec.getMsbD_zero

theorem bitAt_eq {position : Int} (index i : Nat) (hi : i < 32) (h : position = 32 * index + i) :
    bitAt words position = (words.getD index 0).getMsbD i := by
  have hnonneg : ¬ (index : Int) < 0 := by omega
  rw [h, ← getMsbD_wordAt words index i hi, wordAt, if_neg hnonneg, Int.toNat_natCast]

/-- A position is negative or lies in a word. -/
theorem position_cases (position : Int) :
    position < 0 ∨ ∃ index i : Nat, i < 32 ∧ position = 32 * index + i := by
  by_cases h : position < 0
  · exact .inl h
  · exact .inr ⟨(position / 32).toNat, (position % 32).toNat, by omega, by omega⟩

theorem bitAt_drop (cut : Nat) {position : Int} (h : 0 ≤ position) :
    bitAt (words.drop cut) position = bitAt words (position + 32 * cut) := by
  rcases position_cases position with hneg | ⟨index, i, hi, rfl⟩
  · omega
  · rw [bitAt_eq index i hi rfl, bitAt_eq (cut + index) i hi (by omega)]
    simp [List.getD_eq_getElem?_getD, List.getElem?_drop]

theorem wordAt_shiftWords (suboff : Nat) (words : List Word32) (index : Nat) :
    (PatternBlock.shiftWords suboff words).getD index 0 =
      words.getD index 0 <<< (suboff * 8) ||| words.getD (index + 1) 0 >>> ((4 - suboff) * 8) := by
  induction words using PatternBlock.shiftWords.induct generalizing index with
  | case1 => simp [PatternBlock.shiftWords]
  | case2 w => cases index with
      | zero => simp [PatternBlock.shiftWords]
      | succ index => simp [PatternBlock.shiftWords]
  | case3 w w' ws ih => cases index with
      | zero => simp [PatternBlock.shiftWords]
      | succ index =>
          rw [PatternBlock.shiftWords, List.getD_cons_succ, ih index]
          rfl

theorem length_shiftWords (suboff : Nat) (words : List Word32) :
    (PatternBlock.shiftWords suboff words).length = words.length := by
  induction words using PatternBlock.shiftWords.induct with
  | case1 => rfl
  | case2 w => rfl
  | case3 w w' ws ih =>
      rw [PatternBlock.shiftWords, List.length_cons, ih]
      rfl

theorem bitAt_shiftWords {suboff : Nat} (hsuboff : suboff < 4) {position : Int} (h : 0 ≤ position) :
    bitAt (PatternBlock.shiftWords suboff words) position = bitAt words (position + 8 * suboff) := by
  rcases position_cases position with hneg | ⟨index, i, hi, rfl⟩
  · omega
  · rw [bitAt_eq index i hi rfl, wordAt_shiftWords]
    have hslice := isSlice_of_words (bitAt words) (32 * index) (suboff * 8)
      (fun i hi => (bitAt_eq index i hi rfl).symm) (fun i hi => (bitAt_eq (index + 1) i hi (by omega)).symm)
      (by omega) le_rfl i hi
    have hshift : 64 - suboff * 8 - 32 = (4 - suboff) * 8 := by omega
    have hin : (32 : Int) ≤ i + (32 : Nat) := by omega
    have hposition : 32 * (index : Int) + (suboff * 8 : Nat) + (32 : Nat) - 32 + i = 32 * index + i + 8 * suboff := by
      omega
    rwa [hshift, decide_eq_true hin, Bool.true_and, hposition, Nat.sub_self, BitVec.ushiftRight_zero] at hslice

/-- Where zero bits in front are cut off, the other ones keep their positions. -/
theorem bitAt_front {words' : List Word32} {cut : Nat}
    (hsame : ∀ position : Int, 0 ≤ position → bitAt words' position = bitAt words (position + cut))
    (hzero : ∀ position < (cut : Int), bitAt words position = false) (position : Int) :
    bitAt words' (position - cut) = bitAt words position := by
  by_cases h : position < cut
  · rw [bitAt_of_neg (by omega), hzero position h]
  · rw [hsame _ (by omega)]
    congr 1
    omega

theorem bitAt_rdropWhile (words : List Word32) (position : Int) :
    bitAt (words.rdropWhile (· = 0)) position = bitAt words position := by
  have hword : ∀ index, (words.rdropWhile (· = 0)).getD index 0 = words.getD index 0 := by
    induction words using List.reverseRecOn with
    | nil => simp
    | append_singleton words w ih =>
        intro index
        rw [List.rdropWhile_concat]
        split
        case isTrue hw =>
          rw [ih index, of_decide_eq_true hw]
          by_cases hlen : index < words.length
          · rw [List.getD_append _ _ _ _ hlen]
          · rw [List.getD_append_right _ _ _ _ (by omega), List.getD_eq_default _ _ (by omega)]
            cases index - words.length <;> simp
        case isFalse hw => rfl
  rcases position_cases position with hneg | ⟨index, i, hi, rfl⟩
  · rw [bitAt_of_neg hneg, bitAt_of_neg hneg]
  · rw [bitAt_eq index i hi rfl, bitAt_eq index i hi rfl, hword]

theorem take_length_rdropWhile (words : List Word32) :
    words.take (words.rdropWhile (· = 0)).length = words.rdropWhile (· = 0) :=
  (List.prefix_iff_eq_take.1 (List.rdropWhile_prefix _ words)).symm

theorem bitAt_take_of_lt {size : Nat} {position : Int} (h : position < 32 * size) :
    bitAt (words.take size) position = bitAt words position := by
  rcases position_cases position with hneg | ⟨index, i, hi, rfl⟩
  · rw [bitAt_of_neg hneg, bitAt_of_neg hneg]
  · have hlt : index < size := by omega
    rw [bitAt_eq index i hi rfl, bitAt_eq index i hi rfl]
    simp [List.getD_eq_getElem?_getD, hlt]

end Bits

namespace PatternBlock

theorem getD_wrapped (words : List Word32) (start : Int) (hlow : - 2 ^ 31 ≤ start) (hhigh : start < 2 ^ 31)
    (hlen : words.length ≤ 2 ^ 26) : words.getD (start % 2 ^ 32 / 32).toNat 0 = wordAt words (start / 32) := by
  by_cases hneg : start < 0
  · have hword : start / 32 < 0 := by omega
    rw [wordAt, if_pos hword, List.getD_eq_default _ _ (by omega)]
  · have hword : ¬ start / 32 < 0 := by omega
    have hindex : start % 2 ^ 32 / 32 = start / 32 := by omega
    rw [wordAt, if_neg hword, hindex]

/-- The bits of a sequence of words are exact, zero before and behind it. -/
theorem getBits_isSlice (vec : List Word32) {offset : Int} {startbit size : Nat} (hpos : 0 < size) (hsize : size ≤ 32)
    (hlow : 8 * offset ≤ 2 ^ 31) (hoffset : 0 ≤ offset) (hhigh : startbit + size ≤ 2 ^ 31)
    (hlen : vec.length ≤ 2 ^ 26) :
    IsSlice (fun position => bitAt vec (position - 8 * offset)) startbit size (getBits vec offset startbit size) := by
  have hres : getBits vec offset startbit size =
      wordAt vec ((startbit - 8 * offset) / 32) <<< ((startbit - 8 * offset) % 32).toNat >>> (32 - size)
        ||| wordAt vec ((startbit - 8 * offset) / 32 + 1) >>> (64 - ((startbit - 8 * offset) % 32).toNat - size) := by
    have hshl : ∀ w, wrappingShl w ((startbit - 8 * offset) % 2 ^ 32 % 32) =
        w <<< ((startbit - 8 * offset) % 32).toNat := fun w => by
      rw [← wrappingShl_of_lt _ _ (by omega)]
      congr 1
      omega
    have hshr : ∀ w, wrappingShr w (32 - (size : Int)) = w >>> (32 - size) := fun w => by
      rw [← wrappingShr_of_lt _ _ (by omega)]
      congr 1
      omega
    unfold getBits
    simp only [hshl, hshr, getD_wrapped vec (startbit - 8 * offset) (by omega) (by omega) hlen,
      getD_wrapped vec (startbit - 8 * offset + size - 1) (by omega) (by omega) hlen]
    split
    case isTrue hmore =>
      have hrest : ∀ w, wrappingShr w (32 - (startbit - 8 * offset) % 2 ^ 32 % 32) =
          w >>> (32 - ((startbit - 8 * offset) % 32).toNat) := fun w => by
        rw [← wrappingShr_of_lt _ _ (by omega)]
        congr 1
        omega
      have hnext : (startbit - 8 * offset + size - 1) / 32 = (startbit - 8 * offset) / 32 + 1 := by omega
      have hsum : 32 - ((startbit - 8 * offset) % 32).toNat + (32 - size) =
          64 - ((startbit - 8 * offset) % 32).toNat - size := by omega
      rw [hrest, hnext, BitVec.ushiftRight_or_distrib, ← BitVec.shiftRight_add, hsum]
    case isFalse hmore =>
      have hnone := shiftRight_of_le (wordAt vec ((startbit - 8 * offset) / 32 + 1))
        (64 - ((startbit - 8 * offset) % 32).toNat - size) (by omega)
      simp [hnone]
  rw [hres]
  refine (isSlice_wordAt vec (startbit - 8 * offset) size hsize).congr fun i _ _ => ?_
  congr 1
  omega

section Bytes

theorem low_byte_eq_zero (w : Word32) : w &&& 0xff = 0 ↔ ∀ i < 8, w.getLsbD i = false := by
  have hmask : ∀ i < 32, (0xff : Word32).getLsbD i = decide (i < 8) := by decide
  constructor
  · intro h i hi
    have hbit : (w &&& 0xff).getLsbD i = false := by
      rw [h]
      exact BitVec.getLsbD_zero
    rwa [BitVec.getLsbD_and, hmask i (by omega), decide_eq_true hi, Bool.and_true] at hbit
  · intro h
    apply BitVec.eq_of_getLsbD_eq
    intro i hi
    refine Eq.trans ?_ BitVec.getLsbD_zero.symm
    rw [BitVec.getLsbD_and, hmask i hi]
    by_cases hbyte : i < 8
    · rw [h i hbyte, Bool.false_and]
    · rw [decide_eq_false hbyte, Bool.and_false]

theorem trailingZeroBytes_spec (fuel : Nat) (w : Word32) :
    (∀ i < 8 * trailingZeroBytes fuel w, w.getLsbD i = false) ∧
    (trailingZeroBytes fuel w < fuel → ∃ i < 8, w.getLsbD (8 * trailingZeroBytes fuel w + i) = true) := by
  induction fuel generalizing w with
  | zero => simp [trailingZeroBytes]
  | succ fuel ih =>
      obtain ⟨hzero, hone⟩ := ih (w >>> 8)
      rw [trailingZeroBytes]
      split
      case isTrue hbyte =>
        refine ⟨fun i hi => ?_, fun hlt => ?_⟩
        · by_cases hlow : i < 8
          · exact (low_byte_eq_zero w).1 hbyte i hlow
          · have hbit := hzero (i - 8) (by omega)
            rwa [BitVec.getLsbD_ushiftRight, show 8 + (i - 8) = i by omega] at hbit
        · obtain ⟨i, hi, hbit⟩ := hone (by omega)
          refine ⟨i, hi, ?_⟩
          rw [BitVec.getLsbD_ushiftRight] at hbit
          rw [← hbit]
          congr 1
          omega
      case isFalse hbyte =>
        refine ⟨fun i hi => by omega, fun _ => ?_⟩
        by_contra hnone
        push Not at hnone
        exact hbyte ((low_byte_eq_zero w).2 fun i hi => by simpa using hnone i hi)

theorem significantBytes_spec (fuel : Nat) (w : Word32) (hw : ∀ i, 8 * fuel ≤ i → w.getLsbD i = false) :
    significantBytes fuel w ≤ fuel ∧ (∀ i, 8 * significantBytes fuel w ≤ i → w.getLsbD i = false) ∧
    (w ≠ 0 → 0 < significantBytes fuel w ∧ ∃ i < 8, w.getLsbD (8 * (significantBytes fuel w - 1) + i) = true) := by
  induction fuel generalizing w with
  | zero =>
      refine ⟨le_rfl, hw, fun hne => absurd ?_ hne⟩
      exact BitVec.eq_of_getLsbD_eq fun i _ => by simp [hw i (by omega)]
  | succ fuel ih =>
      rw [significantBytes]
      split
      case isTrue hzero => simp [hzero]
      case isFalse hne =>
        obtain ⟨hle, hhigh, hone⟩ := ih (w >>> 8) fun i hi => by
          rw [BitVec.getLsbD_ushiftRight]
          exact hw _ (by omega)
        have hshift : ∀ i, 8 ≤ i → w.getLsbD i = (w >>> 8).getLsbD (i - 8) := fun i hi => by
          rw [BitVec.getLsbD_ushiftRight]
          congr 1
          omega
        refine ⟨by omega, fun i hi => ?_, fun _ => ⟨by omega, ?_⟩⟩
        · rw [hshift i (by omega)]
          exact hhigh _ (by omega)
        · by_cases hrest : w >>> 8 = 0
          · -- the bits from 8 on are zero, so one of the first byte is not
            by_contra hnone
            have hnothing : significantBytes fuel (w >>> 8) = 0 := by
              rw [hrest]
              cases fuel <;> simp [significantBytes]
            rw [hnothing] at hnone
            push Not at hnone
            refine hne (BitVec.eq_of_getLsbD_eq fun i _ => ?_)
            by_cases hlow : i < 8
            · simpa using hnone i hlow
            · rw [hshift i (by omega), hrest]
              simp
          · obtain ⟨hpos, i, hi, hbit⟩ := hone hrest
            refine ⟨i, hi, ?_⟩
            rw [hshift _ (by omega), ← hbit]
            congr 1
            omega

end Bytes

theorem takeWhile_zero_spec (words : List Word32) :
    (∀ index < (words.takeWhile (· = 0)).length, words.getD index 0 = 0) ∧
    (words.takeWhile (· = 0)).length ≤ words.length ∧
    ∀ first rest, words.drop (words.takeWhile (· = 0)).length = first :: rest → first ≠ 0 := by
  induction words with
  | nil => simp
  | cons w words ih =>
      obtain ⟨hzero, hle, hfirst⟩ := ih
      by_cases hw : w = 0
      · subst hw
        refine ⟨fun index hindex => ?_, by simpa using hle, by simpa using hfirst⟩
        cases index with
        | zero => rfl
        | succ index => exact hzero index (by simpa using hindex)
      · have hnil : (w :: words).takeWhile (· = 0) = [] := List.takeWhile_cons_of_neg (by simpa using hw)
        rw [hnil, List.length_nil]
        refine ⟨fun index hindex => by omega, by omega, fun first rest heq => ?_⟩
        cases heq
        exact hw

structure WellFormed (block : PatternBlock) : Prop where
  offset_nonneg : 0 ≤ block.offset
  length_eq : block.maskvec.length = block.valvec.length
  val_le : ∀ position, bitAt block.valvec position = true → bitAt block.maskvec position = true

/-- The bits that the pattern fixes, and their values, at positions counted from the start of what is matched. -/
def maskBit (block : PatternBlock) (position : Int) : Bool := bitAt block.maskvec (position - 8 * block.offset)

def valBit (block : PatternBlock) (position : Int) : Bool := bitAt block.valvec (position - 8 * block.offset)

theorem val_false {block : PatternBlock} (h : block.WellFormed) {position : Int}
    (hmask : bitAt block.maskvec position = false) : bitAt block.valvec position = false := by
  by_contra hval
  have := h.val_le position (by simpa using hval)
  simp [hmask] at this

theorem shiftWords_zero (words : List Word32) : shiftWords 0 words = words := by
  induction words using shiftWords.induct with
  | case1 => rfl
  | case2 w => simp [shiftWords]
  | case3 w w' ws ih => simp [shiftWords, shiftRight_of_le w' 32 le_rfl, ih]

/-- The first word holds the first byte, and nothing before it. -/
theorem first_word_spec {first : Word32} (hne : first ≠ 0) :
    4 - significantBytes 4 first < 4 ∧ (∀ i < 8 * (4 - significantBytes 4 first), first.getMsbD i = false) ∧
    ∃ i < 8, first.getMsbD (8 * (4 - significantBytes 4 first) + i) = true := by
  obtain ⟨hfour, hhigh, hone⟩ := significantBytes_spec 4 first fun i hi => BitVec.getLsbD_of_ge _ _ (by omega)
  obtain ⟨hpos, i, hi, hbit⟩ := hone hne
  refine ⟨by omega, fun j hj => ?_, 7 - i, by omega, ?_⟩
  · rw [BitVec.getMsbD_eq_getLsbD, hhigh _ (by omega), Bool.and_false]
  · have hindex : 32 - 1 - (8 * (4 - significantBytes 4 first) + (7 - i)) = 8 * (significantBytes 4 first - 1) + i := by
      omega
    rw [BitVec.getMsbD_eq_getLsbD, hindex, hbit, decide_eq_true (by omega), Bool.and_true]

theorem cutFront_of_cons {block : PatternBlock} {cut : Nat} {first : Word32} {rest : List Word32}
    (hcut : (block.maskvec.takeWhile (· = 0)).length = cut) (hrest : block.maskvec.drop cut = first :: rest) :
    block.cutFront = { block with
      offset := block.offset + 4 * cut + (4 - significantBytes 4 first : Nat)
      maskvec := shiftWords (4 - significantBytes 4 first) (block.maskvec.drop cut)
      valvec := shiftWords (4 - significantBytes 4 first) (block.valvec.drop cut) } := by
  by_cases hnone : 4 - significantBytes 4 first = 0
  · simp only [cutFront, hcut, hrest, hnone, shiftWords_zero]
    simp
  · simp only [cutFront, hcut, hrest, if_neg hnone]

/-- `cutFront` moves the offset over bytes that are zero. -/
theorem cutFront_spec {block : PatternBlock} (h : block.WellFormed) :
    ∃ bytes : Nat, block.cutFront.offset = block.offset + bytes ∧
      block.cutFront.nonzerosize = block.nonzerosize ∧
      (∀ position, bitAt block.cutFront.maskvec (position - (8 * bytes : Nat)) = bitAt block.maskvec position) ∧
      (∀ position, bitAt block.cutFront.valvec (position - (8 * bytes : Nat)) = bitAt block.valvec position) ∧
      block.cutFront.maskvec.length = block.cutFront.valvec.length ∧
      4 * block.cutFront.maskvec.length + bytes ≤ 4 * block.maskvec.length + 3 ∧
      (block.cutFront.maskvec ≠ [] → ∃ i : Nat, i < 8 ∧ bitAt block.cutFront.maskvec i = true) := by
  obtain ⟨hzero, hle, hfirst⟩ := takeWhile_zero_spec block.maskvec
  generalize hcut : (block.maskvec.takeWhile (· = 0)).length = cut at hzero hle hfirst
  have hfront : ∀ position < ((32 * cut : Nat) : Int), bitAt block.maskvec position = false := by
    intro position hlt
    rcases position_cases position with hneg | ⟨index, i, hi, rfl⟩
    · exact bitAt_of_neg hneg
    · rw [bitAt_eq index i hi rfl, hzero index (by omega)]
      exact BitVec.getMsbD_zero
  have hdrop : ∀ words : List Word32, ∀ position : Int, 0 ≤ position →
      bitAt (words.drop cut) position = bitAt words (position + (32 * cut : Nat)) := fun words position hpos => by
    rw [bitAt_drop cut hpos]
    congr 1
  have hlength_eq := h.length_eq
  cases hrest : block.maskvec.drop cut with
  | nil =>
      have hres : block.cutFront = { block with
          offset := block.offset + 4 * cut
          maskvec := []
          valvec := block.valvec.drop cut } := by
        simp only [cutFront, hcut, hrest]
      have hbits : 8 * (4 * cut) = 32 * cut := by omega
      have hlength := congrArg List.length hrest
      rw [List.length_drop, List.length_nil] at hlength
      refine ⟨4 * cut, ?_⟩
      rw [hres, hbits]
      refine ⟨by simp, rfl, fun position => ?_, fun position => ?_, ?_, by simp; omega, fun hne => absurd rfl hne⟩
      · rw [← hrest]
        exact bitAt_front (hdrop _) hfront position
      · exact bitAt_front (hdrop _) (fun position hlt => val_false h (hfront position hlt)) position
      · rw [List.length_drop, List.length_nil]
        omega
  | cons first rest =>
      obtain ⟨hsuboff, hbefore, i, hi, hbit⟩ := first_word_spec (hfirst first rest hrest)
      have hres := cutFront_of_cons hcut hrest
      generalize 4 - significantBytes 4 first = suboff at hsuboff hbefore hbit hres
      have hlength := congrArg List.length hrest
      rw [List.length_drop, List.length_cons] at hlength
      have hskip : ∀ position < ((8 * (4 * cut + suboff) : Nat) : Int), bitAt block.maskvec position = false := by
        intro position hlt
        by_cases hfar : position < (32 * cut : Nat)
        · exact hfront position hfar
        · have hword := hdrop block.maskvec (position - (32 * cut : Nat)) (by omega)
          rw [Int.sub_add_cancel] at hword
          rw [← hword, hrest, bitAt_eq 0 (position - (32 * cut : Nat)).toNat (by omega) (by omega), List.getD_cons_zero]
          exact hbefore _ (by omega)
      have hmove : ∀ words : List Word32, ∀ position : Int, 0 ≤ position →
          bitAt (shiftWords suboff (words.drop cut)) position = bitAt words (position + (8 * (4 * cut + suboff) : Nat)) := by
        intro words position hnonneg
        rw [bitAt_shiftWords hsuboff hnonneg, hdrop _ _ (by omega)]
        congr 1
        omega
      refine ⟨4 * cut + suboff, ?_⟩
      rw [hres]
      refine ⟨by push_cast; omega, rfl, bitAt_front (hmove _) hskip,
        bitAt_front (hmove _) fun position hlt => val_false h (hskip position hlt), ?_, ?_, fun _ => ⟨i, hi, ?_⟩⟩
      · rw [length_shiftWords, length_shiftWords, List.length_drop, List.length_drop, hlength_eq]
      · rw [length_shiftWords, List.length_drop]
        omega
      · rw [bitAt_shiftWords hsuboff (by omega), hrest, bitAt_eq 0 (8 * suboff + i) (by omega) (by omega),
          List.getD_cons_zero]
        exact hbit

theorem cutFront_wellFormed {block : PatternBlock} (h : block.WellFormed) : block.cutFront.WellFormed := by
  obtain ⟨bytes, hoffset, _, hmask, hval, hlength, _⟩ := cutFront_spec h
  refine ⟨by have := h.offset_nonneg; omega, hlength, fun position hbit => ?_⟩
  have hposition : position = position + (8 * bytes : Nat) - (8 * bytes : Nat) := by omega
  rw [hposition, hval] at hbit
  rw [hposition, hmask]
  exact h.val_le _ hbit

theorem cutBack_spec {block : PatternBlock} (h : block.WellFormed) :
    (∀ position, bitAt block.cutBack.maskvec position = bitAt block.maskvec position) ∧
    (∀ position, bitAt block.cutBack.valvec position = bitAt block.valvec position) ∧
    block.cutBack.maskvec.length = block.cutBack.valvec.length ∧
    block.cutBack.maskvec.length ≤ block.maskvec.length ∧
    ∀ last, block.cutBack.maskvec.getLast? = some last → last ≠ 0 := by
  have hmask : block.cutBack.maskvec = block.maskvec.rdropWhile (· = 0) := take_length_rdropWhile block.maskvec
  have hle := (List.rdropWhile_prefix (fun w : Word32 => decide (w = 0)) block.maskvec).length_le
  refine ⟨fun position => ?_, fun position => ?_, ?_, ?_, fun last hlast => ?_⟩
  · rw [hmask, bitAt_rdropWhile]
  · by_cases hlt : position < 32 * (block.maskvec.rdropWhile (· = 0)).length
    · exact bitAt_take_of_lt hlt
    · have hzero : bitAt block.maskvec position = false := by
        rw [← bitAt_rdropWhile]
        exact bitAt_of_length_le (by omega)
      rw [val_false h hzero]
      refine bitAt_of_length_le ?_
      have := List.length_take_le (block.maskvec.rdropWhile (· = 0)).length block.valvec
      simp only [cutBack]
      omega
  · have := h.length_eq
    simp only [cutBack, List.length_take]
    omega
  · rw [hmask]
    exact hle
  · rw [hmask] at hlast
    have hne : block.maskvec.rdropWhile (· = 0) ≠ [] := by
      intro hnil
      rw [hnil] at hlast
      cases hlast
    have hnot := List.rdropWhile_last_not (fun w : Word32 => decide (w = 0)) block.maskvec hne
    rw [List.getLast?_eq_some_getLast hne] at hlast
    cases hlast
    simpa using hnot

/-- What `normalize` establishes: the mask starts in the first byte of the block and ends in its last one. -/
structure Normalized (block : PatternBlock) : Prop extends WellFormed block where
  cleared : block.nonzerosize ≤ 0 → block.maskvec = []
  words : 0 < block.nonzerosize →
    block.nonzerosize ≤ 4 * block.maskvec.length ∧ 4 * block.maskvec.length < block.nonzerosize + 4
  first : 0 < block.nonzerosize → ∃ i : Nat, i < 8 ∧ block.maskBit (8 * block.offset + i) = true
  last : 0 < block.nonzerosize → ∃ i : Nat, i < 8 ∧ block.maskBit (8 * (block.getLength - 1) + i) = true
  covered : ∀ position, block.maskBit position = true →
    8 * block.offset ≤ position ∧ position < 8 * block.getLength

theorem normalized_of_empty {block : PatternBlock} (hoffset : block.offset = 0) (hsize : block.nonzerosize ≤ 0)
    (hmask : block.maskvec = []) (hval : block.valvec = []) : block.Normalized where
  offset_nonneg := by omega
  length_eq := by rw [hmask, hval]
  val_le := by simp [hval, bitAt_nil]
  cleared := fun _ => hmask
  words := fun hpos => by omega
  first := fun hpos => by omega
  last := fun hpos => by omega
  covered := by simp [maskBit, hmask, bitAt_nil]

/-- The last word of the mask holds the last byte, and nothing behind it. -/
theorem last_word_spec {words : List Word32} {last : Word32} (hlast : words.getLast? = some last) (hne : last ≠ 0) :
    trailingZeroBytes 4 last < 4 ∧
    (∃ i : Nat, i < 8 ∧ bitAt words (8 * (4 * words.length - trailingZeroBytes 4 last - 1) + i) = true) ∧
    ∀ position, bitAt words position = true →
      0 ≤ position ∧ position < 8 * (4 * words.length - trailingZeroBytes 4 last) := by
  obtain ⟨hzero, hone⟩ := trailingZeroBytes_spec 4 last
  have hlt : trailingZeroBytes 4 last < 4 := by
    by_contra hge
    exact hne (BitVec.eq_of_getLsbD_eq fun i hi => (hzero i (by omega)).trans BitVec.getLsbD_zero.symm)
  obtain ⟨i, hi, hbit⟩ := hone hlt
  have hpos : 0 < words.length := by
    cases words with
    | nil => cases hlast
    | cons w words => exact Nat.succ_pos _
  have hword : words.getD (words.length - 1) 0 = last := by
    rw [List.getLast?_eq_getElem?] at hlast
    rw [List.getD_eq_getElem?_getD, hlast, Option.getD_some]
  refine ⟨hlt, ⟨7 - i, by omega, ?_⟩, fun position hbit => ?_⟩
  · rw [bitAt_eq (words.length - 1) (31 - (8 * trailingZeroBytes 4 last + i)) (by omega) (by omega), hword,
      BitVec.getMsbD_eq_getLsbD]
    have hindex : 32 - 1 - (31 - (8 * trailingZeroBytes 4 last + i)) = 8 * trailingZeroBytes 4 last + i := by omega
    rw [hindex, hbit, decide_eq_true (by omega), Bool.and_true]
  · rcases position_cases position with hneg | ⟨index, j, hj, rfl⟩
    · rw [bitAt_of_neg hneg] at hbit
      cases hbit
    · by_contra hout
      have hindex : index = words.length - 1 := by
        by_contra hother
        rw [bitAt_of_length_le (by omega)] at hbit
        cases hbit
      rw [bitAt_eq index j hj rfl, hindex, hword, BitVec.getMsbD_eq_getLsbD, hzero _ (by omega), Bool.and_false] at hbit
      cases hbit

/-- `normalize` keeps every fixed bit and its value at its position. -/
theorem normalize_spec {block : PatternBlock} (h : block.WellFormed) (hpos : 0 < block.nonzerosize) :
    block.normalize.Normalized ∧ 0 ≤ block.normalize.nonzerosize ∧
    (∀ position, block.normalize.maskBit position = block.maskBit position) ∧
    (∀ position, block.normalize.valBit position = block.valBit position) ∧
    block.normalize.offset + 4 * block.normalize.maskvec.length ≤ block.offset + 4 * block.maskvec.length + 3 := by
  obtain ⟨bytes, hoffset, _, hmask, hval, hlength, hbound, hfirst⟩ := cutFront_spec h
  have hfront := cutFront_wellFormed h
  have hmaskBit : ∀ position, bitAt block.cutFront.maskvec (position - 8 * block.cutFront.offset) =
      block.maskBit position := fun position => by
    rw [maskBit, ← hmask]
    congr 1
    omega
  have hvalBit : ∀ position, bitAt block.cutFront.valvec (position - 8 * block.cutFront.offset) =
      block.valBit position := fun position => by
    rw [valBit, ← hval]
    congr 1
    omega
  have hoffset_nonneg := h.offset_nonneg
  have hnot : ¬ block.nonzerosize ≤ 0 := by omega
  by_cases hempty : block.cutFront.maskvec = []
  · have hval_nil : block.cutFront.valvec = [] := List.length_eq_zero_iff.1 (by rw [← hlength, hempty]; rfl)
    have hres : block.normalize = ⟨0, 0, [], []⟩ := by
      simp only [normalize, if_neg hnot, if_pos hempty]
      simp [hempty, hval_nil]
    rw [hres]
    refine ⟨normalized_of_empty rfl (Int.le_refl 0) rfl rfl, Int.le_refl 0, fun position => ?_, fun position => ?_, ?_⟩
    · rw [← hmaskBit, maskBit, hempty, bitAt_nil, bitAt_nil]
    · rw [← hvalBit, valBit, hval_nil, bitAt_nil, bitAt_nil]
    · simp only [List.length_nil]
      omega
  · obtain ⟨hmask', hval', hlength', hle, hlast⟩ := cutBack_spec hfront
    obtain ⟨i, hi, hbit⟩ := hfirst hempty
    have hne : block.cutFront.cutBack.maskvec ≠ [] := by
      intro hnil
      rw [← hmask', hnil, bitAt_nil] at hbit
      cases hbit
    obtain ⟨last, hsome⟩ : ∃ last, block.cutFront.cutBack.maskvec.getLast? = some last :=
      ⟨_, List.getLast?_eq_some_getLast hne⟩
    have hres : block.normalize = { block.cutFront.cutBack with
        nonzerosize := 4 * block.cutFront.cutBack.maskvec.length - trailingZeroBytes 4 last } := by
      simp only [normalize, if_neg hnot, if_neg hempty, hsome]
    obtain ⟨hlt, ⟨j, hj, hend⟩, hcovered⟩ := last_word_spec hsome (hlast last hsome)
    have hsize : 0 < block.cutFront.cutBack.maskvec.length := List.length_pos_iff.2 hne
    have hmaskBit' : ∀ position, block.normalize.maskBit position =
        bitAt block.cutFront.cutBack.maskvec (position - 8 * block.cutFront.offset) := fun position => by
      rw [hres]
      rfl
    have hlen : block.normalize.getLength = block.cutFront.offset +
        (4 * block.cutFront.cutBack.maskvec.length - trailingZeroBytes 4 last) := by
      rw [hres]
      rfl
    have hoff : block.normalize.offset = block.cutFront.offset := by
      rw [hres]
      rfl
    refine ⟨?_, by rw [hres]; dsimp only; omega, fun position => ?_, fun position => ?_, ?_⟩
    · refine ⟨⟨?_, ?_, ?_⟩, ?_, ?_, fun _ => ⟨i, hi, ?_⟩, fun _ => ⟨j, hj, ?_⟩, fun position hbit => ?_⟩
      · rw [hoff]
        exact hfront.offset_nonneg
      · rw [hres]
        exact hlength'
      · intro position hbit
        rw [hres] at hbit ⊢
        rw [hval'] at hbit
        rw [hmask']
        exact hfront.val_le position hbit
      · intro hle
        rw [hres] at hle
        dsimp only at hle
        omega
      · intro _
        rw [hres]
        dsimp only
        omega
      · rw [hmaskBit', hoff, hmask', ← hbit]
        congr 1
        omega
      · rw [hmaskBit', hlen, ← hend]
        congr 1
        omega
      · rw [hmaskBit'] at hbit
        have := hcovered _ hbit
        rw [hlen, hoff]
        omega
    · rw [hmaskBit', hmask', hmaskBit]
    · rw [← hvalBit, ← hval', hres]
      rfl
    · rw [hres]
      have : block.cutFront.cutBack.offset = block.cutFront.offset := rfl
      dsimp only
      omega

/-- The strings of bits that the pattern describes. -/
def Holds (block : PatternBlock) (bit : Int → Bool) : Prop :=
  if 0 < block.nonzerosize then ∀ position, block.maskBit position = true → block.valBit position = bit position
  else block.nonzerosize = 0

theorem bitAt_cons (w : Word32) (words : List Word32) (position : Int) (h : 0 ≤ position) :
    bitAt (w :: words) position = if position < 32 then w.getMsbD position.toNat else bitAt words (position - 32) := by
  rcases position_cases position with hneg | ⟨index, i, hi, rfl⟩
  · omega
  · rw [bitAt_eq index i hi rfl]
    cases index with
    | zero =>
        have hsmall : 32 * ((0 : Nat) : Int) + i < 32 := by omega
        have hposition : (32 * ((0 : Nat) : Int) + i).toNat = i := by omega
        rw [if_pos hsmall, hposition, List.getD_cons_zero]
    | succ index =>
        have hlarge : ¬ 32 * ((index + 1 : Nat) : Int) + i < 32 := by omega
        rw [if_neg hlarge, bitAt_eq index i hi (by omega), List.getD_cons_succ]

theorem word_matches_iff {mask val data : Word32} (hval : ∀ k < 32, val.getMsbD k = true → mask.getMsbD k = true) :
    mask &&& data = val ↔ ∀ k < 32, mask.getMsbD k = true → val.getMsbD k = data.getMsbD k := by
  constructor
  · rintro rfl k hk hmask
    rw [BitVec.getMsbD_and, hmask, Bool.true_and]
  · intro h
    apply BitVec.eq_of_getMsbD_eq
    intro k hk
    rw [BitVec.getMsbD_and]
    cases hmask : mask.getMsbD k with
    | true => rw [h k hk hmask, Bool.true_and]
    | false =>
        cases hv : val.getMsbD k with
        | true => exact absurd (hval k hk hv) (by simp [hmask])
        | false => rfl

/-- The bits of the first word and those of the words behind it. -/
theorem fixed_cons_iff (mask val : Word32) (maskvec valvec : List Word32) (bit : Int → Bool) (off : Int) :
    (∀ position, bitAt (mask :: maskvec) position = true →
      bitAt (val :: valvec) position = bit (8 * off + position)) ↔
    (∀ k < 32, mask.getMsbD k = true → val.getMsbD k = bit (8 * off + k)) ∧
      ∀ position, bitAt maskvec position = true → bitAt valvec position = bit (8 * (off + 4) + position) := by
  constructor
  · intro h
    refine ⟨fun k hk hbit => ?_, fun position hbit => ?_⟩
    · have hword := h k
      rw [bitAt_eq 0 k hk (by omega), bitAt_eq 0 k hk (by omega)] at hword
      exact hword hbit
    · by_cases hneg : position < 0
      · rw [bitAt_of_neg hneg] at hbit
        cases hbit
      · have hnext := h (position + 32)
        rw [bitAt_cons _ _ _ (by omega), bitAt_cons _ _ _ (by omega), if_neg (by omega), if_neg (by omega),
          Int.add_sub_cancel] at hnext
        rw [hnext hbit]
        congr 1
        omega
  · rintro ⟨hfirst, hothers⟩ position hbit
    by_cases hneg : position < 0
    · rw [bitAt_of_neg hneg] at hbit
      cases hbit
    · rw [bitAt_cons _ _ _ (by omega)] at hbit ⊢
      split at hbit
      case isTrue hlt =>
        rw [if_pos hlt, hfirst _ (by omega) hbit, Int.toNat_of_nonneg (by omega)]
      case isFalse hlt =>
        rw [if_neg hlt, hothers _ hbit]
        congr 1
        omega

/-- Where every word can be read, the words match when all of the fixed bits have their values. -/
theorem matchWords_spec {bit : Int → Bool} {read : Int → Except SleighError Word32} :
    ∀ {maskvec valvec : List Word32} {off : Int}, maskvec.length = valvec.length →
      (∀ position, bitAt valvec position = true → bitAt maskvec position = true) →
      (∀ index < maskvec.length, ∃ data, read (off + 4 * index) = .ok data ∧
        IsSlice bit (8 * (off + 4 * index)) 32 data) →
      ∃ result, matchWords read (maskvec.zip valvec) off = .ok result ∧
        (result = true ↔ ∀ position, bitAt maskvec position = true →
          bitAt valvec position = bit (8 * off + position))
  | [], valvec, off, _, _, _ => ⟨true, rfl, by simp [bitAt_nil]⟩
  | mask :: maskvec, [], off, hlength, _, _ => by cases hlength
  | mask :: maskvec, val :: valvec, off, hlength, hval, hread => by
      obtain ⟨data, hdata, hslice⟩ := hread 0 (Nat.succ_pos _)
      have hword : ∀ k < 32, val.getMsbD k = true → mask.getMsbD k = true := by
        intro k hk hbit
        have hposition := hval k
        rw [bitAt_eq 0 k hk (by omega), bitAt_eq 0 k hk (by omega)] at hposition
        exact hposition hbit
      have hrest : ∀ position, bitAt valvec position = true → bitAt maskvec position = true := by
        intro position hbit
        by_cases hneg : position < 0
        · rw [bitAt_of_neg hneg] at hbit
          cases hbit
        · have hposition := hval (position + 32)
          rw [bitAt_cons _ _ _ (by omega), bitAt_cons _ _ _ (by omega), if_neg (by omega), if_neg (by omega),
            Int.add_sub_cancel] at hposition
          exact hposition hbit
      have hhead : mask &&& data = val ↔ ∀ k < 32, mask.getMsbD k = true → val.getMsbD k = bit (8 * off + k) := by
        rw [word_matches_iff hword]
        refine forall₂_congr fun k hk => ?_
        have hin : (32 : Int) ≤ k + 32 := by omega
        have hposition : 8 * (off + 4 * (0 : Nat)) + 32 - 32 + (k : Int) = 8 * off + k := by omega
        rw [hslice k hk, hposition, decide_eq_true hin, Bool.true_and]
      obtain ⟨result, hresult, htail⟩ := @matchWords_spec bit read maskvec valvec (off + 4)
        (by simpa using hlength) hrest fun index hindex => by
          have hnext := hread (index + 1) (by simpa using hindex)
          have hmove : off + 4 * ((index + 1 : Nat) : Int) = off + 4 + 4 * index := by omega
          rwa [hmove] at hnext
      have hsplit := fixed_cons_iff mask val maskvec valvec bit off
      rw [← hhead] at hsplit
      have hdata' : read off = .ok data := by simpa using hdata
      by_cases hmatch : mask &&& data = val
      · refine ⟨result, ?_, ?_⟩
        · simp only [List.zip_cons_cons, matchWords, hdata', bind, Except.bind, hmatch, ne_eq, not_true_eq_false, if_false]
          exact hresult
        · rw [hsplit, htail]
          simp [hmatch]
      · refine ⟨false, ?_, ?_⟩
        · simp only [List.zip_cons_cons, matchWords, hdata', bind, Except.bind, ne_eq, hmatch, not_false_eq_true, if_true]
          rfl
        · rw [hsplit]
          simp [hmatch]

theorem matchWords_holds {block : PatternBlock} (h : block.WellFormed) (hpos : 0 < block.nonzerosize)
    {bit : Int → Bool} {read : Int → Except SleighError Word32}
    (hread : ∀ index < block.maskvec.length, ∃ data, read (block.offset + 4 * index) = .ok data ∧
      IsSlice bit (8 * (block.offset + 4 * index)) 32 data) :
    ∃ result, matchWords read (block.maskvec.zip block.valvec) block.offset = .ok result ∧
      (result = true ↔ block.Holds bit) := by
  obtain ⟨result, hresult, hiff⟩ := matchWords_spec h.length_eq h.val_le hread
  refine ⟨result, hresult, hiff.trans ?_⟩
  rw [Holds, if_pos hpos]
  constructor
  · intro hbits position hmask
    rw [valBit, hbits _ hmask]
    congr 1
    omega
  · intro hbits position hmask
    have := hbits (position + 8 * block.offset)
    rw [maskBit, valBit, Int.add_sub_cancel] at this
    rw [this hmask]
    congr 1
    omega

/-- A block is compared with the context exactly. -/
theorem isContextMatch_spec {block : PatternBlock} (h : block.WellFormed) (ctx : ParserContext) :
    ∃ result, block.isContextMatch ctx = .ok result ∧ (result = true ↔ block.Holds ctx.contextBit) := by
  rw [isContextMatch]
  split
  case isTrue hle =>
    refine ⟨_, rfl, ?_⟩
    rw [Holds, if_neg (by omega), decide_eq_true_iff]
  case isFalse hle =>
    refine matchWords_holds h (by omega) fun index hindex => ⟨_, rfl, ?_⟩
    obtain ⟨start, hstart⟩ := Int.eq_ofNat_of_zero_le (a := block.offset + 4 * index) (by have := h.offset_nonneg; omega)
    rw [hstart, show (4 : Int) = (4 : Nat) from rfl, ParserContext.getContextBytes_eq_getContextBits]
    exact ctx.getContextBits_isSlice (8 * start) 32 (by omega) le_rfl

/-- A block whose words start in the longest instruction is compared with the instruction exactly. -/
theorem isInstructionMatch_spec {block : PatternBlock} (h : block.WellFormed) (ctx : ParserContext) {off : Nat}
    (hfits : off + block.offset + 4 * block.maskvec.length ≤ ParserContext.maxInstructionLen + 3) :
    ∃ result, block.isInstructionMatch ctx off = .ok result ∧ (result = true ↔ block.Holds (ctx.instructionBit off)) := by
  rw [isInstructionMatch]
  split
  case isTrue hle =>
    refine ⟨_, rfl, ?_⟩
    rw [Holds, if_neg (by omega), decide_eq_true_iff]
  case isFalse hle =>
    refine matchWords_holds h (by omega) fun index hindex => ?_
    obtain ⟨start, hstart⟩ := Int.eq_ofNat_of_zero_le (a := block.offset + 4 * index) (by have := h.offset_nonneg; omega)
    rw [ParserContext.maxInstructionLen] at hfits
    have hnot : ¬ ParserContext.maxInstructionLen ≤ off + start := by
      rw [ParserContext.maxInstructionLen]
      omega
    refine ⟨ctx.gather (off + start) 4, ?_, ?_⟩
    · have hbytes := ctx.getInstructionBytes_eq start 4 off (by omega)
      rw [if_neg hnot] at hbytes
      rw [hstart]
      exact hbytes
    · rw [hstart]
      exact ctx.gather_isSlice_bytes start 4 off

theorem normalize_holds_iff {block : PatternBlock} (h : block.WellFormed) (bit : Int → Bool) :
    block.normalize.Holds bit ↔ block.Holds bit := by
  by_cases hpos : 0 < block.nonzerosize
  · obtain ⟨hnormalized, hnonneg, hmask, hval, _⟩ := normalize_spec h hpos
    rw [Holds, Holds, if_pos hpos]
    split
    case isTrue _ => simp only [hmask, hval]
    case isFalse hle =>
      -- nothing is fixed when the size becomes zero
      have hempty := hnormalized.cleared (by omega)
      refine ⟨fun _ position hbit => ?_, fun _ => by omega⟩
      rw [← hmask, maskBit, hempty, bitAt_nil] at hbit
      cases hbit
  · have hres : block.normalize = ⟨0, block.nonzerosize, [], []⟩ := by rw [normalize, if_pos (by omega)]
    rw [Holds, Holds, hres, if_neg hpos, if_neg hpos]

theorem normalize_normalized {block : PatternBlock} (h : block.WellFormed) : block.normalize.Normalized := by
  by_cases hpos : 0 < block.nonzerosize
  · exact (normalize_spec h hpos).1
  · have hres : block.normalize = ⟨0, block.nonzerosize, [], []⟩ := by rw [normalize, if_pos (by omega)]
    rw [hres]
    exact normalized_of_empty rfl (by dsimp only; omega) rfl rfl

theorem getMask_isSlice {block : PatternBlock} (hoffset : 0 ≤ block.offset)
    (hend : 8 * (block.offset + 4 * block.maskvec.length) ≤ 2 ^ 31) {startbit size : Nat} (hpos : 0 < size)
    (hsize : size ≤ 32) (hhigh : startbit + size ≤ 2 ^ 31) :
    IsSlice block.maskBit startbit size (block.getMask startbit size) :=
  getBits_isSlice block.maskvec hpos hsize (by omega) hoffset hhigh (by omega)

theorem getValue_isSlice {block : PatternBlock} (h : block.WellFormed)
    (hend : 8 * (block.offset + 4 * block.maskvec.length) ≤ 2 ^ 31) {startbit size : Nat} (hpos : 0 < size)
    (hsize : size ≤ 32) (hhigh : startbit + size ≤ 2 ^ 31) :
    IsSlice block.valBit startbit size (block.getValue startbit size) := by
  have := h.offset_nonneg
  have := h.length_eq
  exact getBits_isSlice block.valvec hpos hsize (by omega) h.offset_nonneg hhigh (by omega)

/-- The bits of a string of the pattern have the value that the pattern gives for them. -/
theorem Holds.and_getMask {block : PatternBlock} {bit : Int → Bool} (hholds : block.Holds bit) (h : block.Normalized)
    (hend : 8 * (block.offset + 4 * block.maskvec.length) ≤ 2 ^ 31) {startbit size : Nat} (hpos : 0 < size)
    (hsize : size ≤ 32) (hhigh : startbit + size ≤ 2 ^ 31) {data : Word32} (hdata : IsSlice bit startbit size data) :
    data &&& block.getMask startbit size = block.getValue startbit size := by
  apply BitVec.eq_of_getMsbD_eq
  intro k hk
  rw [BitVec.getMsbD_and, hdata k hk, getMask_isSlice h.offset_nonneg hend hpos hsize hhigh k hk,
    getValue_isSlice h.toWellFormed hend hpos hsize hhigh k hk]
  cases hmask : block.maskBit (startbit + size - 32 + k) with
  | false => rw [Bool.and_false, Bool.and_false, valBit, val_false h.toWellFormed hmask, Bool.and_false]
  | true =>
      have hnonzero : 0 < block.nonzerosize := by
        by_contra hle
        rw [maskBit, h.cleared (by omega), bitAt_nil] at hmask
        cases hmask
      rw [Holds, if_pos hnonzero] at hholds
      rw [hholds _ hmask, Bool.and_true]
      cases decide ((32 : Int) ≤ k + size) <;> simp

def sampleRaw (mask val : Word32) : PatternBlock := ⟨0, 4, [mask], [val]⟩

theorem sampleRaw_wellFormed {mask val : Word32}
    (h : ∀ k < 32, val.getMsbD k = true → mask.getMsbD k = true) : (sampleRaw mask val).WellFormed where
  offset_nonneg := Int.le_refl 0
  length_eq := rfl
  val_le := by
    intro position hbit
    rcases position_cases position with hneg | ⟨index, i, hi, rfl⟩
    · rw [bitAt_of_neg hneg] at hbit
      cases hbit
    · rw [bitAt_eq index i hi rfl] at hbit ⊢
      cases index with
      | zero => exact h i hi hbit
      | succ index => simp [sampleRaw] at hbit

end PatternBlock

namespace DisjointPattern

def Holds (ctx : ParserContext) (off : Nat) : DisjointPattern → Prop
  | instruction block => block.Holds (ctx.instructionBit off)
  | context block => block.Holds ctx.contextBit
  | combine cblock instr => instr.Holds (ctx.instructionBit off) ∧ cblock.Holds ctx.contextBit

/-- The blocks are normalized, their positions are 32-bit numbers, and the words of the instruction start in its
longest form. -/
structure Fits (pattern : DisjointPattern) (off : Nat) : Prop where
  normalized : ∀ inContext block, pattern.getBlock inContext = some block → block.Normalized
  in_range : ∀ inContext block, pattern.getBlock inContext = some block →
    8 * (block.offset + 4 * block.maskvec.length) ≤ 2 ^ 31
  readable : ∀ block, pattern.getBlock false = some block →
    off + block.offset + 4 * block.maskvec.length ≤ ParserContext.maxInstructionLen + 3

theorem isMatch_spec {pattern : DisjointPattern} {off : Nat} (h : pattern.Fits off) (ctx : ParserContext) :
    ∃ result, pattern.isMatch ctx off = .ok result ∧ (result = true ↔ pattern.Holds ctx off) := by
  cases pattern with
  | instruction block =>
      exact PatternBlock.isInstructionMatch_spec (h.normalized false block rfl).toWellFormed ctx (h.readable block rfl)
  | context block => exact PatternBlock.isContextMatch_spec (h.normalized true block rfl).toWellFormed ctx
  | combine cblock instr =>
      obtain ⟨result, hresult, hiff⟩ := PatternBlock.isInstructionMatch_spec
        (h.normalized false instr rfl).toWellFormed ctx (h.readable instr rfl)
      obtain ⟨result', hresult', hiff'⟩ := PatternBlock.isContextMatch_spec (h.normalized true cblock rfl).toWellFormed ctx
      cases result with
      | false =>
          refine ⟨false, by simp [isMatch, hresult, bind, Except.bind, pure, Except.pure], ?_⟩
          simp only [Holds, ← hiff, Bool.false_eq_true, false_and]
      | true =>
          refine ⟨result', by simp [isMatch, hresult, hresult', bind, Except.bind], ?_⟩
          simp only [Holds, ← hiff, true_and, hiff']

/-- A pattern that holds is kept by the field that is read. -/
theorem Holds.and_getMask {pattern : DisjointPattern} {ctx : ParserContext} {off : Nat}
    (hholds : pattern.Holds ctx off) (h : pattern.Fits off) {inContext : Bool} {startbit size : Nat} (hpos : 0 < size)
    (hsize : size ≤ 32) (hhigh : startbit + size ≤ 2 ^ 31) {data : Word32}
    (hdata : IsSlice (if inContext then ctx.contextBit else ctx.instructionBit off) startbit size data) :
    data &&& pattern.getMask startbit size inContext = pattern.getValue startbit size inContext := by
  have hblock : ∀ block, pattern.getBlock inContext = some block →
      block.Holds (if inContext then ctx.contextBit else ctx.instructionBit off) := by
    intro block hsome
    cases pattern with
    | instruction block' => cases inContext <;> cases hsome; exact hholds
    | context block' => cases inContext <;> cases hsome; exact hholds
    | combine cblock instr =>
        cases inContext with
        | false => cases hsome; exact hholds.1
        | true => cases hsome; exact hholds.2
  rw [getMask, getValue]
  cases hsome : pattern.getBlock inContext with
  | none => exact BitVec.and_zero
  | some block =>
      exact (hblock block hsome).and_getMask (h.normalized inContext block hsome) (h.in_range inContext block hsome)
        hpos hsize hhigh hdata

end DisjointPattern

theorem IsSlice.toNat_lt {bit : Int → Bool} {start : Int} {size : Nat} {word : Word32} (h : IsSlice bit start size word) :
    word.toNat < 2 ^ size := by
  apply Nat.lt_pow_two_of_testBit
  intro i hi
  rw [BitVec.testBit_toNat, BitVec.getLsbD_eq_getMsbD]
  by_cases hlt : i < 32
  · have hout : ¬ (32 : Int) ≤ ((32 - 1 - i : Nat) : Int) + size := by omega
    rw [h _ (by omega), decide_eq_false hout, Bool.false_and, Bool.and_false]
  · rw [decide_eq_false hlt, Bool.false_and]

namespace DecisionNode

/-- The patterns that a child of a node has to know: those that agree with the value of the field. -/
def keeps (contextdecision : Bool) (startbit bitsize val : Nat) (x : DisjointPattern × Nat) : Bool :=
  BitVec.ofNat 32 val &&& x.1.getMask startbit bitsize contextdecision = x.1.getValue startbit bitsize contextdecision

/-- A tree splits a set of patterns: each child has the patterns that agree with its value, and in each leaf no
pattern stands before one that precedes it. -/
inductive Splits (off : Nat) (precedes : DisjointPattern × Nat → DisjointPattern × Nat → Prop) :
    List (DisjointPattern × Nat) → DecisionNode → Prop where
  | leaf {patterns list : List (DisjointPattern × Nat)} (children : List DecisionNode) (contextdecision : Bool)
      (startbit : Int) :
      list.Perm patterns → list.Pairwise (fun x y => ¬ precedes y x) →
      Splits off precedes patterns ⟨list, children, contextdecision, startbit, 0⟩
  | branch {patterns : List (DisjointPattern × Nat)} {children : List DecisionNode} {contextdecision : Bool}
      {startbit bitsize : Nat} (list : List (DisjointPattern × Nat)) :
      0 < bitsize → bitsize ≤ 32 → startbit + bitsize ≤ 2 ^ 31 →
      (contextdecision = false →
        startbit % 8 + bitsize ≤ 32 ∧ off + startbit / 8 < ParserContext.maxInstructionLen) →
      children.length = 2 ^ bitsize →
      (∀ val child, children[val]? = some child →
        Splits off precedes (patterns.filter (keeps contextdecision startbit bitsize val)) child) →
      Splits off precedes patterns ⟨list, children, contextdecision, startbit, bitsize⟩

theorem resolveChild_eq (ctx : ParserContext) (off : Nat) (addr : String) {children : List DecisionNode} {val : Nat}
    {child : DecisionNode} (hchild : children[val]? = some child) :
    resolveChild ctx off addr children val = resolve ctx off addr child := by
  induction children generalizing val with
  | nil => simp at hchild
  | cons first children ih => cases val with
      | zero =>
          cases hchild
          rw [resolveChild]
      | succ val =>
          rw [resolveChild]
          exact ih (by simpa using hchild)

/-- The leaf takes the first of its patterns that holds. -/
theorem resolveLeaf_spec (ctx : ParserContext) (off : Nat) (addr : String) {list : List (DisjointPattern × Nat)}
    (hfits : ∀ x ∈ list, x.1.Fits off) :
    (∃ front x rest, list = front ++ x :: rest ∧ (∀ y ∈ front, ¬ y.1.Holds ctx off) ∧ x.1.Holds ctx off ∧
      resolveLeaf ctx off addr list = .ok x.2) ∨
    ((∀ x ∈ list, ¬ x.1.Holds ctx off) ∧ resolveLeaf ctx off addr list = .error (unableToResolve addr)) := by
  induction list with
  | nil => exact .inr ⟨by simp, rfl⟩
  | cons x list ih =>
      obtain ⟨result, hresult, hiff⟩ := DisjointPattern.isMatch_spec (hfits x (by simp)) ctx
      cases result with
      | true =>
          refine .inl ⟨[], x, list, rfl, by simp, hiff.1 rfl, ?_⟩
          simp [resolveLeaf, hresult, bind, Except.bind, pure, Except.pure]
      | false =>
          have hnot : ¬ x.1.Holds ctx off := fun hholds => by simpa using hiff.2 hholds
          have hstep : resolveLeaf ctx off addr (x :: list) = resolveLeaf ctx off addr list := by
            simp [resolveLeaf, hresult, bind, Except.bind]
          rw [hstep]
          rcases ih fun y hy => hfits y (by simp [hy]) with ⟨front, y, rest, rfl, hfront, hy, hres⟩ | ⟨hnone, hres⟩
          · exact .inl ⟨x :: front, y, rest, rfl, by simpa [hnot] using hfront, hy, hres⟩
          · exact .inr ⟨by simpa [hnot] using hnone, hres⟩

/-- The field of a node is read exactly. -/
theorem field_isSlice (ctx : ParserContext) {off : Nat} {contextdecision : Bool} {startbit bitsize : Nat}
    (hpos : 0 < bitsize) (hsize : bitsize ≤ 32)
    (hinstr : contextdecision = false →
      startbit % 8 + bitsize ≤ 32 ∧ off + startbit / 8 < ParserContext.maxInstructionLen) :
    ∃ data, field ctx off contextdecision startbit bitsize = .ok data ∧
      IsSlice (if contextdecision then ctx.contextBit else ctx.instructionBit off) startbit bitsize data := by
  cases contextdecision with
  | true => exact ⟨_, rfl, ctx.getContextBits_isSlice startbit bitsize hpos hsize⟩
  | false =>
      obtain ⟨hfour, hlen⟩ := hinstr rfl
      exact ctx.getInstructionBits_isSlice hpos hfour hlen

/-- Walking the tree is the same as trying all of its patterns. -/
theorem resolve_selects {off : Nat} {precedes : DisjointPattern × Nat → DisjointPattern × Nat → Prop}
    {patterns : List (DisjointPattern × Nat)} {node : DecisionNode} (hsplits : Splits off precedes patterns node)
    (hfits : ∀ x ∈ patterns, x.1.Fits off) (ctx : ParserContext) (addr : String) :
    (∃ x ∈ patterns, resolve ctx off addr node = .ok x.2 ∧ x.1.Holds ctx off ∧
      ∀ y ∈ patterns, y.1.Holds ctx off → y = x ∨ ¬ precedes y x) ∨
    ((∀ x ∈ patterns, ¬ x.1.Holds ctx off) ∧ resolve ctx off addr node = .error (unableToResolve addr)) := by
  induction hsplits with
  | @leaf patterns list children contextdecision startbit hperm hsorted =>
      rw [resolve, if_pos rfl]
      rcases resolveLeaf_spec ctx off addr fun x hx => hfits x (hperm.mem_iff.1 hx) with
        ⟨front, x, rest, rfl, hfront, hx, hres⟩ | ⟨hnone, hres⟩
      · refine .inl ⟨x, hperm.mem_iff.1 (by simp), hres, hx, fun y hy hholds => ?_⟩
        have hmem := hperm.mem_iff.2 hy
        rw [List.mem_append, List.mem_cons] at hmem
        rcases hmem with hbefore | heq | hafter
        · exact absurd hholds (hfront y hbefore)
        · exact .inl heq
        · exact .inr ((List.pairwise_cons.1 (List.pairwise_append.1 hsorted).2.1).1 y hafter)
      · exact .inr ⟨fun x hx => hnone x (hperm.mem_iff.2 hx), hres⟩
  | @branch patterns children contextdecision startbit bitsize list hpos hsize hhigh hinstr hlength _ ih =>
      obtain ⟨data, hdata, hslice⟩ := field_isSlice ctx hpos hsize hinstr
      have hlt := hlength ▸ hslice.toNat_lt
      obtain ⟨child, hchild⟩ : ∃ child, children[data.toNat]? = some child := ⟨_, List.getElem?_eq_getElem hlt⟩
      have hres : resolve ctx off addr ⟨list, children, contextdecision, startbit, bitsize⟩ =
          resolve ctx off addr child := by
        rw [resolve, if_neg (by omega), hdata]
        exact resolveChild_eq ctx off addr hchild
      -- a pattern that holds agrees with the field, so the child knows it
      have hkept : ∀ x ∈ patterns, x.1.Holds ctx off → x ∈ patterns.filter
          (keeps contextdecision startbit bitsize data.toNat) := fun x hx hholds => by
        refine List.mem_filter.2 ⟨hx, ?_⟩
        rw [keeps, BitVec.ofNat_toNat, BitVec.setWidth_eq]
        exact decide_eq_true (hholds.and_getMask (hfits x hx) hpos hsize hhigh hslice)
      rw [hres]
      rcases ih data.toNat child hchild fun x hx => hfits x (List.mem_filter.1 hx).1 with
        ⟨x, hx, hok, hholds, hfirst⟩ | ⟨hnone, herror⟩
      · exact .inl ⟨x, (List.mem_filter.1 hx).1, hok, hholds, fun y hy hy' => hfirst y (hkept y hy hy') hy'⟩
      · exact .inr ⟨fun x hx hholds => hnone x (hkept x hx hholds) hholds, herror⟩

/-- An instruction that starts with a set bit, and anything else. -/
def sampleFirst : DisjointPattern × Nat := (.instruction (PatternBlock.sampleRaw 0x80000000 0x80000000).normalize, 0)

def sampleOther : DisjointPattern × Nat := (.instruction ⟨0, 0, [], []⟩, 1)

def sampleTree : DecisionNode :=
  ⟨[], [⟨[sampleOther], [], false, 0, 0⟩, ⟨[sampleFirst, sampleOther], [], false, 0, 0⟩], false, (0 : Nat), (1 : Nat)⟩

theorem sampleTree_splits : Splits 0 (fun x y => x.2 < y.2) [sampleOther, sampleFirst] sampleTree := by
  refine .branch [] (by decide) (by decide) (by decide) (by decide) rfl fun val child hchild => ?_
  match val, hchild with
  | 0, hchild =>
      cases hchild
      exact .leaf _ _ _ (by decide) (by decide)
  | 1, hchild =>
      cases hchild
      exact .leaf _ _ _ (by decide) (by decide)
  | val + 2, hchild => cases hchild

theorem sample_fits : ∀ x ∈ [sampleOther, sampleFirst], x.1.Fits 0 := by
  have hone : ∀ block : PatternBlock, block.Normalized → block.offset = 0 → block.maskvec.length ≤ 1 →
      (DisjointPattern.instruction block).Fits 0 := by
    intro block hblock hoffset hlength
    refine ⟨fun inContext _ h => ?_, fun inContext _ h => ?_, fun _ h => ?_⟩
    · cases inContext <;> cases h
      exact hblock
    · cases inContext <;> cases h
      omega
    · cases h
      rw [ParserContext.maxInstructionLen]
      omega
  intro x hx
  rw [List.mem_cons, List.mem_singleton] at hx
  rcases hx with rfl | rfl
  · exact hone _ (PatternBlock.normalized_of_empty rfl (Int.le_refl 0) rfl rfl) rfl (Nat.zero_le 1)
  · exact hone _ (PatternBlock.normalize_normalized (PatternBlock.sampleRaw_wellFormed (by decide))) (by decide) (by decide)

theorem resolve_selects_sample :
    (∃ x ∈ [sampleOther, sampleFirst], resolve ⟨[0xe8], []⟩ 0 "r0x0" sampleTree = .ok x.2 ∧
      x.1.Holds ⟨[0xe8], []⟩ 0 ∧
      ∀ y ∈ [sampleOther, sampleFirst], y.1.Holds ⟨[0xe8], []⟩ 0 → y = x ∨ ¬ x.2 > y.2) ∨
    ((∀ x ∈ [sampleOther, sampleFirst], ¬ x.1.Holds ⟨[0xe8], []⟩ 0) ∧
      resolve ⟨[0xe8], []⟩ 0 "r0x0" sampleTree = .error (unableToResolve "r0x0")) :=
  resolve_selects sampleTree_splits sample_fits ⟨[0xe8], []⟩ "r0x0"

end DecisionNode

end GhidraDecompiler.Sleigh
