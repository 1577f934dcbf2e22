import GhidraDecompiler.Dataflow.FunctionalEquality
import GhidraDecompiler.Lib.BitWindows
import GhidraDecompiler.Pcode.ShiftMasks
import GhidraDecompiler.RuleAction.Preservation

namespace GhidraDecompiler.RuleAction

open Pcode Dataflow BitWindows
open Expression (VarnodeId OpId)
open Editing (Funcdata checkedI32)
open RangeMeld.Funcdata (inputVn constantVn writtenVn logicalOp)

namespace RuleSubNormal

/-- The op extends the top piece. -/
def extendPiece (data : Funcdata) (op : OpId) (opc : OpCode) (avn : VarnodeId) (truncSize cut : Int) : Funcdata :=
  let (newout, data) := data.opWithConstant .subpiece (data.op op).addr truncSize.toNat avn 4 (.ofInt 64 cut)
  let data := data.opSetInput op newout 0
  let data := data.opRemoveInput op 1
  data.opSetOpcode op (if opc = .intSright then .intSext else .intZext)

/-- The op takes the piece itself. -/
def takePiece (data : Funcdata) (op : OpId) (avn : VarnodeId) (cut : Int) : Funcdata :=
  let data := data.opSetInput op avn 0
  let (cutvn, data) := data.newConstant 4 (.ofInt 64 cut)
  data.opSetInput op cutvn 1

/-- The op shifts the piece. -/
def shiftPiece (data : Funcdata) (op : OpId) (opc : OpCode) (avn : VarnodeId) (outsize cut shift : Int) : Funcdata :=
  let (newout, data) := data.opWithConstant .subpiece (data.op op).addr outsize.toNat avn 4 (.ofInt 64 cut)
  let data := data.opSetInput op newout 0
  let (shiftvn, data) := data.newConstant 4 (.ofInt 64 shift)
  let data := data.opSetInput op shiftvn 1
  data.opSetOpcode op opc

def finish (data : Funcdata) (op : OpId) (opc : OpCode) (avn : VarnodeId) (outsize cut shift kbytes : Int) : Funcdata :=
  let cut := cut + kbytes
  let shift := shift - kbytes * 8
  if shift = 0 then takePiece data op avn cut
  else
    let shift := if shift ≥ outsize * 8 then (if opc = .intSright then outsize * 8 - 1 else outsize * 8) else shift
    shiftPiece data op opc avn outsize cut shift

/-- The window of the piece, and the form that it calls for. -/
def moveWindow (data : Funcdata) (op : OpId) (opc : OpCode) (avn : VarnodeId) (shift cut insize outsize : Int) : Option (Int × Funcdata) := do
  let kbytes := shift.tdiv 8
  let last ← checkedI32 (shift + 8 * cut + 8 * outsize)
  let width ← checkedI32 (8 * insize)
  if last < width ∧ shift ≠ kbytes * 8 then return (0, data)
  if kbytes + cut + outsize > insize then
    let truncSize := insize - cut - kbytes
    if shift = kbytes * 8 ∧ truncSize > 0 ∧ popcount (.ofInt 64 truncSize) = 1 then
      return (1, extendPiece data op opc avn truncSize (cut + kbytes))
    else return (1, finish data op opc avn outsize cut shift (insize - cut - outsize))
  return (1, finish data op opc avn outsize cut shift kbytes)

def applyOp (data : Funcdata) (op : OpId) : Option (Int × Funcdata) := do
  let shiftout ← (data.op op).inrefs[0]?
  let some shiftop := (data.vn shiftout).getDef | return (0, data)
  let opc := (data.op shiftop).code
  if opc ≠ .intRight ∧ opc ≠ .intSright then return (0, data)
  let amount ← (data.op shiftop).inrefs[1]?
  if !(data.vn amount).isConstant then return (0, data)
  let avn ← (data.op shiftop).inrefs[0]?
  if (data.vn avn).isFree then return (0, data)
  let outvn := (data.op op).output
  if data.isPrecisHi outvn || data.isPrecisLo outvn then return (0, data)
  let cutvn ← (data.op op).inrefs[1]?
  moveWindow data op opc avn ((data.vn amount).offset.setWidth 32).toInt ((data.vn cutvn).offset.setWidth 32).toInt
    (data.vn avn).size (data.vn outvn).size

section Forms

variable {sem : Semantics} {data : Funcdata} {op sh c x out m n : Nat} {opc : OpCode}

/-- What the forms rest on: the op reads two varnodes, and the base is an old varnode. -/
structure Ready (data : Funcdata) (op sh c x out m n : Nat) : Prop where
  legal : data.Legal
  hout : (data.vn out).getDef = some op
  hin : (data.op op).inrefs = [sh, c]
  hx : x < data.numVarnodes
  notConstant : (data.vn x).isConstant = false
  ne : out ≠ x
  sizex : (data.vn x).size = m
  sizeout : (data.vn out).size = n

theorem Ready.refl (h : Ready data op sh c x out m n) : data.Edited data op (data.op op).code [sh, c] [] := by
  have hrefl := Funcdata.Edited.refl h.legal.blank h.legal.live (h.legal.live _ _ h.hout)
  rwa [h.hin] at hrefl

theorem Ready.not_leaf (h : Ready data op sh c x out m n) : ∀ v : Nat, data.numVarnodes ≤ v → ¬ v = x := by
  have := h.hx
  intro v hv heq
  omega

theorem extendPiece_edited (h : Ready data op sh c x out m n) (opc : OpCode) (truncSize cut : Int) :
    data.Edited (extendPiece data op opc x truncSize cut) op (if opc = .intSright then .intSext else .intZext) [data.numVarnodes]
      [.result .subpiece [x, data.numVarnodes + 1] truncSize.toNat, .constant 4 (.ofInt 64 cut)] := by
  have hnew := h.refl.opWithConstant .subpiece (data.op op).addr truncSize.toNat h.hx h.notConstant 4 (.ofInt 64 cut)
  have hset := hnew.setInput (hnew.settable_result (i := 0) rfl) 0
  exact (hset.removeInput 1).setOpcode _

theorem takePiece_edited (h : Ready data op sh c x out m n) (cut : Int) :
    data.Edited (takePiece data op x cut) op (data.op op).code [x, data.numVarnodes] [.constant 4 (.ofInt 64 cut)] :=
  (h.refl.setInput (.inl h.notConstant) 0).setConstant 4 (.ofInt 64 cut) 1

theorem shiftPiece_edited (h : Ready data op sh c x out m n) (opc : OpCode) (outsize cut shift : Int) :
    data.Edited (shiftPiece data op opc x outsize cut shift) op opc [data.numVarnodes, data.numVarnodes + 2]
      [.result .subpiece [x, data.numVarnodes + 1] outsize.toNat, .constant 4 (.ofInt 64 cut), .constant 4 (.ofInt 64 shift)] := by
  have hnew := h.refl.opWithConstant .subpiece (data.op op).addr outsize.toNat h.hx h.notConstant 4 (.ofInt 64 cut)
  have hset := hnew.setInput (hnew.settable_result (i := 0) rfl) 0
  exact (hset.setConstant 4 (.ofInt 64 shift) 1).setOpcode opc

theorem toNat_constant {k : Nat} (hk : k < 2 ^ 32) : ((BitVec.ofInt 64 (k : Int)).setWidth (8 * 4)).toNat = k := by
  rw [BitVec.ofInt_natCast, BitVec.toNat_setWidth, BitVec.toNat_ofNat]
  omega

theorem denotes_subpiece {k : Nat} {w : Word} (hw : (w.setWidth (8 * 4)).toNat = k) (t : Nat) (y : BitVec (8 * m)) :
    Denotes .subpiece [⟨m, y⟩, ⟨4, w.setWidth _⟩] t (some (y.extractLsb' (8 * k) (8 * t))) := by
  have hsub := Denotes.subpiece t y (w.setWidth (8 * 4))
  rwa [hw] at hsub

theorem denotes_shift {k l : Nat} {w : Word} (hopc : opc = .intRight ∨ opc = .intSright) (hw : (w.setWidth (8 * l)).toNat = k)
    (y : BitVec (8 * n)) : Denotes opc [⟨n, y⟩, ⟨l, w.setWidth _⟩] n (some (shiftRight (opc = .intSright) y k)) := by
  rcases hopc with rfl | rfl
  · have hshr := Denotes.intRight y (w.setWidth (8 * l))
    rwa [hw] at hshr
  · have hsar := Denotes.intSright y (w.setWidth (8 * l))
    rwa [hw] at hsar

theorem denotes_extension {t : Nat} (hopc : opc = .intRight ∨ opc = .intSright) (htn : t ≤ n) (y : BitVec (8 * t)) :
    Denotes (if opc = .intSright then .intSext else .intZext) [⟨t, y⟩] n (some (fillTo (opc = .intSright) y (8 * n))) := by
  rcases hopc with rfl | rfl
  · exact Denotes.intZext htn y
  · exact Denotes.intSext htn y

variable (val : Valuation sem data.toFuncdata (· = x))

theorem extends_extendPiece (h : Ready data op sh c x out m n) (hopc : opc = .intRight ∨ opc = .intSright) {a t : Nat}
    (htop : a + t = m) (ht : 0 < t) (htn : t ≤ n) (hm : 8 * m < 2 ^ 31) : Funcdata.Extends val (extendPiece data op opc x t a) ↔
      val.bits n out = window (opc = .intSright) (val.bits m x) (8 * a) (8 * n) := by
  have hedit := extendPiece_edited h opc t a
  have hleaf : isLeafOp (if opc = .intSright then .intSext else .intZext) = false ∧
      (if opc = .intSright then OpCode.intSext else .intZext) ≠ .load := by
    rcases hopc with rfl | rfl
    · exact ⟨rfl, by decide⟩
    · exact ⟨rfl, by decide⟩
  rw [hedit.extends_iff_unary h.legal h.not_leaf h.hout h.ne hleaf.1 hleaf.2 rfl (by decide) h.hx h.sizex h.sizeout
    (denotes_subpiece (toNat_constant (by omega)) _) (denotes_extension hopc htn), Int.toNat_natCast,
    fillTo_extract (by omega) (by omega)]

theorem extends_takePiece (h : Ready data op sh c x out m n) (hcode : (data.op op).code = .subpiece) {cut : Int} {a : Nat}
    (ha : ((BitVec.ofInt 64 cut).setWidth (8 * 4)).toNat = a) : Funcdata.Extends val (takePiece data op x cut) ↔
      val.bits n out = (val.bits m x).extractLsb' (8 * a) (8 * n) := by
  have hedit := takePiece_edited h cut
  rw [hcode] at hedit
  exact hedit.extends_iff_constant h.legal h.not_leaf h.hout h.ne rfl (by decide) h.hx h.sizex h.sizeout (denotes_subpiece ha n)

theorem extends_shiftPiece (h : Ready data op sh c x out m n) (hopc : opc = .intRight ∨ opc = .intSright) {a s : Nat}
    (htop : a + n = m) (hn : 0 < n) (hm : 8 * m < 2 ^ 31) (hs : s < 2 ^ 32) : Funcdata.Extends val (shiftPiece data op opc x n a s) ↔
      val.bits n out = window (opc = .intSright) (val.bits m x) (8 * a + s) (8 * n) := by
  have hedit := shiftPiece_edited h opc n a s
  have hleaf : isLeafOp opc = false ∧ opc ≠ .load := by
    rcases hopc with rfl | rfl
    · exact ⟨rfl, by decide⟩
    · exact ⟨rfl, by decide⟩
  rw [hedit.extends_iff_binary h.legal h.not_leaf h.hout h.ne hleaf.1 hleaf.2 rfl (by decide) h.hx h.sizex h.sizeout
    (denotes_subpiece (toNat_constant (by omega)) _) (denotes_shift hopc (toNat_constant hs)),
    shiftRight_extract (by omega) (by omega)]
  exact Iff.rfl

/-- The window that starts after the whole shift. -/
theorem extends_finish (h : Ready data op sh c x out m n) (hcode : (data.op op).code = .subpiece)
    (hopc : opc = .intRight ∨ opc = .intSright) {cut shift k : Nat} (hm : 8 * m < 2 ^ 31) (hn : 0 < n) (hfit : k + cut + n ≤ m)
    (hk : 8 * k ≤ shift) (hshift : shift < 2 ^ 31) (htop : shift = 8 * k ∨ k + cut + n = m) :
    Funcdata.Extends val (finish data op opc x n cut shift k) ↔
      val.bits n out = window (opc = .intSright) (val.bits m x) (8 * cut + shift) (8 * n) := by
  have hcast : (cut : Int) + k = (cut + k : Nat) := (Nat.cast_add cut k).symm
  simp only [finish]
  by_cases hzero : shift = 8 * k
  · rw [if_pos (by omega), hcast, extends_takePiece val h hcode (toNat_constant (by omega)),
      extract_eq_window (opc = .intSright) (by omega), show 8 * (cut + k) = 8 * cut + shift by omega]
  · have hk' := htop.resolve_left hzero
    rw [if_neg (by omega), hcast]
    by_cases hclamp : (shift : Int) - k * 8 ≥ n * 8
    · -- both windows start at the sign bit or later
      have hclamped : (if opc = .intSright then (n : Int) * 8 - 1 else n * 8) =
          (8 * n - if opc = .intSright then 1 else 0 : Nat) := by
        split <;> omega
      have hle : 8 * m ≤ 8 * (cut + k) + (8 * n - if opc = .intSright then 1 else 0) +
          if decide (opc = .intSright) = true then 1 else 0 := by
        simp only [decide_eq_true_eq]
        split <;> omega
      have hwindow := (window_eq_iff (opc = .intSright) (s := 8 * cut + shift) (by omega) (show 0 < 8 * n by omega)).mpr hle (val.bits m x)
      rw [if_pos hclamp, hclamped, extends_shiftPiece val h hopc (by omega) hn hm (by omega), hwindow]
    · rw [if_neg hclamp, show (shift : Int) - k * 8 = (shift - 8 * k : Nat) by omega,
        extends_shiftPiece val h hopc (by omega) hn hm (by omega), show 8 * (cut + k) + (shift - 8 * k) = 8 * cut + shift by omega]

end Forms

section Rewriting

variable {sem : Semantics} {data data' : Funcdata} {op shiftop sh x a c : Nat}

/-- What the rule has checked when it rewrites, and what it makes of the op. -/
structure Rewrites (data data' : Funcdata) (op shiftop x a c : Nat) (opc : OpCode) (shift cut : Int) (insize outsize : Nat) : Prop where
  opc_eq : opc = (data.op shiftop).code
  shift_eq : shift = ((data.vn a).offset.setWidth 32).toInt
  cut_eq : cut = ((data.vn c).offset.setWidth 32).toInt
  insize_eq : insize = (data.vn x).size
  outsize_eq : outsize = (data.vn (data.op op).output).size
  codes : opc = .intRight ∨ opc = .intSright
  isConstant : (data.vn a).isConstant = true
  notFree : (data.vn x).isFree = false
  fits : 8 * insize < 2 ^ 31
  aligned : 8 * insize ≤ shift + 8 * cut + 8 * outsize ∨ shift = shift.tdiv 8 * 8
  result : shift.tdiv 8 + cut + outsize > insize ∧
      (shift = shift.tdiv 8 * 8 ∧ insize - cut - shift.tdiv 8 > 0 ∧
          data' = extendPiece data op opc x (insize - cut - shift.tdiv 8) (cut + shift.tdiv 8) ∨
        data' = finish data op opc x outsize cut shift (insize - cut - outsize)) ∨
    ¬ shift.tdiv 8 + cut + outsize > insize ∧ data' = finish data op opc x outsize cut shift (shift.tdiv 8)

theorem checkedI32_bind {α : Type} {n : Int} {f : Int → Option α} {r : α} (h : (checkedI32 n).bind f = some r) :
    n < 2 ^ 31 ∧ f n = some r := by
  rw [checkedI32] at h
  split at h
  · next hn => exact ⟨hn.2, h⟩
  · cases h

theorem moveWindow_eq {opc : OpCode} {shift cut insize outsize : Int} (h : moveWindow data op opc x shift cut insize outsize = some (1, data')) :
    8 * insize < 2 ^ 31 ∧ (8 * insize ≤ shift + 8 * cut + 8 * outsize ∨ shift = shift.tdiv 8 * 8) ∧
      (shift.tdiv 8 + cut + outsize > insize ∧ (shift = shift.tdiv 8 * 8 ∧ insize - cut - shift.tdiv 8 > 0 ∧
            data' = extendPiece data op opc x (insize - cut - shift.tdiv 8) (cut + shift.tdiv 8) ∨
          data' = finish data op opc x outsize cut shift (insize - cut - outsize)) ∨
        ¬ shift.tdiv 8 + cut + outsize > insize ∧ data' = finish data op opc x outsize cut shift (shift.tdiv 8)) := by
  simp only [moveWindow, Option.bind_eq_bind, Option.pure_def] at h
  obtain ⟨-, h⟩ := checkedI32_bind h
  obtain ⟨hfits, h⟩ := checkedI32_bind h
  split_ifs at h with haligned hover hpiece <;> cases h
  · exact ⟨hfits, by omega, .inl ⟨hover, .inl ⟨hpiece.1, hpiece.2.1, rfl⟩⟩⟩
  · exact ⟨hfits, by omega, .inl ⟨hover, .inr rfl⟩⟩
  · exact ⟨hfits, by omega, .inr ⟨hover, rfl⟩⟩

theorem applyOp_rewrites (hin : (data.op op).inrefs = [sh, c]) (hdef : (data.vn sh).getDef = some shiftop)
    (hin1 : (data.op shiftop).inrefs = [x, a]) (h : applyOp data op = some (1, data')) :
    ∃ shift cut insize outsize, Rewrites data data' op shiftop x a c (data.op shiftop).code shift cut insize outsize := by
  simp only [applyOp, hin, hdef, hin1, List.getElem?_cons_zero, List.getElem?_cons_succ, Option.bind_eq_bind, Option.bind_some,
    Option.pure_def] at h
  split_ifs at h with hcode hconst hfree hprecis
  iterate 4 cases h
  · rw [Bool.not_eq_true, Bool.not_eq_false'] at hconst
    have hcodes : (data.op shiftop).code = .intRight ∨ (data.op shiftop).code = .intSright := by
      by_contra hno
      rw [not_or] at hno
      exact hcode hno
    obtain ⟨hfits, haligned, hresult⟩ := moveWindow_eq h
    exact ⟨_, _, _, _, rfl, rfl, rfl, rfl, rfl, hcodes, hconst, Bool.eq_false_of_not_eq_true hfree, by omega, haligned, hresult⟩

/-- The op and the shift it reads, in a legal graph without cycles. -/
structure Reads (data : Funcdata) (op shiftop sh x a c : Nat) : Prop where
  legal : data.Legal
  acyclic : Nonempty (Acyclic data.toFuncdata noLeaf)
  code : (data.op op).code = .subpiece
  hout : (data.vn (data.op op).output).getDef = some op
  hin : (data.op op).inrefs = [sh, c]
  hdef : (data.vn sh).getDef = some shiftop
  hin1 : (data.op shiftop).inrefs = [x, a]

variable {opc : OpCode} {shift cut : Int} {insize outsize : Nat}

theorem Reads.size_shift (h : Reads data op shiftop sh x a c) (hr : Rewrites data data' op shiftop x a c opc shift cut insize outsize) :
    (data.vn sh).size = insize := by
  have hshift := (h.legal.sizes_binary h.hdef h.hin1).2.1
  rw [hr.insize_eq]
  refine (hshift ?_).symm
  rw [← hr.opc_eq]
  rcases hr.codes with hcode | hcode
  · rw [hcode]
    decide
  · rw [hcode]
    decide

/-- The cut is a number of bytes within the shifted number. -/
theorem Reads.cut_le (h : Reads data op shiftop sh x a c) (hr : Rewrites data data' op shiftop x a c opc shift cut insize outsize) :
    (data.vn c).isConstant = true ∧ cut = (data.vn c).offset.toNat ∧ (data.vn c).offset.toNat + outsize ≤ insize := by
  obtain ⟨hconst, hle⟩ := (h.legal.sizes_binary h.hout h.hin).2.2 h.code
  rw [h.size_shift hr, ← hr.outsize_eq] at hle
  have hfits := hr.fits
  exact ⟨hconst, by rw [hr.cut_eq, amount_of_lt (by omega)], hle⟩

theorem Reads.ready (h : Reads data op shiftop sh x a c) (hr : Rewrites data data' op shiftop x a c opc shift cut insize outsize) :
    Ready data op sh c x (data.op op).output insize outsize ∧ ¬ sh = x := by
  obtain ⟨hacyclic⟩ := h.acyclic
  have hcode : isLeafOp (data.op shiftop).code = false := by
    rw [← hr.opc_eq]
    rcases hr.codes with hcode | hcode
    · rw [hcode]
      rfl
    · rw [hcode]
      rfl
  have hbelow := hacyclic.below sh shiftop x ⟨h.hdef, not_false, hcode⟩ (by rw [h.hin1]; exact List.mem_cons_self)
  have hbelow' := hacyclic.below _ op sh ⟨h.hout, not_false, by rw [h.code]; rfl⟩ (by rw [h.hin]; exact List.mem_cons_self)
  have hx : x < data.numVarnodes :=
    h.legal.inrefs shiftop (h.legal.live _ _ h.hdef) x (by rw [h.hin1]; exact List.mem_cons_self)
  refine ⟨⟨h.legal, h.hout, h.hin, hx, h.legal.not_constant hr.notFree, ?_, hr.insize_eq.symm, hr.outsize_eq.symm⟩, ?_⟩
  · intro heq
    rw [heq] at hbelow'
    omega
  · rintro rfl
    exact absurd hbelow (lt_irrefl _)

variable (val : Valuation sem data.toFuncdata (· = x))

/-- The value of the piece of the shift. -/
theorem bits_output (h : Reads data op shiftop sh x a c) (hr : Rewrites data data' op shiftop x a c opc shift cut insize outsize) :
    val.bits outsize (data.op op).output = window (opc = .intSright) (val.bits insize x)
      ((data.vn a).offset.toNat + 8 * (data.vn c).offset.toNat) (8 * outsize) := by
  obtain ⟨hready, hne⟩ := h.ready hr
  obtain ⟨hconst, -, hle⟩ := h.cut_le hr
  have hsh := h.size_shift hr
  have hwithin : ∀ v, (data.vn v).isConstant = true → ((data.vn v).offset.setWidth (8 * (data.vn v).size)).toNat = (data.vn v).offset.toNat := by
    intro v hv
    rw [BitVec.toNat_setWidth, Nat.mod_eq_of_lt (h.legal.constant v hv).2.2]
  have hcode : isLeafOp opc = false ∧ opc ≠ .load := by
    rcases hr.codes with hcode | hcode
    · rw [hcode]
      exact ⟨rfl, by decide⟩
    · rw [hcode]
      exact ⟨rfl, by decide⟩
  have hshift := val.bits_binary_constant (denotes_shift hr.codes (hwithin a hr.isConstant)) hcode.1 hcode.2 h.hdef hne
    hr.opc_eq.symm h.hin1 hsh hready.sizex rfl hr.isConstant rfl
  have hsub : ∀ y : BitVec (8 * insize), Denotes .subpiece [⟨insize, y⟩, ⟨(data.vn c).size, (data.vn c).offset.setWidth _⟩] outsize
      (some (y.extractLsb' (8 * (data.vn c).offset.toNat) (8 * outsize))) := by
    intro y
    have hsub := Denotes.subpiece outsize y ((data.vn c).offset.setWidth (8 * (data.vn c).size))
    rwa [hwithin c hconst] at hsub
  rw [val.bits_binary_constant hsub rfl (by decide) h.hout hready.ne h.code h.hin hready.sizeout hsh rfl hconst rfl, hshift,
    extract_shiftRight (by omega)]

/-- Every form has the bits of the shift by the amount that the rule has read. -/
theorem extends_of_nonneg (h : Reads data op shiftop sh x a c) (hr : Rewrites data data' op shiftop x a c opc shift cut insize outsize)
    (hpos : 0 < outsize) {s : Nat} (hs : shift = s) : Funcdata.Extends val data' ↔ val.bits outsize (data.op op).output =
      window (opc = .intSright) (val.bits insize x) (8 * (data.vn c).offset.toNat + s) (8 * outsize) := by
  obtain ⟨hready, -⟩ := h.ready hr
  obtain ⟨-, hcut, hle⟩ := h.cut_le hr
  have hfits := hr.fits
  have haligned := hr.aligned
  have hresult := hr.result
  have hs31 : s < 2 ^ 31 := by
    have hrange := BitVec.toInt_lt (x := (data.vn a).offset.setWidth 32)
    rw [← hr.shift_eq, hs] at hrange
    omega
  obtain ⟨k, hk⟩ : ∃ k : Nat, shift.tdiv 8 = k := ⟨s / 8, by rw [hs, Int.tdiv_eq_ediv_of_nonneg (by omega)]; omega⟩
  have hk8 : 8 * k ≤ s ∧ s < 8 * k + 8 := by
    rw [hs, Int.tdiv_eq_ediv_of_nonneg (by omega)] at hk
    omega
  rw [hk, hcut, hs] at hresult
  rw [hk, hcut, hs] at haligned
  generalize (data.vn c).offset.toNat = C at *
  rcases hresult with ⟨hover, ⟨heq, htrunc, rfl⟩ | rfl⟩ | ⟨hover, rfl⟩
  · have hpiece : (insize : Int) - C - k = (insize - C - k : Nat) := by omega
    rw [hpiece, show (C : Int) + k = (C + k : Nat) by omega, extends_extendPiece val hready hr.codes (by omega) (by omega) (by omega) hfits,
      show 8 * (C + k) = 8 * C + s by omega]
  · rw [show (insize : Int) - C - outsize = (insize - C - outsize : Nat) by omega]
    exact extends_finish val hready h.code hr.codes hfits hpos (by omega) (by omega) hs31 (by omega)
  · exact extends_finish val hready h.code hr.codes hfits hpos (by omega) (by omega) hs31 (by omega)

theorem tdiv_nonpos_of_neg {k : Int} (hneg : k < 0) : k.tdiv 8 ≤ 0 := by
  have hdiv : k.tdiv 8 = -(-k / 8) := by rw [← Int.tdiv_eq_ediv_of_nonneg (by omega), Int.neg_tdiv, Int.neg_neg]
  omega

theorem Reads.shift_of_neg (h : Reads data op shiftop sh x a c)
    (hr : Rewrites data data' op shiftop x a c opc shift cut insize outsize) (hneg : shift < 0) : shift = shift.tdiv 8 * 8 := by
  obtain ⟨-, hcut, hle⟩ := h.cut_le hr
  have heq := hr.aligned
  omega

/-- A negative amount takes a piece that lies lower, or none. -/
theorem extends_of_neg (h : Reads data op shiftop sh x a c) (hr : Rewrites data data' op shiftop x a c opc shift cut insize outsize)
    (hneg : shift < 0) : Funcdata.Extends val data' ↔ val.bits outsize (data.op op).output =
      (val.bits insize x).extractLsb' (8 * ((BitVec.ofInt 64 ((data.vn c).offset.toNat + shift.tdiv 8)).setWidth (8 * 4)).toNat)
        (8 * outsize) := by
  obtain ⟨hready, -⟩ := h.ready hr
  obtain ⟨-, hcut, hle⟩ := h.cut_le hr
  have hk := tdiv_nonpos_of_neg hneg
  have heq := h.shift_of_neg hr hneg
  have hresult := hr.result
  rw [hcut] at hresult
  rcases hresult with ⟨hover, -⟩ | ⟨-, rfl⟩
  · omega
  · simp only [finish]
    rw [if_pos (by omega)]
    exact extends_takePiece val hready h.code rfl

end Rewriting

section Preservation

variable {sem : Semantics} {data data' : Funcdata} {op shiftop sh x a c : Nat}

/-- The amount that the rule reads, the low 32 bits with a sign, moves the piece as far as
the whole amount does. -/
def Exact (signed : Bool) (insize cut : Nat) (amount : Word) : Prop :=
  amount.toNat < 2 ^ 31 ∨
    0 ≤ (amount.setWidth 32).toInt ∧ 8 * insize ≤ (amount.setWidth 32).toInt + 8 * cut + (if signed then 1 else 0) ∨
    (amount.setWidth 32).toInt < 0 ∧ signed = false ∧ 8 * cut + (amount.setWidth 32).toInt < 0

instance (signed : Bool) (insize cut : Nat) (amount : Word) : Decidable (Exact signed insize cut amount) :=
  inferInstanceAs (Decidable (_ ∨ _))

/-- The windows of the whole amount and of the one that is read. -/
theorem window_exact_iff {signed : Bool} {insize outsize cut s : Nat} {amount : Word} (hm : 8 * insize < 2 ^ 31) (hpos : 0 < outsize)
    (hs : (amount.setWidth 32).toInt = s) : (∀ y : BitVec (8 * insize),
      window signed y (amount.toNat + 8 * cut) (8 * outsize) = window signed y (8 * cut + s) (8 * outsize)) ↔
        Exact signed insize cut amount := by
  by_cases hsmall : amount.toNat < 2 ^ 31
  · rw [amount_of_lt hsmall] at hs
    have heq : amount.toNat = s := by exact_mod_cast hs
    rw [heq, Nat.add_comm s]
    exact ⟨fun _ => .inl hsmall, fun _ _ => rfl⟩
  · rw [window_eq_iff signed (by omega) (by omega), Exact, hs]
    cases signed with
    | false =>
        simp only [Bool.false_eq_true, if_false]
        omega
    | true =>
        simp only [if_true]
        omega

/-- The windows of the whole amount and of a negative one, which may leave nothing. -/
theorem extract_exact_iff {signed : Bool} {insize outsize cut : Nat} {amount : Word} {k : Int} (hm : 8 * insize < 2 ^ 31)
    (hpos : 0 < outsize) (hle : cut + outsize ≤ insize) (hneg : (amount.setWidth 32).toInt < 0)
    (hk : (amount.setWidth 32).toInt = k * 8) : (∀ y : BitVec (8 * insize), window signed y (amount.toNat + 8 * cut) (8 * outsize) =
      y.extractLsb' (8 * ((BitVec.ofInt 64 (cut + k)).setWidth (8 * 4)).toNat) (8 * outsize)) ↔ Exact signed insize cut amount := by
  have hlarge : ¬ amount.toNat < 2 ^ 31 := by
    intro hsmall
    rw [amount_of_lt hsmall] at hneg
    omega
  have hexact : Exact signed insize cut amount ↔ signed = false ∧ (cut : Int) + k < 0 := by
    rw [Exact]
    cases signed with
    | false =>
        simp only [Bool.false_eq_true, if_false, true_and]
        omega
    | true =>
        simp only [if_true, Bool.true_eq_false, false_and, and_false, or_false, iff_false]
        omega
  rw [hexact]
  by_cases hlow : (cut : Int) + k < 0
  · -- the constant is beyond the top
    have hbeyond : insize ≤ ((BitVec.ofInt 64 (cut + k)).setWidth (8 * 4)).toNat := by
      have hrange := BitVec.le_two_mul_toInt (x := amount.setWidth 32)
      rw [BitVec.toNat_setWidth, BitVec.toNat_ofInt]
      omega
    generalize ((BitVec.ofInt 64 (cut + k)).setWidth (8 * 4)).toNat = a at hbeyond
    have hzero : ∀ y : BitVec (8 * insize), y.extractLsb' (8 * a) (8 * outsize) = window false y (8 * a) (8 * outsize) := by
      intro y
      apply BitVec.eq_of_getLsbD_eq
      intro i hi
      rw [getLsbD_window hi, BitVec.getLsbD_extractLsb', decide_eq_true hi, Bool.true_and, if_neg (by omega), Bool.false_and]
      exact BitVec.getLsbD_of_ge _ _ (by omega)
    have hiff := window_eq_iff false (a := 8 * a) (s := amount.toNat + 8 * cut) (show 8 * insize ≤ _ by omega)
      (show 0 < 8 * outsize by omega)
    cases signed with
    | false =>
        rw [forall_congr' fun y => by rw [hzero y], hiff]
        simp only [true_and]
        omega
    | true =>
        simp only [Bool.true_eq_false, false_and, iff_false]
        intro hall
        have hbit := congrArg (fun v => v.getLsbD 0) (hall (BitVec.intMin _))
        rw [hzero, getLsbD_window (by omega), getLsbD_window (by omega), if_neg (by omega), if_neg (by omega), BitVec.msb_intMin,
          decide_eq_true (by omega)] at hbit
        cases hbit
  · obtain ⟨a, ha⟩ := Int.eq_ofNat_of_zero_le (not_lt.mp hlow)
    rw [ha, toNat_constant (by omega)]
    have hwindow : ∀ y : BitVec (8 * insize), y.extractLsb' (8 * a) (8 * outsize) = window signed y (8 * a) (8 * outsize) :=
      fun y => extract_eq_window signed (by omega)
    rw [forall_congr' fun y => by rw [hwindow y], window_eq_iff signed (by omega) (by omega)]
    have hfill : (if signed then 1 else 0) ≤ 1 := by split <;> decide
    omega

theorem extends_iff_exact (h : Reads data op shiftop sh x a c) (hpos : 0 < (data.vn (data.op op).output).size)
    (happly : applyOp data op = some (1, data')) : (∀ val : Valuation sem data.toFuncdata (· = x), Funcdata.Extends val data') ↔
      Exact ((data.op shiftop).code = .intSright) (data.vn x).size (data.vn c).offset.toNat (data.vn a).offset := by
  obtain ⟨shift, cut, insize, outsize, hr⟩ := applyOp_rewrites h.hin h.hdef h.hin1 happly
  obtain ⟨hacyclic⟩ := h.acyclic
  obtain ⟨hready, -⟩ := h.ready hr
  obtain ⟨-, -, hle⟩ := h.cut_le hr
  have hfits := hr.fits
  have hshift := hr.shift_eq
  rw [← hr.outsize_eq] at hpos
  rw [← hr.insize_eq]
  have hall := fun P => Valuation.forall_bits_iff sem (hacyclic.mono (q := (· = x)) fun _ hv => hv.elim) hready.notConstant
    hready.sizex P
  by_cases hneg : shift < 0
  · have hk := h.shift_of_neg hr hneg
    rw [forall_congr' fun val => extends_of_neg val h hr hneg, forall_congr' fun val => by rw [bits_output val h hr],
      hall fun y => window ((data.op shiftop).code = .intSright) y ((data.vn a).offset.toNat + 8 * (data.vn c).offset.toNat) (8 * outsize) =
        y.extractLsb' (8 * ((BitVec.ofInt 64 ((data.vn c).offset.toNat + shift.tdiv 8)).setWidth (8 * 4)).toNat) (8 * outsize)]
    exact extract_exact_iff hfits hpos hle (by rw [← hshift]; exact hneg) (by rw [← hshift]; exact hk)
  · obtain ⟨s, hs⟩ := Int.eq_ofNat_of_zero_le (not_lt.mp hneg)
    rw [forall_congr' fun val => extends_of_nonneg val h hr hpos hs, forall_congr' fun val => by rw [bits_output val h hr]]
    rw [hall fun y => window ((data.op shiftop).code = .intSright) y ((data.vn a).offset.toNat + 8 * (data.vn c).offset.toNat) (8 * outsize) =
        window ((data.op shiftop).code = .intSright) y (8 * (data.vn c).offset.toNat + s) (8 * outsize)]
    exact window_exact_iff hfits hpos (by rw [← hshift]; exact hs)

/-- The rewritten op has the value of the piece of the shift, for every value of the base, if
and only if the amount that is read moves the piece as far as the whole one does. -/
theorem subNormal_extends_iff (hlegal : data.Legal) (hacyclic : Acyclic data.toFuncdata noLeaf) (hcode : (data.op op).code = .subpiece)
    (hout : (data.vn (data.op op).output).getDef = some op) (hpos : 0 < (data.vn (data.op op).output).size)
    (hin : (data.op op).inrefs = [sh, c]) (hdef : (data.vn sh).getDef = some shiftop) (hin1 : (data.op shiftop).inrefs = [x, a])
    (happly : applyOp data op = some (1, data')) : (∀ val : Valuation sem data.toFuncdata (· = x), Funcdata.Extends val data') ↔
      Exact ((data.op shiftop).code = .intSright) (data.vn x).size (data.vn c).offset.toNat (data.vn a).offset :=
  extends_iff_exact ⟨hlegal, ⟨hacyclic⟩, hcode, hout, hin, hdef, hin1⟩ hpos happly

/-- Four bytes are shifted, and the lowest of them is taken. -/
def lowByte (amount : Word) : Funcdata :=
  Funcdata.ofLists [inputVn 4, constantVn 8 amount, { writtenVn 0 with size := 4 }, constantVn 4 0, writtenVn 1]
    [logicalOp .intRight [0, 1] 2, logicalOp .subpiece [2, 3] 4]

/-- The shift by 28 bits becomes a shift of the top byte. -/
theorem subNormal_extends_iff_twenty : ∃ data', applyOp (lowByte 28) 1 = some (1, data') ∧
    ∀ val : Valuation bitVectors (lowByte 28).toFuncdata (· = 0), Funcdata.Extends val data' := by
  have hordered : Funcdata.Ordered [inputVn 4, constantVn 8 28, { writtenVn 0 with size := 4 }, constantVn 4 0, writtenVn 1]
    [logicalOp .intRight [0, 1] 2, logicalOp .subpiece [2, 3] 4] := by decide
  obtain ⟨data', happly⟩ : ∃ data', applyOp (lowByte 28) 1 = some (1, data') := Funcdata.exists_rewritten (by decide)
  exact ⟨data', happly, (subNormal_extends_iff hordered.legal (hordered.acyclic _) rfl rfl (by decide) rfl rfl rfl happly).mpr
    (by decide)⟩

/-- The amount 2^32 is read as zero. -/
theorem subNormal_not_extends : ∃ data', applyOp (lowByte (2 ^ 32)) 1 = some (1, data') ∧
    ¬ ∀ val : Valuation bitVectors (lowByte (2 ^ 32)).toFuncdata (· = 0), Funcdata.Extends val data' := by
  have hordered : Funcdata.Ordered [inputVn 4, constantVn 8 (2 ^ 32), { writtenVn 0 with size := 4 }, constantVn 4 0, writtenVn 1]
    [logicalOp .intRight [0, 1] 2, logicalOp .subpiece [2, 3] 4] := by decide
  obtain ⟨data', happly⟩ : ∃ data', applyOp (lowByte (2 ^ 32)) 1 = some (1, data') := Funcdata.exists_rewritten (by decide)
  refine ⟨data', happly, fun hall => ?_⟩
  have hexact := (extends_iff_exact ⟨hordered.legal, ⟨hordered.acyclic _⟩, rfl, rfl, rfl, rfl, rfl⟩ (by decide) happly).mp hall
  exact absurd hexact (by decide)

end Preservation

end RuleSubNormal

end GhidraDecompiler.RuleAction
