import GhidraDecompiler.Lib.TotalRuns
import GhidraDecompiler.Xml.ScanView
import GhidraDecompiler.Xml.XmlParser
import Mathlib

namespace GhidraDecompiler.Xml.XmlParser

open TotalRuns XmlScan

/-- The elements under construction and the finished root. -/
abbrev Built := List OpenElement × Option Element

/-- The parser has no token at hand. -/
structure At (mode : ScanMode) (cs : List Int) (depth : Nat) (built : Built) (p : XmlParser) : Prop where
  token : p.token = none
  tokenValue : p.tokenValue = []
  lvalue : p.scan.lvalue = []
  mode : p.scan.curmode = mode
  sees : p.scan.Sees cs
  depth : p.depth = depth
  built : (p.stack, p.root) = built

/-- The parser has looked at a token. -/
structure Ahead (token : Int) (value : List UInt8) (cs : List Int) (depth : Nat) (built : Built) (p : XmlParser) : Prop where
  token : p.token = some token
  tokenValue : p.tokenValue = value
  lvalue : p.scan.lvalue = []
  mode : p.scan.curmode = .single
  sees : p.scan.Sees cs
  depth : p.depth = depth
  built : (p.stack, p.root) = built

variable {p : XmlParser} {mode mode' : ScanMode} {c token : Int} {value : List UInt8} {cs w rest : List Int} {d k : Nat}
  {built : Built}

theorem At.la (h : At mode cs d built p) (hs : Scans p.scan.nexttoken token value rest)
    (hvalue : 255 < token ∨ 0 ≤ token ∧ value = []) : Yields la p token (Ahead token value rest d built) := by
  by_cases hbig : 255 < token
  · refine ⟨{ p with scan := p.scan.nexttoken.2.clearLvalue, tokenValue := p.scan.nexttoken.2.lvalue, token := some token }, ?_, ?_⟩
    · have hneg : ¬token < 0 := by omega
      simp only [XmlParser.la, h.token, get, getThe, MonadStateOf.get, StateT.get, set, StateT.set, Bind.bind, StateT.bind,
        Except.bind, Pure.pure, StateT.pure, Except.pure, hs.token, gt_iff_lt, if_pos hbig, if_neg hneg]
    · exact ⟨rfl, hs.value, rfl, hs.mode, hs.sees, h.depth, h.built⟩
  · obtain ⟨hpos, rfl⟩ := hvalue.resolve_left hbig
    refine ⟨{ p with scan := p.scan.nexttoken.2, token := some token }, ?_, ?_⟩
    · have hneg : ¬token < 0 := by omega
      simp only [XmlParser.la, h.token, get, getThe, MonadStateOf.get, StateT.get, set, StateT.set, Bind.bind, StateT.bind,
        Except.bind, Pure.pure, StateT.pure, Except.pure, hs.token, gt_iff_lt, if_neg hbig, if_neg hneg]
    · exact ⟨rfl, h.tokenValue, hs.value, hs.mode, hs.sees, h.depth, h.built⟩

theorem Ahead.la (h : Ahead token value cs d built p) : Yields la p token (Ahead token value cs d built) := by
  refine ⟨p, ?_, h⟩
  simp only [XmlParser.la, h.token, get, getThe, MonadStateOf.get, StateT.get, Bind.bind, StateT.bind, Except.bind, Pure.pure,
    StateT.pure, Except.pure]

theorem At.setMode (h : At mode cs d built p) (mode' : ScanMode) :
    Yields (setMode mode') p () (At mode' cs d built) :=
  Yields.modify ⟨h.token, h.tokenValue, h.lvalue, rfl, h.sees, h.depth, h.built⟩

theorem push_run (hd : p.depth + 1 < maxParseDepth) : push p = .ok ((), { p with depth := p.depth + 1 }) := by
  have hle : ¬p.depth + 1 ≥ maxParseDepth := by omega
  simp only [push, get, getThe, MonadStateOf.get, StateT.get, set, StateT.set, Bind.bind, StateT.bind, Except.bind, Pure.pure,
    Except.pure, if_neg hle]
  rfl

theorem At.push (h : At mode cs d built p) (hd : d + 1 < maxParseDepth) :
    Yields push p () (At mode cs (d + 1) built) := by
  refine ⟨_, push_run (by rwa [h.depth]), ?_⟩
  exact ⟨h.token, h.tokenValue, h.lvalue, h.mode, h.sees, congrArg (· + 1) h.depth, h.built⟩

theorem At.reduce {length : Nat} (h : At mode cs d built p) (hle : length ≤ d) (hd : d + 1 = k + length)
    (hk : k < maxParseDepth) : Yields (reduce length) p () (At mode cs k built) := by
  refine ⟨{ p with depth := p.depth - length + 1 }, ?_, ?_⟩
  · have hlt : ¬p.depth < length := by
      rw [h.depth]
      omega
    have hpush : XmlParser.push { p with depth := p.depth - length } = .ok ((), { p with depth := p.depth - length + 1 }) := by
      apply push_run
      change p.depth - length + 1 < maxParseDepth
      rw [h.depth]
      omega
    simp only [XmlParser.reduce, get, getThe, MonadStateOf.get, StateT.get, set, StateT.set, Bind.bind, StateT.bind, Except.bind,
      Pure.pure, Except.pure, if_neg hlt]
    exact hpush
  · refine ⟨h.token, h.tokenValue, h.lvalue, h.mode, h.sees, ?_, h.built⟩
    change p.depth - length + 1 = k
    rw [h.depth]
    omega

theorem Ahead.shift (h : Ahead token value cs d built p) (hd : d + 1 < maxParseDepth) :
    Yields shift p value (At .single cs (d + 1) built) := by
  rw [← h.tokenValue]
  refine ⟨{ p with token := none, depth := p.depth + 1, tokenValue := [] }, ?_, ?_⟩
  · have hpush : XmlParser.push { p with token := none } = .ok ((), { p with token := none, depth := p.depth + 1 }) :=
      push_run (by rwa [← h.depth] at hd)
    simp only [XmlParser.shift, modify, modifyGet, MonadStateOf.modifyGet, StateT.modifyGet, get, getThe, MonadStateOf.get,
      StateT.get, set, StateT.set, Bind.bind, StateT.bind, Except.bind, Pure.pure, StateT.pure, Except.pure, hpush]
  · exact ⟨rfl, rfl, h.lvalue, h.mode, h.sees, congrArg (· + 1) h.depth, h.built⟩

theorem At.passes (h : At mode (w ++ rest) d built p) (hw : ∀ c ∈ w, c ≠ -1) :
    ∃ n, w.length + 2 ≤ n ∧ Yields passes p n (At mode (w ++ rest) d built) :=
  ⟨p.scan.remaining + 2, Nat.add_le_add_right (h.sees.length_le_remaining hw) 2, p, rfl, h⟩

theorem Ahead.passes (h : Ahead token value (w ++ rest) d built p) (hw : ∀ c ∈ w, c ≠ -1) :
    ∃ n, w.length + 2 ≤ n ∧ Yields passes p n (Ahead token value (w ++ rest) d built) :=
  ⟨p.scan.remaining + 2, Nat.add_le_add_right (h.sees.length_le_remaining hw) 2, p, rfl, h⟩

theorem scans_single (h : At .single cs d built p) (hs : Scans p.scan.scanSingle token value rest) :
    Scans p.scan.nexttoken token value rest := by
  have hnext : p.scan.nexttoken = p.scan.scanSingle := by
    rw [nexttoken, h.mode]
    change ({ p.scan with curmode := .single } : XmlScan).scanSingle = _
    rw [← h.mode]
  rwa [hnext]

theorem At.la_char (h : At .single (c :: cs) d built p) (hc : c ≠ code '<') (hpos : 0 ≤ c) :
    Yields XmlParser.la p c (Ahead c [] cs d built) :=
  h.la (scans_single h (scanSingle_char h.sees h.mode h.lvalue hc)) (Or.inr ⟨hpos, rfl⟩)

theorem At.la_end (h : At .single [] d built p) : Yields XmlParser.la p tokenEof (Ahead tokenEof [] [] d built) := by
  have hs := scans_single h (scanSingle_end h.sees h.mode h.lvalue)
  refine ⟨{ p with scan := p.scan.nexttoken.2, token := some tokenEof }, ?_, ?_⟩
  · simp only [XmlParser.la, h.token, get, getThe, MonadStateOf.get, StateT.get, set, StateT.set, Bind.bind, StateT.bind,
      Except.bind, Pure.pure, StateT.pure, Except.pure, hs.token]
    rfl
  · exact ⟨rfl, h.tokenValue, hs.value, hs.mode, hs.sees, h.depth, h.built⟩

/-- The token of a brace depends on the character after it. -/
def braceToken (c : Int) : Int := if isInitialNameChar c then elementBraceToken else commandBraceToken

theorem braceToken_big (c : Int) : 255 < braceToken c := by
  rw [braceToken]
  split <;> decide

theorem At.la_brace (h : At .single (code '<' :: cs) d built p) :
    Yields XmlParser.la p (braceToken (cs.headD (-1))) (Ahead (braceToken (cs.headD (-1))) [] cs d built) :=
  h.la (scans_single h (scanSingle_brace h.sees h.mode h.lvalue)) (Or.inl (braceToken_big _))

/-- A token is always scanned in a scanner that is back in its single mode. -/
theorem At.sees_single (h : At mode cs d built p) : ({ p.scan with curmode := .single } : XmlScan).Sees cs := h.sees

theorem At.la_charData (h : At .charData (code '<' :: cs) d built p) :
    Yields XmlParser.la p (braceToken (cs.headD (-1))) (Ahead (braceToken (cs.headD (-1))) [] cs d built) := by
  refine h.la ?_ (Or.inl (braceToken_big _))
  rw [nexttoken, h.mode]
  change Scans (scanCharData _) _ _ _
  rw [scanCharData_brace h.sees_single]
  exact scanSingle_brace h.sees_single rfl rfl

theorem At.la_attStop (h : At .attValueDouble (c :: cs) d built p) (hc : c = code '"' ∨ c = code '&') :
    Yields XmlParser.la p c (Ahead c [] cs d built) := by
  have hfacts : c ≠ code '<' ∧ 0 ≤ c := by
    obtain rfl | rfl := hc <;> decide
  refine h.la ?_ (Or.inr ⟨hfacts.2, rfl⟩)
  rw [nexttoken, h.mode]
  change Scans (scanAttValue _ _) _ _ _
  rw [scanAttValue_stop h.sees_single (hc.imp_right Or.inr)]
  exact scanSingle_char h.sees rfl rfl hfacts.1

theorem At.la_attPiece (h : At .attValueDouble (w ++ c :: cs) d built p) (hne : w ≠ [])
    (hw : ∀ c ∈ w, c ≠ -1 ∧ c ≠ code '"' ∧ c ≠ code '<' ∧ c ≠ code '&') (hc : c = code '"' ∨ c = code '&') :
    Yields XmlParser.la p attValueToken (Ahead attValueToken (w.map UInt8.ofInt) (c :: cs) d built) := by
  refine h.la ?_ (Or.inl (by decide))
  rw [nexttoken, h.mode]
  exact scanAttValue_piece h.sees rfl hne hw (hc.imp_right Or.inr)

/-- The characters of a name. -/
structure NameCodes (w : List Int) : Prop where
  initial : isInitialNameChar (w.headD (-1)) = true
  all : ∀ c ∈ w, isNameChar c = true

theorem NameCodes.ne_nil (hw : NameCodes w) : w ≠ [] := by
  rintro rfl
  exact absurd hw.initial (by decide)

theorem isWhite_of_initial (h : isInitialNameChar c = true) : isWhite c = false := by
  by_contra hwhite
  have hcases : c = 0x20 ∨ c = 0x0a ∨ c = 0x0d ∨ c = 0x09 := by
    simpa [isWhite, or_iff_not_imp_left] using hwhite
  obtain rfl | rfl | rfl | rfl := hcases <;> exact absurd h (by decide)

theorem At.la_name (h : At .name (w ++ rest) d built p) (hw : NameCodes w) (hrest : isNameChar (rest.headD (-1)) = false) :
    Yields XmlParser.la p nameToken (Ahead nameToken (w.map UInt8.ofInt) rest d built) := by
  cases w with
  | nil => exact absurd rfl hw.ne_nil
  | cons c w =>
      refine h.la ?_ (Or.inl (by decide))
      rw [nexttoken, h.mode]
      exact scanName_spec h.sees rfl hw.initial (fun c hc => hw.all c (List.mem_cons_of_mem _ hc)) hrest

theorem At.la_sname (h : At .sName (code ' ' :: w ++ rest) d built p) (hw : NameCodes w)
    (hrest : isNameChar (rest.headD (-1)) = false) :
    Yields XmlParser.la p snameToken (Ahead snameToken (w.map UInt8.ofInt) rest d built) := by
  cases w with
  | nil => exact absurd rfl hw.ne_nil
  | cons c w =>
      refine h.la ?_ (Or.inl (by decide))
      rw [nexttoken, h.mode]
      exact scanSname_spec h.sees rfl hw.initial (isWhite_of_initial hw.initial)
        (fun c hc => hw.all c (List.mem_cons_of_mem _ hc)) hrest

theorem At.la_snameStop (h : At .sName (c :: cs) d built p) (hc : c = code '>' ∨ c = code '/') :
    Yields XmlParser.la p c (Ahead c [] cs d built) := by
  have hfacts : c ≠ code '<' ∧ 0 ≤ c ∧ isWhite c = false ∧ isInitialNameChar c = false := by
    obtain rfl | rfl := hc <;> decide
  obtain ⟨hlt, hpos, hwhite, hinitial⟩ := hfacts
  refine h.la ?_ (Or.inr ⟨hpos, rfl⟩)
  rw [nexttoken, h.mode]
  change Scans (scanSname _) _ _ _
  rw [scanSname_stop h.sees_single hwhite hinitial]
  exact scanSingle_char h.sees rfl rfl hlt

theorem Ahead.expect {t : Char} (h : Ahead (code t) value cs d built p) (hd : d + 1 < maxParseDepth) :
    Yields (expect t) p () (At .single cs (d + 1) built) := by
  refine Yields.bind h.la fun p h => ?_
  rw [if_neg (not_not.mpr rfl)]
  exact Yields.bind (h.shift hd) fun p h => Yields.pure h

theorem code_ne_brace {t : Char} (h : t ≠ '<') : code t ≠ code '<' := by
  intro heq
  apply h
  exact Char.toNat_inj.mp (Int.ofNat_inj.mp heq)

theorem code_nonneg (t : Char) : 0 ≤ code t := Int.natCast_nonneg _

theorem At.expect {t : Char} (h : At .single (code t :: cs) d built p) (ht : t ≠ '<') (hd : d + 1 < maxParseDepth) :
    Yields (XmlParser.expect t) p () (At .single cs (d + 1) built) := by
  refine Yields.bind (h.la_char (code_ne_brace ht) (code_nonneg t)) fun p h => ?_
  rw [if_neg (not_not.mpr rfl)]
  exact Yields.bind (h.shift hd) fun p h => Yields.pure h

end GhidraDecompiler.Xml.XmlParser
