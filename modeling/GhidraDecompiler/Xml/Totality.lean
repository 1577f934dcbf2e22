import GhidraDecompiler.Lib.SafeRuns
import GhidraDecompiler.Xml.ScanLeft
import GhidraDecompiler.Xml.XmlParser
import Mathlib

namespace GhidraDecompiler.Xml

/-- An error of the decoder, and neither a panic nor a loop that is cut off. -/
def Proper (e : XmlError) : Prop := ∃ message, e = .decoder message

namespace XmlParser

open SafeRuns XmlScan

/-- The parser one level deeper. -/
def deeper (p : XmlParser) : XmlParser := { p with depth := p.depth + 1 }

/-- A run that does not panic and does not run out of fuel. The same run from
one level deeper goes the same way, one level deeper throughout, or ends at
the limit of the depth. -/
abbrev Runs {α : Type} (m : ParserM α) (p : XmlParser) (Q : α → XmlParser → Prop) : Prop :=
  Safe Proper deeper (.decoder "memory exhausted") m p Q

/-- A token at hand for which a character was read. -/
def held : Option Int → Nat
  | some token => if Solid token then 1 else 0
  | none => 0

/-- What is left to read with the token at hand, the depth, the number of open elements and whether there is a root. -/
structure Parsing (n d : Nat) (built : Nat × Bool) (p : XmlParser) : Prop where
  left : ∃ k, p.scan.Left k ∧ k + held p.token ≤ n
  depth : p.depth = d
  built : (p.stack.length, p.root.isSome) = built

structure Seen (token : Int) (n d : Nat) (built : Nat × Bool) (p : XmlParser) : Prop extends Parsing n d built p where
  token : p.token = some token

variable {p : XmlParser} {token : Int} {n m d k fuel : Nat} {built : Nat × Bool}

theorem Parsing.mono (h : Parsing n d built p) (hle : n ≤ m) : Parsing m d built p := by
  obtain ⟨⟨k, hk, hn⟩, hdepth, hbuilt⟩ := h
  exact ⟨⟨k, hk, hn.trans hle⟩, hdepth, hbuilt⟩

theorem Seen.pos (h : Seen token n d built p) (hs : Solid token) : 1 ≤ n := by
  obtain ⟨k, -, hn⟩ := h.left
  rw [h.token, held, if_pos hs] at hn
  omega

theorem proper_syntaxError : Proper syntaxError := ⟨_, rfl⟩

theorem proper_exhausted : Proper (.decoder "memory exhausted") := ⟨_, rfl⟩

theorem runs_syntaxError {α : Type} {Q : α → XmlParser → Prop} : Runs (throw syntaxError) p Q := .throw proper_syntaxError

theorem la_of_some (h : p.token = some token) : la p = .ok (token, p) := by
  simp only [la, h, get, getThe, MonadStateOf.get, StateT.get, Bind.bind, StateT.bind, Except.bind, Pure.pure, StateT.pure,
    Except.pure]

/-- The state after the next token has been scanned. -/
def scanned (p : XmlParser) : Int × XmlParser :=
  let (res, scan) := p.scan.nexttoken
  let token := if res < 0 then tokenEof else res
  (token, if res > 255 then { p with scan := scan.clearLvalue, tokenValue := scan.lvalue, token := some token }
    else { p with scan := scan, token := some token })

theorem la_of_none (h : p.token = none) : la p = .ok p.scanned := by
  simp only [la, scanned, h, get, getThe, MonadStateOf.get, StateT.get, set, StateT.set, Bind.bind, StateT.bind, Except.bind,
    Pure.pure, StateT.pure, Except.pure]
  split_ifs <;> rfl

theorem scanned_deeper (p : XmlParser) : p.deeper.scanned = Prod.map id deeper p.scanned := by
  simp only [scanned, Prod.map, id]
  rw [apply_ite deeper]
  rfl

theorem la_deeper (p : XmlParser) : la p.deeper = Prod.map id deeper <$> la p := by
  cases htoken : p.token with
  | some token =>
      have hdeeper : p.deeper.token = some token := htoken
      rw [la_of_some htoken, la_of_some hdeeper]
      rfl
  | none =>
      have hdeeper : p.deeper.token = none := htoken
      rw [la_of_none htoken, la_of_none hdeeper, scanned_deeper]
      rfl

theorem scanned_spec (p : XmlParser) :
    p.scanned.2.token = some p.scanned.1 ∧ p.scanned.2.depth = p.depth ∧ p.scanned.2.stack = p.stack ∧ p.scanned.2.root = p.root ∧
      Reads (p.scanned.1, p.scanned.2.scan) p.scan := by
  have hreads := p.scan.nexttoken_reads
  have hsolid : Solid (if p.scan.nexttoken.1 < 0 then tokenEof else p.scan.nexttoken.1) → Solid p.scan.nexttoken.1 := by
    split
    · intro h
      exact absurd h (by decide)
    · exact id
  simp only [scanned]
  split
  · exact ⟨rfl, rfl, rfl, rfl, hreads.1, fun h => hreads.2 (hsolid h)⟩
  · exact ⟨rfl, rfl, rfl, rfl, hreads.1, fun h => hreads.2 (hsolid h)⟩

theorem Parsing.la (h : Parsing n d built p) : Runs XmlParser.la p fun token => Seen token n d built := by
  refine ⟨?_, Or.inl (la_deeper p)⟩
  cases htoken : p.token with
  | some token =>
      rw [la_of_some htoken]
      exact ⟨h, htoken⟩
  | none =>
      obtain ⟨⟨k, hk, hn⟩, hdepth, hbuilt⟩ := h
      have hspec := p.scanned_spec
      rw [la_of_none htoken]
      rw [htoken, held] at hn
      generalize p.scanned = result at hspec ⊢
      obtain ⟨token, p'⟩ := result
      obtain ⟨htoken', hdepth', hstack, hroot, hreads, hsolid⟩ := hspec
      have hbuilt' : (p'.stack.length, p'.root.isSome) = built := by
        rw [hstack, hroot]
        exact hbuilt
      have hleft : ∃ k, p'.scan.Left k ∧ k + held p'.token ≤ n := by
        rw [htoken', held]
        by_cases hs : Solid token
        · obtain ⟨m, hm⟩ := hsolid hs
          obtain ⟨hle, hleft⟩ := hm k hk
          exact ⟨k - (m + 1), hleft, by rw [if_pos hs]; omega⟩
        · exact ⟨k, hreads k hk, by rw [if_neg hs]; exact hn⟩
      exact ⟨⟨hleft, hdepth'.trans hdepth, hbuilt'⟩, htoken'⟩

theorem Parsing.setMode (h : Parsing n d built p) (mode : ScanMode) : Runs (setMode mode) p fun _ => Parsing n d built :=
  .modify rfl ⟨h.left, h.depth, h.built⟩

theorem push_fails (h : maxParseDepth ≤ p.depth + 1) : push p = .error (.decoder "memory exhausted") := by
  simp only [push, get, getThe, MonadStateOf.get, StateT.get, set, StateT.set, Bind.bind, StateT.bind, Except.bind, Pure.pure,
    Except.pure, if_pos h]
  rfl

theorem push_succeeds (h : p.depth + 1 < maxParseDepth) : push p = .ok ((), p.deeper) := by
  have hle : ¬p.depth + 1 ≥ maxParseDepth := by omega
  simp only [push, get, getThe, MonadStateOf.get, StateT.get, set, StateT.set, Bind.bind, StateT.bind, Except.bind, Pure.pure,
    Except.pure, if_neg hle]
  rfl

theorem runs_push {Q : Unit → XmlParser → Prop} (h : Q () p.deeper) : Runs push p Q := by
  by_cases hlimit : maxParseDepth ≤ p.depth + 1
  · exact .of_limit proper_exhausted (push_fails hlimit) (push_fails (p := p.deeper) (hlimit.trans (Nat.le_succ _)))
  · have hrun := push_succeeds (p := p) (by omega)
    by_cases hlimit' : maxParseDepth ≤ p.deeper.depth + 1
    · exact ⟨by rw [hrun]; exact h, Or.inr (push_fails hlimit')⟩
    · exact .of_ok hrun (push_succeeds (by omega)) h

theorem Parsing.push (h : Parsing n d built p) : Runs push p fun _ => Parsing n (d + 1) built :=
  runs_push ⟨h.left, congrArg (· + 1) h.depth, h.built⟩

theorem reduce_run {length : Nat} (h : length ≤ p.depth) : reduce length p = XmlParser.push { p with depth := p.depth - length } := by
  have hlt : ¬p.depth < length := by omega
  simp only [reduce, get, getThe, MonadStateOf.get, StateT.get, set, StateT.set, Bind.bind, StateT.bind, Except.bind, Pure.pure,
    Except.pure, if_neg hlt]

theorem runs_reduce {length : Nat} {Q : Unit → XmlParser → Prop} (h : length ≤ p.depth)
    (hQ : Q () { p with depth := p.depth - length + 1 }) : Runs (reduce length) p Q := by
  have hpush : Runs XmlParser.push { p with depth := p.depth - length } Q := runs_push hQ
  have hdeeper : reduce length p.deeper = XmlParser.push ({ p with depth := p.depth - length } : XmlParser).deeper := by
    have hdepth : p.depth + 1 - length = p.depth - length + 1 := by omega
    rw [reduce_run (Nat.le_succ_of_le h)]
    simp only [deeper, hdepth]
  refine ⟨?_, ?_⟩
  · rw [reduce_run h]
    exact hpush.ends
  · rw [reduce_run h, hdeeper]
    exact hpush.mirrors

/-- The length of a right-hand side is not more than the depth, and one symbol takes its place. -/
theorem Parsing.reduce {length : Nat} (h : Parsing n d built p) (hle : length ≤ d) (hk : d + 1 = k + length) :
    Runs (XmlParser.reduce length) p fun _ => Parsing n k built := by
  have hdepth := h.depth
  refine runs_reduce (by omega) ⟨h.left, ?_, h.built⟩
  change p.depth - length + 1 = k
  omega

theorem Seen.reduce {length : Nat} (h : Seen token n d built p) (hle : length ≤ d) (hk : d + 1 = k + length) :
    Runs (XmlParser.reduce length) p fun _ => Seen token n k built := by
  have hdepth := h.depth
  refine runs_reduce (by omega) ⟨⟨h.left, ?_, h.built⟩, h.token⟩
  change p.depth - length + 1 = k
  omega

theorem Seen.shift_held (h : Seen token n d built p) :
    Runs XmlParser.shift p fun _ => Parsing (n - held (some token)) (d + 1) built := by
  obtain ⟨m, hm, hn⟩ := h.left
  rw [h.token] at hn
  have hfree : Parsing (n - held (some token)) d built { p with token := none } :=
    ⟨⟨m, hm, Nat.le_sub_of_add_le hn⟩, h.depth, h.built⟩
  refine Safe.bind (.modify (P := Parsing (n - held (some token)) d built) rfl hfree) fun _ p h => ?_
  refine Safe.bind h.push fun _ p h => ?_
  exact .of_ok rfl rfl ⟨h.left, h.depth, h.built⟩

theorem Seen.shift (h : Seen token n d built p) (hs : Solid token) : Runs XmlParser.shift p fun _ => Parsing (n - 1) (d + 1) built := by
  have hshift := h.shift_held
  rwa [held, if_pos hs] at hshift

theorem Seen.shift_any (h : Seen token n d built p) : Runs XmlParser.shift p fun _ => Parsing n (d + 1) built :=
  h.shift_held.mono fun _ _ h => h.mono (Nat.sub_le _ _)

theorem solid_white (h : isWhitespaceToken token = true) : Solid token := by
  have hcases : token = code ' ' ∨ token = code '\n' ∨ token = code '\r' ∨ token = code '\t' := by
    simpa [isWhitespaceToken, or_assoc] using h
  obtain rfl | rfl | rfl | rfl := hcases <;> decide

theorem Parsing.expect (h : Parsing n d built p) (t : Char) : Runs (expect t) p fun _ => Parsing n (d + 1) built := by
  refine Safe.bind h.la fun token p h => ?_
  split
  case isTrue => exact runs_syntaxError
  case isFalse => exact Safe.bind h.shift_any fun _ p h => .pure h

theorem Parsing.expectSequence (h : Parsing n d built p) (tokens : List Char) :
    Runs (expectSequence tokens) p fun _ => Parsing n (d + tokens.length) built := by
  induction tokens generalizing d p with
  | nil => exact .pure h
  | cons t tokens ih =>
      refine Safe.bind (h.expect t) fun _ p h => ?_
      have hlen : d + (t :: tokens).length = d + 1 + tokens.length := by
        rw [List.length_cons]
        omega
      rw [hlen]
      exact ih h

theorem Parsing.passes (h : Parsing n d built p) :
    Runs XmlParser.passes p fun fuel p => ∃ m, m ≤ n ∧ m < fuel ∧ Parsing m d built p := by
  obtain ⟨⟨k, hk, hn⟩, hdepth, hbuilt⟩ := h
  have hheld : held p.token ≤ 1 := by
    cases p.token with
    | none => exact Nat.zero_le 1
    | some token =>
        rw [held]
        split <;> omega
  have hmin : p.scan.Left (min k p.scan.remaining) := by
    rw [min_def]
    split
    · exact hk
    · exact p.scan.left_remaining
  have hone := Nat.min_le_left k p.scan.remaining
  have htwo := Nat.min_le_right k p.scan.remaining
  exact .of_ok (a := p.scan.remaining + 2) rfl rfl
    ⟨min k p.scan.remaining + held p.token, by omega, by omega, ⟨_, hmin, Nat.le_refl _⟩, hdepth, hbuilt⟩

/-- Every pass takes the blank that starts it. -/
theorem Parsing.whitespaceLoop (h : Parsing n d built p) (hfuel : n < fuel) (hd : 1 ≤ d) :
    Runs (whitespaceLoop fuel) p fun _ => Parsing n d built := by
  induction fuel generalizing n p with
  | zero => omega
  | succ fuel ih =>
      refine Safe.bind h.la fun token p h => ?_
      split
      case isTrue hwhite =>
        have hpos := h.pos (solid_white hwhite)
        refine Safe.bind (h.shift (solid_white hwhite)) fun _ p h => ?_
        refine Safe.bind (h.reduce (k := d + 1) (by omega) rfl) fun _ p h => ?_
        refine Safe.bind (h.reduce (k := d) (by omega) rfl) fun _ p h => ?_
        exact (ih h (by omega)).mono fun _ p h => h.mono (Nat.sub_le n 1)
      case isFalse => exact .pure h.toParsing

theorem Seen.whitespaceRun_held (h : Seen token n d built p) :
    Runs XmlParser.whitespaceRun p fun _ => Parsing (n - held (some token)) (d + 1) built := by
  refine Safe.bind h.shift_held fun _ p h => ?_
  refine Safe.bind (h.reduce (k := d + 1) (by omega) rfl) fun _ p h => ?_
  refine Safe.bind (h.reduce (k := d + 1) (by omega) rfl) fun _ p h => ?_
  refine Safe.bind h.passes fun fuel p h => ?_
  obtain ⟨m, hm, hfuel, h⟩ := h
  exact (h.whitespaceLoop hfuel (by omega)).mono fun _ p h => h.mono hm

theorem Seen.whitespaceRun (h : Seen token n d built p) (hs : Solid token) :
    Runs XmlParser.whitespaceRun p fun _ => Parsing (n - 1) (d + 1) built := by
  have hrun := h.whitespaceRun_held
  rwa [held, if_pos hs] at hrun

theorem Parsing.eqLoop (h : Parsing n d built p) (hfuel : n < fuel) (hd : 1 ≤ d) :
    Runs (eqLoop fuel) p fun _ => Parsing n d built := by
  induction fuel generalizing n p with
  | zero => omega
  | succ fuel ih =>
      refine Safe.bind h.la fun token p h => ?_
      split
      case isTrue hwhite =>
        have hpos := h.pos (solid_white hwhite)
        refine Safe.bind (h.whitespaceRun (solid_white hwhite)) fun _ p h => ?_
        refine Safe.bind (h.reduce (k := d) (by omega) rfl) fun _ p h => ?_
        exact (ih h (by omega)).mono fun _ p h => h.mono (Nat.sub_le n 1)
      case isFalse => exact .pure h.toParsing

theorem Parsing.eq (h : Parsing n d built p) : Runs XmlParser.eq p fun _ => Parsing n (d + 1) built := by
  have hloop (p : XmlParser) (h : Parsing n (d + 1) built p) :
      Runs (do XmlParser.eqLoop (← XmlParser.passes)) p fun _ => Parsing n (d + 1) built := by
    refine Safe.bind h.passes fun fuel p h => ?_
    obtain ⟨m, hm, hfuel, h⟩ := h
    exact (h.eqLoop hfuel (by omega)).mono fun _ p h => h.mono hm
  refine Safe.bind h.la fun token p h => ?_
  split
  case isTrue hwhite =>
    refine Safe.bind (h.whitespaceRun (solid_white hwhite)) fun _ p h => ?_
    refine Safe.bind (h.expect '=') fun _ p h => ?_
    refine Safe.bind (h.reduce (k := d + 1) (by omega) rfl) fun _ p h => ?_
    exact hloop p (h.mono (Nat.sub_le n 1))
  case isFalse =>
    split
    case isTrue =>
      refine Safe.bind h.shift_any fun _ p h => ?_
      refine Safe.bind (h.reduce (k := d + 1) (by omega) rfl) fun _ p h => ?_
      exact hloop p h
    case isFalse => exact Safe.bind (Q := fun _ _ => False) runs_syntaxError fun _ _ h => h.elim

theorem Seen.reference (h : Seen token n d built p) (hs : Solid token) :
    Runs reference p fun _ => Parsing (n - 1) (d + 1) built := by
  refine Safe.bind (h.shift hs) fun _ p h => ?_
  refine Safe.bind (h.setMode .name) fun _ p h => ?_
  refine Safe.bind (h.reduce (k := d + 1) (by omega) rfl) fun _ p h => ?_
  refine Safe.bind h.la fun token p h => ?_
  split
  case isTrue =>
    refine Safe.bind h.shift_any fun _ p h => ?_
    refine Safe.bind (h.expect ';') fun _ p h => ?_
    refine Safe.bind (h.reduce (k := d + 1) (by omega) rfl) fun _ p h => ?_
    refine Safe.bind (h.reduce (k := d + 1) (by omega) rfl) fun _ p h => ?_
    exact .pure h
  case isFalse =>
    split
    case isTrue =>
      refine Safe.bind h.shift_any fun _ p h => ?_
      refine Safe.bind (h.setMode .charRef) fun _ p h => ?_
      refine Safe.bind (h.reduce (k := d + 1) (by omega) rfl) fun _ p h => ?_
      refine Safe.bind h.la fun token p h => ?_
      split
      case isTrue => exact runs_syntaxError
      case isFalse =>
        refine Safe.bind h.shift_any fun _ p h => ?_
        refine Safe.bind (h.expect ';') fun _ p h => ?_
        refine Safe.bind (h.reduce (k := d + 1) (by omega) rfl) fun _ p h => ?_
        refine Safe.bind (h.reduce (k := d + 1) (by omega) rfl) fun _ p h => ?_
        exact .pure h
    case isFalse => exact runs_syntaxError

theorem Parsing.attValueLoop {quote : Int} {mode : ScanMode} {result : List UInt8} (h : Parsing n d built p) (hfuel : n < fuel)
    (hd : 1 ≤ d) : Runs (attValueLoop quote mode fuel result) p fun _ => Parsing n d built := by
  induction fuel generalizing n p result with
  | zero => omega
  | succ fuel ih =>
      refine Safe.bind h.la fun token p h => ?_
      split
      case isTrue htoken =>
        have hs : Solid token := by
          rw [htoken]
          decide
        have hpos := h.pos hs
        refine Safe.bind (h.shift hs) fun piece p h => ?_
        refine Safe.bind (h.setMode mode) fun _ p h => ?_
        refine Safe.bind (h.reduce (k := d) (by omega) rfl) fun _ p h => ?_
        exact (ih h (by omega)).mono fun _ p h => h.mono (Nat.sub_le n 1)
      case isFalse =>
        split
        case isTrue htoken =>
          have hs : Solid token := by
            rw [htoken]
            decide
          have hpos := h.pos hs
          refine Safe.bind (h.reference hs) fun value p h => ?_
          refine Safe.bind (h.setMode mode) fun _ p h => ?_
          refine Safe.bind (h.reduce (k := d) (by omega) rfl) fun _ p h => ?_
          exact (ih h (by omega)).mono fun _ p h => h.mono (Nat.sub_le n 1)
        case isFalse =>
          split
          case isTrue =>
            refine Safe.bind h.shift_any fun _ p h => ?_
            refine Safe.bind (h.reduce (k := d) (by omega) rfl) fun _ p h => ?_
            exact .pure h
          case isFalse => exact runs_syntaxError

theorem Seen.attValueIn {quote : Int} {mode : ScanMode} (h : Seen token n d built p) :
    Runs (attValueIn quote mode) p fun _ => Parsing n (d + 1) built := by
  refine Safe.bind h.shift_any fun _ p h => ?_
  refine Safe.bind (h.setMode mode) fun _ p h => ?_
  refine Safe.bind (h.reduce (k := d + 1) (by omega) rfl) fun _ p h => ?_
  refine Safe.bind h.passes fun fuel p h => ?_
  obtain ⟨m, hm, hfuel, h⟩ := h
  exact (h.attValueLoop hfuel (by omega)).mono fun _ p h => h.mono hm

theorem Parsing.attValue (h : Parsing n d built p) : Runs attValue p fun _ => Parsing n (d + 1) built := by
  refine Safe.bind h.la fun token p h => ?_
  split
  case isTrue => exact h.attValueIn
  case isFalse =>
    split
    case isTrue => exact h.attValueIn
    case isFalse => exact runs_syntaxError

/-- The brace and the mark before a comment are part of its right-hand side. -/
theorem Parsing.commentBody (h : Parsing n (d + 2) built p) : Runs commentBody p fun _ => Parsing n (d + 1) built := by
  refine Safe.bind (h.expectSequence ['-', '-']) fun _ p h => ?_
  refine Safe.bind (h.setMode .comment) fun _ p h => ?_
  refine Safe.bind (h.reduce (k := d + 1) (Nat.le_add_left _ _) rfl) fun _ p h => ?_
  refine Safe.bind h.la fun token p h => ?_
  split
  case isTrue => exact runs_syntaxError
  case isFalse =>
    refine Safe.bind h.shift_any fun _ p h => ?_
    refine Safe.bind (h.expectSequence ['-', '-', '>']) fun _ p h => ?_
    exact h.reduce (Nat.le_add_left _ _) rfl

theorem runs_processingInstruction {Q : Unit → XmlParser → Prop} : Runs processingInstruction p Q := .throw ⟨_, rfl⟩

theorem Parsing.versionLike (h : Parsing n d built p) (keyword : List Char) {pops : Nat} (hpops : pops = keyword.length + 3)
    (hd : 1 ≤ d) : Runs (versionLike keyword pops) p fun _ => Parsing n d built := by
  refine Safe.bind (h.expectSequence keyword) fun _ p h => ?_
  refine Safe.bind h.eq fun _ p h => ?_
  refine Safe.bind h.attValue fun _ p h => ?_
  exact h.reduce (by omega) (by omega)

theorem Parsing.encodingDecl (h : Parsing n (d + 1) built p) : Runs encodingDecl p fun length => Parsing n (d + length) built := by
  refine Safe.bind h.la fun token p h => ?_
  split
  case isTrue hwhite =>
    refine Safe.bind (h.whitespaceRun (solid_white hwhite)) fun _ p h => ?_
    refine Safe.bind h.la fun token p h => ?_
    split
    case isTrue =>
      refine Safe.bind (h.versionLike "encoding".toList rfl (by omega)) fun _ p h => ?_
      refine Safe.bind h.la fun token p h => ?_
      split
      case isTrue hwhite =>
        refine Safe.bind (h.whitespaceRun (solid_white hwhite)) fun _ p h => ?_
        exact .pure (h.mono (by omega))
      case isFalse => exact .pure (h.mono (Nat.sub_le n 1))
    case isFalse => exact .pure (h.mono (Nat.sub_le n 1))
  case isFalse => exact .pure h.toParsing

theorem Parsing.xmlDecl (h : Parsing n (d + 2) built p) : Runs xmlDecl p fun _ => Parsing n (d + 1) built := by
  refine Safe.bind (h.expectSequence "xml".toList) fun _ p h => ?_
  refine Safe.bind h.la fun token p h => ?_
  split
  case isTrue => exact runs_syntaxError
  case isFalse hwhite =>
    refine Safe.bind (h.whitespaceRun (solid_white (by simpa using hwhite))) fun _ p h => ?_
    refine Safe.bind (h.versionLike "version".toList rfl (by omega)) fun _ p h => ?_
    refine Safe.bind (h.reduce (k := d + 1) (Nat.le_add_left _ _) rfl) fun _ p h => ?_
    refine Safe.bind h.encodingDecl fun length p h => ?_
    refine Safe.bind (h.expectSequence ['?', '>']) fun _ p h => ?_
    have hlen : ['?', '>'].length = 2 := rfl
    refine (h.reduce (k := d + 1) (by omega) (by omega)).mono fun _ p h => h.mono (Nat.sub_le n 1)

theorem Seen.prologMiscBrace (h : Seen token n d built p) (hs : Solid token) (allowDoctype : Bool) :
    Runs (prologMiscBrace allowDoctype) p fun _ => Parsing (n - 1) (d + 1) built := by
  refine Safe.bind (h.shift hs) fun _ p h => ?_
  refine Safe.bind h.la fun token p h => ?_
  split
  case isTrue => exact Safe.bind h.shift_any fun _ p h => runs_processingInstruction
  case isFalse =>
    split
    case isTrue => exact runs_syntaxError
    case isFalse =>
      refine Safe.bind h.shift_any fun _ p h => ?_
      refine Safe.bind h.la fun token p h => ?_
      split
      case isTrue =>
        refine Safe.bind h.commentBody fun _ p h => ?_
        exact h.reduce (Nat.le_add_left _ _) rfl
      case isFalse =>
        split
        case isTrue => exact Safe.bind (h.expectSequence "DOCTYPE".toList) fun _ p h => .throw ⟨_, rfl⟩
        case isFalse => exact runs_syntaxError

theorem Parsing.prologLoop (h : Parsing n d built p) (hfuel : n < fuel) (hd : 1 ≤ d) :
    Runs (prologLoop fuel) p fun _ => Seen elementBraceToken n d built := by
  induction fuel generalizing n p with
  | zero => omega
  | succ fuel ih =>
      refine Safe.bind h.la fun token p h => ?_
      split
      case isTrue hwhite =>
        have hpos := h.pos (solid_white hwhite)
        refine Safe.bind (h.whitespaceRun (solid_white hwhite)) fun _ p h => ?_
        refine Safe.bind (h.reduce (k := d + 1) (by omega) rfl) fun _ p h => ?_
        refine Safe.bind (h.reduce (k := d) (by omega) rfl) fun _ p h => ?_
        exact (ih h (by omega)).mono fun _ p h => ⟨h.mono (Nat.sub_le n 1), h.token⟩
      case isFalse =>
        split
        case isTrue htoken =>
          have hs : Solid token := by
            rw [htoken]
            decide
          have hpos := h.pos hs
          refine Safe.bind (h.prologMiscBrace hs true) fun _ p h => ?_
          refine Safe.bind (h.reduce (k := d) (by omega) rfl) fun _ p h => ?_
          exact (ih h (by omega)).mono fun _ p h => ⟨h.mono (Nat.sub_le n 1), h.token⟩
        case isFalse =>
          split
          case isTrue htoken =>
            subst htoken
            exact h.reduce hd rfl
          case isFalse => exact runs_syntaxError

theorem Parsing.prologStart (h : Parsing n d built p) : Runs prologStart p fun _ => Parsing n (d + 1) built := by
  refine Safe.bind h.la fun token p h => ?_
  split
  case isTrue =>
    refine Safe.bind h.shift_any fun _ p h => ?_
    refine Safe.bind h.la fun token p h => ?_
    split
    case isTrue =>
      refine Safe.bind h.shift_any fun _ p h => ?_
      refine Safe.bind h.la fun token p h => ?_
      split
      case isTrue =>
        refine Safe.bind h.xmlDecl fun _ p h => ?_
        exact h.reduce (Nat.le_add_left _ _) rfl
      case isFalse => exact runs_processingInstruction
    case isFalse =>
      split
      case isTrue =>
        refine Safe.bind h.shift_any fun _ p h => ?_
        refine Safe.bind h.la fun token p h => ?_
        split
        case isTrue => exact runs_syntaxError
        case isFalse =>
          refine Safe.bind h.commentBody fun _ p h => ?_
          refine Safe.bind (h.reduce (k := d + 1) (by omega) rfl) fun _ p h => ?_
          exact h.reduce (Nat.le_add_left _ _) rfl
      case isFalse => exact runs_syntaxError
  case isFalse =>
    refine Safe.bind h.whitespaceRun_held fun _ p h => ?_
    refine Safe.bind (h.reduce (k := d + 1) (by omega) rfl) fun _ p h => ?_
    exact (h.reduce (by omega) rfl).mono fun _ p h => h.mono (Nat.sub_le _ _)

theorem Parsing.prolog (h : Parsing n d built p) : Runs prolog p fun _ => Seen elementBraceToken n (d + 1) built := by
  refine Safe.bind h.prologStart fun _ p h => ?_
  refine Safe.bind h.passes fun fuel p h => ?_
  obtain ⟨m, hm, hfuel, h⟩ := h
  exact (h.prologLoop hfuel (by omega)).mono fun _ p h => ⟨h.mono hm, h.token⟩

theorem Parsing.printContent (h : Parsing n d built p) (text : List UInt8) :
    Runs (printContent text) p fun _ => Parsing n d built := by
  refine .modify (P := Parsing n d built) ?_ ?_
  · simp only [deeper]
    split
    · rfl
    · obtain ⟨scan, token, tokenValue, depth, stack, root⟩ := p
      cases stack <;> rfl
  · split
    · exact h
    · cases hstack : p.stack with
      | nil => exact h
      | cons current outer =>
          refine ⟨h.left, h.depth, ?_⟩
          have hbuilt := h.built
          rw [hstack] at hbuilt
          exact hbuilt

variable {fromUtf8Lossy : List UInt8 → String} {opened : Nat} {rooted : Bool}

theorem Parsing.startElement (h : Parsing n d (opened, rooted) p) (name : String) (attributes : List (String × List UInt8)) :
    Runs (startElement fromUtf8Lossy name attributes) p fun _ => Parsing n d (opened + 1, rooted) := by
  refine .modify (P := Parsing n d (opened + 1, rooted)) rfl ⟨h.left, h.depth, ?_⟩
  have hbuilt := h.built
  simp only [Prod.mk.injEq, List.length_cons] at hbuilt ⊢
  exact ⟨congrArg (· + 1) hbuilt.1, hbuilt.2⟩

/-- The outermost element becomes the root when it is closed. -/
def closed : Nat → Bool → Nat × Bool
  | 0, _ => (0, true)
  | outer + 1, rooted => (outer + 1, rooted)

theorem endElement_outermost {last : OpenElement} (h : p.stack = [last]) :
    endElement fromUtf8Lossy p = .ok ((), { p with stack := [], root := some (last.close fromUtf8Lossy) }) := by
  simp only [endElement, h, get, getThe, MonadStateOf.get, StateT.get, set, StateT.set, Bind.bind, StateT.bind, Except.bind,
    Pure.pure, Except.pure]

theorem endElement_nested {last parent : OpenElement} {outer : List OpenElement} (h : p.stack = last :: parent :: outer) :
    endElement fromUtf8Lossy p = .ok ((), { p with
      stack := { parent with children := parent.children ++ [last.close fromUtf8Lossy] } :: outer }) := by
  simp only [endElement, h, get, getThe, MonadStateOf.get, StateT.get, set, StateT.set, Bind.bind, StateT.bind, Except.bind,
    Pure.pure, Except.pure]

theorem Parsing.endElement (h : Parsing n d (opened + 1, rooted) p) :
    Runs (endElement fromUtf8Lossy) p fun _ => Parsing n d (closed opened rooted) := by
  obtain ⟨hleft, hdepth, hbuilt⟩ := h
  rw [Prod.mk.injEq] at hbuilt
  cases hstack : p.stack with
  | nil => simp [hstack] at hbuilt
  | cons last outer =>
      have hdeeper : p.deeper.stack = last :: outer := hstack
      cases outer with
      | nil =>
          refine .of_ok (endElement_outermost hstack) (endElement_outermost hdeeper) ⟨hleft, hdepth, ?_⟩
          obtain rfl : opened = 0 := by simpa [hstack] using hbuilt.1.symm
          rfl
      | cons parent outer =>
          refine .of_ok (endElement_nested hstack) (endElement_nested hdeeper) ⟨hleft, hdepth, ?_⟩
          obtain rfl : opened = outer.length + 1 := by simpa [hstack] using hbuilt.1.symm
          simp [closed, hbuilt.2]

/-- What stands in place of a tag: an open element, or an element that is closed at once. -/
def tagged (empty : Bool) (opened : Nat) (rooted : Bool) : Nat × Bool := if empty then closed opened rooted else (opened + 1, rooted)

theorem Seen.tagEnd {length : Nat} {name : String} {attributes : List (String × List UInt8)}
    (h : Seen token n (d + length) (opened, rooted) p) :
    Runs (tagEnd fromUtf8Lossy name attributes length token) p fun empty => Parsing n (d + 1) (tagged empty opened rooted) := by
  rw [XmlParser.tagEnd]
  split
  case isTrue =>
    refine Safe.bind h.shift_any fun _ p h => ?_
    refine Safe.bind (h.reduce (k := d + 1) (by omega) (by omega)) fun _ p h => ?_
    refine Safe.bind (h.startElement name attributes) fun _ p h => ?_
    exact .pure h
  case isFalse =>
    split
    case isTrue =>
      refine Safe.bind h.shift_any fun _ p h => ?_
      refine Safe.bind (h.expect '>') fun _ p h => ?_
      refine Safe.bind (h.reduce (k := d + 1) (by omega) (by omega)) fun _ p h => ?_
      refine Safe.bind (h.startElement name attributes) fun _ p h => ?_
      refine Safe.bind h.endElement fun _ p h => ?_
      refine Safe.bind (h.reduce (k := d + 1) (by omega) rfl) fun _ p h => ?_
      exact .pure h
    case isFalse => exact runs_syntaxError

theorem Parsing.attributeLoop {name : String} {attributes : List (String × List UInt8)}
    (h : Parsing n (d + 1) (opened, rooted) p) (hfuel : n < fuel) :
    Runs (attributeLoop fromUtf8Lossy name fuel attributes) p fun empty => Parsing n (d + 1) (tagged empty opened rooted) := by
  induction fuel generalizing n p attributes with
  | zero => omega
  | succ fuel ih =>
      refine Safe.bind h.la fun token p h => ?_
      split
      case isTrue htoken =>
        have hs : Solid token := by
          rw [htoken]
          decide
        have hpos := h.pos hs
        refine Safe.bind (h.shift hs) fun name p h => ?_
        refine Safe.bind h.eq fun _ p h => ?_
        refine Safe.bind h.attValue fun value p h => ?_
        refine Safe.bind (h.reduce (k := d + 2) (by omega) rfl) fun _ p h => ?_
        refine Safe.bind (h.setMode .sName) fun _ p h => ?_
        refine Safe.bind (h.reduce (k := d + 1) (by omega) rfl) fun _ p h => ?_
        exact (ih h (by omega)).mono fun _ p h => h.mono (Nat.sub_le n 1)
      case isFalse =>
        split
        case isTrue =>
          refine Safe.bind h.shift_any fun _ p h => ?_
          refine Safe.bind (h.reduce (k := d + 2) (by omega) rfl) fun _ p h => ?_
          refine Safe.bind (h.reduce (k := d + 2) (by omega) rfl) fun _ p h => ?_
          refine Safe.bind h.la fun token p h => ?_
          exact h.tagEnd
        case isFalse => exact h.tagEnd

theorem Seen.startTag (h : Seen token n d (opened, rooted) p) (hs : Solid token) :
    Runs (startTag fromUtf8Lossy) p fun empty => Parsing (n - 1) (d + 1) (tagged empty opened rooted) := by
  refine Safe.bind (h.shift hs) fun _ p h => ?_
  refine Safe.bind (h.setMode .name) fun _ p h => ?_
  refine Safe.bind (h.reduce (k := d + 1) (by omega) rfl) fun _ p h => ?_
  refine Safe.bind h.la fun token p h => ?_
  split
  case isTrue => exact runs_syntaxError
  case isFalse =>
    refine Safe.bind h.shift_any fun name p h => ?_
    refine Safe.bind (h.setMode .sName) fun _ p h => ?_
    refine Safe.bind (h.reduce (k := d + 1) (by omega) rfl) fun _ p h => ?_
    refine Safe.bind h.passes fun fuel p h => ?_
    obtain ⟨m, hm, hfuel, h⟩ := h
    exact (h.attributeLoop hfuel).mono fun _ p h => h.mono hm

/-- The brace and the mark before the section are part of its right-hand side. -/
theorem Parsing.cdataSection (h : Parsing n (d + 3) built p) : Runs cdataSection p fun _ => Parsing n (d + 1) built := by
  refine Safe.bind (h.expectSequence "[CDATA[".toList) fun _ p h => ?_
  refine Safe.bind (h.setMode .cData) fun _ p h => ?_
  refine Safe.bind (h.reduce (k := d + 2) (Nat.le_add_left _ _) rfl) fun _ p h => ?_
  refine Safe.bind h.la fun token p h => ?_
  split
  case isTrue => exact runs_syntaxError
  case isFalse =>
    refine Safe.bind h.shift_any fun text p h => ?_
    refine Safe.bind (h.expectSequence "]]>".toList) fun _ p h => ?_
    refine Safe.bind (h.reduce (k := d + 4) (Nat.le_add_left _ _) rfl) fun _ p h => ?_
    refine Safe.bind (h.reduce (k := d + 2) (by omega) rfl) fun _ p h => ?_
    refine Safe.bind (h.printContent text) fun _ p h => ?_
    refine Safe.bind (h.setMode .charData) fun _ p h => ?_
    exact h.reduce (by omega) rfl

/-- Inside the outermost element two levels of depth belong to each open
element. After its end tag, one level is left. -/
def Content (n d : Nat) (rooted last : Bool) (p : XmlParser) : Prop :=
  if last then Parsing n (d + 1) (0, true) p else ∃ inner, Parsing n (d + 2 * (inner + 1)) (inner + 1, rooted) p

theorem Content.mono {last : Bool} (h : Content n d rooted last p) (hle : n ≤ m) : Content m d rooted last p := by
  cases last with
  | true => exact Parsing.mono h hle
  | false =>
      obtain ⟨inner, h⟩ := h
      exact ⟨inner, h.mono hle⟩

theorem Seen.endTag {inner : Nat} (h : Seen token n (d + 2 * (inner + 1) + 1) (inner + 1, rooted) p) :
    Runs (endTag fromUtf8Lossy 0) p (Content n d rooted) := by
  have hclose (p : XmlParser) (h : Parsing n (d + 2 * (inner + 1) + 1) (inner + 1, rooted) p) : Runs (do
      XmlParser.reduce 3
      XmlParser.endElement fromUtf8Lossy
      if (← get).stack.length = 0 then return true
      else
        XmlParser.setMode .charData
        XmlParser.reduce 2
        return false) p (Content n d rooted) := by
    refine Safe.bind (h.reduce (k := d + 2 * inner + 1) (by omega) (by omega)) fun _ p h => ?_
    refine Safe.bind h.endElement fun _ p h => Safe.get_bind ?_ rfl
    cases inner with
    | zero =>
        have hlen : p.stack.length = 0 := congrArg Prod.fst h.built
        rw [hlen, if_pos rfl]
        exact .pure h
    | succ inner =>
        have hlen : p.stack.length = inner + 1 := congrArg Prod.fst h.built
        rw [hlen, if_neg (Nat.succ_ne_zero inner)]
        refine Safe.bind (h.setMode .charData) fun _ p h => ?_
        refine Safe.bind (h.reduce (k := d + 2 * (inner + 1)) (by omega) (by omega)) fun _ p h => ?_
        exact .pure ⟨inner, h⟩
  refine Safe.bind h.shift_any fun _ p h => ?_
  refine Safe.bind (h.setMode .name) fun _ p h => ?_
  refine Safe.bind (h.reduce (k := d + 2 * (inner + 1) + 1) (by omega) (by omega)) fun _ p h => ?_
  refine Safe.bind h.la fun token p h => ?_
  split
  case isTrue => exact runs_syntaxError
  case isFalse =>
    refine Safe.bind h.shift_any fun _ p h => ?_
    refine Safe.bind h.la fun token p h => ?_
    split
    case isTrue hwhite =>
      refine Safe.bind (h.whitespaceRun (solid_white hwhite)) fun _ p h => ?_
      refine Safe.bind (h.expect '>') fun _ p h => ?_
      refine Safe.bind (h.reduce (k := d + 2 * (inner + 1) + 1) (by omega) (by omega)) fun _ p h => ?_
      exact hclose p (h.mono (Nat.sub_le n 1))
    case isFalse =>
      refine Safe.bind (h.expect '>') fun _ p h => ?_
      refine Safe.bind (h.reduce (k := d + 2 * (inner + 1) + 1) (by omega) (by omega)) fun _ p h => ?_
      exact hclose p h

theorem Parsing.contentStep {inner : Nat} (h : Parsing n (d + 2 * (inner + 1)) (inner + 1, rooted) p) :
    Runs (contentStep fromUtf8Lossy 0) p fun last p => 1 ≤ n ∧ Content (n - 1) d rooted last p := by
  refine Safe.bind h.la fun token p h => ?_
  by_cases hs : Solid token
  case neg =>
    have hne : token ≠ charDataToken ∧ token ≠ elementBraceToken ∧ token ≠ code '&' ∧ token ≠ commandBraceToken := by
      refine ⟨?_, ?_, ?_, ?_⟩ <;> rintro rfl <;> exact hs (by decide)
    rw [if_neg hne.1, if_neg hne.2.1, if_neg hne.2.2.1, if_neg hne.2.2.2]
    exact runs_syntaxError
  case pos =>
    have hpos := h.pos hs
    split
    case isTrue =>
      refine Safe.bind (h.shift hs) fun text p h => ?_
      refine Safe.bind (h.printContent text) fun _ p h => ?_
      refine Safe.bind (h.setMode .charData) fun _ p h => ?_
      refine Safe.bind (h.reduce (k := d + 2 * (inner + 1)) (by omega) rfl) fun _ p h => ?_
      exact .pure ⟨hpos, inner, h⟩
    case isFalse =>
      split
      case isTrue =>
        refine Safe.bind (h.startTag hs) fun empty p h => ?_
        cases empty with
        | true =>
            rw [if_pos rfl]
            refine Safe.bind (h.setMode .charData) fun _ p h => ?_
            refine Safe.bind (h.reduce (k := d + 2 * (inner + 1)) (by omega) (by omega)) fun _ p h => ?_
            exact .pure ⟨hpos, inner, h⟩
        | false =>
            rw [if_neg Bool.false_ne_true]
            refine Safe.bind (h.setMode .charData) fun _ p h => ?_
            refine Safe.bind h.push fun _ p h => ?_
            exact .pure ⟨hpos, inner + 1, h⟩
      case isFalse =>
        split
        case isTrue =>
          refine Safe.bind (h.reference hs) fun value p h => ?_
          refine Safe.bind (h.printContent _) fun _ p h => ?_
          refine Safe.bind (h.setMode .charData) fun _ p h => ?_
          refine Safe.bind (h.reduce (k := d + 2 * (inner + 1)) (by omega) (by omega)) fun _ p h => ?_
          exact .pure ⟨hpos, inner, h⟩
        case isFalse =>
          split
          case isFalse => exact runs_syntaxError
          case isTrue =>
            refine Safe.bind (h.shift hs) fun _ p h => ?_
            refine Safe.bind h.la fun token p h => ?_
            split
            case isTrue => exact h.endTag.mono fun last p h => ⟨hpos, h⟩
            case isFalse =>
              split
              case isTrue =>
                refine Safe.bind h.shift_any fun _ p h => ?_
                refine Safe.bind h.la fun token p h => ?_
                split
                case isTrue =>
                  refine Safe.bind h.commentBody fun _ p h => ?_
                  refine Safe.bind (h.setMode .charData) fun _ p h => ?_
                  refine Safe.bind (h.reduce (k := d + 2 * (inner + 1)) (by omega) (by omega)) fun _ p h => ?_
                  exact .pure ⟨hpos, inner, h⟩
                case isFalse =>
                  split
                  case isTrue =>
                    have hsection : Parsing (n - 1) (d + 2 * inner + 1 + 3) (inner + 1, rooted) p := h.toParsing
                    exact Safe.bind hsection.cdataSection fun _ p h => .pure ⟨hpos, inner, h⟩
                  case isFalse => exact runs_syntaxError
              case isFalse =>
                split
                case isTrue =>
                  refine Safe.bind h.shift_any fun _ p h => ?_
                  exact Safe.bind (Q := fun _ _ => False) runs_processingInstruction fun _ _ h => h.elim
                case isFalse => exact runs_syntaxError

theorem Parsing.contentLoop {inner : Nat} (h : Parsing n (d + 2 * (inner + 1)) (inner + 1, rooted) p) (hfuel : n < fuel) :
    Runs (contentLoop fromUtf8Lossy 0 fuel) p fun _ => Parsing n (d + 1) (0, true) := by
  induction fuel generalizing n p inner with
  | zero => omega
  | succ fuel ih =>
      refine Safe.bind h.contentStep fun last p h => ?_
      obtain ⟨hpos, h⟩ := h
      cases last with
      | true =>
          rw [if_pos rfl]
          exact .pure (Parsing.mono h (Nat.sub_le n 1))
      | false =>
          obtain ⟨inner, h⟩ := h
          rw [if_neg Bool.false_ne_true]
          exact (ih h (by omega)).mono fun _ p h => h.mono (Nat.sub_le n 1)

theorem Seen.element (h : Seen token n d (0, rooted) p) (hs : Solid token) :
    Runs (element fromUtf8Lossy) p fun _ => Parsing n (d + 1) (0, true) := by
  have hlen : p.stack.length = 0 := congrArg Prod.fst h.built
  refine Safe.get_bind ?_ rfl
  rw [hlen]
  refine Safe.bind (h.startTag hs) fun empty p h => ?_
  cases empty with
  | true =>
      rw [if_pos rfl]
      exact .pure (h.mono (Nat.sub_le n 1))
  | false =>
      rw [if_neg Bool.false_ne_true]
      refine Safe.bind (h.setMode .charData) fun _ p h => ?_
      refine Safe.bind h.push fun _ p h => ?_
      refine Safe.bind h.passes fun fuel p h => ?_
      obtain ⟨m, hm, hfuel, h⟩ := h
      have hinner : Parsing m (d + 2 * (0 + 1)) (0 + 1, rooted) p := h
      exact (hinner.contentLoop hfuel).mono fun _ p h => h.mono (by omega)

theorem Parsing.takeRoot (h : Parsing n d (0, true) p) : Runs (do
    if (← XmlParser.la) ≠ tokenEof then throw syntaxError
    let p ← get
    set { p with root := none }
    return (⟨"", "", [], [], p.root.toList⟩ : Element)) p fun document _ => document.children ≠ [] := by
  refine Safe.bind h.la fun token p h => ?_
  split
  case isTrue => exact runs_syntaxError
  case isFalse =>
    obtain ⟨root, hroot⟩ := Option.isSome_iff_exists.mp (congrArg Prod.snd h.built)
    refine .of_ok rfl rfl ?_
    rw [hroot]
    exact List.cons_ne_nil _ _

theorem Parsing.afterRoot (h : Parsing n d (0, true) p) : Runs (do
    let token ← XmlParser.la
    if isWhitespaceToken token then XmlParser.whitespaceRun
    else if token = commandBraceToken then XmlParser.prologMiscBrace false
    else throw syntaxError
    if (← XmlParser.la) ≠ tokenEof then throw syntaxError
    let p ← get
    set { p with root := none }
    return (⟨"", "", [], [], p.root.toList⟩ : Element)) p fun document _ => document.children ≠ [] := by
  refine Safe.bind h.la fun token p h => ?_
  split
  case isTrue => exact Safe.bind h.whitespaceRun_held fun _ p h => h.takeRoot
  case isFalse =>
    split
    case isTrue htoken =>
      have hs : Solid token := by
        rw [htoken]
        decide
      exact Safe.bind (h.prologMiscBrace hs false) fun _ p h => h.takeRoot
    case isFalse => exact runs_syntaxError

theorem Parsing.document (h : Parsing n d (0, rooted) p) :
    Runs (document fromUtf8Lossy) p fun document _ => document.children ≠ [] := by
  have hs : Solid elementBraceToken := by decide
  refine Safe.bind h.la fun token p h => ?_
  split
  case isTrue htoken =>
    subst htoken
    exact Safe.bind (h.element hs) fun _ p h => h.afterRoot
  case isFalse =>
    split
    case isTrue =>
      refine Safe.bind h.prolog fun _ p h => ?_
      exact Safe.bind (h.element hs) fun _ p h => h.afterRoot
    case isFalse => exact runs_syntaxError

/-- The parser before its first token, with the depth that it starts at. -/
def startingAt (depth : Nat) (data : List UInt8) : XmlParser := { new data with depth := depth }

theorem parsing_startingAt (depth : Nat) (data : List UInt8) :
    Parsing (startingAt depth data).scan.remaining depth (0, false) (startingAt depth data) :=
  ⟨⟨_, (startingAt depth data).scan.left_remaining, Nat.le_refl _⟩, rfl, rfl⟩

end XmlParser

open XmlParser

/-- Parsing returns a document or an error of the decoder. It would do so without a panic if the
depth started at 0, and the run from a depth of 1 is that run with a depth one higher. -/
theorem xmlTree_total (fromUtf8Lossy : List UInt8 → String) (data : List UInt8) :
    ((∃ document, xmlTree fromUtf8Lossy data = .ok document) ∨ ∃ message, xmlTree fromUtf8Lossy data = .error (.decoder message)) ∧
      new data = (startingAt 0 data).deeper ∧
      Runs (document fromUtf8Lossy) (startingAt 0 data) fun document _ => document.children ≠ [] := by
  have hrun : Runs (document fromUtf8Lossy) (startingAt 0 data) fun document _ => document.children ≠ [] :=
    (parsing_startingAt 0 data).document
  have hnew : new data = (startingAt 0 data).deeper := rfl
  refine ⟨?_, hnew, hrun⟩
  obtain ⟨hends, hmirrors⟩ := hrun
  have hfail (message : String) (h : document fromUtf8Lossy (new data) = .error (.decoder message)) :
      xmlTree fromUtf8Lossy data = .error (.decoder message) := by
    simp only [xmlTree, StateT.run, h, Bind.bind, Except.bind]
  obtain hmirror | hlimit := hmirrors
  · cases hlower : document fromUtf8Lossy (startingAt 0 data) with
    | error e =>
        rw [hlower] at hends hmirror
        obtain ⟨message, rfl⟩ := hends
        exact Or.inr ⟨message, hfail message hmirror⟩
    | ok result =>
        rw [hlower] at hends hmirror
        obtain ⟨root, children, hchildren⟩ := List.exists_cons_of_ne_nil hends
        refine Or.inl ⟨⟨root⟩, ?_⟩
        have hrun : document fromUtf8Lossy (new data) = .ok (result.1, result.2.deeper) := hmirror
        simp only [xmlTree, StateT.run, hrun, Bind.bind, Except.bind, hchildren]
        rfl
  · exact Or.inr ⟨_, hfail _ hlimit⟩

end GhidraDecompiler.Xml
