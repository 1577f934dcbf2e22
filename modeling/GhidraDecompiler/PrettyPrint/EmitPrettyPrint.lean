import GhidraDecompiler.Address
import GhidraDecompiler.PrettyPrint.CircularQueue
import GhidraDecompiler.PrettyPrint.TokenSplit

namespace GhidraDecompiler.PrettyPrint

open Fallible

variable {σ : Type}

/-- The part of the printer that has no tokens. The last entry of the vector `indentstack` comes first. -/
structure Margin (σ : Type) where
  lowlevel : σ
  indentstack : List Int
  spaceremain : Int
  maxlinesize : Int
  commentmode : Bool
  commentfill : List Byte
  indentincrement : Int

structure EmitPrettyPrint (σ : Type) extends Margin σ where
  leftotal : Int
  rightotal : Int
  needbreak : Bool
  scanqueue : CircularQueue Nat
  tokqueue : CircularQueue TokenSplit

namespace Margin

/-- A line break in front of the space that remains, with the fill of a comment. -/
def breakLine (emit : Emit σ) (m : Margin σ) : Outcome (Margin σ) := do
  let out ← emit.tagLineIndent (m.maxlinesize - m.spaceremain) m.lowlevel
  if m.commentmode && !m.commentfill.isEmpty then
    let out ← emit.fill m.commentfill out
    pure { m with lowlevel := out, spaceremain := m.spaceremain - m.commentfill.length }
  else pure { m with lowlevel := out }

/-- The loop of `overflow` over the indents, from the last one on. -/
def raiseIndents (half : Int) : List Int → List Int
  | [] => []
  | indent :: rest => if indent < half then half :: raiseIndents half rest else indent :: rest

def overflow (emit : Emit σ) (m : Margin σ) : Outcome (Margin σ) :=
  let indentstack := raiseIndents (m.maxlinesize / 2) m.indentstack
  let newspaceremain := indentstack.head?.getD m.maxlinesize
  if newspaceremain = m.spaceremain then pure { m with indentstack := indentstack }
  else if m.commentmode && newspaceremain = m.spaceremain + m.commentfill.length then
    pure { m with indentstack := indentstack }
  else breakLine emit { m with indentstack := indentstack, spaceremain := newspaceremain }

def indentBack (m : Margin σ) : Outcome Int :=
  match m.indentstack.head? with
  | some last => pure last
  | none => .error (.lowlevel "indent error")

def printToken (emit : Emit σ) (tok : TokenSplit) (m : Margin σ) : Outcome (Margin σ) :=
  match tok.delimtype with
  | .ignore => do
      let out ← tok.printEmit emit m.lowlevel
      pure { m with lowlevel := out }
  | .beginIndent => do
      let last ← m.indentBack
      pure { m with indentstack := (last - tok.indentbump) :: m.indentstack }
  | .beginComment | .begin_ => do
      let m := if tok.delimtype = .beginComment then { m with commentmode := true } else m
      let out ← tok.printEmit emit m.lowlevel
      pure { m with lowlevel := out, indentstack := m.spaceremain :: m.indentstack }
  | .endIndent =>
      if m.indentstack.isEmpty then .error (.lowlevel "indent error") else pure { m with indentstack := m.indentstack.tail }
  | .endComment | .end_ => do
      let m := if tok.delimtype = .endComment then { m with commentmode := false } else m
      let out ← tok.printEmit emit m.lowlevel
      pure { m with lowlevel := out, indentstack := m.indentstack.tail }
  | .tokenstring => do
      let m ← if tok.size > m.spaceremain then overflow emit m else pure m
      let out ← tok.printEmit emit m.lowlevel
      pure { m with lowlevel := out, spaceremain := m.spaceremain - tok.size }
  | .tokenbreak =>
      if tok.size > m.spaceremain then
        if tok.tagtype = .lineT then breakLine emit { m with spaceremain := m.maxlinesize - tok.indentbump }
        else do
          let val := (← m.indentBack) - tok.indentbump
          if tok.numspaces ≤ m.spaceremain ∧ val - m.spaceremain < 10 then
            let out ← emit.spaces tok.numspaces m.lowlevel
            pure { m with lowlevel := out, spaceremain := m.spaceremain - tok.numspaces }
          else breakLine emit { m with indentstack := val :: m.indentstack.tail, spaceremain := val }
      else do
        let out ← emit.spaces tok.numspaces m.lowlevel
        pure { m with lowlevel := out, spaceremain := m.spaceremain - tok.numspaces }

end Margin

namespace EmitPrettyPrint

def clear (emit : Emit σ) (s : EmitPrettyPrint σ) : EmitPrettyPrint σ :=
  { s with
    lowlevel := emit.clear s.lowlevel
    indentstack := []
    spaceremain := s.maxlinesize
    commentmode := false
    leftotal := 1
    rightotal := 1
    needbreak := false
    scanqueue := s.scanqueue.clear
    tokqueue := s.tokqueue.clear }

def applyMaxLineSize (emit : Emit σ) (val : Nat) (h : 20 ≤ val) (s : EmitPrettyPrint σ) : EmitPrettyPrint σ :=
  clear emit { s with
    maxlinesize := val
    scanqueue := s.scanqueue.setMax (3 * val) (by omega)
    tokqueue := s.tokqueue.setMax (3 * val) (by omega)
    spaceremain := val }

def new (emit : Emit σ) (out : σ) : EmitPrettyPrint σ :=
  applyMaxLineSize emit 100 (by decide)
    { lowlevel := out, indentstack := [], spaceremain := 0, maxlinesize := 0, commentmode := false, commentfill := [],
      indentincrement := 2, leftotal := 1, rightotal := 1, needbreak := false,
      scanqueue := .new 300 (by decide), tokqueue := .new 300 (by decide) }

/-- Both queues grow, and the references count from the bottom of the old token queue. -/
def expand (s : EmitPrettyPrint σ) : EmitPrettyPrint σ :=
  let max := s.tokqueue.getMax
  let left := s.tokqueue.bottomref
  let references := (List.range max).foldl
    (fun queue index => queue.modifyAt index fun reference => (reference + max - left) % max) s.scanqueue
  { s with tokqueue := s.tokqueue.expand 200, scanqueue := references.expand 200 }

/-- The totals start again. -/
def resetTotals (s : EmitPrettyPrint σ) : EmitPrettyPrint σ := { s with leftotal := 1, rightotal := 1 }

def setSize (reference : Nat) (size : Int) (s : EmitPrettyPrint σ) : EmitPrettyPrint σ :=
  { s with tokqueue := s.tokqueue.modifyAt reference fun entry => { entry with size := size } }

def addSize (reference : Nat) (amount : Int) (s : EmitPrettyPrint σ) : EmitPrettyPrint σ :=
  { s with tokqueue := s.tokqueue.modifyAt reference fun entry => { entry with size := asI32 (entry.size + amount) } }

/-- The loop of `advanceleft`. The fuel is the number of places of the queue. -/
def advance (emit : Emit σ) : Nat → EmitPrettyPrint σ → Outcome (EmitPrettyPrint σ)
  | 0, _ => .error .outOfFuel
  | fuel + 1, s =>
      let tok := s.tokqueue.bottom
      if tok.size ≥ 0 then do
        let m ← s.toMargin.printToken emit tok
        let total := match tok.delimtype with
          | .tokenbreak => asI32 (s.leftotal + tok.numspaces)
          | .tokenstring => asI32 (s.leftotal + tok.size)
          | _ => s.leftotal
        let s := { s with toMargin := m, leftotal := total, tokqueue := s.tokqueue.popbottom }
        if s.tokqueue.empty then pure s else advance emit fuel s
      else pure s

def advanceleft (emit : Emit σ) (s : EmitPrettyPrint σ) : Outcome (EmitPrettyPrint σ) := advance emit s.tokqueue.getMax s

/-- The group or the break of the first reference is too wide for a line. -/
def openBottom (s : EmitPrettyPrint σ) : EmitPrettyPrint σ :=
  ({ s with scanqueue := s.scanqueue.popbottom } : EmitPrettyPrint σ).setSize s.scanqueue.bottom 999999

/-- The loop of `scan` on a string that does not fit. -/
def popWide (emit : Emit σ) : Nat → EmitPrettyPrint σ → Outcome (EmitPrettyPrint σ)
  | 0, _ => .error .outOfFuel
  | fuel + 1, s =>
      if asI32 (s.rightotal - s.leftotal) > s.spaceremain then do
        let s ← advanceleft emit s.openBottom
        if s.scanqueue.empty then pure s else popWide emit fuel s
      else pure s

/-- The group or the break that the last reference denotes gets its size. -/
def closeTop (s : EmitPrettyPrint σ) : EmitPrettyPrint σ :=
  ({ s with scanqueue := s.scanqueue.pop } : EmitPrettyPrint σ).addSize s.scanqueue.top s.rightotal

/-- The cases of `scan`, on the token at the top. -/
def scanTop (emit : Emit σ) (s : EmitPrettyPrint σ) : Outcome (EmitPrettyPrint σ) :=
  let top := s.tokqueue.topref
  match (s.tokqueue.refAt top).delimtype with
  | .beginComment | .begin_ =>
      let s := if s.scanqueue.empty then s.resetTotals else s
      let s := s.setSize top (asI32 (-s.rightotal))
      pure { s with scanqueue := s.scanqueue.push fun _ => top }
  | .endComment | .end_ =>
      let s := s.setSize top 0
      if s.scanqueue.empty then pure s
      else
        let reference := s.scanqueue.top
        let s := s.closeTop
        let s := if (s.tokqueue.refAt reference).delimtype = .tokenbreak && !s.scanqueue.empty then s.closeTop else s
        if s.scanqueue.empty then advanceleft emit s else pure s
  | .tokenbreak =>
      let s :=
        if s.scanqueue.empty then s.resetTotals
        else if (s.tokqueue.refAt s.scanqueue.top).delimtype = .tokenbreak then s.closeTop
        else s
      let s := s.setSize top (asI32 (-s.rightotal))
      let numspaces := (s.tokqueue.refAt top).numspaces
      pure { s with scanqueue := s.scanqueue.push fun _ => top, rightotal := asI32 (s.rightotal + numspaces) }
  | .beginIndent | .endIndent | .ignore => pure (s.setSize top 0)
  | .tokenstring =>
      if s.scanqueue.empty then pure s
      else
        let s := { s with rightotal := asI32 (s.rightotal + (s.tokqueue.refAt top).size) }
        popWide emit s.scanqueue.getMax s

def scan (emit : Emit σ) (s : EmitPrettyPrint σ) : Outcome (EmitPrettyPrint σ) :=
  scanTop emit (if s.tokqueue.empty then s.expand else s)

/-- A token written to the next place and scanned. -/
def addToken (emit : Emit σ) (write : TokenSplit → TokenSplit) (s : EmitPrettyPrint σ) : Outcome (EmitPrettyPrint σ) :=
  scan emit { s with tokqueue := s.tokqueue.push write }

/-- The loop of `flush`. -/
def flushTokens (emit : Emit σ) : Nat → EmitPrettyPrint σ → Outcome (EmitPrettyPrint σ)
  | 0, _ => .error .outOfFuel
  | fuel + 1, s =>
      if s.tokqueue.empty then pure s
      else
        let tok := s.tokqueue.bottom
        if tok.size < 0 then .error (.lowlevel "Cannot flush pretty printer. Missing group end")
        else do
          let m ← s.toMargin.printToken emit tok
          flushTokens emit fuel { s with toMargin := m, tokqueue := s.tokqueue.popbottom }

def flush (emit : Emit σ) (s : EmitPrettyPrint σ) : Outcome (EmitPrettyPrint σ) := do
  let s ← flushTokens emit (s.tokqueue.getMax + 1) s
  let out ← emit.flush s.lowlevel
  pure { s with lowlevel := out, needbreak := false }

end EmitPrettyPrint

end GhidraDecompiler.PrettyPrint
