import GhidraDecompiler.PrettyPrint.EmitPrettyPrint

namespace GhidraDecompiler.PrettyPrint

open Fallible TokenSplit

variable {σ : Type}

/-- The calls of the emitter. The pending print that `tag_line` calls back makes calls itself. -/
inductive Call
  | beginDocument | endDocument | beginFunction | endFunction | beginBlock | endBlock
  | tagLine
  | tagLineIndent (indent : Int)
  | beginReturnType | endReturnType | beginVarDecl | endVarDecl | beginStatement | endStatement | beginFuncProto | endFuncProto
  | tagVariable (name : List Byte)
  | tagOp (name : List Byte)
  | tagFuncName (name : List Byte)
  | tagType (name : List Byte)
  | tagField (name : List Byte)
  | tagBitField (name : List Byte)
  | tagComment (name : List Byte)
  | tagLabel (name : List Byte)
  | tagCaseLabel (name : List Byte)
  | print (data : List Byte)
  | openParen (paren : List Byte)
  | closeParen (paren : List Byte)
  | openGroup | closeGroup
  | clear
  | spaces (num bump : Int)
  | startIndent | stopIndent | startComment | stopComment
  | flush
  | setMaxLineSize (val : Int)
  | setCommentFill (fill : List Byte)
  | setIndentIncrement (val : Int)
  | resetDefaults

/-- The steps that calls are made of. A token is written and scanned at once. -/
inductive Action
  | token (write : TokenSplit → TokenSplit)
  | needbreak (value : Bool)
  | flush
  | clear
  | setMaxLineSize (val : Int)
  | setCommentFill (fill : List Byte)
  | setIndentIncrement (val : Int)
  | resetDefaults

open Action

def checkstart (broken : Bool) : List Action := if broken then [token (spaces 0 0), needbreak false] else [needbreak false]

def checkend (broken : Bool) : List Action := if !broken then [token (print []), needbreak true] else [needbreak true]

def checkstring (broken : Bool) : List Action := if broken then [token (spaces 0 0), needbreak true] else [needbreak true]

def checkbreak (broken : Bool) : List Action := if !broken then [token (print []), needbreak false] else [needbreak false]

/-- What a call does when `needbreak` has a value and the indent an increment. -/
def Call.actions (broken : Bool) (increment : Int) : Call → List Action
  | beginDocument => checkstart broken ++ [token TokenSplit.beginDocument]
  | endDocument => checkend broken ++ [token TokenSplit.endDocument]
  | beginFunction => checkstart broken ++ [token TokenSplit.beginFunction]
  | endFunction => checkend broken ++ [token TokenSplit.endFunction]
  | beginBlock => [token TokenSplit.beginBlock]
  | endBlock => [token TokenSplit.endBlock]
  | tagLine => checkbreak broken ++ [token TokenSplit.tagLine]
  | tagLineIndent indent => checkbreak broken ++ [token (TokenSplit.tagLineIndent indent)]
  | beginReturnType => checkstart broken ++ [token TokenSplit.beginReturnType]
  | endReturnType => checkend broken ++ [token TokenSplit.endReturnType]
  | beginVarDecl => checkstart broken ++ [token TokenSplit.beginVarDecl]
  | endVarDecl => checkend broken ++ [token TokenSplit.endVarDecl]
  | beginStatement => checkstart broken ++ [token TokenSplit.beginStatement]
  | endStatement => checkend broken ++ [token TokenSplit.endStatement]
  | beginFuncProto => checkstart broken ++ [token TokenSplit.beginFuncProto]
  | endFuncProto => checkend broken ++ [token TokenSplit.endFuncProto]
  | tagVariable name => checkstring broken ++ [token (TokenSplit.tagVariable name)]
  | tagOp name => checkstring broken ++ [token (TokenSplit.tagOp name)]
  | tagFuncName name => checkstring broken ++ [token (TokenSplit.tagFuncName name)]
  | tagType name => checkstring broken ++ [token (TokenSplit.tagTypeName name)]
  | tagField name => checkstring broken ++ [token (TokenSplit.tagField name)]
  | tagBitField name => checkstring broken ++ [token (TokenSplit.tagBitField name)]
  | tagComment name => checkstring broken ++ [token (TokenSplit.tagComment name)]
  | tagLabel name => checkstring broken ++ [token (TokenSplit.tagLabel name)]
  | tagCaseLabel name => checkstring broken ++ [token (TokenSplit.tagCaseLabel name)]
  | print data => checkstring broken ++ [token (TokenSplit.print data)]
  | openParen paren =>
      checkstart broken ++ [token TokenSplit.openGroup, token (TokenSplit.openParen paren), needbreak true]
  | closeParen paren =>
      -- the string has set `needbreak` when the group is closed
      checkstring broken ++ [token (TokenSplit.closeParen paren)] ++ checkend true ++ [token TokenSplit.closeGroup]
  | openGroup => checkstart broken ++ [token TokenSplit.openGroup]
  | closeGroup => checkend broken ++ [token TokenSplit.closeGroup]
  | clear => [Action.clear]
  | spaces num bump => checkbreak broken ++ [token (TokenSplit.spaces num bump)]
  | startIndent => [token (TokenSplit.startIndent increment)]
  | stopIndent => [token TokenSplit.stopIndent]
  | startComment => checkstart broken ++ [token TokenSplit.startComment]
  | stopComment => checkend broken ++ [token TokenSplit.stopComment]
  | flush => [Action.flush]
  | setMaxLineSize val => [Action.setMaxLineSize val]
  | setCommentFill fill => [Action.setCommentFill fill]
  | setIndentIncrement val => [Action.setIndentIncrement val]
  | resetDefaults => [Action.resetDefaults]

namespace EmitPrettyPrint

def setMaxLineSize (emit : Emit σ) (val : Int) (s : EmitPrettyPrint σ) : Outcome (EmitPrettyPrint σ) :=
  if h : 20 ≤ val.toNat ∧ val ≤ 10000 then pure (s.applyMaxLineSize emit val.toNat h.1)
  else .error (.lowlevel "Bad maximum line size")

theorem minLineSize_le_default : 20 ≤ 100 := by decide

def resetDefaults (emit : Emit σ) (s : EmitPrettyPrint σ) : EmitPrettyPrint σ :=
  applyMaxLineSize emit 100 minLineSize_le_default { s with indentincrement := 2 }

def perform (emit : Emit σ) (s : EmitPrettyPrint σ) : Action → Outcome (EmitPrettyPrint σ)
  | .token write => addToken emit write s
  | .needbreak value => pure { s with needbreak := value }
  | .flush => s.flush emit
  | .clear => pure (s.clear emit)
  | .setMaxLineSize val => s.setMaxLineSize emit val
  | .setCommentFill fill => pure { s with commentfill := fill }
  | .setIndentIncrement val => pure { s with indentincrement := val }
  | .resetDefaults => pure (s.resetDefaults emit)

/-- The states of runs of calls, also those inside of a call, with what the call has still to do. -/
inductive Reached (emit : Emit σ) (allowed : Call → Prop) (guarded : EmitPrettyPrint σ → Action → Prop) (s₀ : EmitPrettyPrint σ) :
    EmitPrettyPrint σ → List Action → Prop
  | start : Reached emit allowed guarded s₀ s₀ []
  | call {s : EmitPrettyPrint σ} {c : Call} (h : Reached emit allowed guarded s₀ s []) (hc : allowed c) :
      Reached emit allowed guarded s₀ s (c.actions s.needbreak s.indentincrement)
  | perform {s s' : EmitPrettyPrint σ} {a : Action} {rest : List Action} (h : Reached emit allowed guarded s₀ s (a :: rest))
      (ha : guarded s a) (hs : s.perform emit a = .ok s') : Reached emit allowed guarded s₀ s' rest

def performAll (emit : Emit σ) (s : EmitPrettyPrint σ) (actions : List Action) : Outcome (EmitPrettyPrint σ) :=
  actions.foldlM (perform emit) s

def makeCalls (emit : Emit σ) (s : EmitPrettyPrint σ) (calls : List Call) : Outcome (EmitPrettyPrint σ) :=
  calls.foldlM (fun s c => performAll emit s (c.actions s.needbreak s.indentincrement)) s

variable {emit : Emit σ} {s₀ s s' : EmitPrettyPrint σ} {allowed : Call → Prop}

theorem reached_performAll {actions : List Action} (h : Reached emit allowed (fun _ _ => True) s₀ s actions)
    (hs : performAll emit s actions = .ok s') : Reached emit allowed (fun _ _ => True) s₀ s' [] := by
  induction actions generalizing s with
  | nil =>
      cases hs
      exact h
  | cons a actions ih =>
      rw [performAll, List.foldlM_cons] at hs
      obtain ⟨s₁, hs₁, hs⟩ := bind_eq_ok.mp hs
      exact ih (h.perform trivial hs₁) hs

/-- A run of calls that all return. -/
theorem reached_makeCalls {calls : List Call} (h : Reached emit allowed (fun _ _ => True) s₀ s []) (hall : ∀ c ∈ calls, allowed c)
    (hs : makeCalls emit s calls = .ok s') : Reached emit allowed (fun _ _ => True) s₀ s' [] := by
  induction calls generalizing s with
  | nil =>
      cases hs
      exact h
  | cons c calls ih =>
      rw [makeCalls, List.foldlM_cons] at hs
      obtain ⟨s₁, hs₁, hs⟩ := bind_eq_ok.mp hs
      exact ih (reached_performAll (h.call (hall c List.mem_cons_self)) hs₁)
        (fun c' hc' => hall c' (List.mem_cons_of_mem _ hc')) hs

end EmitPrettyPrint

end GhidraDecompiler.PrettyPrint
