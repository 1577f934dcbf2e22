import GhidraDecompiler.Lib.Fallible

namespace GhidraDecompiler.PrettyPrint

open Fallible

abbrev Byte := BitVec 8

def newline : Byte := 0x0a

def blank : Byte := 0x20

inductive PrintClass
  | begin_ | end_ | tokenstring | tokenbreak | beginIndent | endIndent | beginComment | endComment | ignore
  deriving DecidableEq

inductive TagType
  | docuB | docuE | funcB | funcE | blocB | blocE | rtypB | rtypE | vardB | vardE | statB | statE | protB | protE
  | variT | opT | fnamT | typeT | fieldT | bitfieldT | commT | labelT | caseT | syntT | oparT | cparT | oinvT | cinvT
  | spacT | bumpT | lineT
  deriving DecidableEq

structure TokenSplit where
  tagtype : TagType := .docuB
  delimtype : PrintClass := .begin_
  tok : List Byte := []
  indentbump : Int := 0
  numspaces : Int := 0
  size : Int := 0
  deriving DecidableEq

/-- What the printer calls of the emitter below it, on the state of that one.
The calls that begin and end something and the calls with a text are told apart by their tags, and the
fill of a comment from the texts of tokens. -/
structure Emit (σ : Type) where
  mark : TagType → σ → Outcome σ
  text : TagType → List Byte → σ → Outcome σ
  fill : List Byte → σ → Outcome σ
  openParen : List Byte → σ → Outcome σ
  closeParen : List Byte → σ → Outcome σ
  spaces : Int → σ → Outcome σ
  tagLineIndent : Int → σ → Outcome σ
  flush : σ → Outcome σ
  clear : σ → σ

namespace TokenSplit

instance : Inhabited TokenSplit := ⟨{}⟩

def setToken (name : List Byte) (t : TokenSplit) : TokenSplit := { t with tok := name, size := name.length }

/-- A token that begins or ends something and leaves the other data of its place. -/
def mark (tag : TagType) (cls : PrintClass) (t : TokenSplit) : TokenSplit := { t with tagtype := tag, delimtype := cls }

def text (tag : TagType) (name : List Byte) (t : TokenSplit) : TokenSplit :=
  { t.setToken name with tagtype := tag, delimtype := .tokenstring }

/-- A parenthesis has the size 1. -/
def paren (tag : TagType) (data : List Byte) (t : TokenSplit) : TokenSplit :=
  { t with tok := data, size := 1, tagtype := tag, delimtype := .tokenstring }

def lineBreak (tag : TagType) (num bump : Int) (t : TokenSplit) : TokenSplit :=
  { t with tagtype := tag, delimtype := .tokenbreak, numspaces := num, indentbump := bump }

def beginDocument (t : TokenSplit) : TokenSplit := { t.mark .docuB .begin_ with size := 0 }
def endDocument (t : TokenSplit) : TokenSplit := { t.mark .docuE .end_ with size := 0 }
def beginFunction (t : TokenSplit) : TokenSplit := { t.mark .funcB .begin_ with size := 0 }
def endFunction (t : TokenSplit) : TokenSplit := { t.mark .funcE .end_ with size := 0 }
def beginBlock : TokenSplit → TokenSplit := mark .blocB .ignore
def endBlock : TokenSplit → TokenSplit := mark .blocE .ignore
def beginReturnType : TokenSplit → TokenSplit := mark .rtypB .begin_
def endReturnType : TokenSplit → TokenSplit := mark .rtypE .end_
def beginVarDecl : TokenSplit → TokenSplit := mark .vardB .begin_
def endVarDecl : TokenSplit → TokenSplit := mark .vardE .end_
def beginStatement : TokenSplit → TokenSplit := mark .statB .begin_
def endStatement : TokenSplit → TokenSplit := mark .statE .end_
def beginFuncProto : TokenSplit → TokenSplit := mark .protB .begin_
def endFuncProto : TokenSplit → TokenSplit := mark .protE .end_
def tagVariable : List Byte → TokenSplit → TokenSplit := text .variT
def tagOp : List Byte → TokenSplit → TokenSplit := text .opT
def tagFuncName : List Byte → TokenSplit → TokenSplit := text .fnamT
def tagTypeName : List Byte → TokenSplit → TokenSplit := text .typeT
def tagField : List Byte → TokenSplit → TokenSplit := text .fieldT
def tagBitField : List Byte → TokenSplit → TokenSplit := text .bitfieldT
def tagComment : List Byte → TokenSplit → TokenSplit := text .commT
def tagLabel : List Byte → TokenSplit → TokenSplit := text .labelT
def tagCaseLabel : List Byte → TokenSplit → TokenSplit := text .caseT
def print : List Byte → TokenSplit → TokenSplit := text .syntT
def openParen : List Byte → TokenSplit → TokenSplit := paren .oparT
def closeParen : List Byte → TokenSplit → TokenSplit := paren .cparT
def openGroup : TokenSplit → TokenSplit := mark .oinvT .begin_
def closeGroup : TokenSplit → TokenSplit := mark .cinvT .end_
def startIndent (bump : Int) (t : TokenSplit) : TokenSplit := { t.mark .bumpT .beginIndent with indentbump := bump, size := 0 }
def stopIndent (t : TokenSplit) : TokenSplit := { t.mark .bumpT .endIndent with size := 0 }
def startComment : TokenSplit → TokenSplit := mark .oinvT .beginComment
def stopComment : TokenSplit → TokenSplit := mark .cinvT .endComment
def spaces : Int → Int → TokenSplit → TokenSplit := lineBreak .spacT
def tagLine : TokenSplit → TokenSplit := lineBreak .bumpT 999999 0
def tagLineIndent : Int → TokenSplit → TokenSplit := lineBreak .lineT 999999

/-- What a token adds to the totals. -/
def width (t : TokenSplit) : Int :=
  match t.delimtype with
  | .tokenstring => t.size
  | .tokenbreak => t.numspaces
  | _ => 0

def printEmit {σ : Type} (emit : Emit σ) (t : TokenSplit) (out : σ) : Outcome σ :=
  match t.tagtype with
  | .docuB | .docuE | .funcB | .funcE | .blocB | .blocE | .rtypB | .rtypE | .vardB | .vardE | .statB | .statE
  | .protB | .protE => emit.mark t.tagtype out
  | .variT | .opT | .fnamT | .typeT | .fieldT | .bitfieldT | .commT | .labelT | .caseT | .syntT => emit.text t.tagtype t.tok out
  | .oparT => emit.openParen t.tok out
  | .cparT => emit.closeParen t.tok out
  | .oinvT | .cinvT => pure out
  | .spacT => emit.spaces t.numspaces out
  | .lineT | .bumpT => .error (.lowlevel "Should never get called")

end TokenSplit

/-- The emitter of plain text. -/
structure EmitNoMarkup where
  parenlevel : Int
  s : List Byte
  deriving DecidableEq

namespace EmitNoMarkup

def print (data : List Byte) (out : EmitNoMarkup) : EmitNoMarkup := { out with s := out.s ++ data }

def openParen (paren : List Byte) (out : EmitNoMarkup) : EmitNoMarkup :=
  { out.print paren with parenlevel := out.parenlevel + 1 }

def closeParen (paren : List Byte) (out : EmitNoMarkup) : EmitNoMarkup :=
  { out.print paren with parenlevel := out.parenlevel - 1 }

/-- A negative number is taken as 0. -/
def spaces (num : Int) (out : EmitNoMarkup) : EmitNoMarkup := out.print (List.replicate num.toNat blank)

def tagLineIndent (indent : Int) (out : EmitNoMarkup) : EmitNoMarkup :=
  { out with s := out.s ++ newline :: List.replicate indent.toNat blank }

def emit : Emit EmitNoMarkup where
  mark _ out := pure out
  text _ name out := pure (out.print name)
  fill data out := pure (out.print data)
  openParen paren out := pure (out.openParen paren)
  closeParen paren out := pure (out.closeParen paren)
  spaces num out := pure (out.spaces num)
  tagLineIndent indent out := pure (out.tagLineIndent indent)
  flush out := pure out
  clear out := { out with parenlevel := 0 }

end EmitNoMarkup

end GhidraDecompiler.PrettyPrint
