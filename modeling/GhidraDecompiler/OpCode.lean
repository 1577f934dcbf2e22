import Mathlib.Init

namespace GhidraDecompiler

/-- The p-code operations, in the order of their encoding. -/
inductive OpCode
  | blank | copy | load | store | branch | cbranch | branchind | call | callind | callother | return
  | intEqual | intNotequal | intSless | intSlessequal | intLess | intLessequal | intZext | intSext
  | intAdd | intSub | intCarry | intScarry | intSborrow | int2comp | intNegate | intXor | intAnd | intOr
  | intLeft | intRight | intSright | intMult | intDiv | intSdiv | intRem | intSrem
  | boolNegate | boolXor | boolAnd | boolOr
  | floatEqual | floatNotequal | floatLess | floatLessequal | unused1 | floatNan | floatAdd | floatDiv
  | floatMult | floatSub | floatNeg | floatAbs | floatSqrt | floatInt2float | floatFloat2float
  | floatTrunc | floatCeil | floatFloor | floatRound
  | multiequal | indirect | piece | subpiece | cast | ptradd | ptrsub | segmentop | cpoolref | new
  | insert | zpull | popcount | lzcount | spull | max
  deriving DecidableEq

/-- The table of names ends before the last two operations. -/
def opcodeNames : List String :=
  ["BLANK", "COPY", "LOAD", "STORE", "BRANCH", "CBRANCH", "BRANCHIND", "CALL", "CALLIND", "CALLOTHER",
   "RETURN", "INT_EQUAL", "INT_NOTEQUAL", "INT_SLESS", "INT_SLESSEQUAL", "INT_LESS", "INT_LESSEQUAL",
   "INT_ZEXT", "INT_SEXT", "INT_ADD", "INT_SUB", "INT_CARRY", "INT_SCARRY", "INT_SBORROW", "INT_2COMP",
   "INT_NEGATE", "INT_XOR", "INT_AND", "INT_OR", "INT_LEFT", "INT_RIGHT", "INT_SRIGHT", "INT_MULT",
   "INT_DIV", "INT_SDIV", "INT_REM", "INT_SREM", "BOOL_NEGATE", "BOOL_XOR", "BOOL_AND", "BOOL_OR",
   "FLOAT_EQUAL", "FLOAT_NOTEQUAL", "FLOAT_LESS", "FLOAT_LESSEQUAL", "UNUSED1", "FLOAT_NAN", "FLOAT_ADD",
   "FLOAT_DIV", "FLOAT_MULT", "FLOAT_SUB", "FLOAT_NEG", "FLOAT_ABS", "FLOAT_SQRT", "INT2FLOAT",
   "FLOAT2FLOAT", "TRUNC", "CEIL", "FLOOR", "ROUND", "BUILD", "DELAY_SLOT", "PIECE", "SUBPIECE", "CAST",
   "LABEL", "CROSSBUILD", "SEGMENTOP", "CPOOLREF", "NEW", "INSERT", "EXTRACT", "POPCOUNT", "LZCOUNT"]

def getOpname (opc : OpCode) : String := opcodeNames.getD opc.ctorIdx ""

end GhidraDecompiler
