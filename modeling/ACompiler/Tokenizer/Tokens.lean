import ACompiler.Utils.CString

/-!
# Tokens

`tokens.h`.
-/

namespace ACompiler

/-- `MAX_LEXEME`: the size of a lexeme buffer, its terminator included. -/
def maxLexeme : Nat := 64

/-- `Token_type`. -/
inductive TokenType
  | tUnknown | tEof
  | tIdentifier | tComment | tIf | tElse | tLet | tCall | tFunc | tByte | tWord | tDword | tQword
  | tStringLit | tNumberLit | tReturn
  | tSemicolon | tColon | tEqual | tLeftParen | tRightParen | tLeftBrace | tRightBrace
  | tLeftBracket | tRightBracket | tComma | tAnd | tDot | tMinus | tMinusMinus | tPlus | tPlusPlus
  | tStar | tDivide | tGreater | tLess | tNot
  | tEqualEqual | tNotEqual | tLessEqual | tGreaterEqual
  deriving DecidableEq, Repr

/-- `Token`; `length` is a `size_t`, `line` and `col` are `unsigned int`. -/
structure Token where
  type : TokenType
  lexeme : CString
  length : Nat
  line : Nat
  col : Nat
  deriving DecidableEq, Repr

end ACompiler
