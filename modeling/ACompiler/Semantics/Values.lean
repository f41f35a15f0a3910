import ACompiler.Lib.Memory
import ACompiler.Parser.Ast

/-!
# Values and operators

What the operators of the language mean on 64-bit words: arithmetic wraps around, comparisons are
signed and yield 0 or 1, and division truncates toward zero and has no result for a zero divisor or
for `INT64_MIN / -1`.
-/

namespace ACompiler

open Lib (Word)

/-- `INT64_MIN`. -/
def int64Min : Word := BitVec.intMin 64

/-- The truth value of a comparison. -/
def boolVal (b : Bool) : Word := if b then 1 else 0

def unaryVal : UnaryOp → Word → Option Word
  | .uPos, a => some a
  | .uNeg, a => some (-a)
  | .uNot, a => some (boolVal (decide (a = 0)))
  | _, _ => none

def binaryVal : BinaryOp → Word → Word → Option Word
  | .bAdd, a, b => some (a + b)
  | .bSub, a, b => some (a - b)
  | .bMul, a, b => some (a * b)
  | .bDiv, a, b =>
    if b = 0 ∨ (a = int64Min ∧ b = -1) then none else some (BitVec.ofInt 64 (a.toInt.tdiv b.toInt))
  | .bLess, a, b => some (boolVal (decide (a.toInt < b.toInt)))
  | .bGreater, a, b => some (boolVal (decide (b.toInt < a.toInt)))
  | .bEqualEqual, a, b => some (boolVal (decide (a = b)))
  | .bNotEqual, a, b => some (boolVal (decide (a ≠ b)))
  | .bGeq, a, b => some (boolVal (decide (b.toInt ≤ a.toInt)))
  | .bLeq, a, b => some (boolVal (decide (a.toInt ≤ b.toInt)))

end ACompiler
