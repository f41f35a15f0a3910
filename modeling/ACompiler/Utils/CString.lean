import Mathlib

/-!
# C strings

Lexemes, names and source text are byte strings. The character classes are the C locale's, and
`strtoll` and `strtoul` follow the C standard for base 10: leading white space, an optional sign,
the longest run of digits, saturation at the ends of the range.
-/

namespace ACompiler

/-- A C string without its terminator. -/
abbrev CString := List UInt8

/-- The bytes of a literal of the source. -/
def ascii (s : String) : CString := s.toList.map fun c => c.toNat.toUInt8

def isalpha (c : UInt8) : Bool := (65 ≤ c && c ≤ 90) || (97 ≤ c && c ≤ 122)

def isdigit (c : UInt8) : Bool := 48 ≤ c && c ≤ 57

def isspace (c : UInt8) : Bool := c == 32 || (9 ≤ c && c ≤ 13)

/-- The value of a run of decimal digits. -/
def digitsVal (w : CString) : Nat := w.foldl (fun n c => 10 * n + (c.toNat - 48)) 0

/-- The sign and the digits that `strtoll` and `strtoul` read. -/
def scanNumber (w : CString) : Bool × Nat :=
  match w.dropWhile isspace with
  | 45 :: rest => (true, digitsVal (rest.takeWhile isdigit))
  | 43 :: rest => (false, digitsVal (rest.takeWhile isdigit))
  | rest => (false, digitsVal (rest.takeWhile isdigit))

/-- `strtoll(w, NULL, 10)`. -/
def strtoll (w : CString) : Int :=
  match scanNumber w with
  | (true, n) => max (-n) (-2 ^ 63)
  | (false, n) => min n (2 ^ 63 - 1)

/-- `strtoul(w, NULL, 10)`: a negative number wraps around, one out of range is `ULONG_MAX`. -/
def strtoul (w : CString) : Nat :=
  match scanNumber w with
  | (true, n) => if 2 ^ 64 ≤ n then 2 ^ 64 - 1 else (2 ^ 64 - n) % 2 ^ 64
  | (false, n) => min n (2 ^ 64 - 1)

example : strtoll (ascii "1_000") = 1 := by decide

end ACompiler
