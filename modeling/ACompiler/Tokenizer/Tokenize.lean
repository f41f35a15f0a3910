import ACompiler.Tokenizer.Tokens
import ACompiler.Utils.HashTable
import ACompiler.Utils.Stdio

/-!
# The tokenizer

`tokenizer.c`, function by function, over an explicit `Tokenizer`. Source files are shorter than
2^31 bytes, so the indices, which are `int`s, and the byte count are natural numbers. A write behind
the end of a lexeme buffer ends the run with `overflow`. Loops take fuel.
-/

namespace ACompiler

open File (fgetc ungetc ftell fseek fread)

/-- `Tokenizer`. -/
structure Tokenizer where
  sourcefile : File
  filesize : Nat
  cur : UInt8
  startIdx : Nat
  curIdx : Nat
  curLine : Nat
  deriving DecidableEq, Repr

/-- The ways the tokenizer ends without a token list. -/
inductive ScanError
  /-- `Unidentifiable type` is printed with the word, and the program exits. -/
  | unidentifiable (word : CString)
  /-- A lexeme buffer is written past its end. -/
  | overflow
  /-- `fread` left a part of a word unwritten. -/
  | indeterminate
  | outOfFuel
  deriving DecidableEq, Repr

/-- The keywords of `initTokenMap`, in the order in which they are added. -/
def keywords : List (CString × TokenType) :=
  [(ascii "call", .tCall), (ascii "let", .tLet), (ascii "BYTE", .tByte), (ascii "WORD", .tWord),
    (ascii "DWORD", .tDword), (ascii "QWORD", .tQword), (ascii "return", .tReturn),
    (ascii "if", .tIf), (ascii "else", .tElse), (ascii "fn", .tFunc)]

/-- `token_hash` after `initTokenMap`. -/
def tokenHash : HashTable TokenType :=
  keywords.foldl (fun h entry => h.addHt entry.1 entry.2) (.createHt 100 (by decide))

namespace Tokenizer

/-- The part of a `char` array before its terminator. -/
def cString (word : CString) : CString := word.takeWhile (· ≠ 0)

def getCurWord (t : Tokenizer) : Except ScanError (CString × Tokenizer) :=
  let length := t.curIdx - t.startIdx
  let savedIdx := t.sourcefile.ftell
  let (word, file) := (t.sourcefile.fseek t.startIdx).fread length
  -- `word[length] = '\0'`, in a buffer of `MAX_LEXEME`
  if maxLexeme ≤ length then .error .overflow
  else if word.length < length then .error .indeterminate
  else .ok (cString word, { t with sourcefile := file.fseek savedIdx })

def createToken (type : TokenType) (t : Tokenizer) : Except ScanError (Token × Tokenizer) := do
  let (lexeme, t) ← t.getCurWord
  pure (⟨type, lexeme, t.curIdx - t.startIdx, t.curLine, t.curIdx⟩, t)

def peek (t : Tokenizer) : UInt8 := if t.filesize ≤ t.curIdx then 0 else t.cur

def peekNext (t : Tokenizer) : UInt8 × Tokenizer :=
  if t.filesize ≤ t.curIdx + 1 then (0, t)
  else
    let (c, file) := t.sourcefile.fgetc
    (toChar c, { t with sourcefile := file.ungetc (toChar c) })

def advance (t : Tokenizer) : UInt8 × Tokenizer :=
  let (c, file) := t.sourcefile.fgetc
  (t.cur, { t with sourcefile := file, cur := toChar c, curIdx := t.curIdx + 1 })

/-- `match`. -/
def matchChar (c : UInt8) (t : Tokenizer) : Bool × Tokenizer :=
  if t.filesize ≤ t.curIdx then (false, t)
  else if t.cur ≠ c then (false, t)
  else (true, t.advance.2)

/-- The loop `while (test(p)) { advance(tokenizer); p = peek(tokenizer); }`. -/
def advanceWhile (test : UInt8 → Bool) : Nat → Tokenizer → Except ScanError Tokenizer
  | 0, _ => .error .outOfFuel
  | fuel + 1, t => if test t.peek then advanceWhile test fuel t.advance.2 else .ok t

/-- The test of the loop in `createIdentifer`. -/
def inWord (p : UInt8) : Bool := isalpha p || isdigit p

/-- The test of the loop in `createString`. -/
def inString (p : UInt8) : Bool := p ≠ 0 && p ≠ 34

/-- The test of the first loop in `createNumber`. -/
def inNumber (p : UInt8) : Bool := isdigit p || p = 95

def createIdentifer (fuel : Nat) (t : Tokenizer) : Except ScanError (Token × Tokenizer) := do
  let t ← advanceWhile inWord fuel t
  let (buf, t) ← t.getCurWord
  match tokenHash.getHt buf with
  | some type => createToken type t
  | none => createToken .tIdentifier t

def createString (fuel : Nat) (t : Tokenizer) : Except ScanError (Token × Tokenizer) := do
  let t ← advanceWhile inString fuel t
  if t.peek = 0 then createToken .tUnknown t
  else
    let (temp, t) ← createToken .tStringLit { t with startIdx := t.startIdx + 1 }
    pure (temp, t.advance.2)

/-- The last loop of `createNumber`, whose body does not change `p`. -/
def advanceDigits (p : UInt8) : Nat → Tokenizer → Except ScanError Tokenizer
  | 0, _ => .error .outOfFuel
  | fuel + 1, t => if isdigit p then advanceDigits p fuel t.advance.2 else .ok t

def createNumber (fuel : Nat) (t : Tokenizer) : Except ScanError (Token × Tokenizer) := do
  let t ← advanceWhile inNumber fuel t
  if t.peek = 46 then
    let (next, t) := t.peekNext
    if isdigit next then
      let t := t.advance.2
      let t ← advanceDigits t.peek fuel t
      createToken .tNumberLit t
    else createToken .tNumberLit t
  else createToken .tNumberLit t

/-- The loop of `createCommentToken`, with `room` bytes left in the lexeme. -/
def commentLoop : Nat → Tokenizer → CString → Except ScanError (CString × Tokenizer)
  | 0, _, _ => .error .overflow
  | room + 1, t, lexeme =>
    if t.peek = 10 then .ok (lexeme, t)
    else commentLoop room t.advance.2 (lexeme ++ [t.peek])

/-- `count` is an `unsigned int`. Line and column are the wrong way round. -/
def createCommentToken (t : Tokenizer) : Except ScanError (Token × Tokenizer) := do
  let (lexeme, t) ← commentLoop maxLexeme t []
  let length := (lexeme.length + (2 ^ 32 - 1)) % 2 ^ 32
  pure (⟨.tComment, cString lexeme, length, t.curIdx, t.curLine⟩, t)

/-- The cases of `scanToken` that `match` a second character. -/
def createPair (c : UInt8) (pair single : TokenType) (t : Tokenizer) :
    Except ScanError (Token × Tokenizer) :=
  let (matched, t) := t.matchChar c
  createToken (if matched then pair else single) t

/-- A scanned token, which is not `NULL`. -/
def scanned (r : Except ScanError (Token × Tokenizer)) :
    Except ScanError (Option Token × Tokenizer) := r.map fun (token, t) => (some token, t)

def scanToken (fuel : Nat) (t : Tokenizer) : Except ScanError (Option Token × Tokenizer) :=
  let (c, t) := t.advance
  match Char.ofNat c.toNat with
  | '(' => scanned (createToken .tLeftParen t)
  | ')' => scanned (createToken .tRightParen t)
  | '{' => scanned (createToken .tLeftBrace t)
  | '}' => scanned (createToken .tRightBrace t)
  | '[' => scanned (createToken .tLeftBracket t)
  | ']' => scanned (createToken .tRightBracket t)
  | ',' => scanned (createToken .tComma t)
  | '.' => scanned (createToken .tDot t)
  | '-' => scanned (createPair 45 .tMinusMinus .tMinus t)
  | '+' => scanned (createPair 43 .tPlusPlus .tPlus t)
  | '*' => scanned (createToken .tStar t)
  | '/' =>
    let (matched, t) := t.matchChar 47
    if matched then scanned (createCommentToken t) else scanned (createToken .tDivide t)
  | ':' => scanned (createToken .tColon t)
  | '&' => scanned (createToken .tAnd t)
  | '!' => scanned (createPair 61 .tNotEqual .tNot t)
  | '>' => scanned (createPair 61 .tGreaterEqual .tGreater t)
  | '<' => scanned (createPair 61 .tLessEqual .tLess t)
  | '=' => scanned (createPair 61 .tEqualEqual .tEqual t)
  | ';' => scanned (createToken .tSemicolon t)
  | '"' => scanned (createString fuel t)
  | ' ' => .ok (none, t)
  | '\r' => .ok (none, t)
  | '\t' => .ok (none, t)
  | '\n' => .ok (none, { t with curLine := t.curLine + 1 })
  | _ =>
    if isalpha c then scanned (createIdentifer fuel t)
    else if isdigit c then scanned (createNumber fuel t)
    else
      match t.getCurWord with
      | .ok (buf, _) => .error (.unidentifiable buf)
      | .error e => .error e

end Tokenizer

/-- The `T_EOF` token; line and column are `-1`. -/
def eofToken : Token := ⟨.tEof, ascii "eof", 3, 2 ^ 32 - 1, 2 ^ 32 - 1⟩

/-- The loop of `tokenize`, and the token behind it. -/
def tokenizeLoop (fuel : Nat) : Nat → Tokenizer → Except ScanError (List Token)
  | 0, _ => .error .outOfFuel
  | n + 1, t =>
    if t.curIdx < t.filesize then do
      let (temp, t) ← Tokenizer.scanToken fuel { t with startIdx := t.curIdx }
      let tokens ← tokenizeLoop fuel n t
      pure (temp.toList ++ tokens)
    else .ok [eofToken]

/-- The state before the loop of `tokenize`. -/
def tokenizerInit (sourcefile : File) (charCount : Nat) : Tokenizer :=
  let (c, file) := sourcefile.fgetc
  ⟨file, charCount, toChar c, 0, 0, 1⟩

def tokenize (fuel : Nat) (sourcefile : File) (charCount : Nat) : Except ScanError (List Token) :=
  tokenizeLoop fuel fuel (tokenizerInit sourcefile charCount)

end ACompiler
