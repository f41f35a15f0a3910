import ACompiler.Lib.TokenParser
import ACompiler.Parser.Ast

/-!
# The parser

`parser.c`, function by function. The cursor is the list of the tokens that are left, so `p_peek` is
its head and a `NULL` token is the end of the list. A function of the source that recurses or loops
takes fuel and fails with `outOfFuel` when it has none left; `Parser.Fuel` shows that the fuel
`parseProgram` is given never runs out.
-/

namespace ACompiler

open Lib (TokenParser)
open Lib.TokenParser (fail peek peekNext advance)

/-- The ways a run of the parser ends without a tree. -/
inductive ParseError
  /-- `compile_error`, which exits. -/
  | compileError (token : Token) (message : String)
  /-- `std_compile_error`, which exits. -/
  | stdCompileError (message : String)
  /-- An `assert` evaluated to false. -/
  | assertFailed
  /-- A field of a `NULL` token is read. -/
  | nullToken
  /-- A parse function returned `NULL`. -/
  | nullNode
  /-- The model ran out of fuel. -/
  | outOfFuel
  deriving DecidableEq, Repr

/-- The parser monad. -/
abbrev Parse (α : Type) : Type := TokenParser Token ParseError α

/-! ## Tokens -/

def pMatch (token : Option Token) (type : TokenType) : Bool :=
  match token with
  | none => false
  | some t => decide (t.type = type)

def isVarType (token : Option Token) : Bool :=
  match token with
  | none => false
  | some t => match t.type with
    | .tAnd | .tByte | .tWord | .tDword | .tQword => true
    | _ => false

/-- `compile_error` reads the line of its token. -/
def compileError {α : Type} (token : Option Token) (message : String) : Parse α :=
  match token with
  | none => fail .nullToken
  | some t => fail (.compileError t message)

/-- `assert(p_match(token, type))`. -/
def assertMatch (token : Option Token) (type : TokenType) : Parse Unit :=
  if pMatch token type then pure () else fail .assertFailed

/-- `assert(token->type == type)`. -/
def assertType (token : Option Token) (type : TokenType) : Parse Unit :=
  match token with
  | none => fail .nullToken
  | some t => if t.type = type then pure () else fail .assertFailed

/-- `if (!p_match(p_peek(parser), type)) compile_error(p_peek(parser), message); p_advance(parser)`. -/
def expect (type : TokenType) (message : String) : Parse Unit := do
  let temp ← peek
  if pMatch temp type then advance else compileError temp message

/-! ## Types, literals and identifiers -/

def litAdrOf : TokenType → Option LitAdrT
  | .tByte => some .adrByte
  | .tWord => some .adrWord
  | .tDword => some .adrDword
  | .tQword => some .adrQword
  | _ => none

def litOf : TokenType → Option LitT
  | .tByte => some .litByte
  | .tWord => some .litWord
  | .tDword => some .litDword
  | .tQword => some .litQword
  | _ => none

/-- The base of the type, and whether a type was written. -/
def getVarType (t : Option Token) : Parse (VarBase × Bool) :=
  if pMatch t .tAnd then do
    advance
    let temp ← peek
    match temp with
    | none => fail .nullToken
    | some temp => match litAdrOf temp.type with
      | some typeAdr => pure (.adr typeAdr, true)
      | none => compileError t "& requires a type"
  else match t with
    | none => fail .nullToken
    | some t => match litOf t.type with
      | some type => pure (.lit type, true)
      | none => pure (.lit .litQword, false)

/-- The optional array suffix of a type. -/
def parseArrayLen (base : VarBase) : Parse VarT := do
  let temp ← peek
  if pMatch temp .tLeftBracket then
    advance
    let lenTok ← peek
    match lenTok with
    | none => fail .nullToken
    | some tok =>
      if tok.type = .tNumberLit then
        advance
        expect .tRightBracket "expected closing ] after array size"
        pure ⟨base, true, strtoul tok.lexeme % 2 ^ 32⟩
      else compileError lenTok "array size must be a number literal"
  else pure ⟨base, false, 0⟩

def parseVarType : Parse VarT := do
  let t ← peek
  let (base, hasExplicitType) ← getVarType t
  if hasExplicitType then
    advance
    parseArrayLen base
  else parseArrayLen base

/-- `INT_MIN`. -/
def intMin : Int := -2 ^ 31

def mkLiteralExpr (numValue strValue : Option CString) : Expr :=
  match numValue with
  | none => .literal ⟨intMin, strValue⟩
  | some w => .literal ⟨strtoll w, none⟩

def parseLiteralExpr : Parse Expr := do
  let temp ← peek
  match temp with
  | none => fail .nullToken
  | some t =>
    if t.type = .tStringLit then
      advance
      pure (mkLiteralExpr none (some t.lexeme))
    else if t.type = .tNumberLit then
      advance
      pure (mkLiteralExpr (some t.lexeme) none)
    else compileError temp "expected a literal expression"

def parseIdentifierExpr : Parse CString := do
  let temp ← peek
  match temp with
  | none => fail .nullToken
  | some t =>
    if t.type = .tIdentifier then
      advance
      pure t.lexeme
    else compileError temp "expected an identifer"

/-! ## Expressions -/

def unaryOpOf : TokenType → Option UnaryOp
  | .tPlus => some .uPos
  | .tPlusPlus => some .uPlusPlus
  | .tMinus => some .uNeg
  | .tMinusMinus => some .uMinusMinus
  | .tNot => some .uNot
  | .tAnd => some .uAddr
  | _ => none

def factorOp : TokenType → Option BinaryOp
  | .tStar => some .bMul
  | .tDivide => some .bDiv
  | _ => none

def termOp : TokenType → Option BinaryOp
  | .tPlus => some .bAdd
  | .tMinus => some .bSub
  | _ => none

def compareOp : TokenType → Option BinaryOp
  | .tGreater => some .bGreater
  | .tLess => some .bLess
  | .tGreaterEqual => some .bGeq
  | .tLessEqual => some .bLeq
  | _ => none

def equalOp : TokenType → Option BinaryOp
  | .tEqualEqual => some .bEqualEqual
  | .tNotEqual => some .bNotEqual
  | _ => none

/-- The `while (true)` loop of the four binary levels. -/
def binaryLoop (op : TokenType → Option BinaryOp) (sub : Parse Expr) : Nat → Expr → Parse Expr
  | 0, _ => fail .outOfFuel
  | fuel + 1, left => do
    let temp ← peek
    match temp.bind fun t => op t.type with
    | some b =>
      advance
      let right ← sub
      binaryLoop op sub fuel (.binary b left right)
    | none => pure left

/-- `left->type == AST_IDENTIFIER || left->type == AST_INDEX`. -/
def isAssignable : Expr → Bool
  | .identifier _ => true
  | .index _ _ => true
  | _ => false

mutual

def parseCastExpr : Nat → Parse Expr
  | 0 => fail .outOfFuel
  | fuel + 1 => do
    let temp ← peek
    assertType temp .tLeftParen
    advance
    let type ← parseVarType
    let temp ← peek
    assertType temp .tRightParen
    advance
    let inner ← parsePrimary fuel
    pure (.cast type inner)

/-- The loop of `parse_args`. -/
def parseArgsLoop : Nat → Parse (List Expr)
  | 0 => fail .outOfFuel
  | fuel + 1 => do
    let temp ← peek
    if pMatch temp .tRightParen then pure [] else do
      let arg ← parseBinaryExpr fuel
      let temp ← peek
      if pMatch temp .tComma then
        advance
        let args ← parseArgsLoop fuel
        pure (arg :: args)
      else pure [arg]

def parseArgs : Nat → Parse (List Expr)
  | 0 => fail .outOfFuel
  | fuel + 1 => do
    expect .tLeftParen "expected a left paren after arguments for a function"
    let args ← parseArgsLoop fuel
    expect .tRightParen "expected a right paren after arguments for a function"
    pure args

def parseCallExpr : Nat → Parse Expr
  | 0 => fail .outOfFuel
  | fuel + 1 => do
    let temp ← peek
    if pMatch temp .tCall then
      advance
      let temp ← peek
      if pMatch temp .tIdentifier then
        let callee ← parseIdentifierExpr
        let temp ← peek
        if pMatch temp .tLeftParen then
          let args ← parseArgs fuel
          pure (.call callee args)
        else compileError temp "expected a left paren before calling arguments"
      else compileError temp "expected an identifer after the call expression"
    else fail .nullNode

def parsePrimary : Nat → Parse Expr
  | 0 => fail .outOfFuel
  | fuel + 1 => do
    let temp ← peek
    let next ← peekNext
    if pMatch temp .tLeftParen && isVarType next then parseCastExpr fuel
    else if pMatch temp .tCall then parseCallExpr fuel
    else if pMatch temp .tIdentifier then do
      let name ← parseIdentifierExpr
      pure (.identifier name)
    else if pMatch temp .tNumberLit || pMatch temp .tStringLit then parseLiteralExpr
    else if pMatch temp .tLeftParen then do
      advance
      let inner ← parseAssignExpr fuel
      expect .tRightParen "expected a closing ) in a () expression"
      pure inner
    else compileError temp "expected a primary expression"

/-- The loop of `parse_postfix`. -/
def parsePostfixLoop : Nat → Expr → Parse Expr
  | 0, _ => fail .outOfFuel
  | fuel + 1, node => do
    let temp ← peek
    if pMatch temp .tLeftBracket then
      advance
      let idx ← parseBinaryExpr fuel
      expect .tRightBracket "expected closing ] after index expression"
      parsePostfixLoop fuel (.index node idx)
    else pure node

def parsePostfix : Nat → Parse Expr
  | 0 => fail .outOfFuel
  | fuel + 1 => do
    let node ← parsePrimary fuel
    parsePostfixLoop fuel node

def parseUnaryExpr : Nat → Parse Expr
  | 0 => fail .outOfFuel
  | fuel + 1 => do
    let temp ← peek
    match temp.bind fun t => unaryOpOf t.type with
    | some op =>
      advance
      let expr ← parseUnaryExpr fuel
      pure (.unary op expr)
    | none => parsePostfix fuel

def parseFactor : Nat → Parse Expr
  | 0 => fail .outOfFuel
  | fuel + 1 => do
    let left ← parseUnaryExpr fuel
    binaryLoop factorOp (parseUnaryExpr fuel) fuel left

def parseTerm : Nat → Parse Expr
  | 0 => fail .outOfFuel
  | fuel + 1 => do
    let left ← parseFactor fuel
    binaryLoop termOp (parseFactor fuel) fuel left

def parseCompare : Nat → Parse Expr
  | 0 => fail .outOfFuel
  | fuel + 1 => do
    let left ← parseTerm fuel
    binaryLoop compareOp (parseTerm fuel) fuel left

def parseEqual : Nat → Parse Expr
  | 0 => fail .outOfFuel
  | fuel + 1 => do
    let left ← parseCompare fuel
    binaryLoop equalOp (parseCompare fuel) fuel left

def parseBinaryExpr : Nat → Parse Expr
  | 0 => fail .outOfFuel
  | fuel + 1 => parseEqual fuel

def parseAssignExpr : Nat → Parse Expr
  | 0 => fail .outOfFuel
  | fuel + 1 => do
    let left ← parseBinaryExpr fuel
    let temp ← peek
    if pMatch temp .tEqual then
      advance
      let next ← peek
      if isAssignable left then
        let value ← parseAssignExpr fuel
        pure (.assign left value)
      else compileError next "left side of = must be assignable"
    else pure left

end

/-! ## Declarations and statements -/

def parseVarDecl (fuel : Nat) : Parse VarDecl := do
  let temp ← peek
  if pMatch temp .tLet then
    advance
    let type ← parseVarType
    let ident ← parseIdentifierExpr
    let temp ← peek
    if pMatch temp .tEqual then
      advance
      let binexpr ← parseBinaryExpr fuel
      expect .tSemicolon "variable decls require a trailing semi"
      pure ⟨ident, type, some binexpr⟩
    else do
      expect .tSemicolon "variable decls require a trailing semi"
      pure ⟨ident, type, none⟩
  else fail .nullNode

def parseReturnStmt (fuel : Nat) : Parse Stmt := do
  let temp ← peek
  if pMatch temp .tReturn then
    advance
    let retVal ← parseAssignExpr fuel
    pure (.returnStmt retVal)
  else compileError temp "expected a return stmt"

def parseCommentStmt : Parse CString := do
  let temp ← peek
  match temp with
  | none => fail .nullToken
  | some t =>
    if t.type = .tComment then
      advance
      pure t.lexeme
    else fail .assertFailed

mutual

def parseIfStmt : Nat → Parse Stmt
  | 0 => fail .outOfFuel
  | fuel + 1 => do
    let temp ← peek
    assertMatch temp .tIf
    advance
    expect .tLeftParen "if statments require an opening paren"
    let cond ← parseBinaryExpr fuel
    expect .tRightParen "if statments require a closing paren"
    let thenBranch ← parseBlockStmt fuel
    let temp ← peek
    if pMatch temp .tElse then
      advance
      let elseBranch ← parseBlockStmt fuel
      pure (.ifStmt cond thenBranch (some elseBranch))
    else pure (.ifStmt cond thenBranch none)

/-- A `call` or a block at the start of a statement, otherwise an expression. -/
def parseExpr : Nat → Parse Stmt
  | 0 => fail .outOfFuel
  | fuel + 1 => do
    let temp ← peek
    if temp.isNone then fail (.stdCompileError "expected an expression")
    else if pMatch temp .tCall then do
      let call ← parseCallExpr fuel
      pure (.expr call)
    else if pMatch temp .tLeftBrace then do
      let nodes ← parseBlockStmt fuel
      pure (.block nodes)
    else do
      let expr ← parseAssignExpr fuel
      pure (.expr expr)

def parseStatment : Nat → Parse Stmt
  | 0 => fail .outOfFuel
  | fuel + 1 => do
    let temp ← peek
    if pMatch temp .tIf then parseIfStmt fuel
    else if pMatch temp .tComment then do
      let text ← parseCommentStmt
      pure (.comment text)
    else if pMatch temp .tReturn then do
      let retStmt ← parseReturnStmt fuel
      expect .tSemicolon "expected a semicolon after return stmt"
      pure retStmt
    else do
      let expr ← parseExpr fuel
      expect .tSemicolon "expected a semicolon after expression"
      pure expr

/-- The loop of `parse_block_stmt`. -/
def parseBlockLoop : Nat → Parse (List Stmt)
  | 0 => fail .outOfFuel
  | fuel + 1 => do
    let t ← peek
    if pMatch t .tRightBrace then pure []
    else if pMatch t .tLet then do
      let decl ← parseVarDecl fuel
      let nodes ← parseBlockLoop fuel
      pure (.varDecl decl :: nodes)
    else if pMatch t .tComment then do
      let text ← parseCommentStmt
      let nodes ← parseBlockLoop fuel
      pure (.comment text :: nodes)
    else do
      let stmt ← parseStatment fuel
      let nodes ← parseBlockLoop fuel
      pure (stmt :: nodes)

def parseBlockStmt : Nat → Parse (List Stmt)
  | 0 => fail .outOfFuel
  | fuel + 1 => do
    let temp ← peek
    assertMatch temp .tLeftBrace
    advance
    let nodes ← parseBlockLoop fuel
    advance
    pure nodes

end

/-! ## Functions and programs -/

def parseFuncParam : Parse FuncParam := do
  let type ← parseVarType
  let ident ← parseIdentifierExpr
  let temp ← peek
  if pMatch temp .tComma then
    advance
    pure ⟨ident, type⟩
  else if pMatch temp .tRightParen then pure ⟨ident, type⟩
  else compileError temp "expected a comma after a function param"

/-- The loop of `parse_all_func_params`. -/
def parseParamsLoop : Nat → Parse (List FuncParam)
  | 0 => fail .outOfFuel
  | fuel + 1 => do
    let temp ← peek
    if pMatch temp .tRightParen then pure []
    else if isVarType temp || pMatch temp .tIdentifier then do
      let p ← parseFuncParam
      let params ← parseParamsLoop fuel
      pure (p :: params)
    else compileError temp "expected a trailing paren after function params"

def parseAllFuncParams (fuel : Nat) : Parse (List FuncParam) := do
  let temp ← peek
  if pMatch temp .tLeftParen then
    advance
    let params ← parseParamsLoop fuel
    advance
    pure params
  else compileError temp "function params require a leading open paren"

/-- The return type, the name and the parameters of a function. -/
def parseFuncType (fuel : Nat) : Parse (VarT × CString × List FuncParam) := do
  let ret ← parseVarType
  let temp ← peek
  if pMatch temp .tIdentifier then
    let ident ← parseIdentifierExpr
    let params ← parseAllFuncParams fuel
    pure (ret, ident, params)
  else compileError temp "functions require identifers"

mutual

def stmtHasRet : Stmt → Bool
  | .returnStmt _ => true
  | .block nodes => blockHasRet nodes
  | .ifStmt _ thenBranch none => blockHasRet thenBranch
  | .ifStmt _ thenBranch (some elseBranch) => blockHasRet thenBranch && blockHasRet elseBranch
  | .comment _ | .varDecl _ | .expr _ => false

def blockHasRet : List Stmt → Bool
  | [] => false
  | cur :: nodes => stmtHasRet cur || blockHasRet nodes

end

def parseFuncDecl (fuel : Nat) : Parse FuncDecl := do
  let temp ← peek
  if pMatch temp .tFunc then
    advance
    let (retT, ident, params) ← parseFuncType fuel
    let block ← parseBlockStmt fuel
    if blockHasRet block then pure ⟨ident, retT, params, block⟩
    else fail (.stdCompileError "functions require a return stmt")
  else fail .nullNode

/-- The loop of `parse_program`. -/
def parseProgramLoop : Nat → Parse Program
  | 0 => fail .outOfFuel
  | fuel + 1 => do
    let temp ← peek
    if temp.isNone || pMatch temp .tEof then pure []
    else if pMatch temp .tFunc then do
      let decl ← parseFuncDecl fuel
      let nodes ← parseProgramLoop fuel
      pure (.funcDecl decl :: nodes)
    else if pMatch temp .tLet then do
      let decl ← parseVarDecl fuel
      let nodes ← parseProgramLoop fuel
      pure (.varDecl decl :: nodes)
    else if pMatch temp .tComment then do
      let text ← parseCommentStmt
      let nodes ← parseProgramLoop fuel
      pure (.comment text :: nodes)
    else compileError temp "only varibles and function can be declared in global scope"

/-- `parse_program`, with fuel. -/
def parseProgramFuel (fuel : Nat) (tokens : List Token) : Except ParseError Program :=
  (parseProgramLoop fuel tokens).map Prod.fst

/-- The fuel a token list needs: twelve for each token and for the descent below the last. -/
def parseFuel (tokens : List Token) : Nat := 12 * tokens.length + 12

def parseProgram (tokens : List Token) : Except ParseError Program :=
  parseProgramFuel (parseFuel tokens) tokens

end ACompiler
