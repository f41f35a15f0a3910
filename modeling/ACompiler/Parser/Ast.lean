import ACompiler.Tokenizer.Tokens

/-!
# The abstract syntax tree

`parser.h`. The source has one `Node` with a tag and a union; here expressions, statements and
declarations are separate types, so the shapes that no parser function builds (a statement used as
an expression, a call whose callee is not an identifier, a branch of an `if` that is not a block)
do not exist. Node kinds that the parser never builds (`AST_ARRAY_LIT`, `LIT_STRING`) are left out.
-/

namespace ACompiler

/-- `lit_t`. -/
inductive LitT
  | litByte | litWord | litDword | litQword
  deriving DecidableEq, Repr

/-- `lit_adr_t`. -/
inductive LitAdrT
  | adrByte | adrWord | adrDword | adrQword
  deriving DecidableEq, Repr

/-- The base of a `var_t`: with `is_adr` only `type_adr` is set, without it only `type`. -/
inductive VarBase
  | adr (typeAdr : LitAdrT)
  | lit (type : LitT)
  deriving DecidableEq, Repr

/-- `var_t`; `arrayLen` is an `unsigned int`. -/
structure VarT where
  base : VarBase
  isArray : Bool
  arrayLen : Nat
  deriving DecidableEq, Repr

/-- `unary_expr_t`. -/
inductive UnaryOp
  | uPos | uPlusPlus | uMinusMinus | uNeg | uNot | uAddr
  deriving DecidableEq, Repr

/-- `binary_expr_t`. -/
inductive BinaryOp
  | bAdd | bSub | bMul | bDiv | bLess | bGreater | bEqualEqual | bNotEqual | bGeq | bLeq
  deriving DecidableEq, Repr

/-- `literal_expr`: a string literal carries the text, and a `num_value` that is never a number of
the source. -/
structure LiteralExpr where
  numValue : Int
  strValue : Option CString
  deriving DecidableEq, Repr

/-- The expression nodes. -/
inductive Expr
  | identifier (name : CString)
  | literal (lit : LiteralExpr)
  | unary (op : UnaryOp) (expr : Expr)
  | binary (op : BinaryOp) (left right : Expr)
  | assign (target val : Expr)
  | call (callee : CString) (args : List Expr)
  | cast (varT : VarT) (inner : Expr)
  | index (target idx : Expr)
  deriving Repr

/-- An expression, or the arguments of a call. -/
inductive Phrase
  | expr (e : Expr)
  | exprs (es : List Expr)

/-- `var_decl`. -/
structure VarDecl where
  ident : CString
  type : VarT
  assign : Option Expr
  deriving Repr

/-- The statement nodes. The branches of an `if` are the nodes of the blocks `parse_block_stmt`
returns. -/
inductive Stmt
  | block (nodes : List Stmt)
  | ifStmt (cond : Expr) (thenBranch : List Stmt) (elseBranch : Option (List Stmt))
  | returnStmt (returnVal : Expr)
  | comment (text : CString)
  | varDecl (decl : VarDecl)
  | expr (e : Expr)
  deriving Repr

/-- A statement, or the nodes of a block. -/
inductive StmtPhrase
  | stmt (s : Stmt)
  | nodes (ss : List Stmt)

/-- `func_param`. -/
structure FuncParam where
  ident : CString
  type : VarT
  deriving DecidableEq, Repr

/-- `func_decl` with its `func_type`; `block` is the list of the body's nodes. -/
structure FuncDecl where
  ident : CString
  retT : VarT
  params : List FuncParam
  block : List Stmt
  deriving Repr

/-- The nodes of a program. -/
inductive TopDecl
  | varDecl (decl : VarDecl)
  | funcDecl (decl : FuncDecl)
  | comment (text : CString)
  deriving Repr

/-- `program_decl`. -/
abbrev Program := List TopDecl

end ACompiler
