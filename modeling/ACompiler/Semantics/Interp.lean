import ACompiler.Semantics.Values

/-!
# A reference interpreter

The part of the language without calls, addresses and arrays, whose variables are all plain
`QWORD`s: the checks that put a function into it, and what it means there, read off no code. Scopes
are lexical, and the name of a `let` is visible in its own initialiser; operands are evaluated from
left to right. Reading a variable that was never assigned is stuck, and so is a division without a
result.
-/

namespace ACompiler

open Lib (Word)

/-! ## The fragment -/

/-- A `QWORD`, and not an array. -/
def VarT.isQword (t : VarT) : Bool := t.base = .lit .litQword && !t.isArray

/-- The expression reads and assigns the names `names` only. -/
def exprInFragment (names : List CString) : Expr → Bool
  | .literal lit => lit.strValue.isNone
  | .identifier x => names.contains x
  | .unary op e => (op = .uPos || op = .uNeg || op = .uNot) && exprInFragment names e
  | .binary _ left right => exprInFragment names left && exprInFragment names right
  | .assign (.identifier x) val => names.contains x && exprInFragment names val
  | .cast t inner => t.isQword && exprInFragment names inner
  | _ => false

/-- The name that a statement adds to its scope. -/
def Stmt.declares : Stmt → List CString
  | .varDecl decl => [decl.ident]
  | _ => []

mutual

def stmtInFragment (names : List CString) : Stmt → Bool
  | .block nodes => stmtsInFragment names nodes
  | .ifStmt cond thenBranch none => exprInFragment names cond && stmtsInFragment names thenBranch
  | .ifStmt cond thenBranch (some elseBranch) =>
    exprInFragment names cond && stmtsInFragment names thenBranch &&
      stmtsInFragment names elseBranch
  | .returnStmt returnVal => exprInFragment names returnVal
  | .comment _ => true
  | .varDecl ⟨_, type, none⟩ => type.isQword
  | .varDecl ⟨x, type, some assign⟩ => type.isQword && exprInFragment (x :: names) assign
  | .expr e => exprInFragment names e

def stmtsInFragment (names : List CString) : List Stmt → Bool
  | [] => true
  | node :: nodes =>
    stmtInFragment names node && stmtsInFragment (node.declares ++ names) nodes

end

/-- A function of the fragment, in a program with the globals `globals`. -/
structure InFragment (globals : List CString) (decl : FuncDecl) : Prop where
  params : decl.params.length ≤ 6
  distinct : (decl.params.map FuncParam.ident).Nodup
  types : ∀ p ∈ decl.params, p.type.isQword = true
  body : stmtsInFragment (decl.params.map FuncParam.ident ++ globals) decl.block = true

/-! ## The store -/

/-- The local variables, innermost first, each with its value once it has one; and the globals. -/
structure Store where
  locals : List (CString × Option Word)
  globals : CString → Option Word

def Store.read (σ : Store) (x : CString) : Option Word :=
  match σ.locals.find? fun b => b.1 = x with
  | some b => b.2
  | none => σ.globals x

/-- Give the innermost variable of that name a value. -/
def setLocal (x : CString) (v : Word) : List (CString × Option Word) → List (CString × Option Word)
  | [] => []
  | b :: bs => if b.1 = x then (x, some v) :: bs else b :: setLocal x v bs

def Store.write (σ : Store) (x : CString) (v : Word) : Option Store :=
  match σ.locals.find? fun b => b.1 = x with
  | some _ => some { σ with locals := setLocal x v σ.locals }
  | none =>
    match σ.globals x with
    | some _ => some { σ with globals := fun y => if y = x then some v else σ.globals y }
    | none => none

/-- A new variable, without a value. -/
def Store.declare (σ : Store) (x : CString) : Store := { σ with locals := (x, none) :: σ.locals }

/-- Leave a block that was entered with the variables of `σ`. -/
def Store.leave (σ' σ : Store) : Store :=
  { σ' with locals := σ'.locals.drop (σ'.locals.length - σ.locals.length) }

/-! ## Evaluation -/

def evalExpr : Expr → Store → Option (Word × Store)
  | .literal lit, σ => some (BitVec.ofInt 64 lit.numValue, σ)
  | .identifier x, σ => (σ.read x).map fun v => (v, σ)
  | .unary op e, σ => do
    let (a, σ') ← evalExpr e σ
    let v ← unaryVal op a
    some (v, σ')
  | .binary op left right, σ => do
    let (a, σ₁) ← evalExpr left σ
    let (b, σ₂) ← evalExpr right σ₁
    let v ← binaryVal op a b
    some (v, σ₂)
  | .assign (.identifier x) val, σ => do
    let (v, σ₁) ← evalExpr val σ
    let σ₂ ← σ₁.write x v
    some (v, σ₂)
  | .cast _ inner, σ => evalExpr inner σ
  | _, _ => none

/-- How a statement ends. -/
inductive Outcome
  | normal
  | returned (v : Word)
  deriving DecidableEq

mutual

def execStmt : Stmt → Store → Option (Outcome × Store)
  | .block nodes, σ => do
    let (o, σ') ← execStmts nodes σ
    some (o, σ'.leave σ)
  | .ifStmt cond thenBranch none, σ => do
    let (v, σ₁) ← evalExpr cond σ
    if v ≠ 0 then
      let (o, σ₂) ← execStmts thenBranch σ₁
      some (o, σ₂.leave σ₁)
    else some (.normal, σ₁)
  | .ifStmt cond thenBranch (some elseBranch), σ => do
    let (v, σ₁) ← evalExpr cond σ
    if v ≠ 0 then
      let (o, σ₂) ← execStmts thenBranch σ₁
      some (o, σ₂.leave σ₁)
    else
      let (o, σ₂) ← execStmts elseBranch σ₁
      some (o, σ₂.leave σ₁)
  | .returnStmt returnVal, σ => do
    let (v, σ') ← evalExpr returnVal σ
    some (.returned v, σ')
  | .comment _, σ => some (.normal, σ)
  | .varDecl ⟨x, _, none⟩, σ => some (.normal, σ.declare x)
  | .varDecl ⟨x, _, some assign⟩, σ => do
    let (v, σ₁) ← evalExpr assign (σ.declare x)
    let σ₂ ← σ₁.write x v
    some (.normal, σ₂)
  | .expr e, σ => do
    let (_, σ') ← evalExpr e σ
    some (.normal, σ')

def execStmts : List Stmt → Store → Option (Outcome × Store)
  | [], σ => some (.normal, σ)
  | node :: nodes, σ => do
    let (o, σ') ← execStmt node σ
    match o with
    | .normal => execStmts nodes σ'
    | .returned v => some (.returned v, σ')

end

/-- The variables a function starts with. -/
def paramBindings (params : List FuncParam) (args : List Word) : List (CString × Option Word) :=
  (params.zip args).map fun p => (p.1.ident, some p.2)

/-- Run a function: its result and the globals behind it, if it returns. -/
def runFunc (decl : FuncDecl) (args : List Word) (globals : CString → Option Word) :
    Option (Word × (CString → Option Word)) := do
  let (o, σ) ← execStmts decl.block ⟨(paramBindings decl.params args).reverse, globals⟩
  match o with
  | .returned v => some (v, σ.globals)
  | .normal => none

end ACompiler
