import ACompiler.Correct.Data
import ACompiler.Semantics.Interp

/-!
# A reference interpreter for programs

The language of `Interp` with calls: a call evaluates its arguments from left to right, runs the
function on them and goes on with the globals that it leaves. What the functions of a program do is
defined by the depth of the calls (`callProgram`). The interpreter is stuck on what it does not speak
about: addresses, arrays, strings, types other than `QWORD`, and functions that the program lacks.
-/

namespace ACompiler

open Lib (Word)

/-- What calls do: a function with these arguments and globals has a result and leaves globals. -/
abbrev Callees : Type :=
  CString → List Word → (CString → Option Word) → Option (Word × (CString → Option Word))

section callee
variable (callee : Callees)

mutual

def evalExprIn : Expr → Store → Option (Word × Store)
  | .literal lit, σ =>
    if lit.strValue.isNone then some (BitVec.ofInt 64 lit.numValue, σ) else none
  | .identifier x, σ => (σ.read x).map fun v => (v, σ)
  | .unary op e, σ => do
    let (a, σ') ← evalExprIn e σ
    let v ← unaryVal op a
    some (v, σ')
  | .binary op left right, σ => do
    let (a, σ₁) ← evalExprIn left σ
    let (b, σ₂) ← evalExprIn right σ₁
    let v ← binaryVal op a b
    some (v, σ₂)
  | .call f args, σ => do
    let (vs, σ₁) ← evalArgsIn args σ
    let (v, g) ← callee f vs σ₁.globals
    some (v, { σ₁ with globals := g })
  | .assign (.identifier x) val, σ => do
    let (v, σ₁) ← evalExprIn val σ
    let σ₂ ← σ₁.write x v
    some (v, σ₂)
  | .cast t inner, σ => if t.isQword then evalExprIn inner σ else none
  | _, _ => none

def evalArgsIn : List Expr → Store → Option (List Word × Store)
  | [], σ => some ([], σ)
  | arg :: args, σ => do
    let (v, σ₁) ← evalExprIn arg σ
    let (vs, σ₂) ← evalArgsIn args σ₁
    some (v :: vs, σ₂)

end

mutual

def execStmtIn : Stmt → Store → Option (Outcome × Store)
  | .block nodes, σ => do
    let (o, σ') ← execStmtsIn nodes σ
    some (o, σ'.leave σ)
  | .ifStmt cond thenBranch none, σ => do
    let (v, σ₁) ← evalExprIn callee cond σ
    if v ≠ 0 then
      let (o, σ₂) ← execStmtsIn thenBranch σ₁
      some (o, σ₂.leave σ₁)
    else some (.normal, σ₁)
  | .ifStmt cond thenBranch (some elseBranch), σ => do
    let (v, σ₁) ← evalExprIn callee cond σ
    if v ≠ 0 then
      let (o, σ₂) ← execStmtsIn thenBranch σ₁
      some (o, σ₂.leave σ₁)
    else
      let (o, σ₂) ← execStmtsIn elseBranch σ₁
      some (o, σ₂.leave σ₁)
  | .returnStmt returnVal, σ => do
    let (v, σ') ← evalExprIn callee returnVal σ
    some (.returned v, σ')
  | .comment _, σ => some (.normal, σ)
  | .varDecl ⟨x, type, none⟩, σ =>
    if type.isQword then some (.normal, σ.declare x) else none
  | .varDecl ⟨x, type, some assign⟩, σ =>
    if type.isQword then do
      let (v, σ₁) ← evalExprIn callee assign (σ.declare x)
      let σ₂ ← σ₁.write x v
      some (.normal, σ₂)
    else none
  | .expr e, σ => do
    let (_, σ') ← evalExprIn callee e σ
    some (.normal, σ')

def execStmtsIn : List Stmt → Store → Option (Outcome × Store)
  | [], σ => some (.normal, σ)
  | node :: nodes, σ => do
    let (o, σ') ← execStmtIn node σ
    match o with
    | .normal => execStmtsIn nodes σ'
    | .returned v => some (.returned v, σ')

end

/-- The function has as many parameters as there are arguments, all of them plain `QWORD`s with
names of their own. -/
def FuncDecl.takes (decl : FuncDecl) (args : List Word) : Bool :=
  decide (args.length = decl.params.length) && (decl.params.all fun p => p.type.isQword) &&
    decide (decl.params.map FuncParam.ident).Nodup

def runFuncIn (decl : FuncDecl) (args : List Word) (globals : CString → Option Word) :
    Option (Word × (CString → Option Word)) :=
  if decl.takes args then do
    let (o, σ) ← execStmtsIn callee decl.block
      ⟨(paramBindings decl.params args).reverse, globals⟩
    match o with
    | .returned v => some (v, σ.globals)
    | .normal => none
  else none

end callee

/-- The function of that name. -/
def Program.func (p : Program) (f : CString) : Option FuncDecl :=
  (funcsOf p).find? fun decl => decl.ident = f

/-- The calls of a program that go no deeper than `n`. -/
def callProgram (p : Program) : Nat → Callees
  | 0, _, _, _ => none
  | n + 1, f, args, g => (p.func f).bind fun decl => runFuncIn (callProgram p n) decl args g

/-- What a global of the fragment holds at first. -/
def VarDecl.initial (decl : VarDecl) : Option Word :=
  if decl.type.isQword then
    match decl.assign with
    | none => some 0
    | some (.literal lit) => if lit.strValue.isNone then some (BitVec.ofInt 64 lit.numValue) else none
    | some _ => none
  else none

/-- The globals of a program before it runs, if all of them are in the fragment. -/
def Program.initial (p : Program) : Option (CString → Option Word) :=
  if (globalsOf p).all fun decl => decl.initial.isSome then
    some fun x => ((globalsOf p).find? fun decl => decl.ident = x).bind VarDecl.initial
  else none

/-- A program runs from one of its functions, with calls that go no deeper than `n`. -/
def runProgram (p : Program) (n : Nat) (f : CString) (args : List Word) :
    Option (Word × (CString → Option Word)) :=
  p.initial.bind fun g => callProgram p n f args g

/-- The names that a program defines: its globals and its functions. -/
def Program.names (p : Program) : List CString :=
  (globalsOf p).map VarDecl.ident ++ (funcsOf p).map FuncDecl.ident

/-! ## Callees -/

mutual

/-- The names that an expression calls. -/
def exprCallees : Expr → List CString
  | .literal _ | .identifier _ => []
  | .unary _ e => exprCallees e
  | .binary _ left right => exprCallees left ++ exprCallees right
  | .call f args => f :: argsCallees args
  | .assign _ val => exprCallees val
  | .cast _ inner => exprCallees inner
  | .index _ idx => exprCallees idx

def argsCallees : List Expr → List CString
  | [] => []
  | arg :: args => exprCallees arg ++ argsCallees args

end

mutual

/-- The names that a statement calls. -/
def stmtCallees : Stmt → List CString
  | .block nodes => stmtsCallees nodes
  | .ifStmt cond thenBranch none => exprCallees cond ++ stmtsCallees thenBranch
  | .ifStmt cond thenBranch (some elseBranch) =>
    exprCallees cond ++ stmtsCallees thenBranch ++ stmtsCallees elseBranch
  | .returnStmt returnVal => exprCallees returnVal
  | .comment _ => []
  | .varDecl ⟨_, _, none⟩ => []
  | .varDecl ⟨_, _, some assign⟩ => exprCallees assign
  | .expr e => exprCallees e

def stmtsCallees : List Stmt → List CString
  | [] => []
  | node :: nodes => stmtCallees node ++ stmtsCallees nodes

end

/-- The names that a function calls. -/
def FuncDecl.callees (decl : FuncDecl) : List CString := stmtsCallees decl.block

end ACompiler
