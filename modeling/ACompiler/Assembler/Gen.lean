import ACompiler.Assembler.Context

/-!
# Code generation

`assembler.c`, function by function. Where the source passes a child node to be generated, the
functions here take its generator, so that the recursion is structural and lies in `genExpr`,
`genArgs`, `genStmt` and `genStmts` alone. `mark` records the context at every statement boundary and
prints nothing.
-/

namespace ACompiler

open Lib (Emit Emitted)
open Lib.Emit (print get modify throw mark)

/-- `arg_regs`. -/
def argRegs : List RegId := [.rdi, .rsi, .rdx, .rcx, .r8, .r9]

/-! ## Expressions -/

/-- A string literal has `num_value` `INT_MIN`. -/
def genLiteral (lit : LiteralExpr) : Gen Unit := loadImm lit.numValue

def genIdentifier (name : CString) : Gen Unit := do
  let c ← get
  match findSymbol c name with
  | none => stdCompileError "undefined identifier"
  | some sym =>
    if sym.isGlobal then emit (.mov (.sym name) (.reg .rax))
    else loadLocal sym.stackOffset

/-- The `U_ADDR` branch of `gen_unary`. -/
def genAddr (expr : Expr) : Gen Unit :=
  match expr with
  | .identifier name => do
    let c ← get
    match findSymbol c name with
    | none => stdCompileError "undefined identifier"
    | some sym =>
      if sym.isGlobal then emit (.lea (.sym sym.name) (.reg .rax))
      else emit (.lea (.mem .rbp sym.stackOffset) (.reg .rax))
  | _ => stdCompileError "can only take address of an identifier"

/-- The other branches of `gen_unary`, after the operand. -/
def genUnaryOp (op : UnaryOp) : Gen Unit :=
  match op with
  | .uNeg => emit (.neg (.reg .rax))
  | .uNot => do
    emit (.cmp (.imm 0) (.reg .rax))
    emit (.setcc .e)
    emit .movzbq
  | .uPos => pure ()
  | _ => stdCompileError "unsupported unary op"

def genUnary (op : UnaryOp) (expr : Expr) (operand : Gen Unit) : Gen Unit :=
  if op = .uAddr then genAddr expr
  else do
    operand
    genUnaryOp op

/-- The `setcc` of a comparison. -/
def setccOf : BinaryOp → Cond
  | .bLess => .l
  | .bGreater => .g
  | .bEqualEqual => .e
  | .bNotEqual => .ne
  | .bGeq => .ge
  | .bLeq => .le
  | _ => .e

/-- The operation of `gen_binary`: the left operand is in `%rax`, the right one in `%rcx`. -/
def genBinaryOp (op : BinaryOp) : Gen Unit :=
  match op with
  | .bAdd => emit (.add (.reg .rcx) (.reg .rax))
  | .bSub => emit (.sub (.reg .rcx) (.reg .rax))
  | .bMul => emit (.imul (.reg .rcx) (.reg .rax))
  | .bDiv => do
    emit .cqto
    emit (.idiv (.reg .rcx))
  | op => do
    emit (.cmp (.reg .rcx) (.reg .rax))
    emit (.setcc (setccOf op))
    emit .movzbq

def genBinary (op : BinaryOp) (left right : Gen Unit) : Gen Unit := do
  left
  pushRax
  right
  emit (.mov (.reg .rax) (.reg .rcx))
  popInto .rax
  genBinaryOp op

/-- The pops of `gen_call`, from the last register to the first. -/
def popArgs : List RegId → Gen Unit
  | [] => pure ()
  | id :: ids => do
    popInto id
    popArgs ids

def genCall (callee : CString) (n : Nat) (args : Gen Unit) : Gen Unit := do
  if n > 6 then stdCompileError "more than 6 args not supported"
  else do
    let c ← get
    let pad := decide (c.pushDepth % 2 ≠ 0)
    if pad then
      emit (.sub (.imm 8) (.reg .rsp))
      modify fun c => { c with pushDepth := c.pushDepth + 1 }
    args
    popArgs (argRegs.take n).reverse
    emit (.call callee)
    if pad then
      emit (.add (.imm 8) (.reg .rsp))
      modify fun c => { c with pushDepth := c.pushDepth - 1 }

def genAssign (target : Expr) (val : Gen Unit) : Gen Unit :=
  match target with
  | .identifier name => do
    val
    let c ← get
    match findSymbol c name with
    | none => stdCompileError "undefined identifier in assignment"
    | some sym =>
      if sym.isGlobal then emit (.mov (.reg .rax) (.sym name))
      else storeLocal sym.stackOffset
  | _ => stdCompileError "only identifier assignment supported"

def genCast (inner : Gen Unit) : Gen Unit := inner

mutual

def genExpr : Expr → Gen Unit
  | .literal lit => genLiteral lit
  | .identifier name => genIdentifier name
  | .unary op expr => genUnary op expr (genExpr expr)
  | .binary op left right => genBinary op (genExpr left) (genExpr right)
  | .call callee args => genCall callee args.length (genArgs args)
  | .assign target val => genAssign target (genExpr val)
  | .cast _ inner => genCast (genExpr inner)
  | .index _ _ => stdCompileError "unsupported expression"

/-- The first loop of `gen_call`. -/
def genArgs : List Expr → Gen Unit
  | [] => pure ()
  | arg :: args => do
    genExpr arg
    pushRax
    genArgs args

end

/-! ## Statements -/

def genVarDecl (decl : VarDecl) : Gen Unit := do
  let sym ← defineLocal decl.ident decl.type
  match decl.assign with
  | some assign => do
    genExpr assign
    storeLocal sym.stackOffset
  | none => pure ()

/-- `jmp` to `ctx->epilogue_label`, which is set throughout a function. -/
def jmpEpilogue : Gen Unit := do
  let c ← get
  match c.epilogueLabel with
  | none => throw .nullPointer
  | some label => emit (.jmp label)

def genReturn (returnVal : Expr) : Gen Unit := do
  genExpr returnVal
  jmpEpilogue

def genIf (cond : Expr) (thenBranch : Gen Unit) (elseBranch : Gen Unit) : Gen Unit := do
  let elseLbl ← newLabel
  let endLbl ← newLabel
  genExpr cond
  emit (.cmp (.imm 0) (.reg .rax))
  emit (.je elseLbl)
  thenBranch
  emit (.jmp endLbl)
  asmRaw (.label elseLbl)
  elseBranch
  asmRaw (.label endLbl)

def genBlock (nodes : Gen Unit) : Gen Unit := do
  pushScope
  nodes
  popScope

mutual

def genStmt : Stmt → Gen Unit
  | .block nodes => genBlock (genStmts nodes)
  | .ifStmt cond thenBranch none => genIf cond (genBlock (genStmts thenBranch)) (pure ())
  | .ifStmt cond thenBranch (some elseBranch) =>
    genIf cond (genBlock (genStmts thenBranch)) (genBlock (genStmts elseBranch))
  | .returnStmt returnVal => genReturn returnVal
  | .varDecl decl => genVarDecl decl
  | .comment _ => pure ()
  | .expr e => genExpr e

/-- The loop over the nodes of a block. -/
def genStmts : List Stmt → Gen Unit
  | [] => mark
  | node :: nodes => do
    mark
    genStmt node
    genStmts nodes

end

/-! ## Functions and programs -/

mutual

def countLocals : Stmt → Nat
  | .block nodes => countLocalsList nodes
  | .varDecl _ => 8
  | .ifStmt _ thenBranch none => countLocalsList thenBranch
  | .ifStmt _ thenBranch (some elseBranch) =>
    countLocalsList thenBranch + countLocalsList elseBranch
  | .returnStmt _ | .comment _ | .expr _ => 0

/-- The sum over the nodes of a block. -/
def countLocalsList : List Stmt → Nat
  | [] => 0
  | node :: nodes => countLocals node + countLocalsList nodes

end

def computeFrameSize (decl : FuncDecl) : Nat :=
  let size := countLocalsList decl.block + 8 * decl.params.length
  if size % 16 ≠ 0 then size + (16 - size % 16) else size

/-- The loop over the parameters, from the `i`-th on. -/
def genParams : Nat → List FuncParam → Gen Unit
  | _, [] => pure ()
  | i, p :: params => do
    let sym ← defineLocal p.ident p.type
    match argRegs[i]? with
    | none => throw .outOfBounds
    | some id => do
      emit (.mov (.reg id) (.mem .rbp sym.stackOffset))
      genParams (i + 1) params

/-- The lines of `gen_func_decl` before the body. -/
def genPrologue (decl : FuncDecl) : Gen Unit := do
  setIndent 0
  asmEmit (.globl decl.ident)
  asmRaw (.symbol decl.ident)
  setIndent 4
  emit (.push (.reg .rbp))
  emit (.mov (.reg .rsp) (.reg .rbp))
  if computeFrameSize decl > 0 then emit (.sub (.imm (computeFrameSize decl)) (.reg .rsp))

/-- The lines of `gen_func_decl` from the label of the epilogue on. -/
def genEpilogue (label : Nat) : Gen Unit := do
  asmRaw (.label label)
  setIndent 4
  emit (.mov (.reg .rbp) (.reg .rsp))
  emit (.pop (.reg .rbp))
  emit .ret

def genFuncDecl (decl : FuncDecl) : Gen Unit := do
  genPrologue decl
  let el ← newLabel
  modify fun c => { c with epilogueLabel := some el, curOffset := 0, pushDepth := 0 }
  pushScope
  genParams 0 decl.params
  genStmts decl.block
  genEpilogue el
  popScope
  modify fun c => { c with epilogueLabel := none }

/-- The directive of a size. -/
def directiveOf : Nat → Directive
  | 1 => .byte
  | 2 => .word
  | 4 => .long
  | _ => .quad

/-- The initial value of a global: a literal, and nothing else. -/
def globalValue (decl : VarDecl) : Int :=
  match decl.assign with
  | some (.literal lit) => lit.numValue
  | _ => 0

def genGlobal (decl : VarDecl) : Gen Unit := do
  let _ ← defineGlobal decl.ident decl.type
  setIndent 0
  asmRaw (.symbol decl.ident)
  setIndent 4
  asmEmit (.directive (directiveOf (typeSize decl.type)) (globalValue decl))
  setIndent 0

/-- The loop over the globals. -/
def genGlobals : Program → Gen Unit
  | [] => pure ()
  | .varDecl decl :: nodes => do
    genGlobal decl
    genGlobals nodes
  | _ :: nodes => genGlobals nodes

/-- The loop over the functions. -/
def genFuncs : Program → Gen Unit
  | [] => pure ()
  | .funcDecl decl :: nodes => do
    genFuncDecl decl
    genFuncs nodes
  | _ :: nodes => genFuncs nodes

/-- `has_data`. -/
def hasData : Program → Bool
  | [] => false
  | .varDecl _ :: _ => true
  | _ :: nodes => hasData nodes

def genProgram (program : Program) : Gen Unit := do
  pushScope
  if hasData program then
    setIndent 0
    asmEmit .dataSection
    genGlobals program
  setIndent 0
  asmEmit .textSection
  genFuncs program
  popScope

end ACompiler
