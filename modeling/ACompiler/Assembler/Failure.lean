import ACompiler.Assembler.Gen
import ACompiler.Lib.Hoare

/-!
# How code generation fails

With at most six parameters to a function the generator never reads past `arg_regs`, and it never
follows a null pointer: there is a scope on the stack wherever a symbol is declared, and an epilogue
wherever a `return` is. So it fails with a compile error only (`genProgram_fails`).
-/

namespace ACompiler

open Lib.Emit (Triple)

/-- The error of `std_compile_error`. -/
def GenError.IsCompileError (e : GenError) : Prop := ∃ message, e = .compileError message

/-- A context with `n` scopes, and with an epilogue if `inFunc` asks for one. -/
def AsmCtx.Depth (n : Nat) (inFunc : Prop) (c : AsmCtx) : Prop :=
  c.scopeStk.length = n ∧ (inFunc → ∃ label, c.epilogueLabel = some label)

/-- The generator fails with a compile error only, and leaves as many scopes as it found. -/
def Careful (n : Nat) (inFunc : Prop) {α : Type} (g : Gen α) : Prop :=
  Triple (AsmCtx.Depth n inFunc) g (fun _ => AsmCtx.Depth n inFunc) GenError.IsCompileError

section steps
variable {n : Nat} {inFunc : Prop} {α β : Type}

theorem Careful.bind {x : Gen α} {f : α → Gen β} (hx : Careful n inFunc x)
    (hf : ∀ a, Careful n inFunc (f a)) : Careful n inFunc (x >>= f) := Triple.bind hx hf

theorem careful_pure (a : α) : Careful n inFunc (pure a : Gen α) := Triple.pure fun _ hc => hc

theorem careful_get : Careful n inFunc Lib.Emit.get := Triple.get fun _ hc => hc

theorem careful_mark : Careful n inFunc Lib.Emit.mark := Triple.mark fun _ hc => hc

theorem careful_modify {g : AsmCtx → AsmCtx} (hstk : ∀ c, (g c).scopeStk = c.scopeStk)
    (hlabel : ∀ c, (g c).epilogueLabel = c.epilogueLabel) :
    Careful n inFunc (Lib.Emit.modify g) :=
  Triple.modify fun c hc => ⟨(congrArg List.length (hstk c)).trans hc.1,
    fun h => by rw [hlabel]; exact hc.2 h⟩

theorem careful_compileError (message : String) :
    Careful n inFunc (stdCompileError message : Gen α) := Triple.throw ⟨message, rfl⟩

theorem careful_emit (i : Instr) : Careful n inFunc (emit i) := Triple.print fun _ hc => hc

theorem careful_asmEmit (line : Line) : Careful n inFunc (asmEmit line) := Triple.print fun _ hc => hc

theorem careful_asmRaw (line : Line) : Careful n inFunc (asmRaw line) := Triple.print fun _ hc => hc

theorem careful_setIndent (m : Nat) : Careful n inFunc (setIndent m) :=
  careful_modify (fun _ => rfl) fun _ => rfl

theorem careful_pushRax : Careful n inFunc pushRax :=
  (careful_emit _).bind fun _ => careful_modify (fun _ => rfl) fun _ => rfl

theorem careful_popInto (id : RegId) : Careful n inFunc (popInto id) :=
  (careful_emit _).bind fun _ => careful_modify (fun _ => rfl) fun _ => rfl

theorem careful_newLabel : Careful n inFunc newLabel := by
  unfold newLabel
  refine careful_get.bind fun c => (careful_modify ?_ ?_).bind fun _ => careful_pure _
  · exact fun _ => rfl
  · exact fun _ => rfl

/-- The top of the stack is there. -/
theorem careful_addSymbol (sym : Symbol) : Careful (n + 1) inFunc (addSymbol sym) := by
  refine fun c hc => ?_
  cases hstk : c.scopeStk with
  | nil =>
    have hlen := hc.1
    rw [hstk] at hlen
    exact absurd hlen (by simp)
  | cons s scopes =>
    have hrun : addSymbol sym c = .ok ⟨(), { c with scopeStk := s.addSymbol sym :: scopes }, [], []⟩ := by
      simp [addSymbol, Lib.Emit.bind_run, hstk]
    rw [hrun]
    refine ⟨fun r hr => ?_, fun e he => absurd he (by simp)⟩
    obtain rfl := Except.ok.inj hr
    have hlen := hc.1
    rw [hstk] at hlen
    exact ⟨hlen, hc.2⟩

theorem careful_defineLocal (name : CString) (type : VarT) :
    Careful (n + 1) inFunc (defineLocal name type) := by
  unfold defineLocal
  refine (careful_modify ?_ ?_).bind fun _ => careful_get.bind fun c =>
    (careful_addSymbol _).bind fun _ => careful_pure _
  · exact fun _ => rfl
  · exact fun _ => rfl

theorem careful_defineGlobal (name : CString) (type : VarT) :
    Careful (n + 1) inFunc (defineGlobal name type) :=
  (careful_addSymbol _).bind fun _ => careful_pure _

theorem careful_pushScope : Triple (AsmCtx.Depth n inFunc) pushScope
    (fun _ => AsmCtx.Depth (n + 1) inFunc) GenError.IsCompileError :=
  Triple.modify fun _ hc => ⟨congrArg (· + 1) hc.1, hc.2⟩

/-- There is a scope to pop. -/
theorem careful_popScope : Triple (AsmCtx.Depth (n + 1) inFunc) popScope
    (fun _ => AsmCtx.Depth n inFunc) GenError.IsCompileError := by
  intro c hc
  cases hstk : c.scopeStk with
  | nil =>
    have hlen := hc.1
    rw [hstk] at hlen
    exact absurd hlen (by simp)
  | cons s scopes =>
    have hrun : popScope c =
        .ok ⟨(), { c with scopeStk := scopes, curOffset := s.baseOffset }, [], []⟩ := by
      simp [popScope, Lib.Emit.bind_run, hstk]
    rw [hrun]
    refine ⟨fun r hr => ?_, fun e he => absurd he (by simp)⟩
    obtain rfl := Except.ok.inj hr
    have hlen := hc.1
    rw [hstk, List.length_cons] at hlen
    exact ⟨Nat.succ.inj hlen, hc.2⟩

theorem careful_genBlock {nodes : Gen Unit} (h : Careful (n + 1) inFunc nodes) :
    Careful n inFunc (genBlock nodes) :=
  Triple.bind careful_pushScope fun _ => Triple.bind h fun _ => careful_popScope

/-! ## Expressions -/

theorem careful_popArgs (ids : List RegId) : Careful n inFunc (popArgs ids) := by
  induction ids with
  | nil => exact careful_pure ()
  | cons id ids ih => exact (careful_popInto id).bind fun _ => ih

theorem careful_genIdentifier (name : CString) : Careful n inFunc (genIdentifier name) := by
  unfold genIdentifier
  refine careful_get.bind fun c => ?_
  split
  · exact careful_compileError _
  · split
    · exact careful_emit _
    · exact careful_emit _

theorem careful_genAddr (expr : Expr) : Careful n inFunc (genAddr expr) := by
  unfold genAddr
  split
  · refine careful_get.bind fun c => ?_
    split
    · exact careful_compileError _
    · split
      · exact careful_emit _
      · exact careful_emit _
  · exact careful_compileError _

theorem careful_genUnary (op : UnaryOp) (expr : Expr) {operand : Gen Unit}
    (h : Careful n inFunc operand) : Careful n inFunc (genUnary op expr operand) := by
  unfold genUnary
  split
  · exact careful_genAddr expr
  · refine h.bind fun _ => ?_
    unfold genUnaryOp
    split
    · exact careful_emit _
    · exact (careful_emit _).bind fun _ => (careful_emit _).bind fun _ => careful_emit _
    · exact careful_pure ()
    · exact careful_compileError _

theorem careful_genBinaryOp (op : BinaryOp) : Careful n inFunc (genBinaryOp op) := by
  unfold genBinaryOp
  split
  · exact careful_emit _
  · exact careful_emit _
  · exact careful_emit _
  · exact (careful_emit _).bind fun _ => careful_emit _
  · exact (careful_emit _).bind fun _ => (careful_emit _).bind fun _ => careful_emit _

theorem careful_genCall (callee : CString) (m : Nat) {args : Gen Unit}
    (h : Careful n inFunc args) : Careful n inFunc (genCall callee m args) := by
  unfold genCall
  split
  · exact careful_compileError _
  · refine careful_get.bind fun c => ?_
    dsimp only
    split
    · -- the padding is pushed and taken back
      refine (careful_emit _).bind fun _ => (careful_modify ?_ ?_).bind fun _ => h.bind fun _ =>
        (careful_popArgs _).bind fun _ => (careful_emit _).bind fun _ => (careful_emit _).bind fun _ =>
          careful_modify ?_ ?_
      · exact fun _ => rfl
      · exact fun _ => rfl
      · exact fun _ => rfl
      · exact fun _ => rfl
    · exact h.bind fun _ => (careful_popArgs _).bind fun _ => (careful_emit _).bind fun _ =>
        careful_pure ()

theorem careful_genAssign (target : Expr) {val : Gen Unit} (h : Careful n inFunc val) :
    Careful n inFunc (genAssign target val) := by
  unfold genAssign
  split
  · refine h.bind fun _ => careful_get.bind fun c => ?_
    split
    · exact careful_compileError _
    · split
      · exact careful_emit _
      · exact careful_emit _
  · exact careful_compileError _

mutual

theorem careful_genExpr : ∀ e : Expr, Careful n inFunc (genExpr e)
  | .literal _ => careful_emit _
  | .identifier name => careful_genIdentifier name
  | .unary op expr => careful_genUnary op expr (careful_genExpr expr)
  | .binary op left right =>
    (careful_genExpr left).bind fun _ => careful_pushRax.bind fun _ =>
      (careful_genExpr right).bind fun _ => (careful_emit _).bind fun _ =>
        (careful_popInto _).bind fun _ => careful_genBinaryOp op
  | .call callee args => careful_genCall callee args.length (careful_genArgs args)
  | .assign target val => careful_genAssign target (careful_genExpr val)
  | .cast _ inner => careful_genExpr inner
  | .index _ _ => careful_compileError _

theorem careful_genArgs : ∀ args : List Expr, Careful n inFunc (genArgs args)
  | [] => careful_pure ()
  | arg :: args =>
    (careful_genExpr arg).bind fun _ => careful_pushRax.bind fun _ => careful_genArgs args

end

/-! ## Statements -/

theorem careful_genVarDecl (decl : VarDecl) : Careful (n + 1) inFunc (genVarDecl decl) := by
  unfold genVarDecl
  refine (careful_defineLocal _ _).bind fun sym => ?_
  split
  · exact (careful_genExpr _).bind fun _ => careful_emit _
  · exact careful_pure ()

/-- In a function there is an epilogue to jump to. -/
theorem careful_jmpEpilogue : Careful n True jmpEpilogue := by
  intro c hc
  obtain ⟨label, hlabel⟩ := hc.2 trivial
  have hrun : jmpEpilogue c = emit (.jmp label) c := by
    simp [jmpEpilogue, Lib.Emit.bind_run, hlabel, emit, asmEmit]
  rw [hrun]
  exact careful_emit _ c hc

theorem careful_genIf (cond : Expr) {thenBranch elseBranch : Gen Unit}
    (ht : Careful n True thenBranch) (he : Careful n True elseBranch) :
    Careful n True (genIf cond thenBranch elseBranch) :=
  careful_newLabel.bind fun _ => careful_newLabel.bind fun _ => (careful_genExpr cond).bind fun _ =>
    (careful_emit _).bind fun _ => (careful_emit _).bind fun _ => ht.bind fun _ =>
      (careful_emit _).bind fun _ => (careful_asmRaw _).bind fun _ => he.bind fun _ =>
        careful_asmRaw _

end steps

mutual

theorem careful_genStmt : ∀ (s : Stmt) (n : Nat), Careful (n + 1) True (genStmt s)
  | .block nodes, n => careful_genBlock (careful_genStmts nodes (n + 1))
  | .ifStmt cond thenBranch none, n =>
    careful_genIf cond (careful_genBlock (careful_genStmts thenBranch (n + 1))) (careful_pure ())
  | .ifStmt cond thenBranch (some elseBranch), n =>
    careful_genIf cond (careful_genBlock (careful_genStmts thenBranch (n + 1)))
      (careful_genBlock (careful_genStmts elseBranch (n + 1)))
  | .returnStmt returnVal, _ => (careful_genExpr returnVal).bind fun _ => careful_jmpEpilogue
  | .varDecl decl, _ => careful_genVarDecl decl
  | .comment _, _ => careful_pure ()
  | .expr e, _ => careful_genExpr e

theorem careful_genStmts : ∀ (ss : List Stmt) (n : Nat), Careful (n + 1) True (genStmts ss)
  | [], _ => careful_mark
  | node :: nodes, n =>
    careful_mark.bind fun _ => (careful_genStmt node n).bind fun _ => careful_genStmts nodes n

end

/-! ## Functions and programs -/

theorem careful_genParams {n : Nat} {inFunc : Prop} (params : List FuncParam) : ∀ i : Nat,
    i + params.length ≤ 6 → Careful (n + 1) inFunc (genParams i params) := by
  induction params with
  | nil => exact fun _ _ => careful_pure ()
  | cons p params ih =>
    intro i hlen
    rw [List.length_cons] at hlen
    have hi : i < argRegs.length := by
      simp only [argRegs, List.length_cons, List.length_nil]
      omega
    unfold genParams
    refine (careful_defineLocal _ _).bind fun sym => ?_
    rw [List.getElem?_eq_getElem hi]
    exact (careful_emit _).bind fun _ => ih (i + 1) (by omega)

theorem careful_genPrologue {n : Nat} {inFunc : Prop} (decl : FuncDecl) :
    Careful n inFunc (genPrologue decl) := by
  unfold genPrologue
  refine (careful_setIndent _).bind fun _ => (careful_asmEmit _).bind fun _ =>
    (careful_asmRaw _).bind fun _ => (careful_setIndent _).bind fun _ => (careful_emit _).bind fun _ =>
      (careful_emit _).bind fun _ => ?_
  split
  · exact careful_emit _
  · exact careful_pure ()

theorem careful_genEpilogue {n : Nat} {inFunc : Prop} (label : Nat) :
    Careful n inFunc (genEpilogue label) :=
  (careful_asmRaw _).bind fun _ => (careful_setIndent _).bind fun _ => (careful_emit _).bind fun _ =>
    (careful_emit _).bind fun _ => careful_emit _

theorem careful_genFuncDecl {n : Nat} (decl : FuncDecl) (hparams : decl.params.length ≤ 6) :
    Careful n False (genFuncDecl decl) := by
  unfold genFuncDecl
  refine (careful_genPrologue decl).bind fun _ => careful_newLabel.bind fun el => ?_
  refine Triple.bind (Q := fun _ => AsmCtx.Depth n True)
    (Triple.modify fun c hc => ⟨hc.1, fun _ => ⟨el, rfl⟩⟩) fun _ => ?_
  refine Triple.bind careful_pushScope fun _ => Triple.bind (careful_genParams decl.params 0 (by omega))
    fun _ => Triple.bind (careful_genStmts decl.block n) fun _ =>
      Triple.bind (careful_genEpilogue el) fun _ => Triple.bind careful_popScope fun _ => ?_
  exact Triple.modify fun c hc => ⟨hc.1, False.elim⟩

theorem careful_genFuncs {n : Nat} (p : Program)
    (hparams : ∀ decl, TopDecl.funcDecl decl ∈ p → decl.params.length ≤ 6) :
    Careful n False (genFuncs p) := by
  induction p with
  | nil => exact careful_pure ()
  | cons node p ih =>
    have hrest := ih fun decl hdecl => hparams decl (List.mem_cons_of_mem _ hdecl)
    cases node with
    | varDecl decl => exact hrest
    | comment text => exact hrest
    | funcDecl decl =>
      exact (careful_genFuncDecl decl (hparams decl List.mem_cons_self)).bind fun _ => hrest

theorem careful_genGlobal {n : Nat} (decl : VarDecl) : Careful (n + 1) False (genGlobal decl) :=
  (careful_defineGlobal _ _).bind fun _ => (careful_setIndent _).bind fun _ =>
    (careful_asmRaw _).bind fun _ => (careful_setIndent _).bind fun _ =>
      (careful_asmEmit _).bind fun _ => careful_setIndent _

theorem careful_genGlobals {n : Nat} (p : Program) : Careful (n + 1) False (genGlobals p) := by
  induction p with
  | nil => exact careful_pure ()
  | cons node p ih =>
    cases node with
    | varDecl decl => exact (careful_genGlobal decl).bind fun _ => ih
    | comment text => exact ih
    | funcDecl decl => exact ih

theorem careful_genProgram (p : Program)
    (hparams : ∀ decl, TopDecl.funcDecl decl ∈ p → decl.params.length ≤ 6) :
    Careful 0 False (genProgram p) := by
  have htext : Triple (AsmCtx.Depth 1 False) (do
      setIndent 0
      asmEmit .textSection
      genFuncs p
      popScope : Gen Unit) (fun _ => AsmCtx.Depth 0 False) GenError.IsCompileError :=
    Triple.bind (careful_setIndent _) fun _ => Triple.bind (careful_asmEmit _) fun _ =>
      Triple.bind (careful_genFuncs p hparams) fun _ => careful_popScope
  unfold genProgram
  refine Triple.bind careful_pushScope fun _ => ?_
  split
  · exact Triple.bind (careful_setIndent _) fun _ => Triple.bind (careful_asmEmit _) fun _ =>
      Triple.bind (careful_genGlobals p) fun _ => htext
  · exact htext

/-- **Code generation fails with a compile error only**, if no function has a seventh parameter. -/
theorem genProgram_fails (p : Program)
    (hparams : ∀ decl, TopDecl.funcDecl decl ∈ p → decl.params.length ≤ 6) {e : GenError}
    (h : genProgram p asmInit = .error e) : ∃ message, e = .compileError message :=
  (careful_genProgram p hparams asmInit ⟨rfl, False.elim⟩).2 e h

end ACompiler
