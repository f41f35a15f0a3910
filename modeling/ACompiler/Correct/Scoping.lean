import ACompiler.Assembler.Failure
import ACompiler.Correct.Data
import ACompiler.Correct.Function

/-!
# Scoping

Which programs compile: those in which every name that is used is in scope and nothing is used that
has no code. The judgement follows the tree; in scope are the globals, the parameters, and the
variables declared before, in the blocks around. The scopes that the generator keeps resolve exactly
these names at every point of a body, so it fails on the other programs and on no more
(`genProgram_ok_iff_wellScoped`).
-/

namespace ACompiler

open Lib (Emitted)
open Lib.Emit (bind_run bind_eq_ok)

/-! ## The judgement -/

/-- The operators that have code; `++` and `--` have none. -/
def UnaryOp.hasCode : UnaryOp → Bool
  | .uPos | .uNeg | .uNot => true
  | _ => false

/-- The expression, or the arguments of a call, may stand where `names` are in scope. -/
inductive ExprScoped (names : List CString) : Phrase → Prop
  | literal {lit : LiteralExpr} : ExprScoped names (.expr (.literal lit))
  | identifier {x : CString} (hx : x ∈ names) : ExprScoped names (.expr (.identifier x))
  | addr {x : CString} (hx : x ∈ names) : ExprScoped names (.expr (.unary .uAddr (.identifier x)))
  | unary {op : UnaryOp} {e : Expr} (hop : op.hasCode = true) (he : ExprScoped names (.expr e)) :
      ExprScoped names (.expr (.unary op e))
  | binary {op : BinaryOp} {left right : Expr} (hl : ExprScoped names (.expr left))
      (hr : ExprScoped names (.expr right)) : ExprScoped names (.expr (.binary op left right))
  | call {callee : CString} {args : List Expr} (hn : args.length ≤ 6)
      (ha : ExprScoped names (.exprs args)) : ExprScoped names (.expr (.call callee args))
  | assign {x : CString} {val : Expr} (hx : x ∈ names) (hv : ExprScoped names (.expr val)) :
      ExprScoped names (.expr (.assign (.identifier x) val))
  | cast {t : VarT} {inner : Expr} (hi : ExprScoped names (.expr inner)) :
      ExprScoped names (.expr (.cast t inner))
  | argsNil : ExprScoped names (.exprs [])
  | argsCons {arg : Expr} {args : List Expr} (ha : ExprScoped names (.expr arg))
      (hs : ExprScoped names (.exprs args)) : ExprScoped names (.exprs (arg :: args))

/-- The statement, or the nodes of a block, may stand where `names` are in scope. -/
inductive StmtScoped : List CString → StmtPhrase → Prop
  | comment {names : List CString} {text : CString} : StmtScoped names (.stmt (.comment text))
  | expr {names : List CString} {e : Expr} (he : ExprScoped names (.expr e)) :
      StmtScoped names (.stmt (.expr e))
  | returnStmt {names : List CString} {e : Expr} (he : ExprScoped names (.expr e)) :
      StmtScoped names (.stmt (.returnStmt e))
  | uninit {names : List CString} {x : CString} {t : VarT} :
      StmtScoped names (.stmt (.varDecl ⟨x, t, none⟩))
  /-- A variable is in scope in its own initialiser. -/
  | init {names : List CString} {x : CString} {t : VarT} {e : Expr}
      (he : ExprScoped (x :: names) (.expr e)) :
      StmtScoped names (.stmt (.varDecl ⟨x, t, some e⟩))
  | ifThen {names : List CString} {cond : Expr} {nodes : List Stmt}
      (hc : ExprScoped names (.expr cond)) (hb : StmtScoped names (.stmt (.block nodes))) :
      StmtScoped names (.stmt (.ifStmt cond nodes none))
  | ifElse {names : List CString} {cond : Expr} {nodes nodes' : List Stmt}
      (hc : ExprScoped names (.expr cond)) (hb : StmtScoped names (.stmt (.block nodes)))
      (hb' : StmtScoped names (.stmt (.block nodes'))) :
      StmtScoped names (.stmt (.ifStmt cond nodes (some nodes')))
  /-- What a block declares is out of scope behind it: a block adds no names. -/
  | block {names : List CString} {nodes : List Stmt} (hn : StmtScoped names (.nodes nodes)) :
      StmtScoped names (.stmt (.block nodes))
  | nil {names : List CString} : StmtScoped names (.nodes [])
  | cons {names : List CString} {s : Stmt} {nodes : List Stmt} (hs : StmtScoped names (.stmt s))
      (hn : StmtScoped (s.declares ++ names) (.nodes nodes)) : StmtScoped names (.nodes (s :: nodes))

/-- The body of a function uses its parameters, its variables and the globals only. -/
def FuncDecl.WellScoped (globals : List CString) (decl : FuncDecl) : Prop :=
  StmtScoped (decl.params.map FuncParam.ident ++ globals) (.nodes decl.block)

/-- Every function is well scoped; a global counts wherever it is declared, and the initialisers of
the globals are not looked at. -/
def Program.WellScoped (p : Program) : Prop :=
  ∀ decl ∈ funcsOf p, decl.WellScoped ((globalsOf p).map VarDecl.ident)

/-! ## The names of a context -/

/-- Exactly `names` resolve. -/
def AsmCtx.Resolves (c : AsmCtx) (names : List CString) : Prop :=
  ∀ x, x ∈ names ↔ ∃ v, findSymbol c x = some v

theorem AsmCtx.Resolves.declare {c : AsmCtx} {names : List CString} (h : c.Resolves names)
    (hstk : c.scopeStk ≠ []) (name : CString) (type : VarT) :
    (c.declare name type).Resolves (name :: names) := by
  intro x
  rw [findSymbol_declare hstk, List.mem_cons, h x]
  by_cases hx : name = x
  · simp [hx]
  · simp [hx, Ne.symm hx]

theorem AsmCtx.Resolves.enter {c : AsmCtx} {names : List CString} (h : c.Resolves names) :
    c.enter.Resolves names := fun x => by
  rw [h x, findSymbol_enter]

theorem AsmCtx.Resolves.declareParams (params : List FuncParam) :
    ∀ {c : AsmCtx} {names : List CString}, c.Resolves names → c.scopeStk ≠ [] →
      (c.declareParams params).Resolves ((params.map FuncParam.ident).reverse ++ names) := by
  induction params with
  | nil => exact fun h _ => h
  | cons p params ih =>
    intro c names h hstk
    have hrest := ih (h.declare hstk p.ident p.type) (declare_scopeStk p.ident p.type hstk)
    simpa [AsmCtx.declareParams] using hrest

/-- Behind a statement the names that it declares resolve too. -/
theorem StmtCode.resolves {c c' : AsmCtx} {s : Stmt} {items : List Item} {marks : List AsmCtx}
    {names : List CString} (h : StmtCode c (.stmt s) c' items marks) (hc : c.Resolves names) :
    c'.Resolves (s.declares ++ names) := by
  cases h with
  | uninit hstk => exact hc.declare hstk _ _
  | init hstk _ => exact hc.declare hstk _ _
  | ifThen _ hb =>
    obtain ⟨m, rfl⟩ := hb.of_block
    exact hc
  | ifElse _ hb hb' =>
    obtain ⟨m, rfl⟩ := hb.of_block
    obtain ⟨m', rfl⟩ := hb'.of_block
    exact hc
  | _ => exact hc

/-! ## Expressions -/

theorem hasCode_iff {op : UnaryOp} : op.hasCode = true ↔ ∃ is, unaryInstrs op = some is := by
  cases op <;> simp [UnaryOp.hasCode, unaryInstrs]

/-- Code uses names that resolve. -/
theorem ExprCode.scoped {c : AsmCtx} {p : Phrase} {items : List Item} (h : ExprCode c p items) :
    ∀ {names : List CString}, c.Resolves names → ExprScoped names p := by
  induction h with
  | literal => exact fun _ => .literal
  | identifier hs => exact fun hc => .identifier ((hc _).mpr ⟨_, hs⟩)
  | addr hs => exact fun hc => .addr ((hc _).mpr ⟨_, hs⟩)
  | unary hop _ ih => exact fun hc => .unary (hasCode_iff.mpr ⟨_, hop⟩) (ih hc)
  | binary _ _ ihl ihr => exact fun hc => .binary (ihl hc) (ihr hc)
  | call hn _ _ ih => exact fun hc => .call hn (ih hc)
  | callPad hn _ _ ih => exact fun hc => .call hn (ih hc)
  | assign _ hs ih => exact fun hc => .assign ((hc _).mpr ⟨_, hs⟩) (ih hc)
  | cast _ ih => exact fun hc => .cast (ih hc)
  | argsNil => exact fun _ => .argsNil
  | argsCons _ _ iha ihs => exact fun hc => .argsCons (iha hc) (ihs hc)

/-- An expression that is well scoped has code, at any push depth. -/
theorem ExprScoped.code {names : List CString} {p : Phrase} (h : ExprScoped names p) :
    ∀ {c : AsmCtx}, c.Resolves names → ∃ items, ExprCode c p items := by
  induction h with
  | literal => exact fun _ => ⟨_, .literal⟩
  | identifier hx =>
    intro c hc
    obtain ⟨v, hv⟩ := (hc _).mp hx
    exact ⟨_, .identifier hv⟩
  | addr hx =>
    intro c hc
    obtain ⟨v, hv⟩ := (hc _).mp hx
    exact ⟨_, .addr hv⟩
  | unary hop _ ih =>
    intro c hc
    obtain ⟨is, his⟩ := hasCode_iff.mp hop
    obtain ⟨items, he⟩ := ih hc
    exact ⟨_, .unary his he⟩
  | binary _ _ ihl ihr =>
    intro c hc
    have hdeep : (c.withDepth (c.pushDepth + 1)).Resolves _ := hc
    obtain ⟨items, hl⟩ := ihl hc
    obtain ⟨items', hr⟩ := ihr hdeep
    exact ⟨_, .binary hl hr⟩
  | call hn _ ih =>
    intro c hc
    by_cases heven : c.pushDepth % 2 = 0
    · obtain ⟨items, ha⟩ := ih hc
      exact ⟨_, .call hn heven ha⟩
    · have hdeep : (c.withDepth (c.pushDepth + 1)).Resolves _ := hc
      obtain ⟨items, ha⟩ := ih hdeep
      exact ⟨_, .callPad hn heven ha⟩
  | assign hx _ ih =>
    intro c hc
    obtain ⟨v, hv⟩ := (hc _).mp hx
    obtain ⟨items, hval⟩ := ih hc
    exact ⟨_, .assign hval hv⟩
  | cast _ ih =>
    intro c hc
    obtain ⟨items, hi⟩ := ih hc
    exact ⟨_, .cast hi⟩
  | argsNil => exact fun _ => ⟨_, .argsNil⟩
  | argsCons _ _ iha ihs =>
    intro c hc
    have hdeep : (c.withDepth (c.pushDepth + 1)).Resolves _ := hc
    obtain ⟨items, ha⟩ := iha hc
    obtain ⟨items', hs⟩ := ihs hdeep
    exact ⟨_, .argsCons ha hs⟩

/-! ## Statements -/

theorem StmtCode.scoped {c c' : AsmCtx} {p : StmtPhrase} {items : List Item}
    {marks : List AsmCtx} (h : StmtCode c p c' items marks) :
    ∀ {names : List CString}, c.Resolves names → StmtScoped names p := by
  induction h with
  | comment => exact fun _ => .comment
  | expr he => exact fun hc => .expr (he.scoped hc)
  | returnStmt he _ => exact fun hc => .returnStmt (he.scoped hc)
  | uninit _ => exact fun _ => .uninit
  | init hstk he => exact fun hc => .init (he.scoped (hc.declare hstk _ _))
  | ifThen he _ ih => exact fun hc => .ifThen (he.scoped hc) (ih hc)
  | ifElse he hb _ ih ih' =>
    intro names hc
    obtain ⟨m, rfl⟩ := hb.of_block
    exact .ifElse (he.scoped hc) (ih hc) (ih' hc)
  | block _ ih => exact fun hc => .block (ih hc.enter)
  | nil => exact fun _ => .nil
  | cons hs _ ih ih' => exact fun hc => .cons (ih hc) (ih' (hs.resolves hc))

/-- A context inside a function. -/
structure AsmCtx.InFunc (c : AsmCtx) : Prop where
  stk : c.scopeStk ≠ []
  label : ∃ n, c.epilogueLabel = some n

theorem AsmCtx.Extends.inFunc {c c' : AsmCtx} (h : c.Extends c') (hc : c.InFunc) : c'.InFunc := by
  obtain ⟨n, hn⟩ := hc.label
  obtain ⟨_, _, _, _, hstk, _⟩ := h.scopeStk hc.stk
  exact ⟨by rw [hstk]; simp, n, h.epilogueLabel.trans hn⟩

theorem StmtScoped.code {names : List CString} {p : StmtPhrase} (h : StmtScoped names p) :
    ∀ {c : AsmCtx}, c.Resolves names → c.InFunc → ∃ c' items marks, StmtCode c p c' items marks := by
  induction h with
  | comment => exact fun _ _ => ⟨_, _, _, .comment⟩
  | expr he =>
    intro c hc _
    obtain ⟨items, hcode⟩ := he.code hc
    exact ⟨_, _, _, .expr hcode⟩
  | returnStmt he =>
    intro c hc hin
    obtain ⟨n, hn⟩ := hin.label
    obtain ⟨items, hcode⟩ := he.code hc
    exact ⟨_, _, _, .returnStmt hcode hn⟩
  | uninit => exact fun _ hin => ⟨_, _, _, .uninit hin.stk⟩
  | init he =>
    intro c hc hin
    obtain ⟨items, hcode⟩ := he.code (hc.declare hin.stk _ _)
    exact ⟨_, _, _, .init hin.stk hcode⟩
  | ifThen he _ ih =>
    intro c hc hin
    have hlabels : (c.withLabels (c.labelCount + 2)).Resolves _ := hc
    obtain ⟨items, hcode⟩ := he.code hlabels
    obtain ⟨c', items', marks, hb⟩ := ih hlabels ⟨hin.stk, hin.label⟩
    exact ⟨_, _, _, .ifThen hcode hb⟩
  | ifElse he _ _ ih ih' =>
    intro c hc hin
    have hlabels : (c.withLabels (c.labelCount + 2)).Resolves _ := hc
    obtain ⟨items, hcode⟩ := he.code hlabels
    obtain ⟨c', items', marks, hb⟩ := ih hlabels ⟨hin.stk, hin.label⟩
    obtain ⟨m, rfl⟩ := hb.of_block
    have hbehind : ((c.withLabels (c.labelCount + 2)).withLabels m).Resolves _ := hc
    obtain ⟨c'', items'', marks', hb'⟩ := ih' hbehind ⟨hin.stk, hin.label⟩
    exact ⟨_, _, _, .ifElse hcode hb hb'⟩
  | block _ ih =>
    intro c hc hin
    obtain ⟨c', items, marks, hnodes⟩ := ih hc.enter ⟨by simp [AsmCtx.enter], hin.label⟩
    exact ⟨_, _, _, .block hnodes⟩
  | nil => exact fun _ _ => ⟨_, _, _, .nil⟩
  | cons _ _ ih ih' =>
    intro c hc hin
    obtain ⟨c', items, marks, hs⟩ := ih hc hin
    obtain ⟨c'', items', marks', hn⟩ := ih' (hs.resolves hc) (hs.extends.inFunc hin)
    exact ⟨_, _, _, .cons hs hn⟩

/-! ## Functions and programs -/

/-- The names in scope, in another order. -/
theorem AsmCtx.Resolves.congr {c : AsmCtx} {names names' : List CString} (h : c.Resolves names)
    (hnames : ∀ x, x ∈ names ↔ x ∈ names') : c.Resolves names' :=
  fun x => (hnames x).symm.trans (h x)

section functions
variable {decl : FuncDecl} {c : AsmCtx} {gs : List CString}

theorem bodyCtx_resolves (hc : c.Resolves gs) :
    (c.bodyCtx decl).Resolves (decl.params.map FuncParam.ident ++ gs) := by
  have hfunc : c.funcCtx.Resolves gs := hc
  refine (hfunc.enter.declareParams decl.params (by simp [AsmCtx.enter])).congr fun x => ?_
  rw [List.mem_append, List.mem_reverse, List.mem_append]

theorem bodyCtx_inFunc : (c.bodyCtx decl).InFunc :=
  (declareParams_extends decl.params _).inFunc ⟨by simp [AsmCtx.enter], c.labelCount, rfl⟩

/-- **A function compiles exactly when it is well scoped.** -/
theorem genFuncDecl_ok_iff (hparams : decl.params.length ≤ 6) (hc : c.Resolves gs) :
    (∃ r, genFuncDecl decl c = .ok r) ↔ decl.WellScoped gs := by
  constructor
  · rintro ⟨r, hr⟩
    obtain ⟨_, c', body, hbody, _⟩ := genFuncDecl_eq_ok hr
    exact hbody.scoped (bodyCtx_resolves hc)
  · intro h
    obtain ⟨c', body, marks, hbody⟩ := h.code (bodyCtx_resolves hc) bodyCtx_inFunc
    exact ⟨_, genFuncDecl_run hparams hbody⟩

end functions

theorem genFuncs_ok_iff : ∀ (p : Program) {c : AsmCtx} {gs : List CString},
    (∀ decl ∈ funcsOf p, decl.params.length ≤ 6) → c.Resolves gs →
      ((∃ r, genFuncs p c = .ok r) ↔ ∀ decl ∈ funcsOf p, decl.WellScoped gs) := by
  intro p
  induction p with
  | nil => exact fun _ _ => ⟨fun _ => by simp [funcsOf], fun _ => ⟨_, rfl⟩⟩
  | cons node p ih =>
    intro c gs hparams hc
    cases node with
    | varDecl decl => exact ih hparams hc
    | comment text => exact ih hparams hc
    | funcDecl decl =>
      simp only [funcsOf, List.forall_mem_cons] at hparams ⊢
      have hfunc := genFuncDecl_ok_iff hparams.1 hc
      constructor
      · rintro ⟨r, hr⟩
        rw [genFuncs] at hr
        rw [bind_eq_ok] at hr
        obtain ⟨r₁, r₂, h₁, h₂, rfl⟩ := hr
        obtain ⟨_, _, _, _, hr₁⟩ := genFuncDecl_eq_ok h₁
        have hbehind : r₁.ctx.Resolves gs := by
          rw [hr₁]
          exact hc
        exact ⟨hfunc.mp ⟨r₁, h₁⟩, (ih hparams.2 hbehind).mp ⟨r₂, h₂⟩⟩
      · rintro ⟨hdecl, hrest⟩
        obtain ⟨r₁, h₁⟩ := hfunc.mpr hdecl
        obtain ⟨_, _, _, _, hr₁⟩ := genFuncDecl_eq_ok h₁
        have hbehind : r₁.ctx.Resolves gs := by
          rw [hr₁]
          exact hc
        obtain ⟨r₂, h₂⟩ := (ih hparams.2 hbehind).mpr hrest
        rw [genFuncs]
        exact ⟨_, bind_eq_ok.mpr ⟨r₁, r₂, h₁, h₂, rfl⟩⟩

theorem AsmCtx.Resolves.declareGlobals (decls : List VarDecl) :
    ∀ {c : AsmCtx} {names : List CString}, c.Resolves names → c.scopeStk ≠ [] →
      (c.declareGlobals decls).Resolves ((decls.map VarDecl.ident).reverse ++ names) := by
  induction decls with
  | nil => exact fun h _ => h
  | cons decl decls ih =>
    intro c names h hstk
    have hglobal : (c.declareGlobal decl).Resolves (decl.ident :: names) := by
      cases hscopes : c.scopeStk with
      | nil => exact absurd hscopes hstk
      | cons s scopes =>
        intro x
        have hstk' : (c.declareGlobal decl).scopeStk =
            s.addSymbol ⟨decl.ident, 0, decl.type, true⟩ :: scopes := by
          simp only [AsmCtx.declareGlobal, hscopes]
        rw [List.mem_cons, h x, findSymbol_of_cons hstk', findSymbol_of_cons hscopes]
        by_cases hx : decl.ident = x
        · simp [Scope.addSymbol, hx]
        · simp [Scope.addSymbol, hx, Ne.symm hx]
          rfl
    have hrest := ih hglobal (declareGlobal_spec hstk decl).1
    simpa [AsmCtx.declareGlobals] using hrest

/-- In the functions exactly the globals resolve. -/
theorem textCtx_resolves (p : Program) :
    ({ dataCtx.declareGlobals (globalsOf p) with indent := 0 } : AsmCtx).Resolves
      ((globalsOf p).map VarDecl.ident) := by
  have hempty : dataCtx.Resolves [] := fun x => by simp [dataCtx, findSymbol, AsmCtx.enter, newScope,
    asmInit]
  have h := hempty.declareGlobals (globalsOf p) (by simp [dataCtx, AsmCtx.enter])
  exact h.congr fun x => by simp

/-- **Code generation fails exactly on the programs that are not well scoped**, and with a compile
error. -/
theorem genProgram_ok_iff_wellScoped (p : Program)
    (hparams : ∀ decl ∈ funcsOf p, decl.params.length ≤ 6) :
    ((∃ r, genProgram p asmInit = .ok r) ↔ p.WellScoped) ∧
      ((∃ message, genProgram p asmInit = .error (.compileError message)) ↔ ¬ p.WellScoped) := by
  have hok : (∃ r, genProgram p asmInit = .ok r) ↔ p.WellScoped := by
    refine Iff.trans ⟨?_, ?_⟩ (genFuncs_ok_iff p hparams (textCtx_resolves p))
    · rintro ⟨r, hr⟩
      obtain ⟨r₀, hr₀, _⟩ := genProgram_parts hr
      exact ⟨r₀, hr₀⟩
    · rintro ⟨r₀, hr₀⟩
      exact genProgram_of_genFuncs hr₀
  refine ⟨hok, ?_⟩
  rw [← hok]
  constructor
  · rintro ⟨message, herr⟩ ⟨r, hr⟩
    exact absurd (herr.symm.trans hr) (by simp)
  · intro hnone
    cases hrun : genProgram p asmInit with
    | ok r => exact absurd ⟨r, hrun⟩ hnone
    | error e =>
      obtain ⟨message, rfl⟩ :=
        genProgram_fails p (fun decl hdecl => hparams decl (mem_funcsOf.mpr hdecl)) hrun
      exact ⟨message, rfl⟩

/-- `fn f() { { let QWORD x = 1; } return x; }`. -/
def usesBehindBlock : Program :=
  [.funcDecl ⟨ascii "f", ⟨.lit .litQword, false, 0⟩, [],
    [.block [.varDecl ⟨ascii "x", ⟨.lit .litQword, false, 0⟩, some (.literal ⟨1, none⟩)⟩],
      .returnStmt (.identifier (ascii "x"))]⟩]

/-- A variable of a block that has ended is not found. -/
theorem genProgram_ok_iff_wellScoped_usesBehindBlock :
    ∃ message, genProgram usesBehindBlock asmInit = .error (.compileError message) := by
  refine (genProgram_ok_iff_wellScoped usesBehindBlock (by decide)).2.mpr fun h => ?_
  cases h _ List.mem_cons_self with
  | cons _ hn =>
    cases hn with
    | cons hs _ =>
      cases hs with
      | returnStmt he =>
        cases he with
        | identifier hx => exact absurd hx (by decide)

end ACompiler
