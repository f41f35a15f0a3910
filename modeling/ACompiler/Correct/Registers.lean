import ACompiler.Correct.Frames
import ACompiler.Correct.Scoping
import ACompiler.Parser.Parse

/-!
# The argument registers

Two loops index `arg_regs`, which has six entries. `gen_call` counts its arguments first, so its pops
stay in the table (`genCall_eq`). `gen_func_decl` does not count its parameters: it reads behind the
table at the seventh, unless a compile error has ended the program before (`genProgram_reads_iff`).
-/

namespace ACompiler

open Lib.Emit (get modify throw bind_run bind_eq_ok)

/-! ## Calls -/

/-- The loop of `gen_call` over the registers, with its index counting down from `i`. -/
def popRegs : Nat → Gen Unit
  | 0 => pure ()
  | i + 1 =>
    match argRegs[i]? with
    | none => throw .outOfBounds
    | some id => do
      popInto id
      popRegs i

/-- `gen_call` with the reads of `arg_regs` spelled out. -/
def genCallAt (callee : CString) (n : Nat) (args : Gen Unit) : Gen Unit := do
  if n > 6 then stdCompileError "more than 6 args not supported"
  else do
    let c ← get
    let pad := decide (c.pushDepth % 2 ≠ 0)
    if pad then
      emit (.sub (.imm 8) (.reg .rsp))
      modify fun c => { c with pushDepth := c.pushDepth + 1 }
    args
    popRegs n
    emit (.call callee)
    if pad then
      emit (.add (.imm 8) (.reg .rsp))
      modify fun c => { c with pushDepth := c.pushDepth - 1 }

/-- At most six pops read the table inside. -/
theorem popRegs_eq : ∀ {n : Nat}, n ≤ 6 → popRegs n = popArgs (argRegs.take n).reverse := by
  intro n
  induction n with
  | zero => exact fun _ => rfl
  | succ i ih =>
    intro hn
    have hi : i < argRegs.length := by
      simp only [argRegs, List.length_cons, List.length_nil]
      omega
    rw [popRegs, List.getElem?_eq_getElem hi, List.take_succ_eq_append_getElem hi,
      List.reverse_append, ih (by omega)]
    rfl

theorem genCall_eq : genCall = genCallAt := by
  funext callee n args
  unfold genCall genCallAt
  by_cases hn : n > 6
  · rw [if_pos hn, if_pos hn]
  · rw [if_neg hn, if_neg hn, popRegs_eq (by omega)]

/-! ## Parameters -/

theorem genParams_outOfBounds : ∀ (params : List FuncParam) (i : Nat) {c : AsmCtx},
    c.scopeStk ≠ [] → i ≤ 6 → 6 < i + params.length → genParams i params c = .error .outOfBounds := by
  intro params
  induction params with
  | nil =>
    intro i c _ hi hlen
    rw [List.length_nil] at hlen
    omega
  | cons p params ih =>
    intro i c hstk hi hlen
    rw [List.length_cons] at hlen
    rw [genParams, bind_run, defineLocal_run _ _ hstk]
    by_cases hlast : i < argRegs.length
    · have hsix : i < 6 := hlast
      have hrec := ih (i + 1) (declare_scopeStk p.ident p.type hstk) (by omega) (by omega)
      simp [List.getElem?_eq_getElem hlast, bind_run, hrec]
    · simp [List.getElem?_eq_none (Nat.le_of_not_lt hlast)]

/-- The seventh parameter is read before the body is looked at. -/
theorem genFuncDecl_outOfBounds {decl : FuncDecl} (c : AsmCtx) (hlen : 6 < decl.params.length) :
    genFuncDecl decl c = .error .outOfBounds := by
  have hp := genParams_outOfBounds decl.params 0 (c := c.funcCtx.enter) (by simp [AsmCtx.enter])
    (by omega) (by omega)
  have hc₀ : ({ c with
    indent := 4
    labelCount := c.labelCount + 1
    epilogueLabel := some c.labelCount
    curOffset := 0
    pushDepth := 0 } : AsmCtx) = c.funcCtx := rfl
  simp only [genFuncDecl, bind_run, genPrologue_run, newLabel_run, Lib.Emit.modify_run, hc₀,
    pushScope_run, hp]

theorem genFuncDecl_inBounds {decl : FuncDecl} (c : AsmCtx) (hlen : decl.params.length ≤ 6) :
    genFuncDecl decl c ≠ .error .outOfBounds := by
  intro h
  obtain ⟨message, heq⟩ :=
    (careful_genFuncDecl decl hlen c ⟨rfl, False.elim⟩).2 _ h
  exact absurd heq (by simp)

/-! ## Programs -/

/-- No function with a seventh parameter is reached: in front of it stands one that does not
compile. -/
def Program.Guarded (p : Program) : Prop :=
  ∀ before decl behind, p = before ++ .funcDecl decl :: behind → 6 < decl.params.length →
    ∃ d ∈ funcsOf before, ¬ d.WellScoped ((globalsOf p).map VarDecl.ident)

/-- The loop over the functions reads behind the table. -/
def ReadsBehind (gs : List CString) (p : Program) : Prop :=
  ∃ before decl behind, p = before ++ .funcDecl decl :: behind ∧ 6 < decl.params.length ∧
    ∀ d ∈ funcsOf before, d.WellScoped gs

section reads
variable {gs : List CString} {node : TopDecl} {decl : FuncDecl} {p : Program}

theorem ReadsBehind.cons (h : ReadsBehind gs p) (hnode : ∀ d ∈ funcsOf [node], d.WellScoped gs) :
    ReadsBehind gs (node :: p) := by
  obtain ⟨before, decl, behind, rfl, hlen, hbefore⟩ := h
  refine ⟨node :: before, decl, behind, rfl, hlen, fun d hd => ?_⟩
  cases node with
  | varDecl decl => exact hbefore d hd
  | comment text => exact hbefore d hd
  | funcDecl decl =>
    rcases List.mem_cons.mp hd with rfl | hd
    · exact hnode d List.mem_cons_self
    · exact hbefore d hd

/-- Either the first node reads behind the table, or it is passed and a later one does. -/
theorem ReadsBehind.of_cons (h : ReadsBehind gs (node :: p)) :
    (∃ decl, node = .funcDecl decl ∧ 6 < decl.params.length) ∨
      (∀ d ∈ funcsOf [node], d.WellScoped gs) ∧ ReadsBehind gs p := by
  obtain ⟨before, decl, behind, hp, hlen, hbefore⟩ := h
  cases before with
  | nil => exact .inl ⟨decl, (List.cons.inj hp).1, hlen⟩
  | cons first before =>
    obtain ⟨rfl, rfl⟩ := List.cons.inj hp
    refine .inr ⟨fun d hd => ?_, before, decl, behind, rfl, hlen, fun d hd => ?_⟩
    · cases node with
      | varDecl v => simp [funcsOf] at hd
      | comment text => simp [funcsOf] at hd
      | funcDecl v =>
        obtain rfl := List.mem_singleton.mp hd
        exact hbefore d List.mem_cons_self
    · cases node with
      | varDecl v => exact hbefore d hd
      | comment text => exact hbefore d hd
      | funcDecl v => exact hbefore d (List.mem_cons_of_mem _ hd)

/-- The first function that ends the loop decides how it ends. -/
theorem genFuncs_outOfBounds_iff : ∀ (p : Program) {c : AsmCtx} {gs : List CString},
    c.Resolves gs → (genFuncs p c = .error .outOfBounds ↔ ReadsBehind gs p) := by
  intro p
  induction p with
  | nil =>
    intro c gs _
    refine ⟨fun h => absurd h (by simp [genFuncs]), fun h => ?_⟩
    obtain ⟨before, decl, behind, hp, _⟩ := h
    exact absurd hp (by simp)
  | cons node p ih =>
    intro c gs hc
    have hskip (hnode : funcsOf [node] = []) : ReadsBehind gs (node :: p) ↔ ReadsBehind gs p := by
      constructor
      · intro h
        rcases h.of_cons with ⟨decl, rfl, _⟩ | ⟨_, h⟩
        · exact absurd hnode (by simp [funcsOf])
        · exact h
      · exact fun h => h.cons (by simp [hnode])
    cases node with
    | varDecl v => exact (ih hc).trans (hskip rfl).symm
    | comment text => exact (ih hc).trans (hskip rfl).symm
    | funcDecl decl =>
      rw [genFuncs]
      by_cases hlen : decl.params.length ≤ 6
      · cases hrun : genFuncDecl decl c with
        | error e =>
          have hscoped : ¬ decl.WellScoped gs := fun h => by
            obtain ⟨r, hr⟩ := (genFuncDecl_ok_iff hlen hc).mpr h
            exact absurd (hrun.symm.trans hr) (by simp)
          have he : e ≠ .outOfBounds := fun h => genFuncDecl_inBounds c hlen (h ▸ hrun)
          rw [bind_run, hrun]
          refine ⟨fun h => absurd (Except.error.inj h) he, fun h => ?_⟩
          rcases h.of_cons with ⟨d, hd, hlong⟩ | ⟨h, _⟩
          · obtain rfl := TopDecl.funcDecl.inj hd
            omega
          · exact absurd (h decl List.mem_cons_self) hscoped
        | ok r =>
          obtain ⟨_, _, _, _, hr⟩ := genFuncDecl_eq_ok hrun
          have hbehind : r.ctx.Resolves gs := by
            rw [hr]
            exact hc
          have hscoped : decl.WellScoped gs := (genFuncDecl_ok_iff hlen hc).mp ⟨r, hrun⟩
          have hrest : (genFuncDecl decl >>= fun _ => genFuncs p) c = .error .outOfBounds ↔
              genFuncs p r.ctx = .error .outOfBounds := by
            rw [Lib.Emit.bind_of_ok hrun]
            cases hfuncs : genFuncs p r.ctx with
            | error e => simp
            | ok r' => simp
          refine hrest.trans ((ih hbehind).trans ⟨fun h => h.cons ?_, fun h => ?_⟩)
          · exact fun d hd => List.mem_singleton.mp hd ▸ hscoped
          · rcases h.of_cons with ⟨d, hd, hlong⟩ | ⟨_, h⟩
            · obtain rfl := TopDecl.funcDecl.inj hd
              omega
            · exact h
      · -- this function is the first to read behind the table
        rw [bind_run, genFuncDecl_outOfBounds c (by omega)]
        exact ⟨fun _ => ⟨[], decl, p, rfl, by omega, by simp [funcsOf]⟩, fun _ => rfl⟩

end reads

/-- A program fails as its functions do. -/
theorem genProgram_eq_error_iff {p : Program} {e : GenError} :
    genProgram p asmInit = .error e ↔ genFuncs p p.textCtx = .error e := by
  cases hfuncs : genFuncs p p.textCtx with
  | ok r =>
    obtain ⟨r', hr'⟩ := genProgram_of_genFuncs hfuncs
    simp [hr']
  | error e' =>
    have hstk : dataCtx.scopeStk ≠ [] := by simp [dataCtx, AsmCtx.enter]
    have hdata : ({ asmInit.enter with indent := 0 } : AsmCtx) = dataCtx := rfl
    have hrun : genProgram p asmInit = .error e' := by
      unfold Program.textCtx at hfuncs
      by_cases hd : hasData p = true
      · rw [genProgram, if_pos hd]
        simp only [bind_run, pushScope_run, setIndent_run, asmEmit_run, hdata, genGlobals_run p hstk,
          hfuncs]
      · rw [hasData_eq_false (by simpa using hd), AsmCtx.declareGlobals] at hfuncs
        rw [genProgram, if_neg hd]
        have hdata' : ({ dataCtx with indent := 0 } : AsmCtx) = dataCtx := rfl
        rw [hdata'] at hfuncs
        simp only [bind_run, pushScope_run, setIndent_run, asmEmit_run, hdata, hfuncs]
    rw [hrun]

theorem guarded_iff (p : Program) :
    p.Guarded ↔ ¬ ReadsBehind ((globalsOf p).map VarDecl.ident) p := by
  constructor
  · rintro h ⟨before, decl, behind, hp, hlen, hbefore⟩
    obtain ⟨d, hd, hscoped⟩ := h before decl behind hp hlen
    exact hscoped (hbefore d hd)
  · intro h before decl behind hp hlen
    by_contra hnone
    refine h ⟨before, decl, behind, hp, hlen, fun d hd => ?_⟩
    by_contra hscoped
    exact hnone ⟨d, hd, hscoped⟩

theorem genProgram_outOfBounds_iff (p : Program) :
    genProgram p asmInit = .error .outOfBounds ↔ ¬ p.Guarded := by
  rw [genProgram_eq_error_iff, guarded_iff, not_not]
  exact genFuncs_outOfBounds_iff p (textCtx_resolves p)

/-- A call never reads behind the table. -/
theorem genExpr_inBounds (e : Expr) (c : AsmCtx) : genExpr e c ≠ .error .outOfBounds := by
  intro h
  obtain ⟨message, heq⟩ := (@careful_genExpr _ False e c ⟨rfl, False.elim⟩).2 _ h
  exact absurd heq (by simp)

/-- **Reads of `arg_regs`.** Calls read it inside its bounds. A program makes no read behind it
exactly when each function with a seventh parameter stands behind one that does not compile. -/
theorem genProgram_reads_iff (p : Program) :
    (genCall = genCallAt ∧ ∀ e c, genExpr e c ≠ .error .outOfBounds) ∧
      (genProgram p asmInit ≠ .error .outOfBounds ↔ p.Guarded) := by
  refine ⟨⟨genCall_eq, genExpr_inBounds⟩, ?_⟩
  rw [Ne, genProgram_outOfBounds_iff, not_not]

/-- `fn f(a, b, c, d, e, g, h) { return 0; }`. -/
def sevenParams : Program :=
  [.funcDecl ⟨ascii "f", ⟨.lit .litQword, false, 0⟩,
    ["a", "b", "c", "d", "e", "g", "h"].map fun x => ⟨ascii x, ⟨.lit .litQword, false, 0⟩⟩,
    [.returnStmt (.literal ⟨0, none⟩)]⟩]

def sevenParamsTokens : List Token :=
  [⟨.tFunc, ascii "fn", 2, 1, 2⟩, ⟨.tIdentifier, ascii "f", 1, 1, 4⟩,
    ⟨.tLeftParen, ascii "(", 1, 1, 5⟩, ⟨.tIdentifier, ascii "a", 1, 1, 6⟩,
    ⟨.tComma, ascii ",", 1, 1, 7⟩, ⟨.tIdentifier, ascii "b", 1, 1, 9⟩,
    ⟨.tComma, ascii ",", 1, 1, 10⟩, ⟨.tIdentifier, ascii "c", 1, 1, 12⟩,
    ⟨.tComma, ascii ",", 1, 1, 13⟩, ⟨.tIdentifier, ascii "d", 1, 1, 15⟩,
    ⟨.tComma, ascii ",", 1, 1, 16⟩, ⟨.tIdentifier, ascii "e", 1, 1, 18⟩,
    ⟨.tComma, ascii ",", 1, 1, 19⟩, ⟨.tIdentifier, ascii "g", 1, 1, 21⟩,
    ⟨.tComma, ascii ",", 1, 1, 22⟩, ⟨.tIdentifier, ascii "h", 1, 1, 24⟩,
    ⟨.tRightParen, ascii ")", 1, 1, 25⟩, ⟨.tLeftBrace, ascii "\x7b", 1, 1, 27⟩,
    ⟨.tReturn, ascii "return", 6, 1, 34⟩, ⟨.tNumberLit, ascii "0", 1, 1, 36⟩,
    ⟨.tSemicolon, ascii ";", 1, 1, 37⟩, ⟨.tRightBrace, ascii "\x7d", 1, 1, 39⟩,
    ⟨.tEof, ascii "eof", 3, 2 ^ 32 - 1, 2 ^ 32 - 1⟩]

/-- The parser accepts a seventh parameter, and code generation then reads `arg_regs[6]`. -/
theorem genProgram_reads_sevenParams :
    ∃ p, parseProgram sevenParamsTokens = .ok p ∧ genProgram p asmInit = .error .outOfBounds := by
  have hparse : parseProgram sevenParamsTokens = .ok sevenParams := rfl
  refine ⟨sevenParams, hparse, (genProgram_outOfBounds_iff sevenParams).mpr fun h => ?_⟩
  obtain ⟨d, hd, _⟩ := h [] _ [] rfl (by decide)
  simp [funcsOf] at hd

end ACompiler
