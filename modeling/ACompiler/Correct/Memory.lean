import ACompiler.Assembler.Cells
import ACompiler.Correct.Data

/-!
# The memory of the code generator

The calls that code generation makes on its scopes, read off the program, and what they do to the
heap. For every program that is accepted the calls fit together: no scope is closed that was not
opened, and every name that is looked up is found. So on the heap they follow no bad pointer and
free nothing twice, and what is still allocated after `asm_free` is known exactly
(`genProgram_memory`).
-/

namespace ACompiler

open Lib (Emitted Ref Cells Completes)
open Lib.Emit (bind_run bind_eq_ok)

/-! ## The calls of a program -/

mutual

/-- The lookups of an expression, in the order of the walk. The operand of `&` is looked up and not
generated, and where it is no identifier there is no code. -/
def Expr.scopeCalls : Expr → List ScopeCall
  | .literal _ => []
  | .identifier name => [.find name]
  | .unary _ expr => expr.scopeCalls
  | .binary _ left right => left.scopeCalls ++ right.scopeCalls
  | .call _ args => argsScopeCalls args
  | .assign target val => val.scopeCalls ++ target.scopeCalls
  | .cast _ inner => inner.scopeCalls
  | .index _ _ => []

def argsScopeCalls : List Expr → List ScopeCall
  | [] => []
  | arg :: args => arg.scopeCalls ++ argsScopeCalls args

end

def Phrase.scopeCalls : Phrase → List ScopeCall
  | .expr e => e.scopeCalls
  | .exprs es => argsScopeCalls es

def VarDecl.scopeCalls (decl : VarDecl) : List ScopeCall :=
  .defineLocal decl.ident decl.type :: (decl.assign.map Expr.scopeCalls).getD []

/-- The calls of a block, around those of its nodes. -/
def blockScopeCalls (nodes : List ScopeCall) : List ScopeCall := .push :: nodes ++ [.pop]

mutual

def Stmt.scopeCalls : Stmt → List ScopeCall
  | .block nodes => blockScopeCalls (nodesScopeCalls nodes)
  | .ifStmt cond thenBranch none =>
    cond.scopeCalls ++ blockScopeCalls (nodesScopeCalls thenBranch)
  | .ifStmt cond thenBranch (some elseBranch) =>
    cond.scopeCalls ++ blockScopeCalls (nodesScopeCalls thenBranch) ++
      blockScopeCalls (nodesScopeCalls elseBranch)
  | .returnStmt returnVal => returnVal.scopeCalls
  | .varDecl decl => decl.scopeCalls
  | .comment _ => []
  | .expr e => e.scopeCalls

def nodesScopeCalls : List Stmt → List ScopeCall
  | [] => []
  | node :: nodes => node.scopeCalls ++ nodesScopeCalls nodes

end

def StmtPhrase.scopeCalls : StmtPhrase → List ScopeCall
  | .stmt s => s.scopeCalls
  | .nodes ss => nodesScopeCalls ss

def paramsScopeCalls (params : List FuncParam) : List ScopeCall :=
  params.map fun p => .defineLocal p.ident p.type

def FuncDecl.scopeCalls (decl : FuncDecl) : List ScopeCall :=
  .reset :: blockScopeCalls (paramsScopeCalls decl.params ++ nodesScopeCalls decl.block)

def globalsScopeCalls (decls : List VarDecl) : List ScopeCall :=
  decls.map fun decl => .defineGlobal decl.ident decl.type

/-- The globals come first, wherever they are declared. -/
def Program.scopeCalls (p : Program) : List ScopeCall :=
  blockScopeCalls (globalsScopeCalls (globalsOf p) ++ (funcsOf p).flatMap FuncDecl.scopeCalls)

/-! ## Scopes -/

mutual

/-- The blocks of a statement; a branch of an `if` is one. -/
def Stmt.blocks : Stmt → Nat
  | .block nodes => nodesBlocks nodes + 1
  | .ifStmt _ thenBranch none => nodesBlocks thenBranch + 1
  | .ifStmt _ thenBranch (some elseBranch) =>
    (nodesBlocks thenBranch + 1) + (nodesBlocks elseBranch + 1)
  | .returnStmt _ | .varDecl _ | .comment _ | .expr _ => 0

def nodesBlocks : List Stmt → Nat
  | [] => 0
  | node :: nodes => node.blocks + nodesBlocks nodes

end

def StmtPhrase.blocks : StmtPhrase → Nat
  | .stmt s => s.blocks
  | .nodes ss => nodesBlocks ss

/-- The scopes of a program: the one of its globals, one for each function and one for each
block. -/
def Program.scopes (p : Program) : Nat :=
  ((funcsOf p).map fun decl => nodesBlocks decl.block + 1).sum + 1

section counts
variable {c c' : AsmCtx} {items : List Item} {marks : List AsmCtx}

@[simp] theorem count_blockScopeCalls (calls : List ScopeCall) :
    (blockScopeCalls calls).count .push = calls.count .push + 1 := by
  simp [blockScopeCalls, List.count_append]

theorem ExprCode.count_push {p : Phrase} (h : ExprCode c p items) :
    p.scopeCalls.count .push = 0 := by
  induction h with
  | literal => rfl
  | identifier hs => rfl
  | addr hs => rfl
  | unary hop he ih => exact ih
  | binary hl hr ihl ihr =>
    simp only [Phrase.scopeCalls, Expr.scopeCalls, List.count_append] at ihl ihr ⊢
    rw [ihl, ihr]
  | call hn heven ha ih => exact ih
  | callPad hn hodd ha ih => exact ih
  | assign hv hs ih =>
    simp only [Phrase.scopeCalls, Expr.scopeCalls, List.count_append] at ih ⊢
    rw [ih]
    rfl
  | cast hi ih => exact ih
  | argsNil => rfl
  | argsCons ha hs iha ihs =>
    simp only [Phrase.scopeCalls, argsScopeCalls, List.count_append] at iha ihs ⊢
    rw [iha, ihs]

theorem StmtCode.count_push {p : StmtPhrase} (h : StmtCode c p c' items marks) :
    p.scopeCalls.count .push = p.blocks := by
  induction h with
  | comment => rfl
  | expr he => exact he.count_push
  | returnStmt he hn => exact he.count_push
  | uninit hstk => rfl
  | init hstk he => exact (List.count_cons_of_ne (by simp)).trans he.count_push
  | ifThen hc hb ih =>
    have hcond := hc.count_push
    simp only [Phrase.scopeCalls, StmtPhrase.scopeCalls, StmtPhrase.blocks, Stmt.scopeCalls,
      Stmt.blocks, List.count_append] at hcond ih ⊢
    rw [hcond, ih, Nat.zero_add]
  | ifElse hc hb hb' ih ih' =>
    have hcond := hc.count_push
    simp only [Phrase.scopeCalls, StmtPhrase.scopeCalls, StmtPhrase.blocks, Stmt.scopeCalls,
      Stmt.blocks, List.count_append] at hcond ih ih' ⊢
    rw [hcond, ih, ih', Nat.zero_add]
  | block hn ih =>
    simp only [StmtPhrase.scopeCalls, StmtPhrase.blocks, Stmt.scopeCalls, Stmt.blocks,
      count_blockScopeCalls] at ih ⊢
    rw [ih]
  | nil => rfl
  | cons hs hn ih ih' =>
    simp only [StmtPhrase.scopeCalls, StmtPhrase.blocks, nodesScopeCalls, nodesBlocks,
      List.count_append] at ih ih' ⊢
    rw [ih, ih']

theorem genFuncDecl_count_push {decl : FuncDecl} {r : Emitted AsmCtx Item Unit}
    (h : genFuncDecl decl c = .ok r) :
    decl.scopeCalls.count .push = nodesBlocks decl.block + 1 := by
  obtain ⟨_, c', body, hcode, _⟩ := genFuncDecl_eq_ok h
  have hparams : (paramsScopeCalls decl.params).count .push = 0 := by
    rw [paramsScopeCalls, List.count_eq_zero]
    simp
  have hbody : (nodesScopeCalls decl.block).count .push = nodesBlocks decl.block :=
    hcode.count_push
  rw [FuncDecl.scopeCalls, List.count_cons_of_ne (by simp), count_blockScopeCalls,
    List.count_append, hparams, hbody, Nat.zero_add]

theorem genProgram_count_push {p : Program} {r : Emitted AsmCtx Item Unit}
    (h : genProgram p asmInit = .ok r) : p.scopeCalls.count .push = p.scopes := by
  have hglobals : (globalsScopeCalls (globalsOf p)).count .push = 0 := by
    rw [globalsScopeCalls, List.count_eq_zero]
    simp
  have hfuncs : ∀ decl ∈ funcsOf p, decl.scopeCalls.count .push = nodesBlocks decl.block + 1 := by
    intro decl hdecl
    obtain ⟨c₀, r₀, _, hrun⟩ := (genProgram_eq_ok h).2 decl hdecl
    exact genFuncDecl_count_push hrun
  rw [Program.scopeCalls, count_blockScopeCalls, List.count_append, hglobals, Nat.zero_add,
    List.count_flatMap, Program.scopes]
  congr 2
  exact List.map_congr_left hfuncs

end counts

/-! ## The calls fit together -/

def AsmCtx.scoping (c : AsmCtx) : ScopeState := ⟨c.scopeStk, c.curOffset⟩

section walk
variable {c c' : AsmCtx} {items : List Item} {marks : List AsmCtx}

/-- Every name in an expression that has code is found, and nothing else happens. -/
theorem ExprCode.goes {p : Phrase} (h : ExprCode c p items) :
    ∃ found, c.scoping.Goes p.scopeCalls found 0 c.scoping := by
  induction h with
  | literal => exact ⟨[], .nil⟩
  | identifier hs => exact ⟨_, .find hs .nil⟩
  | addr hs => exact ⟨_, .find hs .nil⟩
  | unary hop he ih => exact ih
  | binary hl hr ihl ihr =>
    obtain ⟨found, hgoes⟩ := ihl
    obtain ⟨found', hgoes'⟩ := ihr
    exact ⟨_, hgoes.trans hgoes'⟩
  | call hn heven ha ih => exact ih
  | callPad hn hodd ha ih => exact ih
  | assign hv hs ih =>
    obtain ⟨found, hgoes⟩ := ih
    exact ⟨_, hgoes.trans (.find hs .nil)⟩
  | cast hi ih => exact ih
  | argsNil => exact ⟨[], .nil⟩
  | argsCons ha hs iha ihs =>
    obtain ⟨found, hgoes⟩ := iha
    obtain ⟨found', hgoes'⟩ := ihs
    exact ⟨_, hgoes.trans hgoes'⟩

theorem goes_declare (hstk : c.scopeStk ≠ []) (name : CString) (type : VarT) :
    ∃ lost, c.scoping.Goes [.defineLocal name type] [] lost (c.declare name type).scoping := by
  cases hscopes : c.scopeStk with
  | nil => exact absurd hscopes hstk
  | cons s scopes =>
    refine ⟨Nodes.held s.symbols name + 0, ?_⟩
    rw [AsmCtx.scoping, hscopes, AsmCtx.scoping, AsmCtx.declare, hscopes]
    exact .defineLocal .nil

/-- What happens in a block is undone at its end, but for what is lost. -/
theorem goes_block {calls : List ScopeCall} {found : List Symbol} {lost : Multiset Symbol}
    (hext : c.enter.Extends c') (h : c.enter.scoping.Goes calls found lost c'.scoping) :
    c.scoping.Goes (blockScopeCalls calls) found lost c.scoping := by
  obtain ⟨s, s', scopes, hs, hs', hbase⟩ := hext.scopeStk (by simp [AsmCtx.enter])
  simp only [AsmCtx.enter, List.cons.injEq] at hs
  obtain ⟨rfl, rfl⟩ := hs
  have hpop : c'.scoping.Goes [.pop] [] 0 c.scoping := by
    rw [AsmCtx.scoping, hs', AsmCtx.scoping, ← show s'.baseOffset = c.curOffset from hbase]
    exact .pop .nil
  have hall := h.trans hpop
  rw [List.append_nil, add_zero] at hall
  exact .push hall

theorem StmtCode.goes {p : StmtPhrase} (h : StmtCode c p c' items marks) :
    ∃ found lost, c.scoping.Goes p.scopeCalls found lost c'.scoping := by
  induction h with
  | comment => exact ⟨[], 0, .nil⟩
  | expr he =>
    obtain ⟨found, hgoes⟩ := he.goes
    exact ⟨found, 0, hgoes⟩
  | returnStmt he hn =>
    obtain ⟨found, hgoes⟩ := he.goes
    exact ⟨found, 0, hgoes⟩
  | @uninit c name type hstk =>
    obtain ⟨lost, hgoes⟩ := goes_declare hstk name type
    exact ⟨[], lost, hgoes⟩
  | @init c name type e items hstk he =>
    obtain ⟨lost, hgoes⟩ := goes_declare hstk name type
    obtain ⟨found, hgoes'⟩ := he.goes
    exact ⟨_, _, hgoes.trans hgoes'⟩
  | ifThen hc hb ih =>
    obtain ⟨found, hgoes⟩ := hc.goes
    obtain ⟨found', lost', hgoes'⟩ := ih
    refine ⟨_, _, hgoes.trans hgoes'⟩
  | ifElse hc hb hb' ih ih' =>
    obtain ⟨found, hgoes⟩ := hc.goes
    obtain ⟨found', lost', hgoes'⟩ := ih
    obtain ⟨found'', lost'', hgoes''⟩ := ih'
    refine ⟨_, _, (hgoes.trans hgoes').trans hgoes''⟩
  | block hn ih =>
    obtain ⟨found, lost, hgoes⟩ := ih
    exact ⟨found, lost, goes_block hn.extends hgoes⟩
  | nil => exact ⟨[], 0, .nil⟩
  | cons hs hn ih ih' =>
    obtain ⟨found, lost, hgoes⟩ := ih
    obtain ⟨found', lost', hgoes'⟩ := ih'
    exact ⟨_, _, hgoes.trans hgoes'⟩

/-- The calls lead through a state. -/
def Passes (s : ScopeState) (calls : List ScopeCall) (m : ScopeState) : Prop :=
  ∃ before after found lost, calls = before ++ after ∧ s.Goes before found lost m

theorem Passes.append {s m : ScopeState} {calls : List ScopeCall} (h : Passes s calls m)
    (more : List ScopeCall) : Passes s (calls ++ more) m := by
  obtain ⟨before, after, found, lost, rfl, hgoes⟩ := h
  exact ⟨before, after ++ more, found, lost, List.append_assoc _ _ _, hgoes⟩

theorem ScopeState.Goes.passes {s t m : ScopeState} {calls more : List ScopeCall}
    {found : List Symbol} {lost : Multiset Symbol} (h : s.Goes calls found lost t)
    (hm : Passes t more m) : Passes s (calls ++ more) m := by
  obtain ⟨before, after, found', lost', rfl, hgoes⟩ := hm
  exact ⟨calls ++ before, after, _, _, (List.append_assoc _ _ _).symm, h.trans hgoes⟩

theorem passes_block {m : ScopeState} {calls : List ScopeCall}
    (h : Passes c.enter.scoping calls m) : Passes c.scoping (blockScopeCalls calls) m := by
  obtain ⟨before, after, found, lost, hcalls, hgoes⟩ := h.append [.pop]
  refine ⟨.push :: before, after, found, lost, ?_, .push hgoes⟩
  rw [blockScopeCalls, List.cons_append, hcalls, List.cons_append]

/-- At a statement boundary the generator is in the state that the calls so far lead to. -/
theorem StmtCode.passes {p : StmtPhrase} (h : StmtCode c p c' items marks) :
    ∀ m ∈ marks, Passes c.scoping p.scopeCalls m.scoping := by
  induction h with
  | comment => simp
  | expr he => simp
  | returnStmt he hn => simp
  | uninit hstk => simp
  | init hstk he => simp
  | ifThen hc hb ih =>
    intro m hm
    obtain ⟨found, hgoes⟩ := hc.goes
    exact hgoes.passes (ih m hm)
  | ifElse hc hb hb' ih ih' =>
    intro m hm
    obtain ⟨found, hgoes⟩ := hc.goes
    obtain ⟨found', lost', hgoes'⟩ := hb.goes
    rcases List.mem_append.mp hm with hm | hm
    · exact (hgoes.passes (ih m hm)).append _
    · exact (hgoes.trans hgoes').passes (ih' m hm)
  | block hn ih =>
    intro m hm
    exact passes_block (ih m hm)
  | @nil c =>
    intro m hm
    rw [List.mem_singleton.mp hm]
    exact ⟨[], [], [], 0, rfl, .nil⟩
  | cons hs hn ih ih' =>
    intro m hm
    rw [List.cons_append, List.mem_cons, List.mem_append] at hm
    rcases hm with rfl | hm | hm
    · exact ⟨[], _, [], 0, rfl, .nil⟩
    · exact (ih m hm).append _
    · obtain ⟨found, lost, hgoes⟩ := hs.goes
      exact hgoes.passes (ih' m hm)

theorem goes_declareParams (params : List FuncParam) (hstk : c.scopeStk ≠ []) :
    ∃ lost, c.scoping.Goes (paramsScopeCalls params) [] lost (c.declareParams params).scoping := by
  induction params generalizing c with
  | nil => exact ⟨0, .nil⟩
  | cons p params ih =>
    obtain ⟨lost, hgoes⟩ := goes_declare hstk p.ident p.type
    obtain ⟨lost', hgoes'⟩ := ih (declare_scopeStk p.ident p.type hstk)
    exact ⟨_, hgoes.trans hgoes'⟩

theorem genFuncDecl_goes {decl : FuncDecl} {r : Emitted AsmCtx Item Unit}
    (h : genFuncDecl decl c = .ok r) :
    ∃ found lost, c.scoping.Goes decl.scopeCalls found lost r.ctx.scoping := by
  obtain ⟨_, c', body, hcode, hr⟩ := genFuncDecl_eq_ok h
  have hstk : c.funcCtx.enter.scopeStk ≠ [] := by simp [AsmCtx.enter]
  have hext : c.funcCtx.enter.Extends c' :=
    (declareParams_extends decl.params _).trans hcode.extends
  obtain ⟨lost, hparams⟩ := goes_declareParams decl.params hstk
  obtain ⟨found, lost', hbody⟩ := hcode.goes
  have hblock := goes_block hext (hparams.trans hbody)
  have hctx : r.ctx.scoping = c.funcCtx.scoping := by
    rw [hr]
    rfl
  rw [hctx]
  exact ⟨_, _, .reset hblock⟩

theorem genFuncDecl_passes {decl : FuncDecl} {r : Emitted AsmCtx Item Unit}
    (h : genFuncDecl decl c = .ok r) :
    ∀ m ∈ r.marks, Passes c.scoping decl.scopeCalls m.scoping := by
  intro m hm
  obtain ⟨_, c', body, hcode, _⟩ := genFuncDecl_eq_ok h
  have hstk : c.funcCtx.enter.scopeStk ≠ [] := by simp [AsmCtx.enter]
  obtain ⟨lost, hparams⟩ := goes_declareParams decl.params hstk
  have hblock := passes_block (hparams.passes (hcode.passes m hm))
  obtain ⟨before, after, found, lost', hcalls, hgoes⟩ := hblock
  refine ⟨.reset :: before, after, found, lost', ?_, .reset hgoes⟩
  rw [List.cons_append, ← hcalls]
  rfl

theorem genFuncs_goes : ∀ (p : Program) {c : AsmCtx} {r : Emitted AsmCtx Item Unit},
    genFuncs p c = .ok r → ∃ found lost,
      c.scoping.Goes ((funcsOf p).flatMap FuncDecl.scopeCalls) found lost r.ctx.scoping := by
  intro p
  induction p with
  | nil =>
    intro c r h
    obtain rfl := Except.ok.inj h
    exact ⟨[], 0, .nil⟩
  | cons node p ih =>
    intro c r h
    cases node with
    | varDecl decl => exact ih h
    | comment text => exact ih h
    | funcDecl decl =>
      rw [genFuncs] at h
      rw [bind_eq_ok] at h
      obtain ⟨r₁, r₂, h₁, h₂, rfl⟩ := h
      obtain ⟨found, lost, hgoes⟩ := genFuncDecl_goes h₁
      obtain ⟨found', lost', hgoes'⟩ := ih h₂
      exact ⟨_, _, hgoes.trans hgoes'⟩

theorem genFuncs_passes : ∀ (p : Program) {c : AsmCtx} {r : Emitted AsmCtx Item Unit},
    genFuncs p c = .ok r → ∀ m ∈ r.marks,
      Passes c.scoping ((funcsOf p).flatMap FuncDecl.scopeCalls) m.scoping := by
  intro p
  induction p with
  | nil =>
    intro c r h
    obtain rfl := Except.ok.inj h
    simp
  | cons node p ih =>
    intro c r h
    cases node with
    | varDecl decl => exact ih h
    | comment text => exact ih h
    | funcDecl decl =>
      rw [genFuncs] at h
      rw [bind_eq_ok] at h
      obtain ⟨r₁, r₂, h₁, h₂, rfl⟩ := h
      intro m hm
      rcases List.mem_append.mp hm with hm | hm
      · exact (genFuncDecl_passes h₁ m hm).append _
      · obtain ⟨found, lost, hgoes⟩ := genFuncDecl_goes h₁
        exact hgoes.passes (ih h₂ m hm)

theorem goes_declareGlobals (decls : List VarDecl) {s : Scope} {scopes : List Scope}
    (hstk : c.scopeStk = s :: scopes) :
    (∃ lost, c.scoping.Goes (globalsScopeCalls decls) [] lost (c.declareGlobals decls).scoping) ∧
      ∃ s', (c.declareGlobals decls).scopeStk = s' :: scopes := by
  induction decls generalizing c s with
  | nil => exact ⟨⟨0, .nil⟩, s, hstk⟩
  | cons decl decls ih =>
    have hone : c.scoping.Goes [.defineGlobal decl.ident decl.type] []
        (Nodes.held s.symbols decl.ident + 0) (c.declareGlobal decl).scoping := by
      rw [AsmCtx.scoping, hstk, AsmCtx.scoping, AsmCtx.declareGlobal, hstk]
      exact .defineGlobal .nil
    have hstk' : (c.declareGlobal decl).scopeStk =
        s.addSymbol ⟨decl.ident, 0, decl.type, true⟩ :: scopes := by
      rw [AsmCtx.declareGlobal, hstk]
    obtain ⟨⟨lost, hgoes⟩, hlast⟩ := ih hstk'
    exact ⟨⟨_, hone.trans hgoes⟩, hlast⟩

theorem popScope_marks {r : Emitted AsmCtx Item Unit} (h : popScope c = .ok r) : r.marks = [] := by
  unfold popScope at h
  cases hstk : c.scopeStk with
  | nil => simp [bind_run, hstk] at h
  | cons s scopes =>
    simp [bind_run, hstk] at h
    rw [← h]

/-- The statement boundaries of a program are those of its functions. -/
theorem genProgram_marks {p : Program} {r : Emitted AsmCtx Item Unit}
    (h : genProgram p asmInit = .ok r) :
    ∃ r₀, genFuncs p { dataCtx.declareGlobals (globalsOf p) with indent := 0 } = .ok r₀ ∧
      r.marks = r₀.marks := by
  have hstk : dataCtx.scopeStk ≠ [] := by simp [dataCtx, AsmCtx.enter]
  have hdata : ({ asmInit.enter with indent := 0 } : AsmCtx) = dataCtx := rfl
  obtain ⟨r₀, hfuncs, _, _⟩ := genProgram_parts h
  refine ⟨r₀, hfuncs, ?_⟩
  by_cases hd : hasData p = true
  · rw [genProgram, if_pos hd] at h
    simp only [bind_run, pushScope_run, setIndent_run, asmEmit_run, hdata, genGlobals_run p hstk,
      hfuncs] at h
    cases hpop : popScope r₀.ctx with
    | error e => simp [hpop] at h
    | ok r₁ =>
      simp only [hpop] at h
      rw [← Except.ok.inj h]
      simp [popScope_marks hpop]
  · rw [hasData_eq_false (by simpa using hd), AsmCtx.declareGlobals] at hfuncs
    rw [genProgram, if_neg hd] at h
    have hdata' : ({ dataCtx with indent := 0 } : AsmCtx) = dataCtx := rfl
    rw [hdata'] at hfuncs
    simp only [bind_run, pushScope_run, setIndent_run, asmEmit_run, hdata, hfuncs] at h
    cases hpop : popScope r₀.ctx with
    | error e => simp [hpop] at h
    | ok r₁ =>
      simp only [hpop] at h
      rw [← Except.ok.inj h]
      simp [popScope_marks hpop]

theorem genProgram_passes {p : Program} {r : Emitted AsmCtx Item Unit}
    (h : genProgram p asmInit = .ok r) :
    ∀ m ∈ r.marks, Passes ⟨[], 0⟩ p.scopeCalls m.scoping := by
  intro m hm
  obtain ⟨r₀, hfuncs, hmarks⟩ := genProgram_marks h
  rw [hmarks] at hm
  obtain ⟨⟨lost, hglobals⟩, _⟩ := goes_declareGlobals (c := dataCtx) (globalsOf p) rfl
  have hpasses := hglobals.passes (genFuncs_passes p hfuncs m hm)
  exact passes_block (c := asmInit) hpasses

/-- The calls of a program that is accepted begin and end without a scope. -/
theorem genProgram_goes {p : Program} {r : Emitted AsmCtx Item Unit}
    (h : genProgram p asmInit = .ok r) :
    ∃ found lost offset, ScopeState.Goes ⟨[], 0⟩ p.scopeCalls found lost ⟨[], offset⟩ := by
  obtain ⟨r₀, hfuncs, _, _⟩ := genProgram_parts h
  obtain ⟨⟨lost, hglobals⟩, s, hs⟩ := goes_declareGlobals (c := dataCtx) (globalsOf p) rfl
  obtain ⟨found, lost', hgoes⟩ := genFuncs_goes p hfuncs
  have hscopes : r₀.ctx.scopeStk = [s] := (genFuncs_scopeStk p hfuncs).trans hs
  have hpop : r₀.ctx.scoping.Goes [.pop] [] 0 ⟨[], s.baseOffset⟩ := by
    rw [AsmCtx.scoping, hscopes]
    exact .pop .nil
  exact ⟨_, _, _, .push ((hglobals.trans hgoes).trans hpop)⟩

end walk

/-- **The memory of the code generator.** On the heap the calls of a program that is accepted find
the symbols that the generator finds, and what is left when the context is freed is one node for
each scope and the symbols whose names were defined again. At every statement boundary the cells of
the scope stack are those of the context that the generator has there. -/
theorem genProgram_memory {p : Program} {r : Emitted AsmCtx Item Unit}
    (h : genProgram p asmInit = .ok r) :
    (∃ found lost offset, ScopeState.Goes ⟨[], 0⟩ p.scopeCalls found lost ⟨[], offset⟩ ∧
      ∀ F : Cells (Cell Symbol), Completes F (Nodes.useScopes p.scopeCalls) fun found' P' =>
        found' = found ∧ ∃ nodes dead, Nodes.AreStackNodes nodes p.scopes ∧
          Nodes.IsLost dead lost ∧ P' = nodes + dead + F) ∧
    ∀ m ∈ r.marks, ∃ before after found lost, p.scopeCalls = before ++ after ∧
      CallsRun ⟨[], 0⟩ before found (before.count .pop) lost m.scoping := by
  constructor
  · obtain ⟨found, lost, offset, hgoes⟩ := genProgram_goes h
    refine ⟨found, lost, offset, hgoes, fun F => ?_⟩
    rw [← genProgram_count_push h]
    exact hgoes.useScopes F
  · intro m hm
    obtain ⟨before, after, found, lost, hcalls, hgoes⟩ := genProgram_passes h m hm
    exact ⟨before, after, found, lost, hcalls, hgoes.callsRun⟩

/-- A global that is declared twice, and read in a block of a function. -/
def twiceProgram : Program :=
  [.varDecl ⟨ascii "g", ⟨.lit .litByte, false, 0⟩, none⟩,
    .varDecl ⟨ascii "g", ⟨.lit .litQword, false, 0⟩, none⟩,
    .funcDecl ⟨ascii "f", ⟨.lit .litQword, false, 0⟩, [],
      [.block [.returnStmt (.identifier (ascii "g"))]]⟩]

theorem genProgram_memory_twice :
    ∃ r, genProgram twiceProgram asmInit = .ok r ∧ twiceProgram.scopes = 3 ∧ r.marks.length = 4 ∧
      (∃ found lost offset, ScopeState.Goes ⟨[], 0⟩ twiceProgram.scopeCalls found lost
          ⟨[], offset⟩ ∧
        ∀ F : Cells (Cell Symbol), Completes F (Nodes.useScopes twiceProgram.scopeCalls)
          fun found' P' => found' = found ∧ ∃ nodes dead, Nodes.AreStackNodes nodes 3 ∧
            Nodes.IsLost dead lost ∧ P' = nodes + dead + F) ∧
      ∀ m ∈ r.marks, ∃ before after found lost, twiceProgram.scopeCalls = before ++ after ∧
        CallsRun ⟨[], 0⟩ before found (before.count .pop) lost m.scoping := by
  have hmarks : (genProgram twiceProgram asmInit).toOption.map (fun r => r.marks.length) =
      some 4 := by decide +kernel
  cases hgen : genProgram twiceProgram asmInit with
  | error e =>
    rw [hgen] at hmarks
    exact absurd hmarks (by simp [Except.toOption])
  | ok r =>
    rw [hgen] at hmarks
    exact ⟨r, rfl, rfl, Option.some.inj hmarks, genProgram_memory hgen⟩

end ACompiler
