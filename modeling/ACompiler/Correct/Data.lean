import ACompiler.Assembler.Frame
import ACompiler.Correct.Labels

/-!
# Programs

What `genProgram` prints: for every global its label and its directive, one behind the other, and
then the functions, each generated below the scope of the globals (`genProgram_eq_ok`). `dataCells`
is what the assembler makes of the data section.
-/

namespace ACompiler

open Lib (Emitted)
open Lib.Emit (bind_run bind_eq_ok)

/-- The globals of a program, in order. -/
def globalsOf : Program → List VarDecl
  | [] => []
  | .varDecl decl :: nodes => decl :: globalsOf nodes
  | _ :: nodes => globalsOf nodes

/-- The functions of a program, in order. -/
def funcsOf : Program → List FuncDecl
  | [] => []
  | .funcDecl decl :: nodes => decl :: funcsOf nodes
  | _ :: nodes => funcsOf nodes

theorem mem_globalsOf {p : Program} {decl : VarDecl} : decl ∈ globalsOf p ↔ .varDecl decl ∈ p := by
  induction p with
  | nil => simp [globalsOf]
  | cons node p ih => cases node <;> simp [globalsOf, ih]

theorem mem_funcsOf {p : Program} {decl : FuncDecl} : decl ∈ funcsOf p ↔ .funcDecl decl ∈ p := by
  induction p with
  | nil => simp [funcsOf]
  | cons node p ih => cases node <;> simp [funcsOf, ih]

/-! ## The data section -/

/-- The bytes a directive fills. -/
def Directive.bytes : Directive → Nat
  | .byte => 1
  | .word => 2
  | .long => 4
  | .quad => 8

theorem directiveOf_bytes (t : VarT) : (directiveOf (typeSize t)).bytes = typeSize t := by
  rcases t with ⟨_ | l, _, _⟩
  · rfl
  · cases l <;> rfl

theorem typeSize_pos (t : VarT) : 0 < typeSize t ∧ typeSize t ≤ 8 := by
  rcases t with ⟨_ | l, _, _⟩
  · simp [typeSize]
  · cases l <;> simp [typeSize]

/-- A labelled directive, at its offset in the data section. -/
structure DataCell where
  name : CString
  start : Nat
  directive : Directive
  val : Int
  deriving DecidableEq, Repr

/-- The size of a cell. -/
def DataCell.bytes (cell : DataCell) : Nat := cell.directive.bytes

theorem DataCell.bytes_pos (cell : DataCell) : 0 < cell.bytes := by
  unfold DataCell.bytes
  cases cell.directive <;> decide

/-- The cells of the lines, from an offset on: each directive follows the one before it. -/
def dataCells : Nat → List Line → List DataCell
  | _, [] => []
  | start, .symbol name :: .directive d val :: lines =>
    ⟨name, start, d, val⟩ :: dataCells (start + d.bytes) lines
  | start, _ :: lines => dataCells start lines

/-- The cells of globals. -/
def globalCells : Nat → List VarDecl → List DataCell
  | _, [] => []
  | start, decl :: decls =>
    ⟨decl.ident, start, directiveOf (typeSize decl.type), globalValue decl⟩ ::
      globalCells (start + typeSize decl.type) decls

theorem dataCells_of_no_directive {lines : List Line} (h : ∀ d val, Line.directive d val ∉ lines) :
    ∀ start, dataCells start lines = [] := by
  intro start
  fun_induction dataCells start lines with
  | case1 => rfl
  | case2 start name d val lines _ => exact absurd (by simp) (h d val)
  | case3 start l lines _ ih =>
    exact ih fun d val hmem => h d val (List.mem_cons_of_mem _ hmem)

/-- A later cell starts behind the end of an earlier one. -/
theorem globalCells_start_le (decls : List VarDecl) : ∀ (start : Nat),
    ∀ cell ∈ globalCells start decls, start ≤ cell.start := by
  induction decls with
  | nil => intro start cell h; simp [globalCells] at h
  | cons decl decls ih =>
    intro start cell h
    rcases List.mem_cons.mp h with rfl | h
    · exact Nat.le_refl _
    · have hle := ih _ cell h
      omega

theorem globalCells_pairwise (decls : List VarDecl) : ∀ (start : Nat),
    (globalCells start decls).Pairwise fun cell cell' => cell.start + cell.bytes ≤ cell'.start := by
  induction decls with
  | nil => intro start; exact .nil
  | cons decl decls ih =>
    intro start
    refine .cons (fun cell hcell => ?_) (ih _)
    have hle := globalCells_start_le decls _ cell hcell
    simp only [DataCell.bytes, directiveOf_bytes]
    exact hle

/-- Each global has its cell. -/
theorem globalCells_forall₂ (decls : List VarDecl) : ∀ (start : Nat),
    List.Forall₂ (fun decl cell => cell.name = decl.ident ∧ cell.bytes = typeSize decl.type ∧
      cell.val = globalValue decl) decls (globalCells start decls) := by
  induction decls with
  | nil => intro start; exact .nil
  | cons decl decls ih =>
    intro start
    exact .cons ⟨rfl, directiveOf_bytes decl.type, rfl⟩ (ih _)

/-- An element on the left has one on the right. -/
theorem exists_of_forall₂ {α β : Type} {R : α → β → Prop} {as : List α} {bs : List β}
    (h : List.Forall₂ R as bs) : ∀ a ∈ as, ∃ b ∈ bs, R a b := by
  induction h with
  | nil => simp
  | cons hab _ ih =>
    intro a ha
    rcases List.mem_cons.mp ha with rfl | ha
    · exact ⟨_, List.mem_cons_self, hab⟩
    · obtain ⟨b, hb, hr⟩ := ih a ha
      exact ⟨b, List.mem_cons_of_mem _ hb, hr⟩

/-! ## The loop over the globals -/

/-- The context behind a global, whose scope stack is not empty. -/
def AsmCtx.declareGlobal (c : AsmCtx) (decl : VarDecl) : AsmCtx :=
  match c.scopeStk with
  | [] => c
  | s :: scopes =>
    { c with
      indent := 0
      scopeStk := s.addSymbol ⟨decl.ident, 0, decl.type, true⟩ :: scopes }

/-- The context behind globals. -/
def AsmCtx.declareGlobals (c : AsmCtx) : List VarDecl → AsmCtx
  | [] => c
  | decl :: decls => (c.declareGlobal decl).declareGlobals decls

/-- The lines of a global. -/
def globalItems (depth : Int) (decl : VarDecl) : List Item :=
  [⟨0, depth, .symbol decl.ident⟩,
    ⟨4, depth, .directive (directiveOf (typeSize decl.type)) (globalValue decl)⟩]

/-- A global keeps everything but the scope on top. -/
theorem declareGlobal_spec {c : AsmCtx} (hstk : c.scopeStk ≠ []) (decl : VarDecl) :
    (c.declareGlobal decl).scopeStk ≠ [] ∧ (c.declareGlobal decl).locals = c.locals ∧
      (c.declareGlobal decl).pushDepth = c.pushDepth := by
  cases h : c.scopeStk with
  | nil => exact absurd h hstk
  | cons s scopes => simp [AsmCtx.declareGlobal, AsmCtx.locals, h, Scope.addSymbol]

theorem genGlobal_run {c : AsmCtx} (hstk : c.scopeStk ≠ []) (decl : VarDecl) :
    genGlobal decl c = .ok ⟨(), c.declareGlobal decl, globalItems c.pushDepth decl, []⟩ := by
  cases h : c.scopeStk with
  | nil => exact absurd h hstk
  | cons s scopes =>
    simp [genGlobal, defineGlobal, addSymbol, bind_run, h, AsmCtx.declareGlobal, globalItems]

theorem genGlobals_run : ∀ (p : Program) {c : AsmCtx}, c.scopeStk ≠ [] →
    genGlobals p c = .ok ⟨(), c.declareGlobals (globalsOf p),
      (globalsOf p).flatMap (globalItems c.pushDepth), []⟩ := by
  intro p
  induction p with
  | nil => intro c _; rfl
  | cons node p ih =>
    intro c hstk
    cases node with
    | varDecl decl =>
      obtain ⟨hstk', _, hdepth⟩ := declareGlobal_spec hstk decl
      simp [genGlobals, bind_run, genGlobal_run hstk, ih hstk', globalsOf, AsmCtx.declareGlobals,
        hdepth]
    | funcDecl decl => exact ih hstk
    | comment text => exact ih hstk

theorem declareGlobals_spec (decls : List VarDecl) : ∀ {c : AsmCtx}, c.scopeStk ≠ [] →
    (c.declareGlobals decls).scopeStk ≠ [] ∧ (c.declareGlobals decls).locals = c.locals ∧
      (c.declareGlobals decls).pushDepth = c.pushDepth := by
  induction decls with
  | nil => exact fun hstk => ⟨hstk, rfl, rfl⟩
  | cons decl decls ih =>
    intro c hstk
    obtain ⟨hstk', hlocals, hdepth⟩ := declareGlobal_spec hstk decl
    obtain ⟨hstk'', hlocals', hdepth'⟩ := ih hstk'
    exact ⟨hstk'', hlocals'.trans hlocals, hdepth'.trans hdepth⟩

/-! ## The loop over the functions -/

/-- The code of a statement has no directive. -/
theorem StmtCode.no_directive {c c' : AsmCtx} {p : StmtPhrase} {items : List Item}
    {marks : List AsmCtx} (h : StmtCode c p c' items marks) (d : Directive) (val : Int) :
    ∀ item ∈ items, item.line ≠ .directive d val := by
  have hexpr : ∀ {c : AsmCtx} {e : Expr} {items : List Item}, ExprCode c (.expr e) items →
      ∀ item ∈ items, item.line ≠ .directive d val := by
    intro c e items he item hitem heq
    obtain ⟨i, hi, _⟩ := he.isStep item hitem
    rw [hi] at heq
    exact absurd heq (by simp)
  induction h with
  | comment => simp
  | expr he => exact hexpr he
  | returnStmt he _ => simpa [or_imp, forall_and] using hexpr he
  | uninit _ => simp
  | init _ he => simpa [or_imp, forall_and] using hexpr he
  | ifThen hc _ ih => simpa [or_imp, forall_and, AsmCtx.itemsOf] using ⟨hexpr hc, ih⟩
  | ifElse hc _ _ ih ih' =>
    simpa [or_imp, forall_and, AsmCtx.itemsOf] using ⟨hexpr hc, ih, ih'⟩
  | block _ ih => exact ih
  | nil => simp
  | cons _ _ ih ih' => simpa [or_imp, forall_and] using ⟨ih, ih'⟩

theorem prologueItems_no_directive (decl : FuncDecl) (c : AsmCtx) (d : Directive) (val : Int) :
    ∀ item ∈ prologueItems decl c, item.line ≠ .directive d val := by
  unfold prologueItems
  split <;> simp

theorem genFuncDecl_no_directive {decl : FuncDecl} {c : AsmCtx} {r : Emitted AsmCtx Item Unit}
    (h : genFuncDecl decl c = .ok r) (d : Directive) (val : Int) :
    ∀ item ∈ r.items, item.line ≠ .directive d val := by
  obtain ⟨_, c', body, hbody, hr⟩ := genFuncDecl_eq_ok h
  rw [hr]
  intro item hitem
  simp only [List.mem_append] at hitem
  rcases hitem with ((hitem | hitem) | hitem) | hitem
  · exact prologueItems_no_directive decl c d val item hitem
  · obtain ⟨id, off, hline⟩ := paramItems_line decl.params argRegs _ item hitem
    simp [hline]
  · exact hbody.no_directive d val item hitem
  · simp only [epilogueItems, List.mem_cons, List.not_mem_nil, or_false] at hitem
    rcases hitem with rfl | rfl | rfl | rfl <;> simp

/-- Every function of a program is generated in a context with the scopes of the loop. -/
theorem genFuncs_eq_ok : ∀ (p : Program) {c : AsmCtx} {r : Emitted AsmCtx Item Unit},
    genFuncs p c = .ok r →
      (∀ decl ∈ funcsOf p, ∃ c₀ r₀, c₀.scopeStk = c.scopeStk ∧ genFuncDecl decl c₀ = .ok r₀) ∧
        ∀ d val, Line.directive d val ∉ codeOf r.items := by
  intro p
  induction p with
  | nil =>
    intro c r h
    obtain rfl := Except.ok.inj h
    exact ⟨by simp [funcsOf], by simp⟩
  | cons node p ih =>
    intro c r h
    cases node with
    | varDecl decl => exact ih h
    | comment text => exact ih h
    | funcDecl decl =>
      rw [genFuncs] at h
      rw [bind_eq_ok] at h
      obtain ⟨r₁, r₂, h₁, h₂, rfl⟩ := h
      obtain ⟨_, c', body, _, hr₁⟩ := genFuncDecl_eq_ok h₁
      have hstk : r₁.ctx.scopeStk = c.scopeStk := by rw [hr₁, AsmCtx.afterFunc]
      obtain ⟨hrest, hdir⟩ := ih h₂
      refine ⟨fun decl' hmem => ?_, fun d val => ?_⟩
      · rcases List.mem_cons.mp hmem with rfl | hmem
        · exact ⟨c, r₁, rfl, h₁⟩
        · rw [← hstk]
          exact hrest decl' hmem
      · rw [codeOf_append, List.mem_append, not_or]
        refine ⟨fun hmem => ?_, hdir d val⟩
        obtain ⟨item, hitem, hline⟩ := List.mem_map.mp hmem
        exact genFuncDecl_no_directive h₁ d val item hitem hline

/-! ## Programs -/

theorem dataCells_globalItems (depth : Int) (decls : List VarDecl) (lines : List Line) :
    ∀ start, dataCells start (codeOf (decls.flatMap (globalItems depth)) ++ lines) =
      globalCells start decls ++
        dataCells (start + (decls.map fun decl => typeSize decl.type).sum) lines := by
  induction decls with
  | nil => intro start; simp [globalCells]
  | cons decl decls ih =>
    intro start
    simp [globalItems, dataCells, globalCells, directiveOf_bytes, ih, Nat.add_assoc]

theorem hasData_eq_false {p : Program} (h : hasData p = false) : globalsOf p = [] := by
  induction p with
  | nil => rfl
  | cons node p ih =>
    cases node with
    | varDecl decl => simp [hasData] at h
    | funcDecl decl => exact ih h
    | comment text => exact ih h

theorem popScope_keeps {c : AsmCtx} {r : Emitted AsmCtx Item Unit} (h : popScope c = .ok r) :
    r.items = [] ∧ r.ctx.labelCount = c.labelCount := by
  unfold popScope at h
  cases hstk : c.scopeStk with
  | nil => simp [bind_run, hstk] at h
  | cons s scopes =>
    simp [bind_run, hstk] at h
    rw [← h]
    exact ⟨rfl, rfl⟩

/-- The text section of a program. -/
theorem genText_eq_ok {p : Program} {c : AsmCtx} {r : Emitted AsmCtx Item Unit}
    (h : (do setIndent 0; asmEmit .textSection; genFuncs p; popScope : Gen Unit) c = .ok r) :
    ∃ r₀, genFuncs p { c with indent := 0 } = .ok r₀ ∧
      r.items = ⟨0, c.pushDepth, .textSection⟩ :: r₀.items ∧
        r.ctx.labelCount = r₀.ctx.labelCount := by
  rw [bind_eq_ok] at h
  obtain ⟨_, _, hindent, h, rfl⟩ := h
  obtain rfl := Except.ok.inj ((setIndent_run 0 c).symm.trans hindent)
  rw [bind_eq_ok] at h
  obtain ⟨_, _, hline, h, rfl⟩ := h
  obtain rfl := Except.ok.inj ((asmEmit_run .textSection _).symm.trans hline)
  rw [bind_eq_ok] at h
  obtain ⟨r₀, _, hfuncs, hpop, rfl⟩ := h
  exact ⟨r₀, hfuncs, by simp [(popScope_keeps hpop).1], (popScope_keeps hpop).2⟩

/-- The context in which the globals are printed. -/
def dataCtx : AsmCtx := { asmInit.enter with indent := 0 }

/-- The lines before the text section. -/
def dataItems (p : Program) : List Item :=
  if hasData p then ⟨0, 0, .dataSection⟩ :: (globalsOf p).flatMap (globalItems 0) else []

theorem genProgram_parts {p : Program} {r : Emitted AsmCtx Item Unit}
    (h : genProgram p asmInit = .ok r) :
    ∃ r₀, genFuncs p { dataCtx.declareGlobals (globalsOf p) with indent := 0 } = .ok r₀ ∧
      r.items = dataItems p ++ ⟨0, 0, .textSection⟩ :: r₀.items ∧
        r.ctx.labelCount = r₀.ctx.labelCount := by
  have hstk : dataCtx.scopeStk ≠ [] := by simp [dataCtx, AsmCtx.enter]
  unfold genProgram at h
  rw [bind_eq_ok] at h
  obtain ⟨_, _, hpush, h, rfl⟩ := h
  obtain rfl := Except.ok.inj ((pushScope_run asmInit).symm.trans hpush)
  by_cases hd : hasData p = true
  · rw [if_pos hd] at h
    rw [bind_eq_ok] at h
    obtain ⟨_, _, hindent, h, rfl⟩ := h
    obtain rfl := Except.ok.inj ((setIndent_run 0 _).symm.trans hindent)
    rw [bind_eq_ok] at h
    obtain ⟨_, _, hline, h, rfl⟩ := h
    obtain rfl := Except.ok.inj ((asmEmit_run .dataSection _).symm.trans hline)
    rw [bind_eq_ok] at h
    obtain ⟨_, _, hglobals, h, rfl⟩ := h
    obtain rfl := Except.ok.inj ((genGlobals_run p hstk).symm.trans hglobals)
    obtain ⟨r₀, hfuncs, hitems, hcount⟩ := genText_eq_ok h
    refine ⟨r₀, hfuncs, ?_, hcount⟩
    rw [hitems, (declareGlobals_spec _ hstk).2.2, dataItems, if_pos hd]
    rfl
  · rw [if_neg hd] at h
    obtain ⟨r₀, hfuncs, hitems, hcount⟩ := genText_eq_ok h
    refine ⟨r₀, ?_, ?_, hcount⟩
    · rw [hasData_eq_false (by simpa using hd)]
      exact hfuncs
    · rw [hitems, dataItems, if_neg hd]
      rfl

/-- **What a program compiles to**: its data section holds the globals in order, and its functions
are generated below the scope of the globals. -/
theorem genProgram_eq_ok {p : Program} {r : Emitted AsmCtx Item Unit}
    (h : genProgram p asmInit = .ok r) :
    dataCells 0 (codeOf r.items) = globalCells 0 (globalsOf p) ∧
      ∀ decl ∈ funcsOf p, ∃ c₀ r₀, c₀.GlobalsOnly ∧ genFuncDecl decl c₀ = .ok r₀ := by
  have hstk : dataCtx.scopeStk ≠ [] := by simp [dataCtx, AsmCtx.enter]
  have hlocals : dataCtx.locals = [] := rfl
  obtain ⟨r₀, hfuncs, hitems, _⟩ := genProgram_parts h
  obtain ⟨hrun, hdir⟩ := genFuncs_eq_ok p hfuncs
  refine ⟨?_, fun decl hdecl => ?_⟩
  · have htext : dataCells (0 + ((globalsOf p).map fun decl => typeSize decl.type).sum)
        (.textSection :: codeOf r₀.items) = [] :=
      dataCells_of_no_directive (by simpa using hdir) _
    rw [hitems, dataItems]
    by_cases hd : hasData p = true
    · have hcells := dataCells_globalItems 0 (globalsOf p) (.textSection :: codeOf r₀.items) 0
      rw [htext, List.append_nil] at hcells
      rw [if_pos hd, codeOf_append, codeOf_cons, codeOf_cons, List.cons_append, ← hcells]
      simp [dataCells]
    · rw [if_neg hd, hasData_eq_false (by simpa using hd)] at *
      exact htext
  · obtain ⟨c₀, r₁, hscopes, hrun₁⟩ := hrun decl hdecl
    refine ⟨c₀, r₁, ?_, hrun₁⟩
    have hglobals := (declareGlobals_spec (globalsOf p) hstk).2.1
    unfold AsmCtx.GlobalsOnly AsmCtx.locals
    rw [hscopes]
    exact hglobals.trans hlocals

theorem genFuncs_of_no_funcs : ∀ {p : Program}, funcsOf p = [] → ∀ c : AsmCtx,
    genFuncs p c = .ok ⟨(), c, [], []⟩ := by
  intro p
  induction p with
  | nil => exact fun _ _ => rfl
  | cons node p ih =>
    intro h c
    cases node with
    | varDecl decl => exact ih h c
    | comment text => exact ih h c
    | funcDecl decl => simp [funcsOf] at h

/-- A function leaves the scopes as they were. -/
theorem genFuncs_scopeStk : ∀ (p : Program) {c : AsmCtx} {r : Emitted AsmCtx Item Unit},
    genFuncs p c = .ok r → r.ctx.scopeStk = c.scopeStk := by
  intro p
  induction p with
  | nil =>
    intro c r h
    obtain rfl := Except.ok.inj h
    rfl
  | cons node p ih =>
    intro c r h
    cases node with
    | varDecl decl => exact ih h
    | comment text => exact ih h
    | funcDecl decl =>
      rw [genFuncs] at h
      rw [bind_eq_ok] at h
      obtain ⟨r₁, r₂, h₁, h₂, rfl⟩ := h
      obtain ⟨_, c', body, _, hr₁⟩ := genFuncDecl_eq_ok h₁
      rw [ih h₂, hr₁, AsmCtx.afterFunc]

/-- A program compiles when its functions do. -/
theorem genProgram_of_genFuncs {p : Program} {r₀ : Emitted AsmCtx Item Unit}
    (h : genFuncs p { dataCtx.declareGlobals (globalsOf p) with indent := 0 } = .ok r₀) :
    ∃ r, genProgram p asmInit = .ok r := by
  have hstk : dataCtx.scopeStk ≠ [] := by simp [dataCtx, AsmCtx.enter]
  have hdata : ({ asmInit.enter with indent := 0 } : AsmCtx) = dataCtx := rfl
  obtain ⟨r, hpop⟩ : ∃ r, popScope r₀.ctx = .ok r := by
    have hne : r₀.ctx.scopeStk ≠ [] := by
      rw [genFuncs_scopeStk p h]
      exact (declareGlobals_spec (globalsOf p) hstk).1
    cases hscopes : r₀.ctx.scopeStk with
    | nil => exact absurd hscopes hne
    | cons s scopes => exact ⟨_, by simp [popScope, bind_run, hscopes]; rfl⟩
  by_cases hd : hasData p = true
  · rw [genProgram, if_pos hd]
    simp only [bind_run, pushScope_run, setIndent_run, asmEmit_run, hdata, genGlobals_run p hstk, h,
      hpop]
    exact ⟨_, rfl⟩
  · rw [hasData_eq_false (by simpa using hd), AsmCtx.declareGlobals] at h
    rw [genProgram, if_neg hd]
    have hdata' : ({ dataCtx with indent := 0 } : AsmCtx) = dataCtx := rfl
    rw [hdata'] at h
    simp only [bind_run, pushScope_run, setIndent_run, asmEmit_run, hdata, h, hpop]
    exact ⟨_, rfl⟩

/-- A program of globals always compiles. -/
theorem genProgram_of_no_funcs {p : Program} (h : funcsOf p = []) :
    ∃ r, genProgram p asmInit = .ok r :=
  genProgram_of_genFuncs (genFuncs_of_no_funcs h _)

end ACompiler
