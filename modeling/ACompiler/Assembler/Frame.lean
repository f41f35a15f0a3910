import ACompiler.Assembler.Shape

/-!
# Slots

Every local that is in scope has a slot of its own in the frame. `Slotted` says it of a context; a
declaration takes the next eight bytes down, a block gives its slots back, and `countLocals` bounds
how far down the body of a function ever goes (`bodyCtx_slotted`, `StmtCode.slotted`,
`StmtCode.budget`).
-/

namespace ACompiler

/-- The locals in scope, also those that a later declaration hides. -/
def AsmCtx.locals (c : AsmCtx) : List Symbol :=
  (c.scopeStk.flatMap Scope.defined).filter fun v => !v.isGlobal

/-- The locals in scope have distinct slots of eight bytes between the current offset and zero. -/
structure AsmCtx.Slotted (c : AsmCtx) : Prop where
  bounds : ∀ v ∈ c.locals, c.curOffset ≤ v.stackOffset ∧ v.stackOffset ≤ -8 ∧ v.stackOffset % 8 = 0
  distinct : (c.locals.map Symbol.stackOffset).Nodup
  offset : c.curOffset ≤ 0 ∧ c.curOffset % 8 = 0

theorem findSymbol_mem_locals {c : AsmCtx} {name : CString} {v : Symbol}
    (h : findSymbol c name = some v) (hg : v.isGlobal = false) : v ∈ c.locals := by
  obtain ⟨s, hs, hv⟩ := List.exists_of_findSome?_eq_some h
  rw [s.agree] at hv
  rw [AsmCtx.locals, List.mem_filter]
  exact ⟨List.mem_flatMap.mpr ⟨s, hs, List.mem_of_find?_eq_some hv⟩, by simp [hg]⟩

theorem findSymbol_of_cons {c : AsmCtx} {s : Scope} {scopes : List Scope}
    (h : c.scopeStk = s :: scopes) (name : CString) :
    findSymbol c name =
      (s.defined.find? fun v => v.name = name).or (findSymbol { c with scopeStk := scopes } name) := by
  rw [findSymbol, h, List.findSome?_cons, s.agree]
  cases s.defined.find? fun v => v.name = name <;> rfl

theorem findSymbol_declare {c : AsmCtx} (hstk : c.scopeStk ≠ []) (name : CString) (type : VarT)
    (x : CString) : findSymbol (c.declare name type) x =
      if name = x then some ⟨name, c.curOffset - 8, type, false⟩ else findSymbol c x := by
  cases h : c.scopeStk with
  | nil => exact absurd h hstk
  | cons s scopes =>
    have hdecl : (c.declare name type).scopeStk =
        s.addSymbol ⟨name, c.curOffset - 8, type, false⟩ :: scopes := by
      simp only [AsmCtx.declare, h]
    rw [findSymbol_of_cons hdecl, findSymbol_of_cons h]
    by_cases hx : name = x
    · simp [Scope.addSymbol, hx]
    · simp [Scope.addSymbol, hx]
      rfl

/-- A new scope has no locals of its own. -/
theorem locals_enter (c : AsmCtx) : c.enter.locals = c.locals := by
  simp [AsmCtx.locals, AsmCtx.enter, newScope]

theorem locals_declare {c : AsmCtx} (hstk : c.scopeStk ≠ []) (name : CString) (type : VarT) :
    (c.declare name type).locals = ⟨name, c.curOffset - 8, type, false⟩ :: c.locals := by
  cases h : c.scopeStk with
  | nil => exact absurd h hstk
  | cons s scopes => simp [AsmCtx.locals, AsmCtx.declare, h, Scope.addSymbol]

theorem AsmCtx.Slotted.congr {c c' : AsmCtx} (h : c.Slotted) (hlocals : c'.locals = c.locals)
    (hoff : c'.curOffset = c.curOffset) : c'.Slotted :=
  ⟨by rw [hlocals, hoff]; exact h.bounds, by rw [hlocals]; exact h.distinct,
    by rw [hoff]; exact h.offset⟩

theorem AsmCtx.Slotted.declare {c : AsmCtx} (h : c.Slotted) (hstk : c.scopeStk ≠ [])
    (name : CString) (type : VarT) : (c.declare name type).Slotted := by
  obtain ⟨hbounds, hdistinct, hoff⟩ := h
  have hoff' := declare_curOffset name type hstk
  refine ⟨?_, ?_, by rw [hoff']; omega⟩
  · rw [locals_declare hstk, hoff']
    intro v hv
    rcases List.mem_cons.mp hv with rfl | hv
    · simp only
      omega
    · have hv := hbounds v hv
      omega
  · rw [locals_declare hstk, List.map_cons, List.nodup_cons]
    refine ⟨?_, hdistinct⟩
    -- the new slot lies below all others
    intro hmem
    obtain ⟨v, hv, heq⟩ := List.mem_map.mp hmem
    have hbelow := hbounds v hv
    have heq : v.stackOffset = c.curOffset - 8 := heq
    omega

theorem AsmCtx.Slotted.enter {c : AsmCtx} (h : c.Slotted) : c.enter.Slotted :=
  h.congr (locals_enter c) rfl

theorem AsmCtx.Slotted.withLabels {c : AsmCtx} (h : c.Slotted) (n : Nat) :
    (c.withLabels n).Slotted := h.congr rfl rfl

theorem AsmCtx.Slotted.declareParams (params : List FuncParam) : ∀ {c : AsmCtx}, c.Slotted →
    c.scopeStk ≠ [] → (c.declareParams params).Slotted := by
  induction params with
  | nil => intro c h _; exact h
  | cons p params ih =>
    intro c h hstk
    exact ih (h.declare hstk p.ident p.type) (declare_scopeStk p.ident p.type hstk)

/-- A statement keeps the slots, and so does every point between its parts. -/
theorem StmtCode.slotted {c c' : AsmCtx} {p : StmtPhrase} {items : List Item}
    {marks : List AsmCtx} (h : StmtCode c p c' items marks) (hc : c.Slotted) :
    c'.Slotted ∧ ∀ m ∈ marks, m.Slotted := by
  induction h with
  | comment => exact ⟨hc, by simp⟩
  | expr _ => exact ⟨hc, by simp⟩
  | returnStmt _ _ => exact ⟨hc, by simp⟩
  | uninit hstk => exact ⟨hc.declare hstk _ _, by simp⟩
  | init hstk _ => exact ⟨hc.declare hstk _ _, by simp⟩
  | ifThen _ _ ih => exact ih (hc.withLabels _)
  | ifElse _ _ _ ih ih' =>
    obtain ⟨h₁, hm⟩ := ih (hc.withLabels _)
    obtain ⟨h₂, hm'⟩ := ih' h₁
    refine ⟨h₂, fun m hmem => ?_⟩
    rcases List.mem_append.mp hmem with hmem | hmem
    · exact hm m hmem
    · exact hm' m hmem
  | block _ ih => exact ⟨hc.withLabels _, (ih hc.enter).2⟩
  | nil => exact ⟨hc, by simpa using hc⟩
  | cons _ _ ih ih' =>
    obtain ⟨h₁, hm⟩ := ih hc
    obtain ⟨h₂, hm'⟩ := ih' h₁
    refine ⟨h₂, fun m hmem => ?_⟩
    rw [List.cons_append, List.mem_cons, List.mem_append] at hmem
    rcases hmem with rfl | hmem | hmem
    · exact hc
    · exact hm m hmem
    · exact hm' m hmem

/-! ## The budget -/

/-- The bytes `count_locals` counts. -/
def StmtPhrase.bytes : StmtPhrase → Nat
  | .stmt s => countLocals s
  | .nodes ss => countLocalsList ss

/-- The offset behind a statement, and everywhere in it, is covered by its count; behind a block it
is what it was. -/
theorem StmtCode.budget {c c' : AsmCtx} {p : StmtPhrase} {items : List Item}
    {marks : List AsmCtx} (h : StmtCode c p c' items marks) :
    c.curOffset - p.bytes ≤ c'.curOffset ∧ c'.curOffset ≤ c.curOffset ∧
      (∀ m ∈ marks, c.curOffset - p.bytes ≤ m.curOffset) ∧
      ∀ ss, p = .stmt (.block ss) → c'.curOffset = c.curOffset := by
  induction h with
  | comment => simp [StmtPhrase.bytes, countLocals]
  | expr _ => simp [StmtPhrase.bytes, countLocals]
  | returnStmt _ _ => simp [StmtPhrase.bytes, countLocals]
  | uninit hstk =>
    simp only [StmtPhrase.bytes, countLocals, declare_curOffset _ _ hstk]
    exact ⟨by omega, by omega, by simp, by simp⟩
  | init hstk _ =>
    simp only [StmtPhrase.bytes, countLocals, declare_curOffset _ _ hstk]
    exact ⟨by omega, by omega, by simp, by simp⟩
  | ifThen _ _ ih =>
    obtain ⟨h₁, h₂, hm, _⟩ := ih
    simp only [StmtPhrase.bytes, countLocals, AsmCtx.withLabels] at *
    exact ⟨h₁, h₂, hm, by simp⟩
  | ifElse _ _ _ ih ih' =>
    obtain ⟨h₁, h₂, hm, heq⟩ := ih
    obtain ⟨h₁', h₂', hm', heq'⟩ := ih'
    have heq := heq _ rfl
    have heq' := heq' _ rfl
    simp only [StmtPhrase.bytes, countLocals, AsmCtx.withLabels] at *
    refine ⟨by omega, by omega, fun m hmem => ?_, by simp⟩
    rcases List.mem_append.mp hmem with hmem | hmem
    · have h := hm m hmem
      omega
    · have h := hm' m hmem
      omega
  | block _ ih =>
    obtain ⟨_, _, hm, _⟩ := ih
    simp only [StmtPhrase.bytes, countLocals, AsmCtx.withLabels, AsmCtx.enter] at *
    exact ⟨by omega, by omega, hm, by simp⟩
  | nil => simp [StmtPhrase.bytes, countLocalsList]
  | cons _ _ ih ih' =>
    obtain ⟨h₁, h₂, hm, _⟩ := ih
    obtain ⟨h₁', h₂', hm', _⟩ := ih'
    simp only [StmtPhrase.bytes, countLocalsList] at *
    refine ⟨by omega, by omega, fun m hmem => ?_, by simp⟩
    rw [List.cons_append, List.mem_cons, List.mem_append] at hmem
    rcases hmem with rfl | hmem | hmem
    · omega
    · have h := hm m hmem
      omega
    · have h := hm' m hmem
      omega

/-! ## Functions -/

/-- A program's functions are generated below a scope of globals. -/
def AsmCtx.GlobalsOnly (c : AsmCtx) : Prop := c.locals = []

theorem bodyCtx_slotted {decl : FuncDecl} {c : AsmCtx} (hc : c.GlobalsOnly) :
    (c.bodyCtx decl).Slotted := by
  refine AsmCtx.Slotted.declareParams decl.params (AsmCtx.Slotted.enter ?_) (by simp [AsmCtx.enter])
  have hlocals : c.funcCtx.locals = [] := hc
  refine ⟨?_, ?_, ?_⟩
  · rw [hlocals]
    simp
  · rw [hlocals]
    simp
  · exact ⟨Int.le_refl 0, rfl⟩

theorem declareParams_curOffset (params : List FuncParam) : ∀ {c : AsmCtx}, c.scopeStk ≠ [] →
    (c.declareParams params).curOffset = c.curOffset - 8 * params.length := by
  induction params with
  | nil => intro c _; simp [AsmCtx.declareParams]
  | cons p params ih =>
    intro c hstk
    rw [AsmCtx.declareParams, ih (declare_scopeStk p.ident p.type hstk), declare_curOffset _ _ hstk,
      List.length_cons]
    push_cast
    omega

theorem bodyCtx_curOffset (decl : FuncDecl) (c : AsmCtx) :
    (c.bodyCtx decl).curOffset = -(8 * decl.params.length) := by
  rw [AsmCtx.bodyCtx, declareParams_curOffset _ (by simp [AsmCtx.enter])]
  simp [AsmCtx.enter, AsmCtx.funcCtx]

theorem bodyCtx_scopeStk (decl : FuncDecl) (c : AsmCtx) : (c.bodyCtx decl).scopeStk ≠ [] := by
  obtain ⟨_, _, _, _, hstk, _⟩ := (declareParams_extends decl.params c.funcCtx.enter).scopeStk
    (by simp [AsmCtx.enter])
  rw [AsmCtx.bodyCtx, hstk]
  simp

theorem computeFrameSize_bounds (decl : FuncDecl) :
    countLocalsList decl.block + 8 * decl.params.length ≤ computeFrameSize decl ∧
      computeFrameSize decl % 16 = 0 := by
  simp only [computeFrameSize]
  split <;> omega

/-- A spill is a `mov` of a register to a slot. -/
theorem paramItems_line (params : List FuncParam) : ∀ (ids : List RegId) (c : AsmCtx),
    ∀ item ∈ c.paramItems ids params,
      ∃ id off, item.line = .instr (.mov (.reg id) (.mem .rbp off)) := by
  induction params with
  | nil => intro ids c item hitem; cases ids <;> simp [AsmCtx.paramItems] at hitem
  | cons p params ih =>
    intro ids c item hitem
    cases ids with
    | nil => simp [AsmCtx.paramItems] at hitem
    | cons id ids =>
      rcases List.mem_cons.mp hitem with rfl | hitem
      · exact ⟨id, c.curOffset - 8, rfl⟩
      · exact ih ids _ item hitem

/-- **The frame covers every slot**, at every statement boundary of a function. -/
theorem genFuncDecl_slots {decl : FuncDecl} {c : AsmCtx} {r : Lib.Emitted AsmCtx Item Unit}
    (hc : c.GlobalsOnly) (h : genFuncDecl decl c = .ok r) :
    ∀ m ∈ r.marks, m.Slotted ∧ -(computeFrameSize decl : Int) ≤ m.curOffset := by
  obtain ⟨_, c', body, hcode, _⟩ := genFuncDecl_eq_ok h
  intro m hm
  refine ⟨(hcode.slotted (bodyCtx_slotted hc)).2 m hm, ?_⟩
  have hbudget := hcode.budget.2.2.1 m hm
  have hframe := (computeFrameSize_bounds decl).1
  rw [bodyCtx_curOffset] at hbudget
  simp only [StmtPhrase.bytes] at hbudget
  omega

end ACompiler
