import ACompiler.Correct.Data
import ACompiler.Correct.Represent
import ACompiler.Lib.Hoare
import ACompiler.Semantics.Renaming

/-!
# Local names do not matter

Two runs of the generator side by side, on a function and on the function with its locals renamed.
The scopes of the two contexts differ in the names of the locals alone: a local resolves to the same
slot under its new name, and every name that is not new resolves as before. So both runs print the
same lines, or fail together (`genProgram_rename`).
-/

namespace ACompiler

open Lib (Emitted)
open Lib.Emit (Coupled bind_run bind_eq_ok)

/-- The scopes below the innermost one, in the two runs, and the offset at which that was pushed. -/
structure Below where
  base : Int
  left : List Scope
  right : List Scope

/-- The contexts differ in the names of the locals only. `all` are the names that the function
declares anywhere, `locals` those in scope. -/
structure Twin (ρ : CString → CString) (all : List CString) (below : Below) (locals : List CString)
    (c d : AsmCtx) : Prop where
  indent : c.indent = d.indent
  curOffset : c.curOffset = d.curOffset
  labelCount : c.labelCount = d.labelCount
  pushDepth : c.pushDepth = d.pushDepth
  epilogueLabel : c.epilogueLabel = d.epilogueLabel
  stk : ∃ s s', c.scopeStk = s :: below.left ∧ d.scopeStk = s' :: below.right ∧
    s.baseOffset = below.base ∧ s'.baseOffset = below.base
  declared : ∀ x ∈ locals, x ∈ all
  inner : ∀ x ∈ locals, ∃ v w, findSymbol c x = some v ∧ findSymbol d (ρ x) = some w ∧
    v.isGlobal = false ∧ w.isGlobal = false ∧ v.stackOffset = w.stackOffset
  outer : ∀ x, x ∉ locals → (∀ y ∈ all, ρ y ≠ x) → findSymbol c x = findSymbol d x

/-- From twins with the locals `locals` the two computations print the same and leave twins with the
locals `locals'`, or fail together. -/
def Twins (ρ : CString → CString) (all : List CString) (below : Below) (locals locals' : List CString)
    (g g' : Gen Unit) : Prop :=
  Coupled (Twin ρ all below locals) g g' fun _ _ => Twin ρ all below locals'

/-- A name of the program is none of the new names. -/
def NotNew (ρ : CString → CString) (all : List CString) (x : CString) : Prop := ∀ y ∈ all, ρ y ≠ x

section twins
variable {ρ : CString → CString} {all : List CString} {below : Below} {locals locals' : List CString}

theorem Twin.congr {c d : AsmCtx} (h : Twin ρ all below locals c d)
    (hlocals : ∀ x, x ∈ locals ↔ x ∈ locals') : Twin ρ all below locals' c d :=
  { h with
    declared := fun x hx => h.declared x ((hlocals x).mpr hx)
    inner := fun x hx => h.inner x ((hlocals x).mpr hx)
    outer := fun x hx => h.outer x fun hin => hx ((hlocals x).mp hin) }

theorem Twin.item {c d : AsmCtx} (h : Twin ρ all below locals c d) (i : Instr) :
    c.item i = d.item i := by
  rw [AsmCtx.item, AsmCtx.item, h.indent, h.pushDepth]

theorem Twin.scopeStk_ne {c d : AsmCtx} (h : Twin ρ all below locals c d) :
    c.scopeStk ≠ [] ∧ d.scopeStk ≠ [] := by
  obtain ⟨s, s', hs, hs', _⟩ := h.stk
  rw [hs, hs']
  simp

/-- A name and what it is renamed to resolve to nothing, or to symbols with the same code. -/
theorem Twin.find {c d : AsmCtx} (h : Twin ρ all below locals c d) {x : CString}
    (hx : NotNew ρ all x) :
    (findSymbol c x = none ∧ findSymbol d (newName ρ locals x) = none) ∨
      ∃ v w, findSymbol c x = some v ∧ findSymbol d (newName ρ locals x) = some w ∧
        readInstr v x = readInstr w (newName ρ locals x) ∧
        writeInstr v x = writeInstr w (newName ρ locals x) ∧
        addrInstr v = addrInstr w := by
  by_cases hin : x ∈ locals
  · obtain ⟨v, w, hv, hw, hvl, hwl, hoff⟩ := h.inner x hin
    rw [newName_of_mem hin]
    refine .inr ⟨v, w, hv, hw, ?_⟩
    simp [readInstr, writeInstr, addrInstr, hvl, hwl, hoff]
  · rw [newName_of_not_mem hin, ← h.outer x hin hx]
    cases hfind : findSymbol c x with
    | none => exact .inl ⟨rfl, rfl⟩
    | some v => exact .inr ⟨v, v, rfl, rfl, rfl, rfl, rfl⟩

/-! ## Steps -/

theorem Twins.bind {locals₁ locals₂ locals₃ : List CString} {x y f g : Gen Unit}
    (hx : Twins ρ all below locals₁ locals₂ x y) (hf : Twins ρ all below locals₂ locals₃ f g) :
    Twins ρ all below locals₁ locals₃ (x >>= fun _ => f) (y >>= fun _ => g) :=
  Coupled.bind hx fun _ _ => hf

theorem twins_pure : Twins ρ all below locals locals (pure ()) (pure ()) :=
  Coupled.pure fun _ _ h => h

theorem twins_mark : Twins ρ all below locals locals Lib.Emit.mark Lib.Emit.mark :=
  Coupled.mark fun _ _ h => h

theorem twins_compileError (message : String) :
    Twins ρ all below locals locals' (stdCompileError message) (stdCompileError message) :=
  Coupled.throw _

theorem twins_emit (i : Instr) : Twins ρ all below locals locals (emit i) (emit i) :=
  Coupled.print (fun _ _ h => by rw [h.indent, h.pushDepth]) fun _ _ h => h

theorem twins_asmRaw (line : Line) : Twins ρ all below locals locals (asmRaw line) (asmRaw line) :=
  Coupled.print (fun _ _ h => by rw [h.pushDepth]) fun _ _ h => h

theorem Twin.withDepth {c d : AsmCtx} (h : Twin ρ all below locals c d) {n m : Int} (hnm : n = m) :
    Twin ρ all below locals (c.withDepth n) (d.withDepth m) :=
  { h with pushDepth := hnm }

theorem twins_addDepth (n : Int) : Twins ρ all below locals locals
    (Lib.Emit.modify fun c => { c with pushDepth := c.pushDepth + n })
    (Lib.Emit.modify fun c => { c with pushDepth := c.pushDepth + n }) :=
  Coupled.modify fun _ _ h => h.withDepth (by rw [h.pushDepth])

theorem twins_pushRax : Twins ρ all below locals locals pushRax pushRax :=
  (twins_emit _).bind (twins_addDepth 1)

theorem twins_popInto (id : RegId) : Twins ρ all below locals locals (popInto id) (popInto id) :=
  (twins_emit _).bind (Coupled.modify fun _ _ h => h.withDepth (by rw [h.pushDepth]))

/-! ## Expressions -/

section names
variable {x : CString} (hx : NotNew ρ all x)
include hx

theorem twins_genIdentifier : Twins ρ all below locals locals (genIdentifier x)
    (genIdentifier (newName ρ locals x)) := by
  intro c d h
  rcases h.find hx with ⟨hc, hd⟩ | ⟨v, w, hv, hw, hread, _, _⟩
  · exact .inr ⟨.compileError "undefined identifier", by simp [genIdentifier, bind_run, hc],
      by simp [genIdentifier, bind_run, hd]⟩
  · refine .inl ⟨_, _, (ExprCode.identifier hv).genExpr, (ExprCode.identifier hw).genExpr, ?_, h⟩
    show [c.item (readInstr v x)] = [d.item _]
    rw [h.item, hread]

theorem twins_genAddr : Twins ρ all below locals locals (genAddr (.identifier x))
    (genAddr (.identifier (newName ρ locals x))) := by
  intro c d h
  rcases h.find hx with ⟨hc, hd⟩ | ⟨v, w, hv, hw, _, _, haddr⟩
  · exact .inr ⟨.compileError "undefined identifier", by simp [genAddr, bind_run, hc],
      by simp [genAddr, bind_run, hd]⟩
  · refine .inl ⟨_, _, (ExprCode.addr hv).genExpr, (ExprCode.addr hw).genExpr, ?_, h⟩
    show [c.item (addrInstr v)] = [d.item (addrInstr w)]
    rw [h.item, haddr]

/-- The store of an assignment. -/
theorem twins_assign {val val' : Gen Unit} (hval : Twins ρ all below locals locals val val') :
    Twins ρ all below locals locals (genAssign (.identifier x) val)
      (genAssign (.identifier (newName ρ locals x)) val') := by
  refine hval.bind fun c d h => ?_
  rcases h.find hx with ⟨hc, hd⟩ | ⟨v, w, hv, hw, _, hwrite, _⟩
  · exact .inr ⟨.compileError "undefined identifier in assignment", by simp [bind_run, hc],
      by simp [bind_run, hd]⟩
  · have hstore : ∀ (c : AsmCtx) (v : Symbol) (x : CString),
        (if v.isGlobal then emit (.mov (.reg .rax) (.sym x)) else storeLocal v.stackOffset) c =
          emit (writeInstr v x) c := by
      intro c v x
      unfold writeInstr storeLocal
      split
      · rfl
      · rfl
    generalize newName ρ locals x = x' at hw hwrite
    refine .inl ⟨⟨(), c, [c.item (writeInstr v x)], []⟩, ⟨(), d, [d.item (writeInstr w x')], []⟩,
      ?_, ?_, ?_, h⟩
    · simp [bind_run, hv, hstore]
    · simp [bind_run, hw, hstore]
    · show [c.item (writeInstr v x)] = [d.item _]
      rw [h.item, hwrite]

end names

theorem twins_genUnaryOp (op : UnaryOp) :
    Twins ρ all below locals locals (genUnaryOp op) (genUnaryOp op) := by
  unfold genUnaryOp
  split
  · exact twins_emit _
  · exact (twins_emit _).bind ((twins_emit _).bind (twins_emit _))
  · exact twins_pure
  · exact twins_compileError _

theorem twins_genBinaryOp (op : BinaryOp) :
    Twins ρ all below locals locals (genBinaryOp op) (genBinaryOp op) := by
  unfold genBinaryOp
  split
  · exact twins_emit _
  · exact twins_emit _
  · exact twins_emit _
  · exact (twins_emit _).bind (twins_emit _)
  · exact (twins_emit _).bind ((twins_emit _).bind (twins_emit _))

theorem twins_popArgs (ids : List RegId) :
    Twins ρ all below locals locals (popArgs ids) (popArgs ids) := by
  induction ids with
  | nil => exact twins_pure
  | cons id ids ih => exact (twins_popInto id).bind ih

theorem twins_genCall (callee : CString) (n : Nat) {args args' : Gen Unit}
    (h : Twins ρ all below locals locals args args') :
    Twins ρ all below locals locals (genCall callee n args) (genCall callee n args') := by
  unfold genCall
  split
  · exact twins_compileError _
  · refine Coupled.bind_of (p := fun a b : AsmCtx => a.pushDepth = b.pushDepth)
      (Coupled.get fun c d hcd => ⟨hcd.pushDepth, hcd⟩) fun a b hab => ?_
    rw [hab]
    have hpops := @twins_popArgs ρ all below locals (argRegs.take n).reverse
    dsimp only
    split
    · -- both calls are padded
      refine (twins_emit _).bind ((twins_addDepth 1).bind (h.bind (hpops.bind ((twins_emit _).bind
        ((twins_emit _).bind ?_)))))
      exact Coupled.modify fun _ _ hcd => hcd.withDepth (by rw [hcd.pushDepth])
    · exact h.bind (hpops.bind ((twins_emit _).bind twins_pure))

theorem renameArgs_length (args : List Expr) :
    (renameArgs ρ locals args).length = args.length := by
  induction args with
  | nil => rfl
  | cons arg args ih => rw [renameArgs, List.length_cons, List.length_cons, ih]

mutual

theorem twins_genExpr : ∀ e : Expr, (∀ x ∈ e.uses, NotNew ρ all x) →
    Twins ρ all below locals locals (genExpr e) (genExpr (e.rename ρ locals))
  | .literal lit, _ => twins_emit _
  | .identifier x, h => twins_genIdentifier (h x List.mem_cons_self)
  | .unary op expr, h => by
    show Twins ρ all below locals locals (genUnary op expr (genExpr expr))
      (genUnary op (expr.rename ρ locals) (genExpr (expr.rename ρ locals)))
    unfold genUnary
    split
    · cases expr with
      | identifier x => exact twins_genAddr (h x List.mem_cons_self)
      | _ => exact twins_compileError _
    · exact (twins_genExpr expr h).bind (twins_genUnaryOp op)
  | .binary op left right, h => by
    have hl := twins_genExpr left fun x hx => h x (List.mem_append_left _ hx)
    have hr := twins_genExpr right fun x hx => h x (List.mem_append_right _ hx)
    exact hl.bind (twins_pushRax.bind (hr.bind ((twins_emit _).bind ((twins_popInto _).bind
      (twins_genBinaryOp op)))))
  | .call callee args, h => by
    show Twins ρ all below locals locals (genCall callee args.length (genArgs args))
      (genCall callee (renameArgs ρ locals args).length (genArgs (renameArgs ρ locals args)))
    rw [renameArgs_length]
    exact twins_genCall callee args.length (twins_genArgs args h)
  | .assign target val, h => by
    have hval := twins_genExpr val fun x hx => h x (List.mem_append_right _ hx)
    cases target with
    | identifier x => exact twins_assign (h x List.mem_cons_self) hval
    | _ => exact twins_compileError _
  | .cast t inner, h => twins_genExpr inner h
  | .index target idx, _ => twins_compileError _

theorem twins_genArgs : ∀ args : List Expr, (∀ x ∈ usesOfArgs args, NotNew ρ all x) →
    Twins ρ all below locals locals (genArgs args) (genArgs (renameArgs ρ locals args))
  | [], _ => twins_pure
  | arg :: args, h => by
    have ha := twins_genExpr arg fun x hx => h x (List.mem_append_left _ hx)
    have hs := twins_genArgs args fun x hx => h x (List.mem_append_right _ hx)
    exact ha.bind (twins_pushRax.bind hs)

end

/-! ## Statements -/

/-- Both runs enter a scope. -/
theorem Twin.enter {c d : AsmCtx} (h : Twin ρ all below locals c d) :
    Twin ρ all ⟨c.curOffset, c.scopeStk, d.scopeStk⟩ locals c.enter d.enter where
  indent := h.indent
  curOffset := h.curOffset
  labelCount := h.labelCount
  pushDepth := h.pushDepth
  epilogueLabel := h.epilogueLabel
  stk := ⟨newScope c.curOffset, newScope d.curOffset, rfl, rfl, rfl, h.curOffset.symm⟩
  declared := h.declared
  inner := fun x hx => by
    rw [findSymbol_enter, findSymbol_enter]
    exact h.inner x hx
  outer := fun x hx hnew => by
    rw [findSymbol_enter, findSymbol_enter]
    exact h.outer x hx hnew

/-- The context behind the scope on top. -/
def AsmCtx.leave (c : AsmCtx) (base : Int) (scopes : List Scope) : AsmCtx :=
  { c with scopeStk := scopes, curOffset := base }

/-- Both runs leave a scope. -/
theorem Twin.popScope {c d : AsmCtx} (h : Twin ρ all below locals c d) :
    popScope c = .ok ⟨(), c.leave below.base below.left, [], []⟩ ∧
      popScope d = .ok ⟨(), d.leave below.base below.right, [], []⟩ := by
  obtain ⟨s, s', hs, hs', hbase, hbase'⟩ := h.stk
  simp [ACompiler.popScope, bind_run, hs, hs', hbase, hbase', AsmCtx.leave]

/-- Behind a block the locals are those before it. -/
theorem twins_genBlock {nodes nodes' : Gen Unit}
    (h : ∀ below, Coupled (Twin ρ all below locals) nodes nodes' fun _ _ c d =>
      ∃ locals', Twin ρ all below locals' c d) :
    Twins ρ all below locals locals (genBlock nodes) (genBlock nodes') := by
  intro c d hcd
  rcases h _ _ _ hcd.enter with ⟨r, r', hr, hr', hitems, locals', hpost⟩ | ⟨e, he, he'⟩
  · obtain ⟨hpop, hpop'⟩ := hpost.popScope
    refine .inl ⟨⟨(), r.ctx.leave c.curOffset c.scopeStk, r.items, r.marks⟩,
      ⟨(), r'.ctx.leave c.curOffset d.scopeStk, r'.items, r'.marks⟩, ?_, ?_, hitems, ?_⟩
    · simp only [genBlock, bind_run, pushScope_run, hr, hpop, List.nil_append, List.append_nil]
    · simp only [genBlock, bind_run, pushScope_run, hr', hpop', List.nil_append, List.append_nil]
    · exact { hcd with
        indent := hpost.indent
        curOffset := rfl
        labelCount := hpost.labelCount
        pushDepth := hpost.pushDepth
        epilogueLabel := hpost.epilogueLabel }
  · refine .inr ⟨e, ?_, ?_⟩
    · simp only [genBlock, bind_run, pushScope_run, he]
    · simp only [genBlock, bind_run, pushScope_run, he']

section declarations
variable (hinj : ∀ x ∈ all, ∀ y ∈ all, ρ x = ρ y → x = y)
include hinj

/-- Both runs declare a variable, under its two names. -/
theorem Twin.declare {c d : AsmCtx} (h : Twin ρ all below locals c d) {x : CString}
    (hx : x ∈ all) (type : VarT) :
    Twin ρ all below (x :: locals) (c.declare x type) (d.declare (ρ x) type) := by
  obtain ⟨hstk, hstk'⟩ := h.scopeStk_ne
  have hext := AsmCtx.extends_declare c x type
  have hext' := AsmCtx.extends_declare d (ρ x) type
  obtain ⟨s, s', hs, hs', hbase, hbase'⟩ := h.stk
  refine ⟨?_, ?_, ?_, ?_, ?_, ?_, ?_, ?_, ?_⟩
  · rw [hext.indent, hext'.indent, h.indent]
  · rw [declare_curOffset _ _ hstk, declare_curOffset _ _ hstk', h.curOffset]
  · rw [declare_labelCount, declare_labelCount, h.labelCount]
  · rw [hext.pushDepth, hext'.pushDepth, h.pushDepth]
  · rw [hext.epilogueLabel, hext'.epilogueLabel, h.epilogueLabel]
  · refine ⟨s.addSymbol ⟨x, c.curOffset - 8, type, false⟩,
      s'.addSymbol ⟨ρ x, d.curOffset - 8, type, false⟩, ?_, ?_, hbase, hbase'⟩
    · simp only [AsmCtx.declare, hs]
    · simp only [AsmCtx.declare, hs']
  · exact List.forall_mem_cons.mpr ⟨hx, h.declared⟩
  · intro y hy
    rw [findSymbol_declare hstk, findSymbol_declare hstk']
    by_cases hxy : x = y
    · rw [if_pos hxy, if_pos (by rw [hxy])]
      exact ⟨_, _, rfl, rfl, rfl, rfl, by rw [h.curOffset]⟩
    · have hy := (List.mem_cons.mp hy).resolve_left (Ne.symm hxy)
      rw [if_neg hxy, if_neg fun heq => hxy (hinj x hx y (h.declared y hy) heq)]
      exact h.inner y hy
  · intro y hy hnew
    rw [List.mem_cons, not_or] at hy
    rw [findSymbol_declare hstk, findSymbol_declare hstk', if_neg (Ne.symm hy.1),
      if_neg (hnew x hx)]
    exact h.outer y hy.2 hnew

theorem twins_defineLocal {x : CString} (hx : x ∈ all) (type : VarT) :
    Coupled (Twin ρ all below locals) (defineLocal x type) (defineLocal (ρ x) type)
      fun v w c d => v.stackOffset = w.stackOffset ∧ Twin ρ all below (x :: locals) c d := by
  intro c d h
  obtain ⟨hstk, hstk'⟩ := h.scopeStk_ne
  refine .inl ⟨_, _, defineLocal_run _ _ hstk, defineLocal_run _ _ hstk', rfl, ?_⟩
  exact ⟨by rw [h.curOffset], h.declare hinj hx type⟩

theorem twins_genVarDecl (decl : VarDecl) (hx : decl.ident ∈ all)
    (huses : ∀ y ∈ (Stmt.varDecl decl).uses, NotNew ρ all y) :
    Twins ρ all below locals (decl.ident :: locals) (genVarDecl decl)
      (genVarDecl ⟨ρ decl.ident, decl.type,
        decl.assign.map fun e => e.rename ρ (decl.ident :: locals)⟩) := by
  unfold genVarDecl
  refine Coupled.bind_of (twins_defineLocal hinj hx decl.type) fun v w hoff => ?_
  rw [hoff]
  cases hassign : decl.assign with
  | none => exact twins_pure
  | some e =>
    have he : ∀ y ∈ e.uses, NotNew ρ all y := fun y hy =>
      huses y (by simpa [Stmt.uses, hassign] using hy)
    exact (twins_genExpr e he).bind (twins_emit _)

/-- Both runs declare the parameters and spill the same registers to the same slots. -/
theorem twins_genParams (params : List FuncParam) :
    ∀ (i : Nat) {locals : List CString}, (∀ p ∈ params, p.ident ∈ all) →
      Twins ρ all below locals ((params.map FuncParam.ident).reverse ++ locals) (genParams i params)
        (genParams i (params.map fun p => { p with ident := ρ p.ident })) := by
  induction params with
  | nil => exact fun _ _ _ => twins_pure
  | cons p params ih =>
    intro i locals hall
    simp only [List.map_cons, genParams]
    refine Coupled.bind_of (twins_defineLocal hinj (hall p List.mem_cons_self) p.type)
      fun v w hoff => ?_
    rw [hoff]
    cases argRegs[i]? with
    | none => exact Coupled.throw _
    | some id =>
      have hrest := @ih (i + 1) (p.ident :: locals) fun q hq => hall q (List.mem_cons_of_mem _ hq)
      rw [List.reverse_cons, List.append_assoc]
      exact (twins_emit _).bind hrest

end declarations

theorem twins_jmpEpilogue : Twins ρ all below locals locals jmpEpilogue jmpEpilogue := by
  intro c d h
  cases hn : c.epilogueLabel with
  | none =>
    have hn' : d.epilogueLabel = none := h.epilogueLabel ▸ hn
    exact .inr ⟨.nullPointer, by simp [jmpEpilogue, bind_run, hn], by simp [jmpEpilogue, bind_run, hn']⟩
  | some n =>
    have hn' : d.epilogueLabel = some n := h.epilogueLabel ▸ hn
    refine .inl ⟨⟨(), c, [c.item (.jmp n)], []⟩, ⟨(), d, [d.item (.jmp n)], []⟩, ?_, ?_, ?_, h⟩
    · simp [jmpEpilogue, bind_run, hn]
    · simp [jmpEpilogue, bind_run, hn']
    · rw [h.item]

theorem twins_newLabel : Coupled (Twin ρ all below locals) newLabel newLabel
    fun n m c d => n = m ∧ Twin ρ all below locals c d :=
  fun c d h => .inl ⟨_, _, newLabel_run c, newLabel_run d, rfl, h.labelCount,
    { h with labelCount := by rw [h.labelCount] }⟩

/-- The two labels of an `if` are the same in both runs. -/
theorem twins_genIf {cond cond' : Expr} {thenBranch thenBranch' elseBranch elseBranch' : Gen Unit}
    (hc : Twins ρ all below locals locals (genExpr cond) (genExpr cond'))
    (ht : Twins ρ all below locals locals thenBranch thenBranch')
    (he : Twins ρ all below locals locals elseBranch elseBranch') :
    Twins ρ all below locals locals (genIf cond thenBranch elseBranch)
      (genIf cond' thenBranch' elseBranch') := by
  have hlabel : ∀ {β : Type} {f g : Nat → Gen β} {S : β → β → AsmCtx → AsmCtx → Prop},
      (∀ n, Coupled (Twin ρ all below locals) (f n) (g n) S) →
        Coupled (Twin ρ all below locals) (newLabel >>= f) (newLabel >>= g) S := by
    intro β f g S h
    refine Coupled.bind_of twins_newLabel fun n m hnm => ?_
    rw [hnm]
    exact h m
  refine hlabel fun elseLbl => hlabel fun endLbl => ?_
  exact hc.bind ((twins_emit _).bind ((twins_emit _).bind (ht.bind ((twins_emit _).bind
    ((twins_asmRaw _).bind (he.bind (twins_asmRaw _)))))))

mutual

theorem twins_genStmt (hinj : ∀ x ∈ all, ∀ y ∈ all, ρ x = ρ y → x = y) : ∀ (s : Stmt) {below : Below} {locals : List CString},
    (∀ x ∈ s.locals, x ∈ all) → (∀ x ∈ s.uses, NotNew ρ all x) →
      Twins ρ all below locals (s.declares ++ locals) (genStmt s) (genStmt (s.rename ρ locals))
  | .block nodes, _, _, hlocals, huses =>
    twins_genBlock fun _ => twins_genStmts hinj nodes hlocals huses
  | .ifStmt cond nodes none, _, _, hlocals, huses => by
    have hc := fun x hx => huses x (List.mem_append_left _ hx)
    have hb := fun x hx => huses x (List.mem_append_right _ hx)
    exact twins_genIf (twins_genExpr cond hc)
      (twins_genBlock fun _ => twins_genStmts hinj nodes hlocals hb) twins_pure
  | .ifStmt cond nodes (some nodes'), _, _, hlocals, huses => by
    simp only [Stmt.uses, Stmt.locals, List.forall_mem_append] at hlocals huses
    exact twins_genIf (twins_genExpr cond huses.1.1)
      (twins_genBlock fun _ => twins_genStmts hinj nodes hlocals.1 huses.1.2)
      (twins_genBlock fun _ => twins_genStmts hinj nodes' hlocals.2 huses.2)
  | .returnStmt e, _, _, _, huses => (twins_genExpr e huses).bind twins_jmpEpilogue
  | .comment _, _, _, _, _ => twins_pure
  | .varDecl decl, _, _, hlocals, huses =>
    twins_genVarDecl hinj decl (hlocals _ List.mem_cons_self) huses
  | .expr e, _, _, _, huses => twins_genExpr e huses

theorem twins_genStmts (hinj : ∀ x ∈ all, ∀ y ∈ all, ρ x = ρ y → x = y) : ∀ (ss : List Stmt) {below : Below} {locals : List CString},
    (∀ x ∈ localsOfNodes ss, x ∈ all) → (∀ x ∈ usesOfNodes ss, NotNew ρ all x) →
      Coupled (Twin ρ all below locals) (genStmts ss) (genStmts (renameNodes ρ locals ss))
        fun _ _ c d => ∃ locals', Twin ρ all below locals' c d
  | [], _, _, _, _ => Coupled.mark fun _ _ h => ⟨_, h⟩
  | s :: ss, below, locals, hlocals, huses => by
    simp only [usesOfNodes, localsOfNodes, List.forall_mem_append] at hlocals huses
    have hs := @twins_genStmt hinj s below locals hlocals.1 huses.1
    have hss := @twins_genStmts hinj ss below (s.declares ++ locals) hlocals.2 huses.2
    exact Coupled.bind twins_mark fun _ _ => Coupled.bind hs fun _ _ => hss

end

/-! ## Functions and programs -/

theorem twins_genEpilogue (label : Nat) :
    Twins ρ all below locals locals (genEpilogue label) (genEpilogue label) := by
  have hindent : Twins ρ all below locals locals (setIndent 4) (setIndent 4) :=
    Coupled.modify fun _ _ h => { h with indent := rfl }
  exact (twins_asmRaw _).bind (hindent.bind ((twins_emit _).bind ((twins_emit _).bind (twins_emit _))))

/-- Behind the scope of a function nothing tells the two contexts apart. -/
theorem coupled_leave (hbelow : below.left = below.right) :
    Coupled (Twin ρ all below locals)
      (do popScope; Lib.Emit.modify fun c => { c with epilogueLabel := none })
      (do popScope; Lib.Emit.modify fun c => { c with epilogueLabel := none })
      fun _ _ => Eq := by
  intro c d h
  obtain ⟨hpop, hpop'⟩ := h.popScope
  refine .inl ⟨_, _, bind_eq_ok.mpr ⟨_, _, hpop, rfl, rfl⟩, bind_eq_ok.mpr ⟨_, _, hpop', rfl, rfl⟩,
    rfl, ?_⟩
  simp [AsmCtx.leave, h.indent, h.labelCount, h.pushDepth, hbelow]

end twins

mutual

theorem countLocals_rename (ρ : CString → CString) : ∀ (s : Stmt) (locals : List CString),
    countLocals (s.rename ρ locals) = countLocals s
  | .block nodes, _ => countLocalsList_rename ρ nodes _
  | .ifStmt _ nodes none, _ => countLocalsList_rename ρ nodes _
  | .ifStmt _ nodes (some nodes'), _ =>
    congrArg₂ (· + ·) (countLocalsList_rename ρ nodes _) (countLocalsList_rename ρ nodes' _)
  | .returnStmt _, _ => rfl
  | .comment _, _ => rfl
  | .varDecl _, _ => rfl
  | .expr _, _ => rfl

theorem countLocalsList_rename (ρ : CString → CString) : ∀ (ss : List Stmt) (locals : List CString),
    countLocalsList (renameNodes ρ locals ss) = countLocalsList ss
  | [], _ => rfl
  | s :: ss, _ => congrArg₂ (· + ·) (countLocals_rename ρ s _) (countLocalsList_rename ρ ss _)

end

theorem genPrologue_rename (ρ : CString → CString) (decl : FuncDecl) :
    genPrologue (decl.rename ρ) = genPrologue decl := by
  have hsize : computeFrameSize (decl.rename ρ) = computeFrameSize decl := by
    unfold computeFrameSize FuncDecl.rename
    simp only [countLocalsList_rename, List.length_map]
  unfold genPrologue
  rw [hsize]
  rfl

/-- **A function and its renaming print the same lines**, and leave the same context. -/
theorem coupled_genFuncDecl {ρ : CString → CString} {decl : FuncDecl} (h : Renames ρ decl) :
    Coupled Eq (genFuncDecl decl) (genFuncDecl (decl.rename ρ)) fun _ _ => Eq := by
  have hparams : ∀ p ∈ decl.params, p.ident ∈ decl.locals := fun p hp =>
    List.mem_append_left _ (List.mem_map_of_mem hp)
  have hlocals : ∀ x ∈ localsOfNodes decl.block, x ∈ decl.locals := fun x hx =>
    List.mem_append_right _ hx
  have huses : ∀ x ∈ usesOfNodes decl.block, NotNew ρ decl.locals x := by
    rintro x hx y hy rfl
    exact h.fresh y hy hx
  unfold genFuncDecl
  rw [genPrologue_rename]
  refine Coupled.bind_of (Coupled.refl _) fun _ _ _ => Coupled.bind_of (Coupled.refl _) ?_
  rintro el _ rfl
  refine Coupled.bind_of (Coupled.refl _) fun _ _ _ => ?_
  rintro c _ rfl
  -- the scope of the function lies on the same scopes in both runs
  have hpush : Coupled (fun c' d' => c' = c ∧ d' = c) pushScope pushScope
      fun _ _ => Twin ρ decl.locals ⟨c.curOffset, c.scopeStk, c.scopeStk⟩ [] := by
    refine Coupled.modify ?_
    rintro _ _ ⟨rfl, rfl⟩
    exact ⟨rfl, rfl, rfl, rfl, rfl, ⟨_, _, rfl, rfl, rfl, rfl⟩, by simp, by simp, fun _ _ _ => rfl⟩
  have hnames : ∀ below c d, Twin ρ decl.locals below
      ((decl.params.map FuncParam.ident).reverse ++ []) c d →
        Twin ρ decl.locals below (decl.params.map FuncParam.ident) c d :=
    fun below c d hcd => hcd.congr (by simp)
  refine (Coupled.bind hpush fun _ _ => Coupled.bind (twins_genParams h.injective decl.params 0 hparams)
    fun _ _ => Coupled.bind ((twins_genStmts h.injective decl.block hlocals huses).conseq (hnames _)
      fun _ _ _ _ hpost => hpost) fun _ _ => Coupled.of_exists fun locals' =>
        Coupled.bind (twins_genEpilogue el) fun _ _ => coupled_leave rfl) c c ⟨rfl, rfl⟩

theorem coupled_genFuncs {ρ : CString → CString} {decl : FuncDecl} (h : Renames ρ decl)
    (pre post : Program) : Coupled Eq (genFuncs (pre ++ .funcDecl decl :: post))
      (genFuncs (pre ++ .funcDecl (decl.rename ρ) :: post)) fun _ _ => Eq := by
  induction pre with
  | nil =>
    exact Coupled.bind (coupled_genFuncDecl h) fun _ _ =>
      (Coupled.refl _).conseq (fun _ _ hcd => hcd) fun _ _ _ _ hpost => hpost.2
  | cons node pre ih =>
    cases node with
    | varDecl other => exact ih
    | comment text => exact ih
    | funcDecl other => exact Coupled.bind_of (Coupled.refl _) fun _ _ _ => ih

/-- The functions do not count for the data section. -/
theorem data_of_funcs (pre post : Program) (decl decl' : FuncDecl) :
    hasData (pre ++ .funcDecl decl :: post) = hasData (pre ++ .funcDecl decl' :: post) ∧
      genGlobals (pre ++ .funcDecl decl :: post) = genGlobals (pre ++ .funcDecl decl' :: post) := by
  induction pre with
  | nil => exact ⟨rfl, rfl⟩
  | cons node pre ih =>
    cases node with
    | varDecl other => exact ⟨rfl, congrArg (fun g => genGlobal other >>= fun _ => g) ih.2⟩
    | comment text => exact ih
    | funcDecl other => exact ih

theorem coupled_genProgram {ρ : CString → CString} {decl : FuncDecl} (h : Renames ρ decl)
    (pre post : Program) : Coupled Eq (genProgram (pre ++ .funcDecl decl :: post))
      (genProgram (pre ++ .funcDecl (decl.rename ρ) :: post)) fun _ _ => Eq := by
  obtain ⟨hdata, hglobals⟩ := data_of_funcs pre post decl (decl.rename ρ)
  have htext : Coupled Eq
      (do setIndent 0; asmEmit .textSection; genFuncs (pre ++ .funcDecl decl :: post); popScope)
      (do setIndent 0; asmEmit .textSection; genFuncs (pre ++ .funcDecl (decl.rename ρ) :: post)
          popScope)
      fun _ _ => Eq :=
    Coupled.bind_of (Coupled.refl _) fun _ _ _ => Coupled.bind_of (Coupled.refl _) fun _ _ _ =>
      Coupled.bind (coupled_genFuncs h pre post) fun _ _ =>
        (Coupled.refl _).conseq (fun _ _ hcd => hcd) fun _ _ _ _ hpost => hpost.2
  unfold genProgram
  rw [← hdata, ← hglobals]
  refine Coupled.bind_of (Coupled.refl _) fun _ _ _ => ?_
  split
  · exact Coupled.bind_of (Coupled.refl _) fun _ _ _ => Coupled.bind_of (Coupled.refl _) fun _ _ _ =>
      Coupled.bind_of (Coupled.refl _) fun _ _ _ => htext
  · exact htext

/-- **Local names do not matter.** A program and the program with the locals of one function renamed
compile to the same lines, or both do not compile. -/
theorem genProgram_rename (pre post : Program) (decl : FuncDecl) (ρ : CString → CString)
    (h : Renames ρ decl) :
    ((∃ r, genProgram (pre ++ .funcDecl (decl.rename ρ) :: post) asmInit = .ok r) ↔
      ∃ r, genProgram (pre ++ .funcDecl decl :: post) asmInit = .ok r) ∧
    ∀ r r', genProgram (pre ++ .funcDecl decl :: post) asmInit = .ok r →
      genProgram (pre ++ .funcDecl (decl.rename ρ) :: post) asmInit = .ok r' → r'.items = r.items := by
  rcases coupled_genProgram h pre post asmInit asmInit rfl with ⟨r, r', hr, hr', hitems, _⟩ | ⟨e, he, he'⟩
  · refine ⟨⟨fun _ => ⟨r, hr⟩, fun _ => ⟨r', hr'⟩⟩, fun s s' hs hs' => ?_⟩
    obtain rfl := Except.ok.inj (hr.symm.trans hs)
    obtain rfl := Except.ok.inj (hr'.symm.trans hs')
    exact hitems.symm
  · refine ⟨⟨?_, ?_⟩, fun s _ hs _ => absurd (he.symm.trans hs) (by simp)⟩
    · rintro ⟨s, hs⟩
      exact absurd (he'.symm.trans hs) (by simp)
    · rintro ⟨s, hs⟩
      exact absurd (he.symm.trans hs) (by simp)

/-- `fn f(QWORD a) { let QWORD b = a; { let QWORD a = b; } return a; }`, for the names `a` and `b`. -/
def shadowing (a b : CString) : FuncDecl :=
  ⟨ascii "f", ⟨.lit .litQword, false, 0⟩, [⟨a, ⟨.lit .litQword, false, 0⟩⟩],
    [.varDecl ⟨b, ⟨.lit .litQword, false, 0⟩, some (.identifier a)⟩,
      .block [.varDecl ⟨a, ⟨.lit .litQword, false, 0⟩, some (.identifier b)⟩],
      .returnStmt (.identifier a)]⟩

/-- The names `a` and `b` become `x` and `y`. -/
def toXY (name : CString) : CString := if name = ascii "a" then ascii "x" else ascii "y"

/-- A parameter, a variable and a variable that shadows the parameter, all renamed. -/
theorem genProgram_rename_shadowing :
    (shadowing (ascii "a") (ascii "b")).rename toXY = shadowing (ascii "x") (ascii "y") ∧
      ∀ r r', genProgram [.funcDecl (shadowing (ascii "a") (ascii "b"))] asmInit = .ok r →
        genProgram [.funcDecl (shadowing (ascii "x") (ascii "y"))] asmInit = .ok r' →
          r'.items = r.items :=
  ⟨rfl, (genProgram_rename [] [] (shadowing (ascii "a") (ascii "b")) toXY
    ⟨by decide, by decide⟩).2⟩

end ACompiler
