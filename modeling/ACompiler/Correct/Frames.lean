import ACompiler.Correct.Data
import ACompiler.Assembler.Frame

/-!
# Frames

`count_locals` walks over the body of a function before any code is generated, and `gen_func_decl`
walks over it again. `Visits` is the second walk: the statements it comes to, with the context it
comes to them in. The slot of every local it declares lies in the frame that the first walk computed
(`genFuncDecl_frame`).
-/

namespace ACompiler

open Lib (Emitted)

/-- Generating a statement, or the nodes of a block, in the context `c` generates the statement `s`
in the context `d`. A branch of an `if` counts as a block. -/
inductive Visits : AsmCtx → StmtPhrase → AsmCtx → Stmt → Prop
  | here {c : AsmCtx} {s : Stmt} : Visits c (.stmt s) c s
  | block {c d : AsmCtx} {nodes : List Stmt} {s : Stmt} {r : Emitted AsmCtx Item Unit}
      (hpush : pushScope c = .ok r) (h : Visits r.ctx (.nodes nodes) d s) :
      Visits c (.stmt (.block nodes)) d s
  | thenBranch {c d : AsmCtx} {cond : Expr} {nodes : List Stmt} {other : Option (List Stmt)}
      {s : Stmt} (h : Visits (c.withLabels (c.labelCount + 2)) (.stmt (.block nodes)) d s) :
      Visits c (.stmt (.ifStmt cond nodes other)) d s
  | elseBranch {c d : AsmCtx} {cond : Expr} {nodes nodes' : List Stmt} {s : Stmt}
      {r : Emitted AsmCtx Item Unit}
      (hthen : genBlock (genStmts nodes) (c.withLabels (c.labelCount + 2)) = .ok r)
      (h : Visits r.ctx (.stmt (.block nodes')) d s) :
      Visits c (.stmt (.ifStmt cond nodes (some nodes'))) d s
  | head {c d : AsmCtx} {s₀ s : Stmt} {nodes : List Stmt} (h : Visits c (.stmt s₀) d s) :
      Visits c (.nodes (s₀ :: nodes)) d s
  | tail {c d : AsmCtx} {s₀ s : Stmt} {nodes : List Stmt} {r : Emitted AsmCtx Item Unit}
      (hhead : genStmt s₀ c = .ok r) (h : Visits r.ctx (.nodes nodes) d s) :
      Visits c (.nodes (s₀ :: nodes)) d s

/-- The context in which the functions of a program are generated. -/
def Program.textCtx (p : Program) : AsmCtx :=
  { dataCtx.declareGlobals (globalsOf p) with indent := 0 }

/-- `gen_program` calls `gen_func_decl` on `decl` in the context `c`. -/
def Program.Calls (p : Program) (decl : FuncDecl) (c : AsmCtx) : Prop :=
  ∃ before behind r, p = before ++ .funcDecl decl :: behind ∧ genFuncs before p.textCtx = .ok r ∧
    r.ctx = c

/-- `gen_func_decl` on `decl` in the context `c` calls `define_local` in the context `d`, for a
parameter or for a declaration in the body. -/
inductive Defines (decl : FuncDecl) (c : AsmCtx) : AsmCtx → CString → VarT → Prop
  | param {before behind : List FuncParam} {p : FuncParam} {r : Emitted AsmCtx Item Unit}
      (hparams : decl.params = before ++ p :: behind)
      (hbefore : genParams 0 before c.funcCtx.enter = .ok r) : Defines decl c r.ctx p.ident p.type
  | body {d : AsmCtx} {v : VarDecl} {r : Emitted AsmCtx Item Unit}
      (hparams : genParams 0 decl.params c.funcCtx.enter = .ok r)
      (h : Visits r.ctx (.nodes decl.block) d (.varDecl v)) : Defines decl c d v.ident v.type

/-! ## The walk -/

section walk
variable {c d c' : AsmCtx} {p : StmtPhrase} {s : Stmt} {items : List Item} {marks : List AsmCtx}

/-- What holds at a statement that the walk comes to: it has code, the locals in scope have slots
of their own, and the bytes counted for it are left. -/
structure AsmCtx.Room (d : AsmCtx) (s : Stmt) (low : Int) : Prop where
  code : ∃ d' items marks, StmtCode d (.stmt s) d' items marks
  slotted : d.Slotted
  left : low ≤ d.curOffset - countLocals s

theorem AsmCtx.Room.mono {low low' : Int} (h : d.Room s low) (hlow : low' ≤ low) : d.Room s low' :=
  ⟨h.code, h.slotted, hlow.trans h.left⟩

theorem StmtCode.ctx_eq {r : Emitted AsmCtx Item Unit} (h : StmtCode c p c' items marks)
    (hr : genStmtPhrase p c = .ok r) : r.ctx = c' := by
  obtain rfl := Except.ok.inj (hr.symm.trans h.gen)
  rfl

/-- **The walk stays in what was counted.** -/
theorem Visits.room (h : Visits c p d s) : ∀ {c' : AsmCtx} {items : List Item}
    {marks : List AsmCtx}, StmtCode c p c' items marks → c.Slotted →
      d.Room s (c.curOffset - p.bytes) := by
  induction h with
  | here =>
    intro c' items marks hcode hc
    exact ⟨⟨c', items, marks, hcode⟩, hc, Int.le_refl _⟩
  | block hpush h ih =>
    intro c' items marks hcode hc
    obtain rfl := Except.ok.inj ((pushScope_run _).symm.trans hpush)
    cases hcode with
    | block hn => exact ih hn hc.enter
  | @thenBranch c d cond nodes other s h ih =>
    intro c' items marks hcode hc
    have hbytes : countLocalsList nodes ≤ countLocals (.ifStmt cond nodes other) := by
      cases other with
      | none => rw [countLocals]
      | some nodes' =>
        rw [countLocals]
        omega
    have hlow : c.curOffset - (StmtPhrase.stmt (.ifStmt cond nodes other)).bytes ≤
        (c.withLabels (c.labelCount + 2)).curOffset - (StmtPhrase.stmt (.block nodes)).bytes := by
      have hblock : countLocals (.block nodes) = countLocalsList nodes := rfl
      simp only [StmtPhrase.bytes, AsmCtx.withLabels, hblock]
      omega
    cases hcode with
    | ifThen _ hb => exact (ih hb (hc.withLabels _)).mono hlow
    | ifElse _ hb _ => exact (ih hb (hc.withLabels _)).mono hlow
  | @elseBranch c d cond nodes nodes' s r hthen h ih =>
    intro c' items marks hcode hc
    cases hcode with
    | @ifElse _ c₁ _ _ _ _ _ _ _ _ _ _ hb hb' =>
      have hgen : genStmtPhrase (.stmt (.block nodes)) (c.withLabels (c.labelCount + 2)) = .ok r :=
        hthen
      have hctx := hb.ctx_eq hgen
      rw [hctx] at ih
      refine (ih hb' (hb.slotted (hc.withLabels _)).1).mono ?_
      -- the other branch gave its slots back
      have hback : c₁.curOffset = c.curOffset := hb.budget.2.2.2 nodes rfl
      simp only [StmtPhrase.bytes, countLocals, hback]
      omega
  | head h ih =>
    intro c' items marks hcode hc
    cases hcode with
    | cons hs hn =>
      refine (ih hs hc).mono ?_
      simp only [StmtPhrase.bytes, countLocalsList]
      omega
  | @tail c d s₀ s nodes r hhead h ih =>
    intro c' items marks hcode hc
    cases hcode with
    | cons hs hn =>
      have hgen : genStmtPhrase (.stmt s₀) c = .ok r := hhead
      have hctx := hs.ctx_eq hgen
      rw [hctx] at ih
      refine (ih hn (hs.slotted hc).1).mono ?_
      have hspent := hs.budget.1
      simp only [StmtPhrase.bytes, countLocalsList] at *
      omega

/-! ## Declarations -/

/-- `define_local` takes the next slot, and the slots stay apart. -/
theorem AsmCtx.Slotted.defineLocal {frame : Nat} (h : d.Slotted) (hstk : d.scopeStk ≠ [])
    (hleft : -(frame : Int) ≤ d.curOffset - 8) (name : CString) (type : VarT) :
    ∃ r, ACompiler.defineLocal name type d = .ok r ∧
      (8 ∣ r.val.stackOffset ∧ -(frame : Int) ≤ r.val.stackOffset ∧ r.val.stackOffset ≤ -8) ∧
      r.val ∈ r.ctx.locals ∧ (r.ctx.locals.map Symbol.stackOffset).Nodup := by
  obtain ⟨hle, hmod⟩ := h.offset
  refine ⟨_, defineLocal_run name type hstk, ⟨?_, hleft, ?_⟩, ?_, ?_⟩
  · show 8 ∣ d.curOffset - 8
    omega
  · show d.curOffset - 8 ≤ -8
    omega
  · show _ ∈ (d.declare name type).locals
    rw [locals_declare hstk]
    exact List.mem_cons_self
  · exact (h.declare hstk name type).distinct

theorem StmtCode.scopeStk_of_varDecl {v : VarDecl}
    (h : StmtCode c (.stmt (.varDecl v)) c' items marks) : c.scopeStk ≠ [] := by
  cases h with
  | uninit hstk => exact hstk
  | init hstk _ => exact hstk

/-- A block gives back the scopes, the slots and the depth it was entered with. -/
theorem StmtCode.genBlock_restores {nodes : List Stmt}
    (h : StmtCode c (.stmt (.block nodes)) c' items marks) :
    ∃ r, genBlock (genStmts nodes) c = .ok r ∧ r.ctx.scopeStk = c.scopeStk ∧
      r.ctx.curOffset = c.curOffset ∧ r.ctx.pushDepth = c.pushDepth := by
  have hgen : genBlock (genStmts nodes) c = .ok ⟨(), c', items, marks⟩ := h.gen
  cases h with
  | block hn => exact ⟨_, hgen, rfl, rfl, rfl⟩

end walk

/-! ## Functions -/

section functions
variable {decl : FuncDecl} {c d : AsmCtx}

theorem bodyCtx_bound (decl : FuncDecl) (c : AsmCtx) :
    -(computeFrameSize decl : Int) ≤
      (c.bodyCtx decl).curOffset - (StmtPhrase.nodes decl.block).bytes := by
  have hframe := (computeFrameSize_bounds decl).1
  rw [bodyCtx_curOffset]
  simp only [StmtPhrase.bytes]
  omega

/-- The parameters before one of at most six. -/
theorem genParams_before (hlen : decl.params.length ≤ 6) {before behind : List FuncParam}
    {p : FuncParam} (hparams : decl.params = before ++ p :: behind)
    {r : Emitted AsmCtx Item Unit} (hbefore : genParams 0 before c.funcCtx.enter = .ok r) :
    r.ctx = c.funcCtx.enter.declareParams before ∧ before.length < decl.params.length := by
  have hlt : before.length < decl.params.length := by
    rw [hparams, List.length_append, List.length_cons]
    omega
  have hrun := genParams_run before 0 (c := c.funcCtx.enter) (by simp [AsmCtx.enter]) (by omega)
  obtain rfl := Except.ok.inj (hrun.symm.trans hbefore)
  exact ⟨rfl, hlt⟩

theorem genParams_bodyCtx (hlen : decl.params.length ≤ 6) {r : Emitted AsmCtx Item Unit}
    (h : genParams 0 decl.params c.funcCtx.enter = .ok r) : r.ctx = c.bodyCtx decl := by
  have hrun := genParams_run decl.params 0 (c := c.funcCtx.enter) (by simp [AsmCtx.enter]) (by omega)
  obtain rfl := Except.ok.inj (hrun.symm.trans h)
  rfl

theorem funcCtx_slotted (hc : c.GlobalsOnly) : c.funcCtx.enter.Slotted := by
  have h : (c.bodyCtx ⟨[], ⟨.lit .litByte, false, 0⟩, [], []⟩).Slotted := bodyCtx_slotted hc
  exact h

/-- Every call of `define_local` finds the slots apart, a scope, and a slot left in the frame. -/
theorem Defines.room {name : CString} {type : VarT} {r : Emitted AsmCtx Item Unit}
    (hc : c.GlobalsOnly) (hr : genFuncDecl decl c = .ok r) (h : Defines decl c d name type) :
    d.Slotted ∧ d.scopeStk ≠ [] ∧ -(computeFrameSize decl : Int) ≤ d.curOffset - 8 := by
  obtain ⟨hlen, c', body, hcode, _⟩ := genFuncDecl_eq_ok hr
  cases h with
  | @param before behind p r₁ hparams hbefore =>
    obtain ⟨hctx, hlt⟩ := genParams_before hlen hparams hbefore
    rw [hctx]
    have hstk : c.funcCtx.enter.scopeStk ≠ [] := by simp [AsmCtx.enter]
    refine ⟨(funcCtx_slotted hc).declareParams before hstk, ?_, ?_⟩
    · obtain ⟨_, _, _, _, hcons, _⟩ := (declareParams_extends before c.funcCtx.enter).scopeStk hstk
      rw [hcons]
      simp
    · have hframe := (computeFrameSize_bounds decl).1
      rw [declareParams_curOffset before hstk]
      simp only [AsmCtx.enter, AsmCtx.funcCtx]
      omega
  | @body d v r₁ hparams hvisit =>
    rw [genParams_bodyCtx hlen hparams] at hvisit
    obtain ⟨⟨_, _, _, hdecl⟩, hslotted, hleft⟩ := hvisit.room hcode (bodyCtx_slotted hc)
    refine ⟨hslotted, hdecl.scopeStk_of_varDecl, ?_⟩
    have hbound := bodyCtx_bound decl c
    have hbytes : countLocals (.varDecl v) = 8 := rfl
    rw [hbytes] at hleft
    exact hbound.trans hleft

theorem Program.Calls.globalsOnly {p : Program} (h : p.Calls decl c) : c.GlobalsOnly := by
  obtain ⟨before, behind, r, _, hr, rfl⟩ := h
  have hstk : dataCtx.scopeStk ≠ [] := by simp [dataCtx, AsmCtx.enter]
  have hglobals : (dataCtx.declareGlobals (globalsOf p)).locals = [] :=
    (declareGlobals_spec (globalsOf p) hstk).2.1
  unfold AsmCtx.GlobalsOnly AsmCtx.locals
  rw [genFuncs_scopeStk before hr]
  exact hglobals

/-- **The precomputed frame covers every slot**: each local gets its own multiple of eight in it, and
each block gives back what it took. -/
theorem genFuncDecl_frame {p : Program} {r : Emitted AsmCtx Item Unit} (hcall : p.Calls decl c)
    (hr : genFuncDecl decl c = .ok r) :
    computeFrameSize decl % 16 = 0 ∧
      (∀ d name type, Defines decl c d name type → ∃ sym, defineLocal name type d = .ok sym ∧
        (8 ∣ sym.val.stackOffset ∧ -(computeFrameSize decl : Int) ≤ sym.val.stackOffset ∧
          sym.val.stackOffset ≤ -8) ∧
        sym.val ∈ sym.ctx.locals ∧ (sym.ctx.locals.map Symbol.stackOffset).Nodup) ∧
      ∀ r₀ d nodes, genParams 0 decl.params c.funcCtx.enter = .ok r₀ →
        Visits r₀.ctx (.nodes decl.block) d (.block nodes) →
          ∃ r₁, genBlock (genStmts nodes) d = .ok r₁ ∧ r₁.ctx.scopeStk = d.scopeStk ∧
            r₁.ctx.curOffset = d.curOffset ∧ r₁.ctx.pushDepth = d.pushDepth := by
  have hc := hcall.globalsOnly
  refine ⟨(computeFrameSize_bounds decl).2, fun d name type h => ?_, fun r₀ d nodes hr₀ h => ?_⟩
  · obtain ⟨hslotted, hstk, hleft⟩ := h.room hc hr
    exact hslotted.defineLocal hstk hleft name type
  · obtain ⟨hlen, c', body, hcode, _⟩ := genFuncDecl_eq_ok hr
    rw [genParams_bodyCtx hlen hr₀] at h
    obtain ⟨⟨_, _, _, hblock⟩, _, _⟩ := h.room hcode (bodyCtx_slotted hc)
    exact hblock.genBlock_restores

end functions

/-- `fn f(QWORD a) QWORD { { let QWORD b; } let QWORD a; }`. -/
def framedFunc : FuncDecl :=
  ⟨ascii "f", ⟨.lit .litQword, false, 0⟩, [⟨ascii "a", ⟨.lit .litQword, false, 0⟩⟩],
    [.block [.varDecl ⟨ascii "b", ⟨.lit .litQword, false, 0⟩, none⟩],
      .varDecl ⟨ascii "a", ⟨.lit .litQword, false, 0⟩, none⟩]⟩

theorem genFuncDecl_frame_framedFunc :
    computeFrameSize framedFunc % 16 = 0 ∧ ∃ sym,
      defineLocal (ascii "a") ⟨.lit .litQword, false, 0⟩
        (Program.textCtx [.funcDecl framedFunc]).funcCtx.enter = .ok sym ∧
        (8 ∣ sym.val.stackOffset ∧ -(computeFrameSize framedFunc : Int) ≤ sym.val.stackOffset ∧
          sym.val.stackOffset ≤ -8) ∧
        sym.val ∈ sym.ctx.locals ∧ (sym.ctx.locals.map Symbol.stackOffset).Nodup := by
  have hstk := bodyCtx_scopeStk framedFunc (Program.textCtx [.funcDecl framedFunc])
  have hrun := @genFuncDecl_run framedFunc (Program.textCtx [.funcDecl framedFunc]) _ _ _ (by decide)
    (.cons (.block (.cons (.uninit (by simp [AsmCtx.enter])) .nil)) (.cons (.uninit hstk) .nil))
  obtain ⟨hmod, hdefines, _⟩ := genFuncDecl_frame ⟨[], [], _, rfl, rfl, rfl⟩ hrun
  refine ⟨hmod, hdefines _ _ _ ?_⟩
  have hfirst : genParams 0 [] (Program.textCtx [.funcDecl framedFunc]).funcCtx.enter =
      .ok ⟨(), (Program.textCtx [.funcDecl framedFunc]).funcCtx.enter, [], []⟩ := rfl
  exact @Defines.param framedFunc _ [] [] ⟨ascii "a", ⟨.lit .litQword, false, 0⟩⟩ _ rfl hfirst

end ACompiler
