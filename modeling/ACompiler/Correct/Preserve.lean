import ACompiler.Correct.Labels
import ACompiler.Correct.Prologue
import ACompiler.Correct.Represent

/-!
# Statements

The code of a statement does what the interpreter does with it: it runs on to the lines behind it in
a state that holds the new store, or it jumps to the epilogue with the result in `%rax`
(`StmtCode.simulates`).
-/

namespace ACompiler

open Lib (Word Mem)
open Lib.Mem (load64 store64 InCell Apart)

/-! ## Room for temporaries -/

mutual

/-- A bound on the words a statement has on the stack at once. -/
def stmtNeed : Stmt → Nat
  | .block nodes => stmtsNeed nodes
  | .ifStmt cond thenBranch none => max (exprNeed cond) (stmtsNeed thenBranch)
  | .ifStmt cond thenBranch (some elseBranch) =>
    max (exprNeed cond) (max (stmtsNeed thenBranch) (stmtsNeed elseBranch))
  | .returnStmt returnVal => exprNeed returnVal
  | .comment _ => 0
  | .varDecl ⟨_, _, none⟩ => 0
  | .varDecl ⟨_, _, some assign⟩ => exprNeed assign
  | .expr e => exprNeed e

def stmtsNeed : List Stmt → Nat
  | [] => 0
  | node :: nodes => max (stmtNeed node) (stmtsNeed nodes)

end

def StmtPhrase.need : StmtPhrase → Nat
  | .stmt s => stmtNeed s
  | .nodes ss => stmtsNeed ss

def execPhrase : StmtPhrase → Store → Option (Outcome × Store)
  | .stmt s => execStmt s
  | .nodes ss => execStmts ss

/-! ## Contexts of a body -/

/-- A context in the body of a function whose epilogue is at label `n`, with `bytes` of the frame
still to be given out. -/
structure InBody (gs : List CString) (frame n : Nat) (c : AsmCtx) (bytes : Nat) : Prop where
  names : c.Over gs
  slots : c.Slotted
  budget : -(frame : Int) ≤ c.curOffset - bytes
  stk : c.scopeStk ≠ []
  label : c.epilogueLabel = some n

/-- A statement adds locals in front. -/
theorem StmtCode.locals_suffix {c c' : AsmCtx} {p : StmtPhrase} {items : List Item}
    {marks : List AsmCtx} (h : StmtCode c p c' items marks) :
    ∃ extra, c'.locals = extra ++ c.locals := by
  induction h with
  | uninit hstk => exact ⟨[_], locals_declare hstk _ _⟩
  | init hstk _ => exact ⟨[_], locals_declare hstk _ _⟩
  | ifThen _ _ ih => exact ih
  | ifElse _ _ _ ih ih' =>
    obtain ⟨extra, h₁⟩ := ih
    obtain ⟨extra', h₂⟩ := ih'
    exact ⟨extra' ++ extra, by rw [h₂, h₁, List.append_assoc]; rfl⟩
  | cons _ _ ih ih' =>
    obtain ⟨extra, h₁⟩ := ih
    obtain ⟨extra', h₂⟩ := ih'
    exact ⟨extra' ++ extra, by rw [h₂, h₁, List.append_assoc]⟩
  | _ => exact ⟨[], rfl⟩

theorem StmtCode.overGlobals {gs : List CString} {c c' : AsmCtx} {p : StmtPhrase} {items : List Item}
    {marks : List AsmCtx} (h : StmtCode c p c' items marks) : c.Over gs → c'.Over gs := by
  induction h with
  | uninit hstk => exact fun hc => hc.declare hstk _ _
  | init hstk _ => exact fun hc => hc.declare hstk _ _
  | ifThen _ _ ih => exact fun hc => ih ⟨hc.locals, hc.globals, hc.others⟩
  | ifElse _ _ _ ih ih' => exact fun hc => ih' (ih ⟨hc.locals, hc.globals, hc.others⟩)
  | block _ _ => exact fun hc => ⟨hc.locals, hc.globals, hc.others⟩
  | cons _ _ ih ih' => exact fun hc => ih' (ih hc)
  | _ => exact id

section body
variable {gs : List CString} {frame n : Nat} {c c' : AsmCtx} {bytes rest : Nat}

theorem InBody.mono (h : InBody gs frame n c bytes) (hle : rest ≤ bytes) :
    InBody gs frame n c rest :=
  ⟨h.names, h.slots, by have := h.budget; omega, h.stk, h.label⟩

theorem InBody.scoped (h : InBody gs frame n c bytes) : Scoped gs frame c :=
  ⟨h.names, h.slots, by have := h.budget; omega⟩

theorem InBody.withLabels (h : InBody gs frame n c bytes) (m : Nat) :
    InBody gs frame n (c.withLabels m) bytes :=
  ⟨⟨h.names.locals, h.names.globals, h.names.others⟩, h.slots.withLabels m, h.budget, h.stk, h.label⟩

theorem InBody.enter (h : InBody gs frame n c bytes) : InBody gs frame n c.enter bytes :=
  ⟨h.names.enter, h.slots.enter, h.budget, by simp [AsmCtx.enter], h.label⟩

/-- A declaration takes eight bytes. -/
theorem InBody.declare (h : InBody gs frame n c (8 + rest)) (name : CString) (type : VarT) :
    InBody gs frame n (c.declare name type) rest := by
  have hbudget := h.budget
  refine ⟨h.names.declare h.stk name type, h.slots.declare h.stk name type, ?_,
    declare_scopeStk name type h.stk, (AsmCtx.extends_declare c name type).epilogueLabel.trans h.label⟩
  rw [declare_curOffset name type h.stk]
  push_cast at hbudget
  omega

/-- Behind a statement the bytes it counts are given out. -/
theorem InBody.stmt {s : Stmt} {items : List Item} {marks : List AsmCtx}
    (h : InBody gs frame n c (countLocals s + rest)) (hs : StmtCode c (.stmt s) c' items marks) :
    InBody gs frame n c' rest := by
  obtain ⟨_, _, _, _, hstk, _⟩ := hs.extends.scopeStk h.stk
  have hbudget := h.budget
  have hle := hs.budget.1
  simp only [StmtPhrase.bytes] at hle
  push_cast at hbudget
  exact ⟨hs.overGlobals h.names, (hs.slotted h.slots).1, by omega, by rw [hstk]; simp,
    hs.extends.epilogueLabel.trans h.label⟩

end body

/-! ## The simulation -/

section simulation
variable {W : World} {prog kepi : List Line} {gs : List CString} {base : Word} {frame lo n : Nat}
  {M : Mem}

/-- Where a statement ends: behind its code with the new store, or at the epilogue with the result
in `%rax`. -/
def Ends (W : World) (prog kepi : List Line) (gs : List CString) (base : Word) (frame : Nat)
    (M : Mem) (c' : AsmCtx) (σ' : Store) (start : Config) (k : List Line) : Outcome → Prop
  | .normal => ∃ s', Steps W prog start ⟨s', k⟩ ∧ Sim W.sym gs base frame M c' σ' s'
  | .returned v => ∃ s' c'' σ'', Steps W prog start ⟨s', kepi⟩ ∧ s'.regs .rax = v ∧
      Sim W.sym gs base frame M c'' σ'' s' ∧ σ''.globals = σ'.globals

theorem Ends.head {c' : AsmCtx} {σ' : Store} {start mid : Config} {k : List Line} {o : Outcome}
    (h : Steps W prog start mid) (h' : Ends W prog kepi gs base frame M c' σ' mid k o) :
    Ends W prog kepi gs base frame M c' σ' start k o := by
  cases o with
  | normal =>
    obtain ⟨s', hsteps, hs'⟩ := h'
    exact ⟨s', h.trans hsteps, hs'⟩
  | returned v =>
    obtain ⟨s', c'', σ'', hsteps, hs'⟩ := h'
    exact ⟨s', c'', σ'', h.trans hsteps, hs'⟩

/-- Code simulates a phrase. -/
def Simulates (W : World) (prog kepi : List Line) (gs : List CString) (base : Word)
    (frame lo n : Nat) (M : Mem) (c : AsmCtx) (p : StmtPhrase) (c' : AsmCtx) (items : List Item) :
    Prop :=
  ∀ {σ σ' : Store} {o : Outcome} {s : State} {k : List Line}, InBody gs frame n c p.bytes →
    lo + 8 * p.need + frame ≤ base.toNat → execPhrase p σ = some (o, σ') →
      Sim W.sym gs base frame M c σ s → Resolves prog (codeOf items) k →
        Ends W prog kepi gs base frame M c' σ' ⟨s, codeOf items ++ k⟩ k o

theorem Sim.declare {c : AsmCtx} {σ : Store} {s : State} (h : Sim W.sym gs base frame M c σ s)
    (hstk : c.scopeStk ≠ []) (name : CString) (type : VarT) :
    Sim W.sym gs base frame M (c.declare name type) (σ.declare name) s := by
  refine ⟨⟨?_, h.rep.globals⟩, h.rbp, h.rsp, h.above⟩
  rw [locals_declare hstk]
  exact .cons ⟨rfl, by simp⟩ h.rep.locals

theorem Sim.congr {c c' : AsmCtx} {σ : Store} {s : State} (h : Sim W.sym gs base frame M c σ s)
    (hlocals : c'.locals = c.locals) : Sim W.sym gs base frame M c' σ s := by
  refine ⟨⟨?_, h.rep.globals⟩, h.rbp, h.rsp, h.above⟩
  rw [hlocals]
  exact h.rep.locals

/-- Leaving a block drops its variables. -/
theorem Sim.leave {c c' c'' : AsmCtx} {σ σ' : Store} {s s' : State} {extra : List Symbol}
    (h : Sim W.sym gs base frame M c σ s) (h' : Sim W.sym gs base frame M c' σ' s')
    (hlocals : c'.locals = extra ++ c.locals) (hc'' : c''.locals = c.locals) :
    Sim W.sym gs base frame M c'' (σ'.leave σ) s' := by
  have hlen := h.rep.locals.length_eq
  have hlen' := h'.rep.locals.length_eq
  rw [hlocals, List.length_append] at hlen'
  have hdrop : σ'.locals.length - σ.locals.length = extra.length := by omega
  refine ⟨⟨?_, h'.rep.globals⟩, h'.rbp, h'.rsp, h'.above⟩
  have hrel := List.forall₂_drop extra.length h'.rep.locals
  rw [hlocals, List.drop_left] at hrel
  rw [hc'', Store.leave, hdrop]
  exact hrel

theorem simulates_block {c c' : AsmCtx} {nodes : List Stmt} {items : List Item}
    {marks : List AsmCtx} (hcode : StmtCode c.enter (.nodes nodes) c' items marks)
    (ih : Simulates W prog kepi gs base frame lo n M c.enter (.nodes nodes) c' items) :
    Simulates W prog kepi gs base frame lo n M c (.stmt (.block nodes))
      (c.withLabels c'.labelCount) items := by
  intro σ σ' o s k hc hroom hexec hs hres
  simp only [execPhrase, execStmt, Option.bind_eq_bind, Option.bind_eq_some_iff] at hexec
  obtain ⟨⟨o', σ₁⟩, hnodes, heq⟩ := hexec
  obtain ⟨rfl, rfl⟩ := Prod.mk.inj (Option.some.inj heq)
  have hend := ih hc.enter hroom hnodes (hs.congr (locals_enter c)) hres
  obtain ⟨extra, hlocals⟩ := hcode.locals_suffix
  rw [locals_enter] at hlocals
  cases o' with
  | normal =>
    obtain ⟨s', hsteps, hs'⟩ := hend
    exact ⟨s', hsteps, hs.leave hs' hlocals rfl⟩
  | returned v =>
    obtain ⟨s', c'', σ'', hsteps, hrax, hs', hglobals⟩ := hend
    exact ⟨s', c'', σ'', hsteps, hrax, hs', hglobals⟩

theorem simulates_return {c : AsmCtx} {e : Expr} {m : Nat} {items : List Item}
    (hl : Layout W.sym gs base frame lo) (hepi : findLabel n prog = some kepi)
    (he : ExprCode c (.expr e) items) (hm : c.epilogueLabel = some m) :
    Simulates W prog kepi gs base frame lo n M c (.stmt (.returnStmt e)) c
      (items ++ [c.item (.jmp m)]) := by
  intro σ σ' o s k hc hroom hexec hs _
  obtain rfl := Option.some.inj (hm.symm.trans hc.label)
  simp only [execPhrase, execStmt, Option.bind_eq_bind, Option.bind_eq_some_iff] at hexec
  obtain ⟨⟨v, σ₁⟩, heval, heq⟩ := hexec
  obtain ⟨rfl, rfl⟩ := Prod.mk.inj (Option.some.inj heq)
  obtain ⟨s', hrun, hrax, hs'⟩ := exec_expr hl hc.scoped he hs heval hroom
  refine ⟨s', c, σ₁, ?_, hrax, hs', rfl⟩
  rw [codeOf_append, List.append_assoc]
  exact (hrun.steps _).trans (.single (.jmp hepi))

/-- The store of an initialiser. -/
theorem Sim.store {c : AsmCtx} {σ σ' : Store} {s : State} {v : Symbol} {x : CString} {w : Word}
    (hl : Layout W.sym gs base frame lo) (hc : Scoped gs frame c)
    (h : Sim W.sym gs base frame M c σ s) (hwrite : σ.write x w = some σ')
    (hv : findSymbol c x = some v) (hg : v.isGlobal = false) :
    Sim W.sym gs base frame M c σ' (s.store (base + BitVec.ofInt 64 v.stackOffset) w) := by
  obtain ⟨a, ha, hrep⟩ := h.rep.write hl hc hwrite
  have haddr : a = base + BitVec.ofInt 64 v.stackOffset := by
    simpa [addrOf, hv, hg] using ha.symm
  subst haddr
  refine ⟨hrep, h.rbp, h.rsp, fun x hx hnone => ?_⟩
  have hbottom := hl.bottom_le hc
  have hmem := findSymbol_mem_locals hv hg
  obtain ⟨_, hhigh, _⟩ := hc.slots.bounds v hmem
  have hcell : ¬ InCell (slotAddr base v) x := by
    rw [inCell_slot hc.slots (by omega) hmem]
    omega
  show store64 s.mem (slotAddr base v) w x = M x
  rw [Lib.Mem.store64_of_not_inCell hcell]
  exact h.above x hx hnone

theorem simulates_init {c : AsmCtx} {name : CString} {type : VarT} {e : Expr} {items : List Item}
    (hl : Layout W.sym gs base frame lo) (hstk : c.scopeStk ≠ [])
    (he : ExprCode (c.declare name type) (.expr e) items) :
    Simulates W prog kepi gs base frame lo n M c (.stmt (.varDecl ⟨name, type, some e⟩))
      (c.declare name type)
      (items ++ [c.item (.mov (.reg .rax) (.mem .rbp (c.curOffset - 8)))]) := by
  intro σ σ' o s k hc hroom hexec hs _
  simp only [execPhrase, execStmt, Option.bind_eq_bind, Option.bind_eq_some_iff] at hexec
  obtain ⟨⟨v, σ₁⟩, heval, σ₂, hwrite, heq⟩ := hexec
  obtain ⟨rfl, rfl⟩ := Prod.mk.inj (Option.some.inj heq)
  have hc₀ : InBody gs frame n c (8 + 0) := hc
  have hc' := hc₀.declare name type
  obtain ⟨s', hrun, hrax, hs'⟩ := exec_expr hl hc'.scoped he (hs.declare hstk name type) heval hroom
  have hfind : findSymbol (c.declare name type) name =
      some ⟨name, c.curOffset - 8, type, false⟩ := by
    rw [findSymbol_declare hstk, if_pos rfl]
  have hend := hs'.store hl hc'.scoped hwrite hfind rfl
  refine ⟨_, ?_, hend⟩
  rw [codeOf_append, List.append_assoc, ← hs'.rbp, ← hrax]
  exact (hrun.steps _).trans (.single (.instr rfl))

/-- The test of an `if`: past it where the condition is not zero, and to the label where it is. -/
theorem steps_test {c : AsmCtx} (c₁ : AsmCtx) (k : List Line) {cond : Expr} {items : List Item}
    {σ σ₁ : Store} {s : State} {v : Word} {m : Nat} {kelse : List Line} (hl : Layout W.sym gs base frame lo)
    (hc : Scoped gs frame c) (hcode : ExprCode c (.expr cond) items)
    (hs : Sim W.sym gs base frame M c σ s) (heval : evalExpr cond σ = some (v, σ₁))
    (hroom : lo + 8 * exprNeed cond + frame ≤ base.toNat) (helse : findLabel m prog = some kelse) :
    ∃ s', Steps W prog ⟨s, codeOf (items ++ c₁.itemsOf [.cmp (.imm 0) (.reg .rax), .je m]) ++ k⟩
      ⟨s', if v ≠ 0 then k else kelse⟩ ∧ Sim W.sym gs base frame M c σ₁ s' := by
  obtain ⟨s', hrun, hrax, hs'⟩ := exec_expr hl hc hcode hs heval hroom
  have hcmp : execInstr W.sym s' (.cmp (.imm 0) (.reg .rax)) =
      some { s' with flags := some (s'.regs .rax, 0) } := rfl
  refine ⟨{ s' with flags := some (s'.regs .rax, 0) }, ?_, hs'.rep, hs'.rbp, hs'.rsp, hs'.above⟩
  rw [codeOf_append, List.append_assoc, codeOf_itemsOf]
  refine (hrun.steps _).trans (.head (.instr hcmp) (.single ?_))
  by_cases hv : v = 0
  · rw [if_neg (not_not.mpr hv)]
    exact .jeTaken (a := 0) (by rw [hrax, hv]) helse
  · rw [if_pos hv]
    exact .jePassed (a := v) (b := 0) (by rw [hrax]) hv

theorem simulates_ifThen {c c' : AsmCtx} {cond : Expr} {nodes : List Stmt}
    {items items' : List Item} (hl : Layout W.sym gs base frame lo)
    (hcond : ExprCode (c.withLabels (c.labelCount + 2)) (.expr cond) items)
    (ih : Simulates W prog kepi gs base frame lo n M (c.withLabels (c.labelCount + 2))
      (.stmt (.block nodes)) c' items') (hlocals : c'.locals = c.locals) :
    Simulates W prog kepi gs base frame lo n M c (.stmt (.ifStmt cond nodes none)) c'
      (items ++ c.itemsOf [.cmp (.imm 0) (.reg .rax), .je c.labelCount] ++ items' ++
        [c.item (.jmp (c.labelCount + 1)), ⟨0, c.pushDepth, .label c.labelCount⟩,
          ⟨0, c.pushDepth, .label (c.labelCount + 1)⟩]) := by
  intro σ σ' o s k hc hroom hexec hs hres
  simp only [StmtPhrase.need, stmtNeed] at hroom
  simp only [execPhrase, execStmt, Option.bind_eq_bind, Option.bind_eq_some_iff] at hexec
  obtain ⟨⟨v, σ₁⟩, heval, hbranch⟩ := hexec
  rw [codeOf_append, codeOf_append] at hres ⊢
  -- where the two labels lead
  have helse : findLabel c.labelCount prog = some (.label (c.labelCount + 1) :: k) :=
    hres.right _ [.instr (.jmp (c.labelCount + 1))] _ rfl
  have hend : findLabel (c.labelCount + 1) prog = some k :=
    hres.right _ [.instr (.jmp (c.labelCount + 1)), .label c.labelCount] [] rfl
  obtain ⟨s₁, htest, hs₁⟩ := steps_test c (codeOf items' ++
    (.instr (.jmp (c.labelCount + 1)) :: .label c.labelCount :: .label (c.labelCount + 1) :: k))
    hl (hc.withLabels _).scoped hcond (hs.congr rfl) heval (by omega) helse
  rw [List.append_assoc, List.append_assoc]
  refine .head htest ?_
  by_cases hv : v = 0
  · simp only [hv, ne_eq, not_true_eq_false, if_false] at hbranch ⊢
    obtain ⟨rfl, rfl⟩ := Prod.mk.inj (Option.some.inj hbranch)
    exact ⟨s₁, .single (.mark rfl), hs₁.congr hlocals⟩
  · simp only [hv, ne_eq, not_false_eq_true, if_true] at hbranch ⊢
    have hthen : Ends W prog kepi gs base frame M c' σ' _ _ o := ih (hc.withLabels _) (by
      simp only [StmtPhrase.need, stmtNeed]; omega) hbranch hs₁ hres.left.right
    cases o with
    | normal =>
      obtain ⟨s₂, hsteps, hs₂⟩ := hthen
      exact ⟨s₂, hsteps.trans (.single (.jmp hend)), hs₂⟩
    | returned w => exact hthen

theorem simulates_ifElse {c c' c'' : AsmCtx} {cond : Expr} {nodes nodes' : List Stmt}
    {items items' items'' : List Item} (hl : Layout W.sym gs base frame lo)
    (hcond : ExprCode (c.withLabels (c.labelCount + 2)) (.expr cond) items)
    (ih : Simulates W prog kepi gs base frame lo n M (c.withLabels (c.labelCount + 2))
      (.stmt (.block nodes)) c' items')
    (ih' : Simulates W prog kepi gs base frame lo n M c' (.stmt (.block nodes')) c'' items'')
    (hbody : ∀ bytes, InBody gs frame n c bytes → InBody gs frame n c' bytes)
    (hlocals : c'.locals = c.locals) (hlocals' : c''.locals = c'.locals) :
    Simulates W prog kepi gs base frame lo n M c (.stmt (.ifStmt cond nodes (some nodes'))) c''
      (items ++ c.itemsOf [.cmp (.imm 0) (.reg .rax), .je c.labelCount] ++ items' ++
        [c.item (.jmp (c.labelCount + 1)), ⟨0, c.pushDepth, .label c.labelCount⟩] ++ items'' ++
        [⟨0, c.pushDepth, .label (c.labelCount + 1)⟩]) := by
  intro σ σ' o s k hc hroom hexec hs hres
  simp only [StmtPhrase.need, stmtNeed] at hroom
  simp only [execPhrase, execStmt, Option.bind_eq_bind, Option.bind_eq_some_iff] at hexec
  obtain ⟨⟨v, σ₁⟩, heval, hbranch⟩ := hexec
  rw [codeOf_append, codeOf_append, codeOf_append, codeOf_append] at hres ⊢
  have helse : findLabel c.labelCount prog =
      some (codeOf items'' ++ (.label (c.labelCount + 1) :: k)) :=
    hres.left.left.right _ [.instr (.jmp (c.labelCount + 1))] [] rfl
  have hend : findLabel (c.labelCount + 1) prog = some k := hres.right _ [] [] rfl
  obtain ⟨s₁, htest, hs₁⟩ := steps_test c (codeOf items' ++
    (.instr (.jmp (c.labelCount + 1)) :: .label c.labelCount ::
      (codeOf items'' ++ (.label (c.labelCount + 1) :: k))))
    hl (hc.withLabels _).scoped hcond (hs.congr rfl) heval (by omega) helse
  simp only [List.append_assoc]
  refine .head htest ?_
  have hbytes : StmtPhrase.bytes (.stmt (.ifStmt cond nodes (some nodes'))) =
      countLocalsList nodes + countLocalsList nodes' := rfl
  rw [hbytes] at hc
  by_cases hv : v = 0
  · simp only [hv, ne_eq, not_true_eq_false, if_false] at hbranch ⊢
    have helse : Ends W prog kepi gs base frame M c'' σ' _ _ o := ih'
      (hbody _ (hc.mono (by simp [StmtPhrase.bytes, countLocals])))
      (by simp only [StmtPhrase.need, stmtNeed]; omega) hbranch (hs₁.congr hlocals) hres.left.right
    cases o with
    | normal =>
      obtain ⟨s₂, hsteps, hs₂⟩ := helse
      exact ⟨s₂, hsteps.trans (.single (.mark rfl)), hs₂⟩
    | returned w => exact helse
  · simp only [hv, ne_eq, not_false_eq_true, if_true] at hbranch ⊢
    have hthen : Ends W prog kepi gs base frame M c' σ' _ _ o := ih
      ((hc.mono (by simp [StmtPhrase.bytes, countLocals])).withLabels _)
      (by simp only [StmtPhrase.need, stmtNeed]; omega) hbranch hs₁
      hres.left.left.left.right
    cases o with
    | normal =>
      obtain ⟨s₂, hsteps, hs₂⟩ := hthen
      exact ⟨s₂, hsteps.trans (.single (.jmp hend)), hs₂.congr hlocals'⟩
    | returned w => exact hthen

theorem simulates_cons {c c' c'' : AsmCtx} {node : Stmt} {nodes : List Stmt}
    {items items' : List Item} {marks : List AsmCtx}
    (hnode : StmtCode c (.stmt node) c' items marks)
    (ih : Simulates W prog kepi gs base frame lo n M c (.stmt node) c' items)
    (ih' : Simulates W prog kepi gs base frame lo n M c' (.nodes nodes) c'' items') :
    Simulates W prog kepi gs base frame lo n M c (.nodes (node :: nodes)) c'' (items ++ items') := by
  intro σ σ' o s k hc hroom hexec hs hres
  simp only [StmtPhrase.need, stmtsNeed] at hroom
  simp only [execPhrase, execStmts, Option.bind_eq_bind, Option.bind_eq_some_iff] at hexec
  obtain ⟨⟨o₁, σ₁⟩, hfirst, hrest⟩ := hexec
  rw [codeOf_append] at hres ⊢
  rw [List.append_assoc]
  have hc : InBody gs frame n c (countLocals node + countLocalsList nodes) := hc
  have hend := ih (hc.mono (Nat.le_add_right _ _)) (by simp only [StmtPhrase.need]; omega) hfirst hs
    hres.left
  cases o₁ with
  | normal =>
    obtain ⟨s₁, hsteps, hs₁⟩ := hend
    exact .head hsteps (ih' (hc.stmt hnode) (by simp only [StmtPhrase.need]; omega) hrest hs₁
      hres.right)
  | returned v =>
    obtain ⟨rfl, rfl⟩ := Prod.mk.inj (Option.some.inj hrest)
    obtain ⟨s₁, c₁, σ₂, hsteps, hrax, hs₁, hglobals⟩ := hend
    exact ⟨s₁, c₁, σ₂, hsteps, hrax, hs₁, hglobals⟩

/-- A block, and so each branch of an `if`, leaves the context but for its labels. -/
theorem StmtCode.of_block {c c' : AsmCtx} {nodes : List Stmt} {items : List Item}
    {marks : List AsmCtx} (h : StmtCode c (.stmt (.block nodes)) c' items marks) :
    ∃ m, c' = c.withLabels m := by
  cases h with
  | block _ => exact ⟨_, rfl⟩

/-- **The code of a statement does what the interpreter does.** -/
theorem StmtCode.simulates {c c' : AsmCtx} {p : StmtPhrase} {items : List Item}
    {marks : List AsmCtx} (hl : Layout W.sym gs base frame lo) (hepi : findLabel n prog = some kepi)
    (h : StmtCode c p c' items marks) :
    Simulates W prog kepi gs base frame lo n M c p c' items := by
  induction h with
  | comment =>
    intro σ σ' o s k _ _ hexec hs _
    obtain ⟨rfl, rfl⟩ := Prod.mk.inj (Option.some.inj hexec)
    exact ⟨s, .refl, hs⟩
  | expr he =>
    intro σ σ' o s k hc hroom hexec hs _
    simp only [execPhrase, execStmt, Option.bind_eq_bind, Option.bind_eq_some_iff] at hexec
    obtain ⟨⟨v, σ₁⟩, heval, heq⟩ := hexec
    obtain ⟨rfl, rfl⟩ := Prod.mk.inj (Option.some.inj heq)
    obtain ⟨s', hrun, _, hs'⟩ := exec_expr hl hc.scoped he hs heval hroom
    exact ⟨s', hrun.steps _, hs'⟩
  | returnStmt he hn => exact simulates_return hl hepi he hn
  | uninit hstk =>
    intro σ σ' o s k _ _ hexec hs _
    obtain ⟨rfl, rfl⟩ := Prod.mk.inj (Option.some.inj hexec)
    exact ⟨s, .refl, hs.declare hstk _ _⟩
  | init hstk he => exact simulates_init hl hstk he
  | ifThen hc hb ih =>
    obtain ⟨m, rfl⟩ := hb.of_block
    exact simulates_ifThen hl hc ih rfl
  | ifElse hc hb hb' ih ih' =>
    obtain ⟨m, rfl⟩ := hb.of_block
    obtain ⟨m', rfl⟩ := hb'.of_block
    exact simulates_ifElse hl hc ih ih' (fun _ h => (h.withLabels _).withLabels _) rfl rfl
  | block hn ih => exact simulates_block hn ih
  | nil =>
    intro σ σ' o s k _ _ hexec hs _
    obtain ⟨rfl, rfl⟩ := Prod.mk.inj (Option.some.inj hexec)
    exact ⟨s, .refl, hs⟩
  | cons hs _ ih ih' => exact simulates_cons hs ih ih'

end simulation

end ACompiler
