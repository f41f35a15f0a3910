import ACompiler.Correct.Evaluate
import ACompiler.Correct.JumpTargets

/-!
# Statements and functions of a linked program

The simulation of `Preserve` on the linked machine: the code of a statement, calls included, does what
the interpreter does with it (`StmtCode.executes`), and a function that is entered behind its label
comes back to its caller with the interpreter's result (`returns_of_entry`).
-/

namespace ACompiler

open Lib (Word Mem)
open Lib.Mem (load64 store64 InCell Apart)

def execPhraseIn (callee : Callees) : StmtPhrase → Store → Option (Outcome × Store)
  | .stmt s => execStmtIn callee s
  | .nodes ss => execStmtsIn callee ss

section linked
variable {I : Image} {prog kepi : List Line} {gs : List CString} {callee : Callees}
  {base : Word} {frame bytes lo top n : Nat} {M : Mem} {c c' c'' : AsmCtx}

/-- **The code of an expression in a body computes what the interpreter evaluates.** -/
theorem steps_expr (hserves : Serves I prog gs callee bytes lo top) (htop : base.toNat ≤ top)
    (hl : Layout I.sym gs base frame lo) (hc : Scoped gs frame c) {e : Expr} {items : List Item}
    (hcode : ExprCode c (.expr e) items) {σ σ' : Store} {s : State} {v : Word} {k : List Line}
    (hs : Sim I.sym gs base frame M c σ s) (heval : evalExprIn callee e σ = some (v, σ'))
    (hroom : lo + bytes + 8 * exprNeed e + frame ≤ base.toNat) (hk : codeOf items ++ k <:+ prog) :
    ∃ s', LinkedSteps I prog ⟨s, codeOf items ++ k⟩ ⟨s', k⟩ ∧ s'.regs .rax = v ∧
      Sim I.sym gs base frame M c σ' s' := by
  have hnat : (s.regs .rsp).toNat = base.toNat - frame := by
    have hlt := base.isLt
    rw [hs.rsp]
    bv_omega
  have heval' : evalPhraseIn callee (.expr e) σ = some ([v], σ') := by rw [evalPhraseIn, heval]; rfl
  obtain ⟨s', hrun, hs'⟩ := hcode.realises hserves htop hl hc heval' hk hs.rep hs.rbp
    (by simp only [Phrase.need]; omega) (by omega)
  have hsp : s'.regs .rsp = s.regs .rsp := by simpa [Phrase.pushes] using hs'.rsp
  refine ⟨s', hrun, (List.head_eq_of_cons_eq hs'.delivers).symm, hs'.rep, hs'.rbp,
    hsp.trans hs.rsp, fun x hx hgs => ?_⟩
  rw [hs'.keeps x (by omega) (by omega) hgs, hs.above x hx hgs]

/-! ## Statements -/

/-- Where a statement of a linked program ends. -/
def EndsIn (I : Image) (prog kepi : List Line) (gs : List CString) (base : Word) (frame : Nat)
    (M : Mem) (c' : AsmCtx) (σ' : Store) (start : Config) (k : List Line) : Outcome → Prop
  | .normal => ∃ s', LinkedSteps I prog start ⟨s', k⟩ ∧ Sim I.sym gs base frame M c' σ' s'
  | .returned v => ∃ s' c'' σ'', LinkedSteps I prog start ⟨s', kepi⟩ ∧ s'.regs .rax = v ∧
      Sim I.sym gs base frame M c'' σ'' s' ∧ σ''.globals = σ'.globals

theorem EndsIn.head {σ' : Store} {start mid : Config} {k : List Line} {o : Outcome}
    (h : LinkedSteps I prog start mid) (h' : EndsIn I prog kepi gs base frame M c' σ' mid k o) :
    EndsIn I prog kepi gs base frame M c' σ' start k o := by
  cases o with
  | normal =>
    obtain ⟨s', hsteps, hs'⟩ := h'
    exact ⟨s', h.trans hsteps, hs'⟩
  | returned v =>
    obtain ⟨s', c'', σ'', hsteps, hs'⟩ := h'
    exact ⟨s', c'', σ'', h.trans hsteps, hs'⟩

/-- Behind the code, `k` goes on to `k'`. -/
theorem EndsIn.tail {σ' : Store} {start : Config} {k k' : List Line} {o : Outcome}
    (h : EndsIn I prog kepi gs base frame M c' σ' start k o) (hlocals : c''.locals = c'.locals)
    (hk : ∀ s, LinkedSteps I prog ⟨s, k⟩ ⟨s, k'⟩) :
    EndsIn I prog kepi gs base frame M c'' σ' start k' o := by
  cases o with
  | normal =>
    obtain ⟨s', hsteps, hs'⟩ := h
    have hs'' : Sim I.world.sym gs base frame M c' σ' s' := hs'
    exact ⟨s', hsteps.trans (hk s'), hs''.congr hlocals⟩
  | returned v => exact h

/-- The code of a statement does what the interpreter does. -/
def Executes (I : Image) (prog kepi : List Line) (gs : List CString) (callee : Callees)
    (base : Word) (frame bytes lo n : Nat) (M : Mem) (c : AsmCtx) (p : StmtPhrase) (c' : AsmCtx)
    (items : List Item) : Prop :=
  ∀ {σ σ' : Store} {o : Outcome} {s : State} {k : List Line}, InBody gs frame n c p.bytes →
    lo + bytes + 8 * p.need + frame ≤ base.toNat → execPhraseIn callee p σ = some (o, σ') →
      Sim I.sym gs base frame M c σ s → Resolves prog (codeOf items) k →
        codeOf items ++ k <:+ prog →
          EndsIn I prog kepi gs base frame M c' σ' ⟨s, codeOf items ++ k⟩ k o

theorem executes_block {nodes : List Stmt} {items : List Item} {marks : List AsmCtx}
    (hcode : StmtCode c.enter (.nodes nodes) c' items marks)
    (ih : Executes I prog kepi gs callee base frame bytes lo n M c.enter (.nodes nodes) c' items) :
    Executes I prog kepi gs callee base frame bytes lo n M c (.stmt (.block nodes))
      (c.withLabels c'.labelCount) items := by
  intro σ σ' o s k hc hroom hexec hs hres hk
  simp only [execPhraseIn, execStmtIn, Option.bind_eq_bind, Option.bind_eq_some_iff] at hexec
  obtain ⟨⟨o', σ₁⟩, hnodes, heq⟩ := hexec
  obtain ⟨rfl, rfl⟩ := Prod.mk.inj (Option.some.inj heq)
  have hs₀ : Sim I.world.sym gs base frame M c σ s := hs
  have hend := ih hc.enter hroom hnodes (hs₀.congr (locals_enter c)) hres hk
  obtain ⟨extra, hlocals⟩ := hcode.locals_suffix
  rw [locals_enter] at hlocals
  cases o' with
  | normal =>
    obtain ⟨s', hsteps, hs'⟩ := hend
    have hs₁ : Sim I.world.sym gs base frame M c' σ₁ s' := hs'
    exact ⟨s', hsteps, hs₀.leave hs₁ hlocals rfl⟩
  | returned v =>
    obtain ⟨s', c'', σ'', hsteps, hrax, hs', hglobals⟩ := hend
    exact ⟨s', c'', σ'', hsteps, hrax, hs', hglobals⟩

section calls
variable (hserves : Serves I prog gs callee bytes lo top) (htop : base.toNat ≤ top)
  (hl : Layout I.sym gs base frame lo)
include hserves htop hl

theorem executes_return {e : Expr} {m : Nat} {items : List Item}
    (hepi : findLabel n prog = some kepi) (he : ExprCode c (.expr e) items)
    (hm : c.epilogueLabel = some m) :
    Executes I prog kepi gs callee base frame bytes lo n M c (.stmt (.returnStmt e)) c
      (items ++ [c.item (.jmp m)]) := by
  intro σ σ' o s k hc hroom hexec hs _ hk
  obtain rfl := Option.some.inj (hm.symm.trans hc.label)
  simp only [execPhraseIn, execStmtIn, Option.bind_eq_bind, Option.bind_eq_some_iff] at hexec
  obtain ⟨⟨v, σ₁⟩, heval, heq⟩ := hexec
  obtain ⟨rfl, rfl⟩ := Prod.mk.inj (Option.some.inj heq)
  rw [codeOf_append, List.append_assoc] at hk ⊢
  obtain ⟨s', hrun, hrax, hs'⟩ := steps_expr hserves htop hl hc.scoped he hs heval hroom hk
  exact ⟨s', c, σ₁, hrun.tail (.inner (.jmp hepi)), hrax, hs', rfl⟩

theorem executes_init {name : CString} {type : VarT} {e : Expr} {items : List Item}
    (hstk : c.scopeStk ≠ []) (he : ExprCode (c.declare name type) (.expr e) items) :
    Executes I prog kepi gs callee base frame bytes lo n M c (.stmt (.varDecl ⟨name, type, some e⟩))
      (c.declare name type)
      (items ++ [c.item (.mov (.reg .rax) (.mem .rbp (c.curOffset - 8)))]) := by
  intro σ σ' o s k hc hroom hexec hs _ hk
  simp only [execPhraseIn, execStmtIn] at hexec
  split at hexec
  · simp only [Option.bind_eq_bind, Option.bind_eq_some_iff] at hexec
    obtain ⟨⟨v, σ₁⟩, heval, σ₂, hwrite, heq⟩ := hexec
    obtain ⟨rfl, rfl⟩ := Prod.mk.inj (Option.some.inj heq)
    have hc₀ : InBody gs frame n c (8 + 0) := hc
    have hc' := hc₀.declare name type
    have hs₀ : Sim I.world.sym gs base frame M c σ s := hs
    rw [codeOf_append, List.append_assoc] at hk ⊢
    obtain ⟨s', hrun, hrax, hs'⟩ := steps_expr hserves htop hl hc'.scoped he
      (hs₀.declare hstk name type) heval hroom hk
    have hfind : findSymbol (c.declare name type) name =
        some ⟨name, c.curOffset - 8, type, false⟩ := by
      rw [findSymbol_declare hstk, if_pos rfl]
    have hs₁ : Sim I.world.sym gs base frame M (c.declare name type) σ₁ s' := hs'
    have hend := hs₁.store hl hc'.scoped hwrite hfind rfl
    refine ⟨_, ?_, hend⟩
    rw [← hs'.rbp, ← hrax]
    exact hrun.tail (.inner (.instr rfl))
  · exact absurd hexec (by simp)

/-- The test of an `if`: past it where the condition is not zero, and to the label where it is. -/
theorem linkedSteps_test (c₁ : AsmCtx) (k : List Line) {cond : Expr} {items : List Item}
    {σ σ₁ : Store} {s : State} {v : Word} {m : Nat} {kelse : List Line} (hc : Scoped gs frame c)
    (hcode : ExprCode c (.expr cond) items) (hs : Sim I.sym gs base frame M c σ s)
    (heval : evalExprIn callee cond σ = some (v, σ₁))
    (hroom : lo + bytes + 8 * exprNeed cond + frame ≤ base.toNat)
    (helse : findLabel m prog = some kelse)
    (hk : codeOf (items ++ c₁.itemsOf [.cmp (.imm 0) (.reg .rax), .je m]) ++ k <:+ prog) :
    ∃ s', LinkedSteps I prog
        ⟨s, codeOf (items ++ c₁.itemsOf [.cmp (.imm 0) (.reg .rax), .je m]) ++ k⟩
        ⟨s', if v ≠ 0 then k else kelse⟩ ∧ Sim I.sym gs base frame M c σ₁ s' := by
  rw [codeOf_append, List.append_assoc] at hk
  obtain ⟨s', hrun, hrax, hs'⟩ := steps_expr hserves htop hl hc hcode hs heval hroom hk
  have hcmp : execInstr I.sym s' (.cmp (.imm 0) (.reg .rax)) =
      some { s' with flags := some (s'.regs .rax, 0) } := rfl
  refine ⟨{ s' with flags := some (s'.regs .rax, 0) }, ?_, hs'.rep, hs'.rbp, hs'.rsp, hs'.above⟩
  rw [codeOf_append, List.append_assoc, codeOf_itemsOf]
  rw [codeOf_itemsOf] at hrun
  refine hrun.trans (.head (.inner (.instr hcmp)) (.single (.inner ?_)))
  by_cases hv : v = 0
  · rw [if_neg (not_not.mpr hv)]
    exact .jeTaken (a := 0) (by rw [hrax, hv]) helse
  · rw [if_pos hv]
    exact .jePassed (a := v) (b := 0) (by rw [hrax]) hv

theorem executes_ifThen {cond : Expr} {nodes : List Stmt} {items items' : List Item}
    (hcond : ExprCode (c.withLabels (c.labelCount + 2)) (.expr cond) items)
    (ih : Executes I prog kepi gs callee base frame bytes lo n M (c.withLabels (c.labelCount + 2))
      (.stmt (.block nodes)) c' items') (hlocals : c'.locals = c.locals) :
    Executes I prog kepi gs callee base frame bytes lo n M c (.stmt (.ifStmt cond nodes none)) c'
      (items ++ c.itemsOf [.cmp (.imm 0) (.reg .rax), .je c.labelCount] ++ items' ++
        [c.item (.jmp (c.labelCount + 1)), ⟨0, c.pushDepth, .label c.labelCount⟩,
          ⟨0, c.pushDepth, .label (c.labelCount + 1)⟩]) := by
  intro σ σ' o s k hc hroom hexec hs hres hk
  simp only [StmtPhrase.need, stmtNeed] at hroom
  simp only [execPhraseIn, execStmtIn, Option.bind_eq_bind, Option.bind_eq_some_iff] at hexec
  obtain ⟨⟨v, σ₁⟩, heval, hbranch⟩ := hexec
  have hs₀ : Sim I.world.sym gs base frame M c σ s := hs
  rw [codeOf_append, codeOf_append] at hres hk ⊢
  -- where the two labels lead
  have helse : findLabel c.labelCount prog = some (.label (c.labelCount + 1) :: k) :=
    hres.right _ [.instr (.jmp (c.labelCount + 1))] _ rfl
  have hend : findLabel (c.labelCount + 1) prog = some k :=
    hres.right _ [.instr (.jmp (c.labelCount + 1)), .label c.labelCount] [] rfl
  rw [List.append_assoc, List.append_assoc] at hk ⊢
  obtain ⟨s₁, htest, hs₁⟩ := linkedSteps_test hserves htop hl c (codeOf items' ++
    (.instr (.jmp (c.labelCount + 1)) :: .label c.labelCount :: .label (c.labelCount + 1) :: k))
    (hc.withLabels _).scoped hcond (hs₀.congr rfl) heval (by omega) helse hk
  refine .head htest ?_
  by_cases hv : v = 0
  · simp only [hv, ne_eq, not_true_eq_false, if_false] at hbranch ⊢
    obtain ⟨rfl, rfl⟩ := Prod.mk.inj (Option.some.inj hbranch)
    have hs₂ : Sim I.world.sym gs base frame M (c.withLabels (c.labelCount + 2)) σ₁ s₁ := hs₁
    exact ⟨s₁, .single (.inner (.mark rfl)), hs₂.congr hlocals⟩
  · simp only [hv, ne_eq, not_false_eq_true, if_true] at hbranch ⊢
    have hthen := ih (hc.withLabels _) (by simp only [StmtPhrase.need, stmtNeed]; omega)
      (show execStmtIn callee (.block nodes) σ₁ = _ from hbranch) hs₁ hres.left.right
      ((List.suffix_append _ _).trans hk)
    exact hthen.tail rfl fun _ => .single (.inner (.jmp hend))

theorem executes_ifElse {cond : Expr} {nodes nodes' : List Stmt}
    {items items' items'' : List Item}
    (hcond : ExprCode (c.withLabels (c.labelCount + 2)) (.expr cond) items)
    (ih : Executes I prog kepi gs callee base frame bytes lo n M (c.withLabels (c.labelCount + 2))
      (.stmt (.block nodes)) c' items')
    (ih' : Executes I prog kepi gs callee base frame bytes lo n M c' (.stmt (.block nodes')) c''
      items'')
    (hbody : ∀ bytes, InBody gs frame n c bytes → InBody gs frame n c' bytes)
    (hlocals : c'.locals = c.locals) (hlocals' : c''.locals = c'.locals) :
    Executes I prog kepi gs callee base frame bytes lo n M c
      (.stmt (.ifStmt cond nodes (some nodes'))) c''
      (items ++ c.itemsOf [.cmp (.imm 0) (.reg .rax), .je c.labelCount] ++ items' ++
        [c.item (.jmp (c.labelCount + 1)), ⟨0, c.pushDepth, .label c.labelCount⟩] ++ items'' ++
        [⟨0, c.pushDepth, .label (c.labelCount + 1)⟩]) := by
  intro σ σ' o s k hc hroom hexec hs hres hk
  simp only [StmtPhrase.need, stmtNeed] at hroom
  simp only [execPhraseIn, execStmtIn, Option.bind_eq_bind, Option.bind_eq_some_iff] at hexec
  obtain ⟨⟨v, σ₁⟩, heval, hbranch⟩ := hexec
  have hs₀ : Sim I.world.sym gs base frame M c σ s := hs
  rw [codeOf_append, codeOf_append, codeOf_append, codeOf_append] at hres hk ⊢
  have helse : findLabel c.labelCount prog =
      some (codeOf items'' ++ (.label (c.labelCount + 1) :: k)) :=
    hres.left.left.right _ [.instr (.jmp (c.labelCount + 1))] [] rfl
  have hend : findLabel (c.labelCount + 1) prog = some k := hres.right _ [] [] rfl
  simp only [List.append_assoc] at hk ⊢
  obtain ⟨s₁, htest, hs₁⟩ := linkedSteps_test hserves htop hl c (codeOf items' ++
    (.instr (.jmp (c.labelCount + 1)) :: .label c.labelCount ::
      (codeOf items'' ++ (.label (c.labelCount + 1) :: k))))
    (hc.withLabels _).scoped hcond (hs₀.congr rfl) heval (by omega) helse hk
  refine .head htest ?_
  have hk' := (List.suffix_append _ _).trans hk
  have hbytes : StmtPhrase.bytes (.stmt (.ifStmt cond nodes (some nodes'))) =
      countLocalsList nodes + countLocalsList nodes' := rfl
  rw [hbytes] at hc
  by_cases hv : v = 0
  · simp only [hv, ne_eq, not_true_eq_false, if_false] at hbranch ⊢
    have hs₂ : Sim I.world.sym gs base frame M (c.withLabels (c.labelCount + 2)) σ₁ s₁ := hs₁
    have helse := ih' (hbody _ (hc.mono (by simp [StmtPhrase.bytes, countLocals])))
      (by simp only [StmtPhrase.need, stmtNeed]; omega)
      (show execStmtIn callee (.block nodes') σ₁ = _ from hbranch) (hs₂.congr hlocals)
      hres.left.right ((List.suffix_append [_, _] _).trans ((List.suffix_append _ _).trans hk'))
    exact helse.tail rfl fun _ => .single (.inner (.mark rfl))
  · simp only [hv, ne_eq, not_false_eq_true, if_true] at hbranch ⊢
    have hthen := ih ((hc.mono (by simp [StmtPhrase.bytes, countLocals])).withLabels _)
      (by simp only [StmtPhrase.need, stmtNeed]; omega)
      (show execStmtIn callee (.block nodes) σ₁ = _ from hbranch) hs₁ hres.left.left.left.right hk'
    exact hthen.tail hlocals' fun _ => .single (.inner (.jmp hend))

end calls

theorem executes_cons {node : Stmt} {nodes : List Stmt} {items items' : List Item}
    {marks : List AsmCtx} (hnode : StmtCode c (.stmt node) c' items marks)
    (ih : Executes I prog kepi gs callee base frame bytes lo n M c (.stmt node) c' items)
    (ih' : Executes I prog kepi gs callee base frame bytes lo n M c' (.nodes nodes) c'' items') :
    Executes I prog kepi gs callee base frame bytes lo n M c (.nodes (node :: nodes)) c''
      (items ++ items') := by
  intro σ σ' o s k hc hroom hexec hs hres hk
  simp only [StmtPhrase.need, stmtsNeed] at hroom
  simp only [execPhraseIn, execStmtsIn, Option.bind_eq_bind, Option.bind_eq_some_iff] at hexec
  obtain ⟨⟨o₁, σ₁⟩, hfirst, hrest⟩ := hexec
  rw [codeOf_append] at hres
  rw [codeOf_append, List.append_assoc] at hk ⊢
  have hc : InBody gs frame n c (countLocals node + countLocalsList nodes) := hc
  have hend := ih (hc.mono (Nat.le_add_right _ _)) (by simp only [StmtPhrase.need]; omega) hfirst hs
    hres.left hk
  cases o₁ with
  | normal =>
    obtain ⟨s₁, hsteps, hs₁⟩ := hend
    exact .head hsteps (ih' (hc.stmt hnode) (by simp only [StmtPhrase.need]; omega) hrest hs₁
      hres.right ((List.suffix_append _ _).trans hk))
  | returned v =>
    obtain ⟨rfl, rfl⟩ := Prod.mk.inj (Option.some.inj hrest)
    obtain ⟨s₁, c₁, σ₂, hsteps, hrax, hs₁, hglobals⟩ := hend
    exact ⟨s₁, c₁, σ₂, hsteps, hrax, hs₁, hglobals⟩

/-- **The code of a statement does what the interpreter does**, calls included. -/
theorem StmtCode.executes (hserves : Serves I prog gs callee bytes lo top)
    (htop : base.toNat ≤ top) (hl : Layout I.sym gs base frame lo)
    (hepi : findLabel n prog = some kepi) {p : StmtPhrase} {items : List Item}
    {marks : List AsmCtx} (h : StmtCode c p c' items marks) :
    Executes I prog kepi gs callee base frame bytes lo n M c p c' items := by
  induction h with
  | comment =>
    intro σ σ' o s k _ _ hexec hs _ _
    obtain ⟨rfl, rfl⟩ := Prod.mk.inj (Option.some.inj hexec)
    exact ⟨s, .refl, hs⟩
  | expr he =>
    intro σ σ' o s k hc hroom hexec hs _ hk
    simp only [execPhraseIn, execStmtIn, Option.bind_eq_bind, Option.bind_eq_some_iff] at hexec
    obtain ⟨⟨v, σ₁⟩, heval, heq⟩ := hexec
    obtain ⟨rfl, rfl⟩ := Prod.mk.inj (Option.some.inj heq)
    obtain ⟨s', hrun, _, hs'⟩ := steps_expr hserves htop hl hc.scoped he hs heval hroom hk
    exact ⟨s', hrun, hs'⟩
  | returnStmt he hn => exact executes_return hserves htop hl hepi he hn
  | uninit hstk =>
    intro σ σ' o s k _ _ hexec hs _ _
    simp only [execPhraseIn, execStmtIn] at hexec
    split at hexec
    · obtain ⟨rfl, rfl⟩ := Prod.mk.inj (Option.some.inj hexec)
      have hs₀ : Sim I.world.sym gs base frame M _ σ s := hs
      exact ⟨s, .refl, hs₀.declare hstk _ _⟩
    · exact absurd hexec (by simp)
  | init hstk he => exact executes_init hserves htop hl hstk he
  | ifThen hc hb ih =>
    obtain ⟨m, rfl⟩ := hb.of_block
    exact executes_ifThen hserves htop hl hc ih rfl
  | ifElse hc hb hb' ih ih' =>
    obtain ⟨m, rfl⟩ := hb.of_block
    obtain ⟨m', rfl⟩ := hb'.of_block
    exact executes_ifElse hserves htop hl hc ih ih'
      (fun _ h => (h.withLabels _).withLabels _) rfl rfl
  | block hn ih => exact executes_block hn ih
  | nil =>
    intro σ σ' o s k _ _ hexec hs _ _
    obtain ⟨rfl, rfl⟩ := Prod.mk.inj (Option.some.inj hexec)
    exact ⟨s, .refl, hs⟩
  | cons hs _ ih ih' => exact executes_cons hs ih ih'

end linked

/-! ## Functions -/

/-- The cells of the globals meet neither each other nor the stack, which lies between `lo` and
`top`. -/
structure StackFor (sym : CString → Word) (gs : List CString) (lo top : Nat) : Prop where
  apart : ∀ x ∈ gs, ∀ y ∈ gs, x ≠ y → Apart (sym x) (sym y)
  outside : ∀ x ∈ gs, ∀ a, InCell (sym x) a → ¬ (lo ≤ a.toNat ∧ a.toNat < top)

/-- Control passes a mark. -/
theorem Steps.behind_mark {W : World} {prog : List Line} {s s' : State} {l : Line}
    {k k' : List Line} (hl : l.isMark = true) (hlen : k'.length ≤ k.length)
    (h : Steps W prog ⟨s, l :: k⟩ ⟨s', k'⟩) : Steps W prog ⟨s, k⟩ ⟨s', k'⟩ := by
  rcases h.cases_head with heq | ⟨mid, hstep, hrest⟩
  · obtain ⟨-, rfl⟩ := Config.mk.inj heq
    rw [List.length_cons] at hlen
    omega
  · cases hstep with
    | mark _ => exact hrest
    | _ => exact absurd hl (by simp [Line.isMark])

section function
variable {I : Image} {prog : List Line} {gs : List CString} {callee : Callees}
  {bytes lo top : Nat} {decl : FuncDecl} {c c' : AsmCtx} {body : List Item} {marks : List AsmCtx}

/-- The function stands in the program. -/
structure Stands (decl : FuncDecl) (c : AsmCtx) (body : List Item) (prog entry behind : List Line) :
    Prop where
  lines : .globl decl.ident :: .symbol decl.ident :: entry =
    codeOf (prologueItems decl c ++ spillItems decl ++ body ++ epilogueItems c.labelCount) ++ behind
  suffix : entry <:+ prog
  nodup : (labelsIn prog).Nodup

/-- In a program with labels of its own each, the labels of a stretch lead to their places. -/
theorem resolves_of_labelsIn {before code k : List Line} (h : (labelsIn (before ++ code ++ k)).Nodup) :
    Resolves (before ++ code ++ k) code k := by
  rintro n pre post rfl
  have hsplit : before ++ (pre ++ .label n :: post) ++ k =
      (before ++ pre) ++ .label n :: (post ++ k) := by simp
  rw [hsplit] at h ⊢
  refine findLabel_of_not_mem fun hmem => ?_
  rw [labelsIn_append, List.nodup_append] at h
  exact h.2.2 n (mem_labelsIn.mpr hmem) n (mem_labelsIn.mpr List.mem_cons_self) rfl

/-- The state at the entry of a function, for its prologue. -/
theorem StackFor.called (h : StackFor I.sym gs lo top) {s : State} {args : List Word}
    {g : CString → Option Word} (htakes : decl.takes args = true) (hargs : ArgsIn s args)
    (hglobals : GlobalsIn I.sym gs s.mem g) (hlo : lo + stackBytes decl ≤ (s.regs .rsp).toNat)
    (hhi : (s.regs .rsp).toNat ≤ top) : Called I.sym gs decl s args g := by
  simp only [FuncDecl.takes, Bool.and_eq_true, decide_eq_true_eq] at htakes
  refine ⟨htakes.1.1, hargs, hglobals.holds, by omega, h.apart, fun x hx a ha hwin => ?_⟩
  exact h.outside x hx a ha ⟨by omega, by omega⟩

/-- **A function that is entered returns what the interpreter returns**, to the `ret` in front of
the lines behind it. -/
theorem returns_of_entry (hserves : Serves I prog gs callee bytes lo top)
    (hstack : StackFor I.sym gs lo top) (hc : c.GlobalsAre gs) (hparams : decl.params.length ≤ 6)
    (hcode : StmtCode (c.bodyCtx decl) (.nodes decl.block) c' body marks)
    {entry behind : List Line} (hstands : Stands decl c body prog entry behind)
    {s : State} {args : List Word} {g g' : CString → Option Word} {v : Word}
    (hargs : ArgsIn s args) (hglobals : GlobalsIn I.sym gs s.mem g)
    (hlo : lo + bytes + stackBytes decl ≤ (s.regs .rsp).toNat) (hhi : (s.regs .rsp).toNat ≤ top)
    (hrun : runFuncIn callee decl args g = some (v, g')) :
    ∃ s', LinkedSteps I prog ⟨s, entry⟩ ⟨s', .instr .ret :: behind⟩ ∧
      Returns I.sym gs s s' v g' := by
  rw [runFuncIn] at hrun
  by_cases htakes : decl.takes args = true
  · rw [if_pos htakes] at hrun
    simp only [Option.bind_eq_bind, Option.bind_eq_some_iff] at hrun
    obtain ⟨⟨o, σ⟩, hexec, hret⟩ := hrun
    cases o with
    | normal => exact absurd hret (by simp)
    | returned w =>
    obtain ⟨rfl, rfl⟩ := Prod.mk.inj (Option.some.inj hret)
    have hcalled : Called I.world.sym gs decl s args g :=
      hstack.called htakes hargs hglobals (by omega) hhi
    have hbase := hcalled.base_toNat
    -- the prologue
    obtain ⟨s₁, hpro, hs₁⟩ := prologue_steps I.world prog hparams c s
      (codeOf body ++ (codeOf (epilogueItems c.labelCount) ++ behind))
    have hlines : .globl decl.ident :: .symbol decl.ident :: entry =
        codeOf (prologueItems decl c ++ spillItems decl) ++
          (codeOf body ++ (codeOf (epilogueItems c.labelCount) ++ behind)) := by
      rw [hstands.lines]
      simp
    obtain ⟨code, hcodeOf, _⟩ := prologue_lines decl c
    have hentry : entry = code ++ (codeOf body ++ (codeOf (epilogueItems c.labelCount) ++ behind)) := by
      rw [hcodeOf, List.cons_append, List.cons_append] at hlines
      exact (List.cons.inj (List.cons.inj hlines).2).2
    have hlen : (codeOf body ++ (codeOf (epilogueItems c.labelCount) ++ behind)).length ≤
        entry.length := by
      rw [hentry, @List.length_append _ code]
      exact Nat.le_add_left _ _
    rw [← hlines] at hpro
    have hpro := (hpro.behind_mark rfl (by rw [List.length_cons]; omega)).behind_mark rfl hlen
    -- the body
    obtain ⟨pre, hpre⟩ := hstands.suffix
    have hprog : (pre ++ code) ++ codeOf body ++ (codeOf (epilogueItems c.labelCount) ++ behind) =
        prog := by
      rw [← hpre, hentry]
      simp
    have hres : Resolves prog (codeOf body) (codeOf (epilogueItems c.labelCount) ++ behind) := by
      rw [← hprog]
      exact resolves_of_labelsIn (hprog ▸ hstands.nodup)
    have hepi : findLabel c.labelCount prog = some (epilogueTail ++ behind) := by
      have hsplit : (pre ++ code ++ codeOf body) ++ [.label c.labelCount] ++
          (epilogueTail ++ behind) = prog := by
        rw [← hprog, codeOf_epilogueItems]
        simp
      have hlabel := @resolves_of_labelsIn (pre ++ code ++ codeOf body) [.label c.labelCount]
        (epilogueTail ++ behind) (hsplit ▸ hstands.nodup)
      rw [hsplit] at hlabel
      exact hlabel _ [] [] rfl
    have hl : Layout I.sym gs (s.regs .rsp - 8) (computeFrameSize decl) lo := by
      unfold stackBytes at hlo
      refine ⟨by omega, hstack.apart, fun x hx a ha hwin => hstack.outside x hx a ha ⟨hwin.1, ?_⟩⟩
      omega
    have hsim : Sim I.sym gs (s.regs .rsp - 8) (computeFrameSize decl) s₁.mem (c.bodyCtx decl)
        ⟨(paramBindings decl.params args).reverse, g⟩ s₁ := hcalled.sim hparams hc hs₁
    obtain ⟨s₂, c₂, σ₂, hsteps, hrax, hs₂, hσ⟩ :=
      hcode.executes hserves (by omega) hl hepi (bodyCtx_inBody decl hc) (by
        unfold stackBytes at hlo
        simp only [StmtPhrase.need]
        omega) hexec hsim hres ⟨pre ++ code, by rw [← hprog]; simp⟩
    -- the epilogue
    have hsaved : load64 s₂.mem (s.regs .rsp - 8) = s.regs .rbp := by
      rw [← hs₁.saved]
      refine Lib.Mem.load64_congr fun x hx => hs₂.above x ?_ ?_
      · have hlt := (s.regs .rsp).isLt
        unfold stackBytes at hlo
        rw [inCell_iff (by omega)] at hx
        exact hx.1
      · intro y hy hcell
        have hlt := (s.regs .rsp).isLt
        unfold stackBytes at hlo
        rw [inCell_iff (by omega)] at hx
        exact hstack.outside y hy x hcell ⟨by omega, by omega⟩
    have hmov : execInstr I.sym s₂ (.mov (.reg .rbp) (.reg .rsp)) =
        some (s₂.set .rsp (s₂.regs .rbp)) := rfl
    have hpop := exec_pop I.sym (s₂.set .rsp (s₂.regs .rbp)) .rbp
    refine ⟨(s₂.set .rsp (s₂.regs .rbp)).popped .rbp, ?_, hrax, ?_, ?_, ?_, ?_⟩
    · exact (LinkedSteps.of_steps hpro).trans (hsteps.trans
        (.head (.inner (.instr hmov)) (.single (.inner (.instr hpop)))))
    · intro x
      rw [← hσ]
      exact hs₂.rep.globals x
    · show load64 s₂.mem _ = _
      rw [State.set_regs_same, hs₂.rbp, hsaved]
    · simp only [State.popped, State.set_regs, reduceCtorEq, if_false, if_true, hs₂.rbp]
      bv_omega
    · intro x hx hgs
      show s₂.mem x = s.mem x
      rw [hs₂.above x (by omega) hgs]
      refine hs₁.frame x (fun hcell => ?_) fun i hi hcell => ?_
      · have h := (hcalled.prologue_cell hparams (.inl hcell)).2
        omega
      · have h := (hcalled.prologue_cell hparams (.inr ⟨i, hi, hcell⟩)).2
        omega
  · rw [if_neg htakes] at hrun
    exact absurd hrun (by simp)

end function

end ACompiler
