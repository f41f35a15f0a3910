import ACompiler.Correct.Alignment
import ACompiler.Correct.Convention
import ACompiler.Correct.Preserve

/-!
# Functions

A function of the fragment compiles, and what the reference interpreter returns for it its code
returns too: the result in `%rax`, the globals in their cells, `%rbp` and `%rsp` as on entry and the
memory above untouched (`genFuncDecl_correct`).
-/

namespace ACompiler

open Lib (Word Mem)
open Lib.Mem (load64 store64 InCell Apart)

/-! ## The fragment compiles -/

/-- The names resolve. -/
def AsmCtx.Knows (c : AsmCtx) (names : List CString) : Prop :=
  ∀ x ∈ names, ∃ v, findSymbol c x = some v

theorem exprInFragment_code : ∀ (e : Expr) {names : List CString} {c : AsmCtx}, c.Knows names →
    exprInFragment names e = true → ∃ items, ExprCode c (.expr e) items
  | .literal lit, names, c, _, _ => ⟨_, .literal⟩
  | .identifier x, names, c, hc, h => by
    rw [exprInFragment, List.contains_iff_mem] at h
    obtain ⟨v, hv⟩ := hc x h
    exact ⟨_, .identifier hv⟩
  | .unary op e, names, c, hc, h => by
    simp only [exprInFragment, Bool.and_eq_true, Bool.or_eq_true, decide_eq_true_eq] at h
    obtain ⟨items, he⟩ := exprInFragment_code e hc h.2
    rcases h.1 with (rfl | rfl) | rfl
    · exact ⟨_, .unary rfl he⟩
    · exact ⟨_, .unary rfl he⟩
    · exact ⟨_, .unary rfl he⟩
  | .binary op left right, names, c, hc, h => by
    simp only [exprInFragment, Bool.and_eq_true] at h
    obtain ⟨items, hl⟩ := exprInFragment_code left hc h.1
    have hdeep : (c.withDepth (c.pushDepth + 1)).Knows names := hc
    obtain ⟨items', hr⟩ := exprInFragment_code right hdeep h.2
    exact ⟨_, .binary hl hr⟩
  | .assign target val, names, c, hc, h => by
    cases target with
    | identifier x =>
      simp only [exprInFragment, Bool.and_eq_true, List.contains_iff_mem] at h
      obtain ⟨items, hval⟩ := exprInFragment_code val hc h.2
      obtain ⟨v, hv⟩ := hc x h.1
      exact ⟨_, .assign hval hv⟩
    | _ => exact absurd h (by simp [exprInFragment])
  | .cast t inner, names, c, hc, h => by
    simp only [exprInFragment, Bool.and_eq_true] at h
    obtain ⟨items, hi⟩ := exprInFragment_code inner hc h.2
    exact ⟨_, .cast hi⟩
  | .call _ _, _, _, _, h => by simp [exprInFragment] at h
  | .index _ _, _, _, _, h => by simp [exprInFragment] at h

theorem AsmCtx.Knows.declare {c : AsmCtx} {names : List CString} (h : c.Knows names)
    (hstk : c.scopeStk ≠ []) (name : CString) (type : VarT) :
    (c.declare name type).Knows (name :: names) := by
  intro x hx
  rw [findSymbol_declare hstk]
  by_cases hname : name = x
  · rw [if_pos hname]
    exact ⟨_, rfl⟩
  · rw [if_neg hname]
    rcases List.mem_cons.mp hx with rfl | hx
    · exact absurd rfl hname
    · exact h x hx

/-- Behind a statement the names it declares resolve too. -/
theorem StmtCode.knows {c c' : AsmCtx} {s : Stmt} {items : List Item} {marks : List AsmCtx}
    {names : List CString} (h : StmtCode c (.stmt s) c' items marks) (hc : c.Knows names) :
    c'.Knows (s.declares ++ names) := by
  cases h with
  | uninit hstk => exact hc.declare hstk _ _
  | init hstk _ => exact hc.declare hstk _ _
  | ifThen _ hb =>
    obtain ⟨m, rfl⟩ := hb.of_block
    exact hc
  | ifElse _ hb hb' =>
    obtain ⟨m, rfl⟩ := hb.of_block
    obtain ⟨m', rfl⟩ := hb'.of_block
    exact hc
  | _ => exact hc

mutual

theorem stmtInFragment_code (s : Stmt) {names : List CString} {c : AsmCtx} {n : Nat}
    (hc : c.Knows names) (hstk : c.scopeStk ≠ []) (hn : c.epilogueLabel = some n)
    (h : stmtInFragment names s = true) :
    ∃ c' items marks, StmtCode c (.stmt s) c' items marks := by
  have hblock : ∀ {c : AsmCtx} {nodes : List Stmt}, (∃ c' items marks, StmtCode c.enter
      (.nodes nodes) c' items marks) → ∃ c' items marks, StmtCode c (.stmt (.block nodes)) c' items
        marks := by
    rintro c nodes ⟨c', items, marks, hnodes⟩
    exact ⟨_, _, _, .block hnodes⟩
  have henter : ∀ {c : AsmCtx}, c.Knows names → c.enter.Knows names := by
    intro c hc x hx
    rw [findSymbol_enter]
    exact hc x hx
  match s, h with
  | .block nodes, h =>
    exact hblock (stmtsInFragment_code nodes (henter hc) (by simp [AsmCtx.enter]) hn h)
  | .ifStmt cond nodes none, h =>
    simp only [stmtInFragment, Bool.and_eq_true] at h
    have hlabels : (c.withLabels (c.labelCount + 2)).Knows names := hc
    obtain ⟨items, hcond⟩ := exprInFragment_code cond hlabels h.1
    obtain ⟨c', items', marks, hb⟩ := hblock (stmtsInFragment_code nodes (henter hlabels)
      (by simp [AsmCtx.enter]) hn h.2)
    exact ⟨_, _, _, .ifThen hcond hb⟩
  | .ifStmt cond nodes (some nodes'), h =>
    simp only [stmtInFragment, Bool.and_eq_true] at h
    have hlabels : (c.withLabels (c.labelCount + 2)).Knows names := hc
    obtain ⟨items, hcond⟩ := exprInFragment_code cond hlabels h.1.1
    obtain ⟨c', items', marks, hb⟩ := hblock (stmtsInFragment_code nodes (henter hlabels)
      (by simp [AsmCtx.enter]) hn h.1.2)
    obtain ⟨m, rfl⟩ := hb.of_block
    have hlabels' : ((c.withLabels (c.labelCount + 2)).withLabels m).Knows names := hc
    obtain ⟨c'', items'', marks', hb'⟩ := hblock (stmtsInFragment_code nodes' (henter hlabels')
      (by simp [AsmCtx.enter]) hn h.2)
    exact ⟨_, _, _, .ifElse hcond hb hb'⟩
  | .returnStmt e, h =>
    obtain ⟨items, he⟩ := exprInFragment_code e hc h
    exact ⟨_, _, _, .returnStmt he hn⟩
  | .comment text, _ => exact ⟨_, _, _, .comment⟩
  | .varDecl ⟨x, type, none⟩, _ => exact ⟨_, _, _, .uninit hstk⟩
  | .varDecl ⟨x, type, some e⟩, h =>
    simp only [stmtInFragment, Bool.and_eq_true] at h
    obtain ⟨items, he⟩ := exprInFragment_code e (hc.declare hstk x type) h.2
    exact ⟨_, _, _, .init hstk he⟩
  | .expr e, h =>
    obtain ⟨items, he⟩ := exprInFragment_code e hc h
    exact ⟨_, _, _, .expr he⟩

theorem stmtsInFragment_code (ss : List Stmt) {names : List CString} {c : AsmCtx} {n : Nat}
    (hc : c.Knows names) (hstk : c.scopeStk ≠ []) (hn : c.epilogueLabel = some n)
    (h : stmtsInFragment names ss = true) :
    ∃ c' items marks, StmtCode c (.nodes ss) c' items marks := by
  match ss, h with
  | [], _ => exact ⟨_, _, _, .nil⟩
  | s :: ss, h =>
    rw [stmtsInFragment, Bool.and_eq_true] at h
    obtain ⟨c', items, marks, hs⟩ := stmtInFragment_code s hc hstk hn h.1
    obtain ⟨_, _, _, _, hstk', _⟩ := hs.extends.scopeStk hstk
    obtain ⟨c'', items', marks', hss⟩ := stmtsInFragment_code ss (hs.knows hc)
      (by rw [hstk']; simp) (hs.extends.epilogueLabel.trans hn) h.2
    exact ⟨_, _, _, .cons hs hss⟩

end

/-! ## The context of a body -/

/-- The globals `gs` are in scope, and nothing else. -/
structure AsmCtx.GlobalsAre (c : AsmCtx) (gs : List CString) : Prop where
  only : c.GlobalsOnly
  names : ∀ x, x ∈ gs ↔ ∃ v, findSymbol c x = some v

theorem AsmCtx.GlobalsAre.overGlobals {c : AsmCtx} {gs : List CString} (h : c.GlobalsAre gs) :
    c.Over gs := by
  have hlocals : c.locals = [] := h.only
  refine ⟨?_, ?_, fun x v hv _ => (h.names x).mpr ⟨v, hv⟩⟩
  · intro x v hv
    rw [hlocals] at hv
    exact absurd hv (by simp)
  · intro x _ hx
    obtain ⟨v, hv⟩ := (h.names x).mp hx
    cases hg : v.isGlobal with
    | true => exact ⟨v, hv, hg⟩
    | false =>
      have hmem := findSymbol_mem_locals hv hg
      rw [hlocals] at hmem
      exact absurd hmem (by simp)

theorem AsmCtx.Over.declareParams {gs : List CString} (params : List FuncParam) :
    ∀ {c : AsmCtx}, c.Over gs → c.scopeStk ≠ [] → (c.declareParams params).Over gs := by
  induction params with
  | nil => exact fun h _ => h
  | cons p params ih =>
    exact fun h hstk => ih (h.declare hstk p.ident p.type) (declare_scopeStk p.ident p.type hstk)

theorem declareParams_labelCount (params : List FuncParam) : ∀ c : AsmCtx,
    (c.declareParams params).labelCount = c.labelCount := by
  induction params with
  | nil => exact fun _ => rfl
  | cons p params ih => exact fun c => (ih _).trans (declare_labelCount c p.ident p.type)

section body
variable {gs : List CString} (decl : FuncDecl) {c : AsmCtx}

theorem bodyCtx_inBody (hc : c.GlobalsAre gs) :
    InBody gs (computeFrameSize decl) c.labelCount (c.bodyCtx decl) (countLocalsList decl.block) := by
  have hover := hc.overGlobals
  have hfunc : c.funcCtx.Over gs := ⟨hover.locals, hover.globals, hover.others⟩
  have hframe := (computeFrameSize_bounds decl).1
  refine ⟨hfunc.enter.declareParams decl.params (by simp [AsmCtx.enter]), bodyCtx_slotted hc.only, ?_,
    bodyCtx_scopeStk decl c, (declareParams_extends decl.params _).epilogueLabel⟩
  rw [bodyCtx_curOffset]
  omega

theorem bodyCtx_knows (hc : c.GlobalsAre gs)
    (hdistinct : (decl.params.map FuncParam.ident).Nodup) :
    (c.bodyCtx decl).Knows (decl.params.map FuncParam.ident ++ gs) := by
  have hover := (bodyCtx_inBody decl hc).names
  intro x hx
  rcases List.mem_append.mp hx with hx | hx
  · obtain ⟨p, hp, rfl⟩ := List.mem_map.mp hx
    obtain ⟨i, hi⟩ := List.getElem?_of_mem hp
    exact ⟨_, findSymbol_param c hdistinct hi⟩
  · cases hfind : (c.bodyCtx decl).locals.find? fun v => v.name = x with
    | some v => exact ⟨v, hover.locals x v hfind⟩
    | none =>
      obtain ⟨v, hv, _⟩ := hover.globals x hfind hx
      exact ⟨v, hv⟩

end body

/-! ## Calls of a function -/

/-- The bytes of stack a function uses: the saved `%rbp`, the frame and the temporaries. -/
def stackBytes (decl : FuncDecl) : Nat :=
  8 + computeFrameSize decl + 8 * stmtsNeed decl.block

/-- A function is called with these arguments and globals. The stack has room for it, and the cells
of the globals meet neither the stack it uses nor each other. -/
structure Called (sym : CString → Word) (gs : List CString) (decl : FuncDecl) (s : State)
    (args : List Word) (g : CString → Option Word) : Prop where
  length : args.length = decl.params.length
  args : ArgsIn s args
  globals : ∀ x, g x = if x ∈ gs then some (load64 s.mem (sym x)) else none
  room : stackBytes decl ≤ (s.regs .rsp).toNat
  apart : ∀ x ∈ gs, ∀ y ∈ gs, x ≠ y → Apart (sym x) (sym y)
  outside : ∀ x ∈ gs, ∀ a, InCell (sym x) a →
    ¬ ((s.regs .rsp).toNat - stackBytes decl ≤ a.toNat ∧ a.toNat < (s.regs .rsp).toNat)

/-- A function called in `s` returns in `s'` with that result and those globals. -/
structure Returns (sym : CString → Word) (gs : List CString) (s s' : State) (v : Word)
    (g : CString → Option Word) : Prop where
  rax : s'.regs .rax = v
  globals : ∀ x, g x = if x ∈ gs then some (load64 s'.mem (sym x)) else none
  rbp : s'.regs .rbp = s.regs .rbp
  rsp : s'.regs .rsp = s.regs .rsp
  mem : ∀ x : Word, (s.regs .rsp).toNat ≤ x.toNat → (∀ y ∈ gs, ¬ InCell (sym y) x) →
    s'.mem x = s.mem x

section called
variable {W : World} {gs : List CString} {decl : FuncDecl} {c : AsmCtx} {s s₁ : State}
  {args : List Word} {g : CString → Option Word}

theorem Called.base_toNat (h : Called W.sym gs decl s args g) :
    (s.regs .rsp - 8).toNat = (s.regs .rsp).toNat - 8 := by
  have hroom := h.room
  unfold stackBytes at hroom
  bv_omega

theorem Called.layout (h : Called W.sym gs decl s args g) :
    Layout W.sym gs (s.regs .rsp - 8) (computeFrameSize decl)
      ((s.regs .rsp).toNat - stackBytes decl) := by
  have hroom := h.room
  have hbase := h.base_toNat
  unfold stackBytes at hroom
  refine ⟨?_, h.apart, fun x hx a ha hwin => h.outside x hx a ha ⟨hwin.1, by omega⟩⟩
  unfold stackBytes
  omega

/-- The cells the prologue writes lie in the stack. -/
theorem Called.prologue_cell (h : Called W.sym gs decl s args g) (hparams : decl.params.length ≤ 6)
    {x : Word} (hx : InCell (s.regs .rsp - 8) x ∨
      ∃ i, i < decl.params.length ∧ InCell (paramSlot (s.regs .rsp) i) x) :
    (s.regs .rsp).toNat - stackBytes decl ≤ x.toNat ∧ x.toNat < (s.regs .rsp).toNat := by
  have hroom := h.room
  have hbase := h.base_toNat
  have hframe := (computeFrameSize_bounds decl).1
  have hlt := (s.regs .rsp).isLt
  unfold stackBytes at hroom ⊢
  rcases hx with hx | ⟨i, hi, hx⟩
  · rw [inCell_iff (by omega)] at hx
    omega
  · have hslot : ((paramSlot (s.regs .rsp) i).toNat : Int) =
        (s.regs .rsp - 8).toNat + -(8 * ((i : Int) + 1)) :=
      add_ofInt_toNat (by omega) (by omega)
    rw [inCell_iff (by omega)] at hx
    omega

theorem Called.load_global (h : Called W.sym gs decl s args g) (hparams : decl.params.length ≤ 6)
    (hs₁ : Entered decl s s₁) {x : CString} (hx : x ∈ gs) :
    load64 s₁.mem (W.sym x) = load64 s.mem (W.sym x) := by
  refine Lib.Mem.load64_congr fun a ha => hs₁.frame a (fun hcell => ?_) fun i hi hcell => ?_
  · exact h.outside x hx a ha (h.prologue_cell hparams (.inl hcell))
  · exact h.outside x hx a ha (h.prologue_cell hparams (.inr ⟨i, hi, hcell⟩))

/-- Behind the prologue the state holds the arguments and the globals. -/
theorem Called.sim (h : Called W.sym gs decl s args g) (hparams : decl.params.length ≤ 6)
    (hc : c.GlobalsAre gs) (hs₁ : Entered decl s s₁) :
    Sim W.sym gs (s.regs .rsp - 8) (computeFrameSize decl) s₁.mem (c.bodyCtx decl)
      ⟨(paramBindings decl.params args).reverse, g⟩ s₁ := by
  refine ⟨⟨?_, ?_⟩, hs₁.rbp, hs₁.rsp, fun _ _ _ => rfl⟩
  · rw [bodyCtx_locals decl hc.only, List.forall₂_reverse_iff, List.forall₂_iff_get]
    have hlen : (paramSymbols 0 decl.params).length = decl.params.length := by
      have hnames := congrArg List.length (paramSymbols_names decl.params 0)
      rwa [List.length_map, List.length_map] at hnames
    refine ⟨by simp [hlen, paramBindings, h.length], fun i hi hi' => ?_⟩
    rw [hlen] at hi
    have hsym := paramSymbols_getElem? decl.params 0 i
    have hia : i < args.length := by rw [h.length]; exact hi
    rw [List.getElem?_eq_getElem (by omega), List.getElem?_eq_getElem hi, Option.map_some,
      Option.some.injEq] at hsym
    have hreg : i < argRegs.length := by
      simp only [argRegs, List.length_cons, List.length_nil]
      omega
    have hbind : (paramBindings decl.params args)[i] = (decl.params[i].ident, some args[i]) := by
      simp [paramBindings]
    rw [List.get_eq_getElem, List.get_eq_getElem, hsym, hbind]
    refine ⟨rfl, fun w hw => ?_⟩
    have hslot := hs₁.slots i hi _ (List.getElem?_eq_getElem hreg)
    rw [h.args i _ _ (List.getElem?_eq_getElem hreg) (List.getElem?_eq_getElem hia)] at hslot
    rw [← Option.some.inj hw, ← hslot, slotAddr, paramSlot, Int.zero_sub]
  · intro x
    show g x = _
    rw [h.globals]
    by_cases hx : x ∈ gs
    · rw [if_pos hx, if_pos hx, h.load_global hparams hs₁ hx]
    · rw [if_neg hx, if_neg hx]

/-! ## The lines of a function -/

/-- The lines before the body place no label. -/
theorem label_not_mem_prologue (decl : FuncDecl) (c : AsmCtx) (n : Nat) :
    Line.label n ∉ codeOf (prologueItems decl c ++ spillItems decl) := by
  intro hmem
  obtain ⟨item, hitem, hline⟩ := List.mem_map.mp hmem
  rcases List.mem_append.mp hitem with hitem | hitem
  · exact prologueItems_not_label decl c hitem n hline
  · obtain ⟨id, off, hmov⟩ := paramItems_line decl.params argRegs _ item hitem
    rw [hmov] at hline
    exact absurd hline (by simp)

/-- The labels of a function's lines lead to their places. -/
theorem resolves_body {c' : AsmCtx} {body : List Item} {marks : List AsmCtx}
    (hbody : StmtCode (c.bodyCtx decl) (.nodes decl.block) c' body marks) :
    Resolves (codeOf (prologueItems decl c ++ spillItems decl ++ body ++ epilogueItems c.labelCount))
        (codeOf body) (codeOf (epilogueItems c.labelCount)) ∧
      findLabel c.labelCount
        (codeOf (prologueItems decl c ++ spillItems decl ++ body ++ epilogueItems c.labelCount)) =
          some epilogueTail := by
  obtain ⟨_, hnodup, hrange⟩ := hbody.labels
  have hcount : (c.bodyCtx decl).labelCount = c.labelCount + 1 := declareParams_labelCount _ _
  rw [codeOf_append, codeOf_append]
  refine ⟨resolves_of_nodup hnodup (fun n _ => label_not_mem_prologue decl c n) _, ?_⟩
  rw [codeOf_epilogueItems]
  refine findLabel_of_not_mem fun hmem => ?_
  rcases List.mem_append.mp hmem with hmem | hmem
  · exact label_not_mem_prologue decl c _ hmem
  · obtain ⟨item, hitem, hline⟩ := List.mem_map.mp hmem
    have h := (hrange _ (mem_labelsOf.mpr ⟨item, hitem, hline⟩)).1
    omega

/-- The epilogue gives `%rbp` and `%rsp` back. -/
theorem steps_epilogue (W : World) (prog : List Line) (s : State) :
    ∃ s', Steps W prog ⟨s, epilogueTail⟩ ⟨s', [.instr .ret]⟩ ∧ s'.regs .rax = s.regs .rax ∧
      s'.mem = s.mem ∧ s'.regs .rsp = s.regs .rbp + 8 ∧
      s'.regs .rbp = load64 s.mem (s.regs .rbp) := by
  refine ⟨_, .head (.instr rfl) (.single (.instr rfl)), ?_⟩
  refine ⟨rfl, rfl, ?_, ?_⟩
  · simp [State.set_regs, Operand.read]
  · simp [Operand.read]

/-- **The code of a function returns what the interpreter returns.** Every function of the fragment
compiles, and whenever the reference interpreter runs its body to a result, the code, called with the
same arguments and globals, runs to its `ret` with that result, those globals, `%rbp` and `%rsp` as
on entry, and the memory from the stack pointer on unchanged. -/
theorem genFuncDecl_correct (gs : List CString) (decl : FuncDecl) (c : AsmCtx)
    (hdecl : InFragment gs decl) (hc : c.GlobalsAre gs) :
    ∃ r, genFuncDecl decl c = .ok r ∧
      ∀ (W : World) (s : State) (args : List Word) (g g' : CString → Option Word) (v : Word),
        Called W.sym gs decl s args g → runFunc decl args g = some (v, g') →
          ∃ s', Steps W (codeOf r.items) ⟨s, codeOf r.items⟩ ⟨s', [.instr .ret]⟩ ∧
            Returns W.sym gs s s' v g' := by
  obtain ⟨hparams, hdistinct, _, hblock⟩ := hdecl
  have hbody := bodyCtx_inBody decl hc
  obtain ⟨c', body, marks, hcode⟩ := stmtsInFragment_code decl.block (bodyCtx_knows decl hc hdistinct)
    hbody.stk hbody.label hblock
  refine ⟨_, genFuncDecl_run hparams hcode, ?_⟩
  intro W s args g g' v hcalled hrun
  simp only
  obtain ⟨hres, hepi⟩ := resolves_body hcode
  generalize hprog : codeOf (prologueItems decl c ++ spillItems decl ++ body ++
    epilogueItems c.labelCount) = prog at hres hepi ⊢
  -- the prologue
  obtain ⟨s₁, hpro, hs₁⟩ := prologue_steps W prog hparams c s
    (codeOf body ++ codeOf (epilogueItems c.labelCount))
  have hstart : codeOf (prologueItems decl c ++ spillItems decl) ++
      (codeOf body ++ codeOf (epilogueItems c.labelCount)) = prog := by
    rw [← hprog]
    simp
  rw [hstart] at hpro
  -- the body
  simp only [runFunc, Option.bind_eq_bind, Option.bind_eq_some_iff] at hrun
  obtain ⟨⟨o, σ⟩, hexec, hret⟩ := hrun
  cases o with
  | normal => exact absurd hret (by simp)
  | returned w =>
    obtain ⟨rfl, rfl⟩ := Prod.mk.inj (Option.some.inj hret)
    have hroom := hcalled.room
    have hbase := hcalled.base_toNat
    have hsim := hcalled.sim hparams hc hs₁
    obtain ⟨s₂, c₂, σ₂, hsteps, hrax, hs₂, hglobals⟩ :=
      hcode.simulates hcalled.layout hepi hbody (by
        unfold stackBytes at *
        simp only [StmtPhrase.need]
        omega) hexec hsim hres
    -- the epilogue
    obtain ⟨s₃, hend, hrax₃, hmem₃, hsp₃, hbp₃⟩ := steps_epilogue W prog s₂
    have houtside : ∀ x : Word, (s.regs .rsp - 8).toNat ≤ x.toNat →
        x.toNat < (s.regs .rsp).toNat → ∀ y ∈ gs, ¬ InCell (W.sym y) x := by
      intro x hlow hhigh y hy hcell
      unfold stackBytes at hroom
      exact hcalled.outside y hy x hcell ⟨by unfold stackBytes; omega, hhigh⟩
    have hsaved : load64 s₂.mem (s.regs .rsp - 8) = s.regs .rbp := by
      rw [← hs₁.saved]
      refine Lib.Mem.load64_congr fun x hx => ?_
      have hlt := (s.regs .rsp).isLt
      unfold stackBytes at hroom
      rw [inCell_iff (by omega)] at hx
      exact hs₂.above x hx.1 (houtside x hx.1 (by omega))
    refine ⟨s₃, (hpro.trans hsteps).trans hend, by rw [hrax₃, hrax], ?_, ?_, ?_, ?_⟩
    · intro x
      rw [hmem₃, ← hglobals]
      exact hs₂.rep.globals x
    · rw [hbp₃, hs₂.rbp, hsaved]
    · rw [hsp₃, hs₂.rbp]
      bv_omega
    · intro x hx hnone
      rw [hmem₃, hs₂.above x (by omega) hnone]
      refine hs₁.frame x (fun hcell => ?_) fun i hi hcell => ?_
      · have h := (hcalled.prologue_cell hparams (.inl hcell)).2
        omega
      · have h := (hcalled.prologue_cell hparams (.inr ⟨i, hi, hcell⟩)).2
        omega

end called

/-- `fn f(QWORD a, QWORD b) { return a - b; }`. -/
def subtract : FuncDecl :=
  ⟨ascii "f", ⟨.lit .litQword, false, 0⟩,
    [⟨ascii "a", ⟨.lit .litQword, false, 0⟩⟩, ⟨ascii "b", ⟨.lit .litQword, false, 0⟩⟩],
    [.returnStmt (.binary .bSub (.identifier (ascii "a")) (.identifier (ascii "b")))]⟩

/-- A state in which `f(7, 4)` is called. -/
def callSubtract : State :=
  ⟨fun id => if id = .rdi then 7 else if id = .rsi then 4 else if id = .rsp then 4096 else 0, none,
    fun _ => 0⟩

theorem genFuncDecl_correct_subtract :
    ∃ r s', genFuncDecl subtract asmInit = .ok r ∧
      Steps sevenWorld (codeOf r.items) ⟨callSubtract, codeOf r.items⟩ ⟨s', [.instr .ret]⟩ ∧
      s'.regs .rax = 3 := by
  have hdecl : InFragment [] subtract := ⟨by decide, by decide, by decide, by decide⟩
  have hc : asmInit.GlobalsAre [] := by
    refine ⟨rfl, fun x => ⟨fun hx => absurd hx (by simp), ?_⟩⟩
    rintro ⟨v, hv⟩
    exact absurd hv (by simp [findSymbol, asmInit])
  obtain ⟨r, hgen, hcorrect⟩ := genFuncDecl_correct [] subtract asmInit hdecl hc
  have hargs : ArgsIn callSubtract [7, 4] := by
    intro i id v hid hv
    rcases i with _ | _ | i
    · obtain rfl : RegId.rdi = id := by simpa [argRegs] using hid
      obtain rfl : (7 : Word) = v := by simpa using hv
      rfl
    · obtain rfl : RegId.rsi = id := by simpa [argRegs] using hid
      obtain rfl : (4 : Word) = v := by simpa using hv
      rfl
    · simp at hv
  have hcalled : Called sevenWorld.sym [] subtract callSubtract [7, 4] fun _ => none :=
    ⟨rfl, hargs, fun _ => rfl, by decide, by simp, by simp⟩
  obtain ⟨s', hsteps, hret⟩ := hcorrect sevenWorld callSubtract [7, 4] _ _ 3 hcalled rfl
  exact ⟨r, s', hgen, hsteps, hret.rax⟩

end ACompiler
