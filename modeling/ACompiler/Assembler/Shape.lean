import ACompiler.Assembler.Gen

/-!
# What the generator prints

`ExprCode` and `StmtCode` say what lines stand for a tree, as derivations that follow the tree; the
run of the generator is exactly such a derivation (`genExpr_iff`, `genStmt_iff`), so the proofs about
the emitted code are inductions over these and never unfold the generator. Code of an expression
leaves the context as it was; a statement only declares symbols in the innermost scope and takes
labels.
-/

namespace ACompiler

open Lib (Emit Emitted)
open Lib.Emit (print get modify throw mark bind_run bind_eq_ok)

/-! ## Single steps -/

/-- An instruction printed in a context. -/
def AsmCtx.item (c : AsmCtx) (i : Instr) : Item := ⟨c.indent, c.pushDepth, .instr i⟩

/-- The context after `push_scope`. -/
def AsmCtx.enter (c : AsmCtx) : AsmCtx :=
  { c with scopeStk := newScope c.curOffset :: c.scopeStk }

/-- The context with another push depth. -/
def AsmCtx.withDepth (c : AsmCtx) (d : Int) : AsmCtx := { c with pushDepth := d }

@[simp] theorem emit_run (i : Instr) (c : AsmCtx) :
    emit i c = .ok ⟨(), c, [c.item i], []⟩ := rfl

@[simp] theorem asmEmit_run (line : Line) (c : AsmCtx) :
    asmEmit line c = .ok ⟨(), c, [⟨c.indent, c.pushDepth, line⟩], []⟩ := rfl

@[simp] theorem asmRaw_run (line : Line) (c : AsmCtx) :
    asmRaw line c = .ok ⟨(), c, [⟨0, c.pushDepth, line⟩], []⟩ := rfl

@[simp] theorem setIndent_run (n : Nat) (c : AsmCtx) :
    setIndent n c = .ok ⟨(), { c with indent := n }, [], []⟩ := rfl

@[simp] theorem stdCompileError_run {α : Type} (message : String) (c : AsmCtx) :
    (stdCompileError message : Gen α) c = .error (.compileError message) := rfl

@[simp] theorem pushRax_run (c : AsmCtx) :
    pushRax c = .ok ⟨(), c.withDepth (c.pushDepth + 1), [c.item (.push (.reg .rax))], []⟩ := rfl

@[simp] theorem popInto_run (id : RegId) (c : AsmCtx) :
    popInto id c = .ok ⟨(), c.withDepth (c.pushDepth - 1), [c.item (.pop (.reg id))], []⟩ := rfl

@[simp] theorem newLabel_run (c : AsmCtx) :
    newLabel c = .ok ⟨c.labelCount, { c with labelCount := c.labelCount + 1 }, [], []⟩ := rfl

@[simp] theorem pushScope_run (c : AsmCtx) :
    pushScope c = .ok ⟨(), c.enter, [], []⟩ := rfl

@[simp] theorem withDepth_withDepth (c : AsmCtx) (d d' : Int) :
    (c.withDepth d).withDepth d' = c.withDepth d' := rfl

@[simp] theorem withDepth_pushDepth (c : AsmCtx) (d : Int) : (c.withDepth d).pushDepth = d := rfl

@[simp] theorem withDepth_self (c : AsmCtx) : c.withDepth c.pushDepth = c := rfl

@[simp] theorem withDepth_indent (c : AsmCtx) (d : Int) : (c.withDepth d).indent = c.indent := rfl

@[simp] theorem findSymbol_withDepth (c : AsmCtx) (d : Int) :
    findSymbol (c.withDepth d) = findSymbol c := rfl

/-- The slot of a local is eight bytes, whatever its type. -/
theorem slotSize (t : VarT) : (if typeSize t < 8 then 8 else typeSize t) = 8 := by
  rcases t with ⟨_ | l, _, _⟩
  · rfl
  · cases l <;> rfl

/-- The context after `define_local`, whose scope stack is not empty. -/
def AsmCtx.declare (c : AsmCtx) (name : CString) (type : VarT) : AsmCtx :=
  match c.scopeStk with
  | [] => c
  | s :: scopes =>
    { c with
      curOffset := c.curOffset - 8
      scopeStk := s.addSymbol ⟨name, c.curOffset - 8, type, false⟩ :: scopes }

theorem defineLocal_eq_ok {name : CString} {type : VarT} {c : AsmCtx}
    {r : Emitted AsmCtx Item Symbol} (h : defineLocal name type c = .ok r) :
    c.scopeStk ≠ [] ∧
      r = ⟨⟨name, c.curOffset - 8, type, false⟩, c.declare name type, [], []⟩ := by
  cases hstk : c.scopeStk with
  | nil => simp [defineLocal, addSymbol, bind_run, hstk] at h
  | cons s scopes =>
    simp [defineLocal, addSymbol, bind_run, hstk, slotSize] at h
    refine ⟨by simp, ?_⟩
    rw [← h]
    simp [AsmCtx.declare, hstk]

theorem defineLocal_run (name : CString) (type : VarT) {c : AsmCtx} (hstk : c.scopeStk ≠ []) :
    defineLocal name type c =
      .ok ⟨⟨name, c.curOffset - 8, type, false⟩, c.declare name type, [], []⟩ := by
  cases h : c.scopeStk with
  | nil => exact absurd h hstk
  | cons s scopes => simp [defineLocal, addSymbol, bind_run, h, slotSize, AsmCtx.declare]

/-! ## Expressions -/

/-- The instructions behind an operand of `gen_unary`. -/
def unaryInstrs : UnaryOp → Option (List Instr)
  | .uNeg => some [.neg (.reg .rax)]
  | .uNot => some [.cmp (.imm 0) (.reg .rax), .setcc .e, .movzbq]
  | .uPos => some []
  | _ => none

/-- The instructions behind the operands of `gen_binary`. -/
def binaryInstrs : BinaryOp → List Instr
  | .bAdd => [.add (.reg .rcx) (.reg .rax)]
  | .bSub => [.sub (.reg .rcx) (.reg .rax)]
  | .bMul => [.imul (.reg .rcx) (.reg .rax)]
  | .bDiv => [.cqto, .idiv (.reg .rcx)]
  | op => [.cmp (.reg .rcx) (.reg .rax), .setcc (setccOf op), .movzbq]

/-- Instructions printed one after the other in one context. -/
def AsmCtx.itemsOf (c : AsmCtx) (is : List Instr) : List Item := is.map c.item

/-- The pops of a call, from the context after the last push. -/
def AsmCtx.popItems (c : AsmCtx) : List RegId → List Item
  | [] => []
  | id :: ids => c.item (.pop (.reg id)) :: (c.withDepth (c.pushDepth - 1)).popItems ids

/-- The instruction that reads a symbol. -/
def readInstr (sym : Symbol) (name : CString) : Instr :=
  if sym.isGlobal then .mov (.sym name) (.reg .rax)
  else .mov (.mem .rbp sym.stackOffset) (.reg .rax)

/-- The instruction that writes a symbol. -/
def writeInstr (sym : Symbol) (name : CString) : Instr :=
  if sym.isGlobal then .mov (.reg .rax) (.sym name)
  else .mov (.reg .rax) (.mem .rbp sym.stackOffset)

/-- The instruction that takes the address of a symbol. -/
def addrInstr (sym : Symbol) : Instr :=
  if sym.isGlobal then .lea (.sym sym.name) (.reg .rax)
  else .lea (.mem .rbp sym.stackOffset) (.reg .rax)

/-- The code of an expression, or of the arguments of a call, in a context. -/
inductive ExprCode : AsmCtx → Phrase → List Item → Prop
  | literal {c : AsmCtx} {lit : LiteralExpr} :
      ExprCode c (.expr (.literal lit)) [c.item (.mov (.imm lit.numValue) (.reg .rax))]
  | identifier {c : AsmCtx} {name : CString} {sym : Symbol} (hs : findSymbol c name = some sym) :
      ExprCode c (.expr (.identifier name)) [c.item (readInstr sym name)]
  | addr {c : AsmCtx} {name : CString} {sym : Symbol} (hs : findSymbol c name = some sym) :
      ExprCode c (.expr (.unary .uAddr (.identifier name))) [c.item (addrInstr sym)]
  | unary {c : AsmCtx} {op : UnaryOp} {e : Expr} {is : List Instr} {items : List Item}
      (hop : unaryInstrs op = some is) (he : ExprCode c (.expr e) items) :
      ExprCode c (.expr (.unary op e)) (items ++ c.itemsOf is)
  | binary {c : AsmCtx} {op : BinaryOp} {left right : Expr} {items items' : List Item}
      (hl : ExprCode c (.expr left) items)
      (hr : ExprCode (c.withDepth (c.pushDepth + 1)) (.expr right) items') :
      ExprCode c (.expr (.binary op left right))
        (items ++ c.item (.push (.reg .rax)) :: items' ++
          (c.withDepth (c.pushDepth + 1)).itemsOf [.mov (.reg .rax) (.reg .rcx), .pop (.reg .rax)] ++
          c.itemsOf (binaryInstrs op))
  | call {c : AsmCtx} {callee : CString} {args : List Expr} {items : List Item}
      (hn : args.length ≤ 6) (heven : c.pushDepth % 2 = 0)
      (ha : ExprCode c (.exprs args) items) :
      ExprCode c (.expr (.call callee args))
        (items ++ (c.withDepth (c.pushDepth + args.length)).popItems
            (argRegs.take args.length).reverse ++ [c.item (.call callee)])
  | callPad {c : AsmCtx} {callee : CString} {args : List Expr} {items : List Item}
      (hn : args.length ≤ 6) (hodd : c.pushDepth % 2 ≠ 0)
      (ha : ExprCode (c.withDepth (c.pushDepth + 1)) (.exprs args) items) :
      ExprCode c (.expr (.call callee args))
        (c.item (.sub (.imm 8) (.reg .rsp)) :: items ++
          (c.withDepth (c.pushDepth + 1 + args.length)).popItems
            (argRegs.take args.length).reverse ++
          (c.withDepth (c.pushDepth + 1)).itemsOf [.call callee, .add (.imm 8) (.reg .rsp)])
  | assign {c : AsmCtx} {name : CString} {val : Expr} {sym : Symbol} {items : List Item}
      (hv : ExprCode c (.expr val) items) (hs : findSymbol c name = some sym) :
      ExprCode c (.expr (.assign (.identifier name) val)) (items ++ [c.item (writeInstr sym name)])
  | cast {c : AsmCtx} {v : VarT} {inner : Expr} {items : List Item}
      (hi : ExprCode c (.expr inner) items) : ExprCode c (.expr (.cast v inner)) items
  | argsNil {c : AsmCtx} : ExprCode c (.exprs []) []
  | argsCons {c : AsmCtx} {arg : Expr} {args : List Expr} {items items' : List Item}
      (ha : ExprCode c (.expr arg) items)
      (hs : ExprCode (c.withDepth (c.pushDepth + 1)) (.exprs args) items') :
      ExprCode c (.exprs (arg :: args)) (items ++ c.item (.push (.reg .rax)) :: items')

theorem popArgs_run (ids : List RegId) : ∀ c : AsmCtx,
    popArgs ids c = .ok ⟨(), c.withDepth (c.pushDepth - ids.length), c.popItems ids, []⟩ := by
  induction ids with
  | nil => intro c; simp [popArgs, AsmCtx.popItems]
  | cons id ids ih =>
    intro c
    simp only [popArgs, bind_run, popInto_run, ih, AsmCtx.popItems, List.length_cons,
      withDepth_withDepth, withDepth_pushDepth, List.singleton_append, List.append_nil]
    congr 2
    push_cast
    congr 1
    omega

theorem genUnaryOp_run {op : UnaryOp} {is : List Instr} (h : unaryInstrs op = some is)
    (c : AsmCtx) : genUnaryOp op c = .ok ⟨(), c, c.itemsOf is, []⟩ := by
  cases op <;> simp [unaryInstrs] at h <;> subst h <;>
    simp [genUnaryOp, bind_run, AsmCtx.itemsOf]

theorem genUnaryOp_eq_ok {op : UnaryOp} {c : AsmCtx} {r : Emitted AsmCtx Item Unit}
    (h : genUnaryOp op c = .ok r) : ∃ is, unaryInstrs op = some is := by
  cases op <;> simp [genUnaryOp, unaryInstrs] at *

theorem genBinaryOp_run (op : BinaryOp) (c : AsmCtx) :
    genBinaryOp op c = .ok ⟨(), c, c.itemsOf (binaryInstrs op), []⟩ := by
  cases op <;> simp [genBinaryOp, bind_run, AsmCtx.itemsOf, binaryInstrs]

/-- The generator of an expression or of the arguments of a call. -/
def genPhrase : Phrase → Gen Unit
  | .expr e => genExpr e
  | .exprs es => genArgs es

/-- How much deeper the stack is behind the code. -/
def Phrase.pushes : Phrase → Nat
  | .expr _ => 0
  | .exprs es => es.length

/-- The run of the generator on a phrase with that code. -/
def AsmCtx.exprRun (c : AsmCtx) (p : Phrase) (items : List Item) : Emitted AsmCtx Item Unit :=
  ⟨(), c.withDepth (c.pushDepth + p.pushes), items, []⟩

@[simp] theorem exprRun_expr (c : AsmCtx) (e : Expr) (items : List Item) :
    c.exprRun (.expr e) items = ⟨(), c, items, []⟩ := by
  simp [AsmCtx.exprRun, Phrase.pushes]

@[simp] theorem exprRun_exprs (c : AsmCtx) (es : List Expr) (items : List Item) :
    c.exprRun (.exprs es) items = ⟨(), c.withDepth (c.pushDepth + es.length), items, []⟩ := rfl

theorem genCall_even {callee : CString} {n : Nat} {args : Gen Unit} {c : AsmCtx}
    {items : List Item} (hn : n ≤ 6) (heven : c.pushDepth % 2 = 0)
    (ha : args c = .ok ⟨(), c.withDepth (c.pushDepth + n), items, []⟩) :
    genCall callee n args c = .ok ⟨(), c, items ++ (c.withDepth (c.pushDepth + n)).popItems
      (argRegs.take n).reverse ++ [c.item (.call callee)], []⟩ := by
  have hlen : ((argRegs.take n).reverse.length : Int) = n := by
    rw [List.length_reverse, List.length_take]
    simp only [argRegs, List.length_cons, List.length_nil]
    omega
  simp only [genCall, if_neg (Nat.not_lt.mpr hn), bind_run, Lib.Emit.get_run, heven, ne_eq,
    not_true_eq_false, decide_false, Bool.false_eq_true, if_false, ha, popArgs_run, hlen,
    withDepth_pushDepth, withDepth_withDepth, emit_run, Lib.Emit.pure_run]
  simp

theorem genCall_odd {callee : CString} {n : Nat} {args : Gen Unit} {c : AsmCtx}
    {items : List Item} (hn : n ≤ 6) (hodd : c.pushDepth % 2 ≠ 0)
    (ha : args (c.withDepth (c.pushDepth + 1)) =
      .ok ⟨(), c.withDepth (c.pushDepth + 1 + n), items, []⟩) :
    genCall callee n args c = .ok ⟨(), c, c.item (.sub (.imm 8) (.reg .rsp)) :: items ++
      (c.withDepth (c.pushDepth + 1 + n)).popItems (argRegs.take n).reverse ++
      (c.withDepth (c.pushDepth + 1)).itemsOf [.call callee, .add (.imm 8) (.reg .rsp)], []⟩ := by
  have hlen : ((argRegs.take n).reverse.length : Int) = n := by
    rw [List.length_reverse, List.length_take]
    simp only [argRegs, List.length_cons, List.length_nil]
    omega
  have hwith : ({ c with pushDepth := c.pushDepth + 1 } : AsmCtx) =
      c.withDepth (c.pushDepth + 1) := rfl
  simp only [genCall, if_neg (Nat.not_lt.mpr hn), bind_run, Lib.Emit.get_run, hodd, ne_eq,
    not_false_eq_true, decide_true, if_true, emit_run, Lib.Emit.modify_run, hwith, ha,
    popArgs_run, hlen, withDepth_pushDepth, withDepth_withDepth]
  simp [AsmCtx.itemsOf, AsmCtx.withDepth]

/-- The code of a phrase is what the generator prints, and it leaves the context as it was, up to
the pushed arguments. -/
theorem ExprCode.gen {c : AsmCtx} {p : Phrase} {items : List Item} (h : ExprCode c p items) :
    genPhrase p c = .ok (c.exprRun p items) := by
  induction h with
  | literal => simp [genPhrase, genExpr, genLiteral, loadImm]
  | @identifier c name sym hs =>
    by_cases hg : sym.isGlobal = true
    · simp [genPhrase, genExpr, genIdentifier, bind_run, hs, hg, readInstr]
    · simp [genPhrase, genExpr, genIdentifier, bind_run, hs, hg, readInstr, loadLocal]
  | @addr c name sym hs =>
    by_cases hg : sym.isGlobal = true
    · simp [genPhrase, genExpr, genUnary, genAddr, bind_run, hs, hg, addrInstr]
    · simp [genPhrase, genExpr, genUnary, genAddr, bind_run, hs, hg, addrInstr]
  | @unary c op e is items hop he ih =>
    have hne : op ≠ .uAddr := by
      rintro rfl
      simp [unaryInstrs] at hop
    simp only [genPhrase, exprRun_expr] at ih ⊢
    simp [genExpr, genUnary, hne, bind_run, ih, genUnaryOp_run hop]
  | binary hl hr ihl ihr =>
    simp only [genPhrase, exprRun_expr] at ihl ihr ⊢
    simp only [genExpr, genBinary, bind_run, ihl, ihr, pushRax_run, emit_run, popInto_run,
      genBinaryOp_run, withDepth_withDepth, withDepth_pushDepth]
    simp [AsmCtx.itemsOf]
  | call hn heven ha ih =>
    simp only [genPhrase, exprRun_exprs, exprRun_expr] at ih ⊢
    rw [genExpr, genCall_even hn heven ih]
  | callPad hn hodd ha ih =>
    simp only [genPhrase, exprRun_exprs, exprRun_expr] at ih ⊢
    rw [genExpr, genCall_odd hn hodd (by simpa using ih)]
  | @assign c name val sym items hv hs ih =>
    simp only [genPhrase, exprRun_expr] at ih ⊢
    by_cases hg : sym.isGlobal = true
    · simp [genExpr, genAssign, bind_run, ih, hs, hg, writeInstr]
    · simp [genExpr, genAssign, bind_run, ih, hs, hg, writeInstr, storeLocal]
  | cast hi ih =>
    simp only [genPhrase, exprRun_expr] at ih ⊢
    rw [genExpr, genCast, ih]
  | argsNil => simp [genPhrase, genArgs]
  | argsCons ha hs iha ihs =>
    simp only [genPhrase, exprRun_expr, exprRun_exprs] at iha ihs ⊢
    simp only [genArgs, bind_run, iha, ihs, pushRax_run]
    simp
    congr 1
    omega

theorem genCall_eq_ok {callee : CString} {n : Nat} {args : Gen Unit} {c : AsmCtx}
    {r : Emitted AsmCtx Item Unit} (h : genCall callee n args c = .ok r) :
    n ≤ 6 ∧ ∃ r', args (if c.pushDepth % 2 = 0 then c else c.withDepth (c.pushDepth + 1)) =
      .ok r' := by
  rw [genCall] at h
  by_cases hn : n > 6
  · simp [if_pos hn] at h
  · rw [if_neg hn] at h
    refine ⟨Nat.not_lt.mp hn, ?_⟩
    rw [bind_eq_ok] at h
    obtain ⟨_, _, hget, h, _⟩ := h
    simp at hget
    subst hget
    by_cases heven : c.pushDepth % 2 = 0
    · simp only [heven, ne_eq, not_true_eq_false, decide_false, Bool.false_eq_true, if_false,
        if_true] at h ⊢
      rw [bind_eq_ok] at h
      obtain ⟨r', _, hargs, _⟩ := h
      exact ⟨r', hargs⟩
    · simp only [heven, ne_eq, not_false_eq_true, decide_true, if_true, if_false] at h ⊢
      rw [bind_eq_ok] at h
      obtain ⟨_, _, hsub, h, _⟩ := h
      simp at hsub
      subst hsub
      rw [bind_eq_ok] at h
      obtain ⟨_, _, hmod, h, _⟩ := h
      simp at hmod
      subst hmod
      rw [bind_eq_ok] at h
      obtain ⟨r', _, hargs, _⟩ := h
      exact ⟨r', hargs⟩

mutual

theorem genExpr_code {e : Expr} {c : AsmCtx} {r : Emitted AsmCtx Item Unit}
    (h : genExpr e c = .ok r) : ∃ items, ExprCode c (.expr e) items := by
  match e, h with
  | .literal lit, _ => exact ⟨_, .literal⟩
  | .identifier name, h =>
    cases hs : findSymbol c name with
    | none => simp [genExpr, genIdentifier, bind_run, hs] at h
    | some sym => exact ⟨_, .identifier hs⟩
  | .unary op e, h =>
    by_cases hop : op = .uAddr
    · subst hop
      rw [genExpr, genUnary, if_pos rfl] at h
      cases e with
      | identifier name =>
        cases hs : findSymbol c name with
        | none => simp [genAddr, bind_run, hs] at h
        | some sym => exact ⟨_, .addr hs⟩
      | _ => simp [genAddr] at h
    · rw [genExpr, genUnary, if_neg hop] at h
      rw [bind_eq_ok] at h
      obtain ⟨r₁, r₂, h₁, h₂, _⟩ := h
      obtain ⟨items, he⟩ := genExpr_code h₁
      obtain ⟨is, his⟩ := genUnaryOp_eq_ok h₂
      exact ⟨_, .unary his he⟩
  | .binary op left right, h =>
    rw [genExpr, genBinary] at h
    rw [bind_eq_ok] at h
    obtain ⟨r₁, _, h₁, h, _⟩ := h
    obtain ⟨items, hl⟩ := genExpr_code h₁
    obtain rfl := Except.ok.inj (h₁.symm.trans hl.gen)
    rw [exprRun_expr] at h
    rw [bind_eq_ok] at h
    obtain ⟨_, _, hp, h, _⟩ := h
    simp at hp
    subst hp
    rw [bind_eq_ok] at h
    obtain ⟨r₂, _, h₂, h, _⟩ := h
    obtain ⟨items', hr⟩ := genExpr_code h₂
    exact ⟨_, .binary hl hr⟩
  | .call callee args, h =>
    rw [genExpr] at h
    obtain ⟨hn, r', hargs⟩ := genCall_eq_ok h
    obtain ⟨items, ha⟩ := genArgs_code hargs
    by_cases heven : c.pushDepth % 2 = 0
    · rw [if_pos heven] at ha
      exact ⟨_, .call hn heven ha⟩
    · rw [if_neg heven] at ha
      exact ⟨_, .callPad hn heven ha⟩
  | .assign target val, h =>
    cases target with
    | identifier name =>
      rw [genExpr, genAssign] at h
      rw [bind_eq_ok] at h
      obtain ⟨r₁, _, h₁, h, _⟩ := h
      obtain ⟨items, hv⟩ := genExpr_code h₁
      obtain rfl := Except.ok.inj (h₁.symm.trans hv.gen)
      rw [exprRun_expr] at h
      cases hs : findSymbol c name with
      | none => simp [bind_run, hs] at h
      | some sym => exact ⟨_, .assign hv hs⟩
    | _ => simp [genExpr, genAssign] at h
  | .cast v inner, h =>
    rw [genExpr, genCast] at h
    obtain ⟨items, hi⟩ := genExpr_code h
    exact ⟨_, .cast hi⟩
  | .index target idx, h => simp [genExpr] at h

theorem genArgs_code {es : List Expr} {c : AsmCtx} {r : Emitted AsmCtx Item Unit}
    (h : genArgs es c = .ok r) : ∃ items, ExprCode c (.exprs es) items := by
  match es, h with
  | [], _ => exact ⟨_, .argsNil⟩
  | e :: es, h =>
    rw [genArgs] at h
    rw [bind_eq_ok] at h
    obtain ⟨r₁, _, h₁, h, _⟩ := h
    obtain ⟨items, he⟩ := genExpr_code h₁
    obtain rfl := Except.ok.inj (h₁.symm.trans he.gen)
    rw [exprRun_expr] at h
    rw [bind_eq_ok] at h
    obtain ⟨_, r₂, hp, h₂, _⟩ := h
    simp at hp
    subst hp
    obtain ⟨items', hes⟩ := genArgs_code h₂
    exact ⟨_, .argsCons he hes⟩

end

/-- **The generator prints the code of the expression**, and leaves the context as it was. -/
theorem genExpr_iff {e : Expr} {c : AsmCtx} {r : Emitted AsmCtx Item Unit} :
    genExpr e c = .ok r ↔ ExprCode c (.expr e) r.items ∧ r = ⟨(), c, r.items, []⟩ := by
  constructor
  · intro h
    obtain ⟨items, hcode⟩ := genExpr_code h
    have hrun := hcode.gen
    rw [genPhrase, exprRun_expr, h] at hrun
    obtain rfl := Except.ok.inj hrun
    exact ⟨hcode, rfl⟩
  · rintro ⟨hcode, hr⟩
    have hrun := hcode.gen
    rw [genPhrase, exprRun_expr] at hrun
    rw [hrun, ← hr]

/-! ## Statements -/

/-- The context with more labels taken. -/
def AsmCtx.withLabels (c : AsmCtx) (n : Nat) : AsmCtx := { c with labelCount := n }

/-- The code of a statement, or of the nodes of a block: the context behind it, the lines, and the
contexts at the statement boundaries. -/
inductive StmtCode : AsmCtx → StmtPhrase → AsmCtx → List Item → List AsmCtx → Prop
  | comment {c : AsmCtx} {text : CString} : StmtCode c (.stmt (.comment text)) c [] []
  | expr {c : AsmCtx} {e : Expr} {items : List Item} (he : ExprCode c (.expr e) items) :
      StmtCode c (.stmt (.expr e)) c items []
  | returnStmt {c : AsmCtx} {e : Expr} {n : Nat} {items : List Item}
      (he : ExprCode c (.expr e) items) (hn : c.epilogueLabel = some n) :
      StmtCode c (.stmt (.returnStmt e)) c (items ++ [c.item (.jmp n)]) []
  | uninit {c : AsmCtx} {name : CString} {type : VarT} (hstk : c.scopeStk ≠ []) :
      StmtCode c (.stmt (.varDecl ⟨name, type, none⟩)) (c.declare name type) [] []
  | init {c : AsmCtx} {name : CString} {type : VarT} {e : Expr} {items : List Item}
      (hstk : c.scopeStk ≠ []) (he : ExprCode (c.declare name type) (.expr e) items) :
      StmtCode c (.stmt (.varDecl ⟨name, type, some e⟩)) (c.declare name type)
        (items ++ [c.item (.mov (.reg .rax) (.mem .rbp (c.curOffset - 8)))]) []
  | ifThen {c c' : AsmCtx} {cond : Expr} {nodes : List Stmt} {items items' : List Item}
      {marks : List AsmCtx}
      (hc : ExprCode (c.withLabels (c.labelCount + 2)) (.expr cond) items)
      (hb : StmtCode (c.withLabels (c.labelCount + 2)) (.stmt (.block nodes)) c' items' marks) :
      StmtCode c (.stmt (.ifStmt cond nodes none)) c'
        (items ++ c.itemsOf [.cmp (.imm 0) (.reg .rax), .je c.labelCount] ++ items' ++
          [c.item (.jmp (c.labelCount + 1)), ⟨0, c.pushDepth, .label c.labelCount⟩,
            ⟨0, c.pushDepth, .label (c.labelCount + 1)⟩]) marks
  | ifElse {c c' c'' : AsmCtx} {cond : Expr} {nodes nodes' : List Stmt}
      {items items' items'' : List Item} {marks marks' : List AsmCtx}
      (hc : ExprCode (c.withLabels (c.labelCount + 2)) (.expr cond) items)
      (hb : StmtCode (c.withLabels (c.labelCount + 2)) (.stmt (.block nodes)) c' items' marks)
      (hb' : StmtCode c' (.stmt (.block nodes')) c'' items'' marks') :
      StmtCode c (.stmt (.ifStmt cond nodes (some nodes'))) c''
        (items ++ c.itemsOf [.cmp (.imm 0) (.reg .rax), .je c.labelCount] ++ items' ++
          [c.item (.jmp (c.labelCount + 1)), ⟨0, c.pushDepth, .label c.labelCount⟩] ++ items'' ++
          [⟨0, c.pushDepth, .label (c.labelCount + 1)⟩]) (marks ++ marks')
  | block {c c' : AsmCtx} {nodes : List Stmt} {items : List Item} {marks : List AsmCtx}
      (hn : StmtCode c.enter (.nodes nodes) c' items marks) :
      StmtCode c (.stmt (.block nodes)) (c.withLabels c'.labelCount) items marks
  | nil {c : AsmCtx} : StmtCode c (.nodes []) c [] [c]
  | cons {c c' c'' : AsmCtx} {s : Stmt} {nodes : List Stmt} {items items' : List Item}
      {marks marks' : List AsmCtx} (hs : StmtCode c (.stmt s) c' items marks)
      (hn : StmtCode c' (.nodes nodes) c'' items' marks') :
      StmtCode c (.nodes (s :: nodes)) c'' (items ++ items') (c :: marks ++ marks')

/-- What a statement leaves of the context: everything but new symbols in the innermost scope, their
slots and the labels taken. -/
structure AsmCtx.Extends (c c' : AsmCtx) : Prop where
  indent : c'.indent = c.indent
  pushDepth : c'.pushDepth = c.pushDepth
  epilogueLabel : c'.epilogueLabel = c.epilogueLabel
  scopeStk : c.scopeStk ≠ [] → ∃ s s' scopes, c.scopeStk = s :: scopes ∧
    c'.scopeStk = s' :: scopes ∧ s'.baseOffset = s.baseOffset

theorem AsmCtx.Extends.refl (c : AsmCtx) : c.Extends c := by
  refine ⟨rfl, rfl, rfl, fun hstk => ?_⟩
  cases h : c.scopeStk with
  | nil => exact absurd h hstk
  | cons s scopes => exact ⟨s, s, scopes, rfl, rfl, rfl⟩

theorem AsmCtx.Extends.trans {c c' c'' : AsmCtx} (h : c.Extends c') (h' : c'.Extends c'') :
    c.Extends c'' := by
  refine ⟨h'.indent.trans h.indent, h'.pushDepth.trans h.pushDepth,
    h'.epilogueLabel.trans h.epilogueLabel, fun hstk => ?_⟩
  obtain ⟨s, s', scopes, hs, hs', hbase⟩ := h.scopeStk hstk
  obtain ⟨t, t', scopes', ht, ht', hbase'⟩ := h'.scopeStk (by rw [hs']; simp)
  rw [hs'] at ht
  obtain ⟨rfl, rfl⟩ := List.cons.inj ht
  exact ⟨s, t', scopes, hs, ht', hbase'.trans hbase⟩

theorem AsmCtx.extends_withLabels (c : AsmCtx) (n : Nat) : c.Extends (c.withLabels n) := by
  have h := AsmCtx.Extends.refl c
  exact ⟨rfl, rfl, rfl, h.scopeStk⟩

theorem AsmCtx.extends_declare (c : AsmCtx) (name : CString) (type : VarT) :
    c.Extends (c.declare name type) := by
  cases h : c.scopeStk with
  | nil =>
    have hc : c.declare name type = c := by simp [AsmCtx.declare, h]
    rw [hc]
    exact .refl c
  | cons s scopes =>
    refine ⟨?_, ?_, ?_, fun _ => ?_⟩
    · simp [AsmCtx.declare, h]
    · simp [AsmCtx.declare, h]
    · simp [AsmCtx.declare, h]
    · exact ⟨s, s.addSymbol ⟨name, c.curOffset - 8, type, false⟩, scopes, h,
        by simp only [AsmCtx.declare, h], rfl⟩

theorem StmtCode.extends {c c' : AsmCtx} {p : StmtPhrase} {items : List Item}
    {marks : List AsmCtx} (h : StmtCode c p c' items marks) : c.Extends c' := by
  induction h with
  | comment => exact .refl _
  | expr _ => exact .refl _
  | returnStmt _ _ => exact .refl _
  | uninit _ => exact AsmCtx.extends_declare _ _ _
  | init _ _ => exact AsmCtx.extends_declare _ _ _
  | ifThen _ _ ih => exact (AsmCtx.extends_withLabels _ _).trans ih
  | ifElse _ _ _ ih ih' => exact ((AsmCtx.extends_withLabels _ _).trans ih).trans ih'
  | block _ _ => exact AsmCtx.extends_withLabels _ _
  | nil => exact .refl _
  | cons _ _ ih ih' => exact ih.trans ih'

/-- Leaving a block brings back the scopes and the offset it was entered with. -/
theorem popScope_of_extends {c c' : AsmCtx} (h : c.enter.Extends c') :
    popScope c' = .ok ⟨(), c.withLabels c'.labelCount, [], []⟩ := by
  obtain ⟨s, s', scopes, hs, hs', hbase⟩ := h.scopeStk (by simp [AsmCtx.enter])
  simp only [AsmCtx.enter, List.cons.injEq] at hs
  obtain ⟨rfl, rfl⟩ := hs
  have hb : s'.baseOffset = c.curOffset := hbase
  have h₁ : c'.indent = c.indent := h.indent
  have h₂ : c'.pushDepth = c.pushDepth := h.pushDepth
  have h₃ : c'.epilogueLabel = c.epilogueLabel := h.epilogueLabel
  simp [popScope, bind_run, hs', AsmCtx.withLabels, hb, ← h₁, ← h₂, ← h₃]

/-- The generator of a statement or of the nodes of a block. -/
def genStmtPhrase : StmtPhrase → Gen Unit
  | .stmt s => genStmt s
  | .nodes ss => genStmts ss

theorem ExprCode.genExpr {c : AsmCtx} {e : Expr} {items : List Item}
    (h : ExprCode c (.expr e) items) : ACompiler.genExpr e c = .ok ⟨(), c, items, []⟩ := by
  have hrun := h.gen
  rwa [genPhrase, exprRun_expr] at hrun

theorem genIf_run {cond : Expr} {thenBranch elseBranch : Gen Unit} {c c' c'' : AsmCtx}
    {items items' items'' : List Item} {marks marks' : List AsmCtx}
    (hc : ExprCode (c.withLabels (c.labelCount + 2)) (.expr cond) items)
    (ht : thenBranch (c.withLabels (c.labelCount + 2)) = .ok ⟨(), c', items', marks⟩)
    (hct : c.Extends c') (he : elseBranch c' = .ok ⟨(), c'', items'', marks'⟩)
    (hce : c.Extends c'') :
    genIf cond thenBranch elseBranch c = .ok ⟨(), c'',
      items ++ c.itemsOf [.cmp (.imm 0) (.reg .rax), .je c.labelCount] ++ items' ++
        [c.item (.jmp (c.labelCount + 1)), ⟨0, c.pushDepth, .label c.labelCount⟩] ++ items'' ++
        [⟨0, c.pushDepth, .label (c.labelCount + 1)⟩], marks ++ marks'⟩ := by
  have hlabels : ({ c with labelCount := c.labelCount + 1 + 1 } : AsmCtx) =
      c.withLabels (c.labelCount + 2) := rfl
  simp only [genIf, bind_run, newLabel_run, hlabels, hc.genExpr, emit_run, ht, asmRaw_run, he]
  simp [AsmCtx.itemsOf, AsmCtx.item, AsmCtx.withLabels, hct.indent, hct.pushDepth, hce.pushDepth]

/-- The code of a statement is what the generator prints. -/
theorem StmtCode.gen {c c' : AsmCtx} {p : StmtPhrase} {items : List Item} {marks : List AsmCtx}
    (h : StmtCode c p c' items marks) : genStmtPhrase p c = .ok ⟨(), c', items, marks⟩ := by
  induction h with
  | comment => simp [genStmtPhrase, genStmt]
  | expr he => rw [genStmtPhrase, genStmt, he.genExpr]
  | returnStmt he hn =>
    simp [genStmtPhrase, genStmt, genReturn, jmpEpilogue, bind_run, he.genExpr, hn]
  | uninit hstk => simp [genStmtPhrase, genStmt, genVarDecl, bind_run, defineLocal_run _ _ hstk]
  | @init c name type e items hstk he =>
    have h := AsmCtx.extends_declare c name type
    simp [genStmtPhrase, genStmt, genVarDecl, bind_run, defineLocal_run _ _ hstk, he.genExpr,
      storeLocal, AsmCtx.item, h.indent, h.pushDepth]
  | ifThen hc hb ih =>
    have hext := (AsmCtx.extends_withLabels _ _).trans hb.extends
    simp only [genStmtPhrase, genStmt] at ih ⊢
    rw [genIf_run hc ih hext (Lib.Emit.pure_run () _) hext]
    simp
  | ifElse hc hb hb' ih ih' =>
    have hext := (AsmCtx.extends_withLabels _ _).trans hb.extends
    simp only [genStmtPhrase, genStmt] at ih ih' ⊢
    rw [genIf_run hc ih hext ih' (hext.trans hb'.extends)]
  | block hn ih =>
    simp only [genStmtPhrase] at ih
    simp only [genStmtPhrase, genStmt, genBlock, bind_run, pushScope_run, ih,
      popScope_of_extends hn.extends]
    simp
  | nil => simp [genStmtPhrase, genStmts]
  | cons hs hn ih ih' =>
    simp only [genStmtPhrase] at ih ih'
    simp [genStmtPhrase, genStmts, bind_run, ih, ih']

theorem genIf_eq_ok {cond : Expr} {thenBranch elseBranch : Gen Unit} {c : AsmCtx}
    {r : Emitted AsmCtx Item Unit} (h : genIf cond thenBranch elseBranch c = .ok r) :
    ∃ items r₁ r₂, ExprCode (c.withLabels (c.labelCount + 2)) (.expr cond) items ∧
      thenBranch (c.withLabels (c.labelCount + 2)) = .ok r₁ ∧ elseBranch r₁.ctx = .ok r₂ := by
  have hlabels : ({ c with labelCount := c.labelCount + 1 + 1 } : AsmCtx) =
      c.withLabels (c.labelCount + 2) := rfl
  simp only [genIf, bind_run, newLabel_run, hlabels] at h
  cases hcond : genExpr cond (c.withLabels (c.labelCount + 2)) with
  | error e => simp [hcond] at h
  | ok r₀ =>
    obtain ⟨items, hc⟩ := genExpr_code hcond
    obtain rfl := Except.ok.inj (hcond.symm.trans hc.genExpr)
    simp only [hcond, emit_run] at h
    cases ht : thenBranch (c.withLabels (c.labelCount + 2)) with
    | error e => simp [ht] at h
    | ok r₁ =>
      simp only [ht, asmRaw_run] at h
      cases he : elseBranch r₁.ctx with
      | error e => simp [he] at h
      | ok r₂ => exact ⟨items, r₁, r₂, hc, rfl, he⟩

mutual

theorem genStmt_code {s : Stmt} {c : AsmCtx} {r : Emitted AsmCtx Item Unit}
    (h : genStmt s c = .ok r) : ∃ c' items marks, StmtCode c (.stmt s) c' items marks := by
  match s, h with
  | .comment text, _ => exact ⟨_, _, _, .comment⟩
  | .expr e, h =>
    rw [genStmt] at h
    obtain ⟨items, he⟩ := genExpr_code h
    exact ⟨_, _, _, .expr he⟩
  | .returnStmt e, h =>
    rw [genStmt, genReturn] at h
    rw [bind_eq_ok] at h
    obtain ⟨r₁, _, h₁, h, _⟩ := h
    obtain ⟨items, he⟩ := genExpr_code h₁
    obtain rfl := Except.ok.inj (h₁.symm.trans he.genExpr)
    cases hn : c.epilogueLabel with
    | none => simp [jmpEpilogue, bind_run, hn] at h
    | some n => exact ⟨_, _, _, .returnStmt he hn⟩
  | .varDecl ⟨name, type, assign⟩, h =>
    rw [genStmt, genVarDecl] at h
    rw [bind_eq_ok] at h
    obtain ⟨r₁, _, h₁, h, _⟩ := h
    obtain ⟨hstk, rfl⟩ := defineLocal_eq_ok h₁
    cases assign with
    | none => exact ⟨_, _, _, .uninit hstk⟩
    | some e =>
      simp only at h
      rw [bind_eq_ok] at h
      obtain ⟨r₂, _, h₂, _⟩ := h
      obtain ⟨items, he⟩ := genExpr_code h₂
      exact ⟨_, _, _, .init hstk he⟩
  | .block nodes, h =>
    rw [genStmt] at h
    obtain ⟨c', items, marks, hn⟩ := genBlock_code h
    exact ⟨_, _, _, .block hn⟩
  | .ifStmt cond nodes none, h =>
    rw [genStmt] at h
    obtain ⟨items, r₁, r₂, hc, ht, _⟩ := genIf_eq_ok h
    obtain ⟨c', items', marks, hn⟩ := genBlock_code ht
    exact ⟨_, _, _, .ifThen hc (.block hn)⟩
  | .ifStmt cond nodes (some nodes'), h =>
    rw [genStmt] at h
    obtain ⟨items, r₁, r₂, hc, ht, he⟩ := genIf_eq_ok h
    obtain ⟨c', items', marks, hn⟩ := genBlock_code ht
    have hrun := (StmtCode.block hn).gen
    simp only [genStmtPhrase, genStmt] at hrun
    obtain rfl := Except.ok.inj (ht.symm.trans hrun)
    obtain ⟨c'', items'', marks', hn'⟩ := genBlock_code he
    exact ⟨_, _, _, .ifElse hc (.block hn) (.block hn')⟩

theorem genBlock_code {ss : List Stmt} {c : AsmCtx} {r : Emitted AsmCtx Item Unit}
    (h : genBlock (genStmts ss) c = .ok r) :
    ∃ c' items marks, StmtCode c.enter (.nodes ss) c' items marks := by
  rw [genBlock] at h
  rw [bind_eq_ok] at h
  obtain ⟨_, _, h₁, h, _⟩ := h
  simp at h₁
  subst h₁
  rw [bind_eq_ok] at h
  obtain ⟨r₂, _, h₂, _⟩ := h
  exact genStmts_code h₂

theorem genStmts_code {ss : List Stmt} {c : AsmCtx} {r : Emitted AsmCtx Item Unit}
    (h : genStmts ss c = .ok r) : ∃ c' items marks, StmtCode c (.nodes ss) c' items marks := by
  match ss, h with
  | [], _ => exact ⟨_, _, _, .nil⟩
  | s :: ss, h =>
    rw [genStmts] at h
    rw [bind_eq_ok] at h
    obtain ⟨_, _, hmark, h, _⟩ := h
    simp at hmark
    subst hmark
    rw [bind_eq_ok] at h
    obtain ⟨r₁, _, h₁, h, _⟩ := h
    obtain ⟨c', items, marks, hs⟩ := genStmt_code h₁
    have hrun := hs.gen
    simp only [genStmtPhrase] at hrun
    obtain rfl := Except.ok.inj (h₁.symm.trans hrun)
    obtain ⟨c'', items', marks', hn⟩ := genStmts_code h
    exact ⟨_, _, _, .cons hs hn⟩

end

/-- **The generator prints the code of the statements.** -/
theorem genStmts_iff {ss : List Stmt} {c : AsmCtx} {r : Emitted AsmCtx Item Unit} :
    genStmts ss c = .ok r ↔ StmtCode c (.nodes ss) r.ctx r.items r.marks := by
  constructor
  · intro h
    obtain ⟨c', items, marks, hcode⟩ := genStmts_code h
    have hrun := hcode.gen
    simp only [genStmtPhrase] at hrun
    obtain rfl := Except.ok.inj (h.symm.trans hrun)
    exact hcode
  · intro hcode
    exact hcode.gen

/-! ## Functions -/

/-- The context after the parameters are declared. -/
def AsmCtx.declareParams (c : AsmCtx) : List FuncParam → AsmCtx
  | [] => c
  | p :: params => (c.declare p.ident p.type).declareParams params

/-- The spills of the parameters, from the given registers. -/
def AsmCtx.paramItems (c : AsmCtx) : List RegId → List FuncParam → List Item
  | id :: ids, p :: params =>
    c.item (.mov (.reg id) (.mem .rbp (c.curOffset - 8))) ::
      (c.declare p.ident p.type).paramItems ids params
  | _, _ => []

theorem declare_item (c : AsmCtx) (name : CString) (type : VarT) (i : Instr) :
    (c.declare name type).item i = c.item i := by
  have h := AsmCtx.extends_declare c name type
  rw [AsmCtx.item, AsmCtx.item, h.indent, h.pushDepth]

theorem declare_scopeStk {c : AsmCtx} (name : CString) (type : VarT) (hstk : c.scopeStk ≠ []) :
    (c.declare name type).scopeStk ≠ [] := by
  obtain ⟨_, _, _, _, h, _⟩ := (AsmCtx.extends_declare c name type).scopeStk hstk
  rw [h]
  simp

theorem genParams_run : ∀ (params : List FuncParam) (i : Nat) {c : AsmCtx}, c.scopeStk ≠ [] →
    i + params.length ≤ 6 → genParams i params c =
      .ok ⟨(), c.declareParams params, c.paramItems (argRegs.drop i) params, []⟩ := by
  intro params
  induction params with
  | nil =>
    intro i c hstk hlen
    cases h : argRegs.drop i <;> simp [genParams, AsmCtx.declareParams, AsmCtx.paramItems]
  | cons p params ih =>
    intro i c hstk hlen
    rw [List.length_cons] at hlen
    have hi : i < argRegs.length := by
      simp only [argRegs, List.length_cons, List.length_nil]
      omega
    have hrun := ih (i + 1) (declare_scopeStk p.ident p.type hstk) (by omega)
    rw [List.drop_eq_getElem_cons hi]
    simp [genParams, bind_run, defineLocal_run _ _ hstk, List.getElem?_eq_getElem hi, hrun,
      AsmCtx.declareParams, AsmCtx.paramItems, declare_item]

/-- A seventh parameter reads past `arg_regs`. -/
theorem genParams_eq_ok : ∀ (params : List FuncParam) (i : Nat) {c : AsmCtx}
    {r : Emitted AsmCtx Item Unit}, i ≤ 6 → genParams i params c = .ok r →
      i + params.length ≤ 6 := by
  intro params
  induction params with
  | nil => intro i c r hi _; simpa using hi
  | cons p params ih =>
    intro i c r hi h
    rw [genParams] at h
    rw [bind_eq_ok] at h
    obtain ⟨_, _, hsym, h, _⟩ := h
    obtain ⟨_, rfl⟩ := defineLocal_eq_ok hsym
    cases hid : argRegs[i]? with
    | none => simp [hid] at h
    | some id =>
      have hlt : i < argRegs.length := (List.getElem?_eq_some_iff.mp hid).1
      simp only [argRegs, List.length_cons, List.length_nil] at hlt
      simp only [hid] at h
      rw [bind_eq_ok] at h
      obtain ⟨_, _, hmov, h, _⟩ := h
      have hrec := ih (i + 1) (by omega) h
      rw [List.length_cons]
      omega

/-- The context before the scope of a function is pushed. -/
def AsmCtx.funcCtx (c : AsmCtx) : AsmCtx :=
  { c with
    indent := 4
    labelCount := c.labelCount + 1
    epilogueLabel := some c.labelCount
    curOffset := 0
    pushDepth := 0 }

/-- The context in which the body of a function is generated. -/
def AsmCtx.bodyCtx (c : AsmCtx) (decl : FuncDecl) : AsmCtx :=
  c.funcCtx.enter.declareParams decl.params

/-- The lines before the body, up to the spills of the parameters. -/
def prologueItems (decl : FuncDecl) (c : AsmCtx) : List Item :=
  [⟨0, c.pushDepth, .globl decl.ident⟩, ⟨0, c.pushDepth, .symbol decl.ident⟩,
    ⟨4, c.pushDepth, .instr (.push (.reg .rbp))⟩,
    ⟨4, c.pushDepth, .instr (.mov (.reg .rsp) (.reg .rbp))⟩] ++
  if computeFrameSize decl > 0 then
    [⟨4, c.pushDepth, .instr (.sub (.imm (computeFrameSize decl)) (.reg .rsp))⟩]
  else []

/-- The spills of the parameters of a function. -/
def spillItems (decl : FuncDecl) : List Item :=
  AsmCtx.paramItems ⟨4, [newScope 0], 0, 0, 0, none⟩ argRegs decl.params

/-- The lines behind the body. -/
def epilogueItems (label : Nat) : List Item :=
  [⟨0, 0, .label label⟩, ⟨4, 0, .instr (.mov (.reg .rbp) (.reg .rsp))⟩,
    ⟨4, 0, .instr (.pop (.reg .rbp))⟩, ⟨4, 0, .instr .ret⟩]

/-- Parameters move the offset only. -/
theorem declareParams_extends (params : List FuncParam) : ∀ c : AsmCtx,
    c.Extends (c.declareParams params) := by
  induction params with
  | nil => exact fun c => .refl c
  | cons p params ih => exact fun c => (AsmCtx.extends_declare c p.ident p.type).trans (ih _)

theorem declare_labelCount (c : AsmCtx) (name : CString) (type : VarT) :
    (c.declare name type).labelCount = c.labelCount := by
  cases h : c.scopeStk <;> simp [AsmCtx.declare, h]

theorem declare_curOffset {c : AsmCtx} (name : CString) (type : VarT) (hstk : c.scopeStk ≠ []) :
    (c.declare name type).curOffset = c.curOffset - 8 := by
  cases h : c.scopeStk with
  | nil => exact absurd h hstk
  | cons s scopes => simp [AsmCtx.declare, h]

/-- The spills depend on the offset and on how the lines are printed only. -/
theorem paramItems_congr (params : List FuncParam) : ∀ (ids : List RegId) {c c' : AsmCtx},
    c.scopeStk ≠ [] → c'.scopeStk ≠ [] → c.indent = c'.indent → c.pushDepth = c'.pushDepth →
      c.curOffset = c'.curOffset → c.paramItems ids params = c'.paramItems ids params := by
  induction params with
  | nil => intro ids c c' _ _ _ _ _; cases ids <;> rfl
  | cons p params ih =>
    intro ids c c' hstk hstk' hindent hdepth hoffset
    cases ids with
    | nil => rfl
    | cons id ids =>
      have h := AsmCtx.extends_declare c p.ident p.type
      have h' := AsmCtx.extends_declare c' p.ident p.type
      have hrec := ih ids (declare_scopeStk p.ident p.type hstk)
        (declare_scopeStk p.ident p.type hstk') (by rw [h.indent, h'.indent, hindent])
        (by rw [h.pushDepth, h'.pushDepth, hdepth])
        (by rw [declare_curOffset _ _ hstk, declare_curOffset _ _ hstk', hoffset])
      rw [AsmCtx.paramItems, AsmCtx.paramItems, hrec, AsmCtx.item, AsmCtx.item, hindent, hdepth,
        hoffset]

/-- The context a function leaves behind. -/
def AsmCtx.afterFunc (c : AsmCtx) (n : Nat) : AsmCtx :=
  { c with indent := 4, labelCount := n, epilogueLabel := none, curOffset := 0, pushDepth := 0 }

theorem genPrologue_run (decl : FuncDecl) (c : AsmCtx) :
    genPrologue decl c = .ok ⟨(), { c with indent := 4 }, prologueItems decl c, []⟩ := by
  by_cases h : computeFrameSize decl > 0
  · simp [genPrologue, bind_run, h, prologueItems, AsmCtx.item]
  · simp [genPrologue, bind_run, h, prologueItems, AsmCtx.item]

theorem genFuncDecl_run {decl : FuncDecl} {c c' : AsmCtx} {body : List Item}
    {marks : List AsmCtx} (hparams : decl.params.length ≤ 6)
    (hbody : StmtCode (c.bodyCtx decl) (.nodes decl.block) c' body marks) :
    genFuncDecl decl c = .ok ⟨(), c.afterFunc c'.labelCount,
      prologueItems decl c ++ spillItems decl ++ body ++ epilogueItems c.labelCount, marks⟩ := by
  have hstk : c.funcCtx.enter.scopeStk ≠ [] := by simp [AsmCtx.enter]
  have hp := genParams_run decl.params 0 hstk (by omega)
  have hspill : c.funcCtx.enter.paramItems (argRegs.drop 0) decl.params = spillItems decl :=
    paramItems_congr decl.params _ hstk (by simp) rfl rfl rfl
  rw [hspill] at hp
  have hext : c.funcCtx.enter.Extends c' := (declareParams_extends decl.params _).trans hbody.extends
  have hpop := popScope_of_extends hext
  have hb : genStmts decl.block (c.funcCtx.enter.declareParams decl.params) =
    .ok ⟨(), c', body, marks⟩ := hbody.gen
  have hc₀ : ({ c with
    indent := 4
    labelCount := c.labelCount + 1
    epilogueLabel := some c.labelCount
    curOffset := 0
    pushDepth := 0 } : AsmCtx) = c.funcCtx := rfl
  have hindent : c'.indent = 4 := hext.indent
  have hdepth : c'.pushDepth = 0 := hext.pushDepth
  have hset : ({ c' with indent := 4 } : AsmCtx) = c' := by rw [← hindent]
  simp only [genFuncDecl, bind_run, genPrologue_run, newLabel_run, Lib.Emit.modify_run, hc₀,
    pushScope_run, hp, hb, genEpilogue, asmRaw_run, setIndent_run, hset, emit_run, hpop]
  simp [epilogueItems, AsmCtx.item, hindent, hdepth, AsmCtx.afterFunc, AsmCtx.withLabels,
    AsmCtx.funcCtx]

/-- **What a function compiles to**: at most six parameters, and the code of its body between the
prologue and the epilogue. -/
theorem genFuncDecl_eq_ok {decl : FuncDecl} {c : AsmCtx} {r : Emitted AsmCtx Item Unit}
    (h : genFuncDecl decl c = .ok r) :
    decl.params.length ≤ 6 ∧ ∃ c' body, StmtCode (c.bodyCtx decl) (.nodes decl.block) c' body r.marks ∧
      r = ⟨(), c.afterFunc c'.labelCount,
        prologueItems decl c ++ spillItems decl ++ body ++ epilogueItems c.labelCount, r.marks⟩ := by
  have hparams : decl.params.length ≤ 6 ∧ ∃ r', genStmts decl.block (c.bodyCtx decl) = .ok r' := by
    rw [genFuncDecl] at h
    rw [bind_eq_ok] at h
    obtain ⟨_, _, hpro, h, _⟩ := h
    obtain rfl := Except.ok.inj ((genPrologue_run decl c).symm.trans hpro)
    rw [bind_eq_ok] at h
    obtain ⟨_, _, hlabel, h, _⟩ := h
    simp at hlabel
    subst hlabel
    rw [bind_eq_ok] at h
    obtain ⟨_, _, hmod, h, _⟩ := h
    simp at hmod
    subst hmod
    rw [bind_eq_ok] at h
    obtain ⟨_, _, hpush, h, _⟩ := h
    simp at hpush
    subst hpush
    rw [bind_eq_ok] at h
    obtain ⟨_, _, hp, h, _⟩ := h
    have hlen := genParams_eq_ok decl.params 0 (by omega) hp
    have hrun := genParams_run decl.params 0 (c := c.funcCtx.enter) (by simp [AsmCtx.enter]) hlen
    obtain rfl := Except.ok.inj (hrun.symm.trans hp)
    rw [bind_eq_ok] at h
    obtain ⟨r', _, hb, _⟩ := h
    exact ⟨by omega, r', hb⟩
  obtain ⟨hlen, r', hb⟩ := hparams
  obtain ⟨c', body, marks, hcode⟩ := genStmts_code hb
  have hrun := genFuncDecl_run hlen hcode
  obtain rfl := Except.ok.inj (hrun.symm.trans h)
  exact ⟨hlen, c', body, hcode, rfl⟩

end ACompiler
