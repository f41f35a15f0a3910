import ACompiler.Correct.Function
import ACompiler.Machine.Linked
import ACompiler.Semantics.Program

/-!
# Expressions of a linked program

The code of an expression, calls included, computes what the interpreter evaluates, if the calls do
what the interpreter says they do (`ExprCode.realises`): the value ends up in `%rax`, the memory holds
the new store, and the stack above is as it was.
-/

namespace ACompiler

open Lib (Word Mem)
open Lib.Mem (load64 store64 InCell Apart)

/-- The cells of the globals hold their values. -/
structure GlobalsIn (sym : CString → Word) (gs : List CString) (m : Mem)
    (g : CString → Option Word) : Prop where
  holds : ∀ x, g x = if x ∈ gs then some (load64 m (sym x)) else none

/-- From its stack pointer on, the memory of `s'` is that of `s`, but for the frame under `base` and
the globals. -/
def KeepsOver (sym : CString → Word) (gs : List CString) (base : Word) (frame : Nat)
    (s s' : State) : Prop :=
  ∀ x : Word, (s.regs .rsp).toNat ≤ x.toNat →
    ¬ (base.toNat ≤ x.toNat + frame ∧ x.toNat < base.toNat) → (∀ y ∈ gs, ¬ InCell (sym y) x) →
      s'.mem x = s.mem x

/-- A call comes back with the result and the globals of the interpreter, on a stack with so many
bytes left. -/
def Serves (I : Image) (prog : List Line) (gs : List CString) (callee : Callees)
    (bytes lo top : Nat) : Prop :=
  ∀ {f : CString} {vs : List Word} {g g' : CString → Option Word} {v : Word} {s : State}
    {k : List Line}, callee f vs g = some (v, g') → .instr (.call f) :: k <:+ prog → ArgsIn s vs →
      GlobalsIn I.sym gs s.mem g → lo + bytes ≤ (s.regs .rsp).toNat →
        (s.regs .rsp).toNat ≤ top →
          ∃ s', LinkedSteps I prog ⟨s, .instr (.call f) :: k⟩ ⟨s', k⟩ ∧ Returns I.sym gs s s' v g'

def evalPhraseIn (callee : Callees) : Phrase → Store → Option (List Word × Store)
  | .expr e, σ => (evalExprIn callee e σ).map fun r => ([r.1], r.2)
  | .exprs es, σ => evalArgsIn callee es σ

/-- The code of a phrase has run from `s` to `s'`, with the values `vs` and the store `σ'`. -/
structure Computed (sym : CString → Word) (gs : List CString) (base : Word) (frame : Nat)
    (c : AsmCtx) (p : Phrase) (s s' : State) (vs : List Word) (σ' : Store) : Prop where
  rep : Rep sym gs base c σ' s'.mem
  rbp : s'.regs .rbp = base
  rsp : s'.regs .rsp = s.regs .rsp - BitVec.ofNat 64 (8 * p.pushes)
  delivers : Delivers p s' vs
  keeps : KeepsOver sym gs base frame s s'

/-! ## The stack and the store -/

section memory
variable {sym : CString → Word} {gs : List CString} {base : Word} {frame lo : Nat} {c : AsmCtx}
  {s s' s'' : State} {σ : Store}

theorem KeepsOver.trans (h : KeepsOver sym gs base frame s s')
    (h' : KeepsOver sym gs base frame s' s'')
    (hle : (s'.regs .rsp).toNat ≤ (s.regs .rsp).toNat) : KeepsOver sym gs base frame s s'' := by
  intro x hx hframe hgs
  rw [h' x (by omega) hframe hgs, h x hx hframe hgs]

/-- A word on the stack is still there behind code that keeps it. -/
theorem KeepsOver.load (h : KeepsOver sym gs base frame s s') (hl : Layout sym gs base frame lo)
    {a : Word} (hlo : lo ≤ a.toNat) (hrsp : (s.regs .rsp).toNat ≤ a.toNat)
    (hhi : a.toNat + 8 + frame ≤ base.toNat) : load64 s'.mem a = load64 s.mem a := by
  have hlt := base.isLt
  refine Lib.Mem.load64_congr fun x hx => ?_
  rw [inCell_iff (by omega)] at hx
  exact h x (by omega) (by omega) fun y hy hcell => hl.outside y hy x hcell ⟨by omega, by omega⟩

/-- A push below the frame. -/
theorem Rep.pushed (hl : Layout sym gs base frame lo) (hc : Scoped gs frame c)
    (h : Rep sym gs base c σ s.mem) (hlo : lo + 8 ≤ (s.regs .rsp).toNat)
    (hhi : (s.regs .rsp).toNat + frame ≤ base.toNat) : Rep sym gs base c σ s.pushed.mem := by
  have hframe := hc.frame
  refine h.congr hl hc (base.toNat - frame) (by omega) fun x hx => ?_
  rw [pushed_eq_pushWord]
  exact pushWord_mem (by omega) (by omega)

theorem keepsOver_pushed (h : 8 ≤ (s.regs .rsp).toNat) : KeepsOver sym gs base frame s s.pushed := by
  intro x hx _ _
  rw [pushed_eq_pushWord]
  exact pushWord_mem h (by omega)

theorem slots_congr {m m' : Mem} {vs : List Symbol} {bs : List (CString × Option Word)}
    (h : List.Forall₂ (SlotHolds m base) vs bs)
    (hm : ∀ v ∈ vs, load64 m' (slotAddr base v) = load64 m (slotAddr base v)) :
    List.Forall₂ (SlotHolds m' base) vs bs := by
  induction h with
  | nil => exact .nil
  | @cons v b vs bs hvb _ ih =>
    refine .cons ⟨hvb.1, fun w hw => ?_⟩ (ih fun u hu => hm u (List.mem_cons_of_mem _ hu))
    rw [hm v List.mem_cons_self]
    exact hvb.2 w hw

/-- Behind a call the locals are as before, and the globals are those the callee leaves. -/
theorem Rep.called (hl : Layout sym gs base frame lo) (hc : Scoped gs frame c)
    (h : Rep sym gs base c σ s.mem) (hrsp : (s.regs .rsp).toNat + frame ≤ base.toNat)
    {v : Word} {g : CString → Option Word} (hret : Returns sym gs s s' v g) :
    Rep sym gs base c { σ with globals := g } s'.mem := by
  have hframe := hc.frame
  have hbottom := hl.bottom_le hc
  refine ⟨slots_congr h.locals fun w hw => Lib.Mem.load64_congr fun x hx => ?_, hret.globals⟩
  obtain ⟨hlow, _⟩ := hc.slots.bounds w hw
  have hbytes := (inCell_slot hc.slots (by omega) hw x).mp hx
  exact hret.mem x (by omega) fun y hy hcell => (hl.slot_apart hc hw hy).not_inCell hx hcell

theorem Scoped.withDepth (hc : Scoped gs frame c) (d : Int) : Scoped gs frame (c.withDepth d) :=
  ⟨⟨hc.names.locals, hc.names.globals, hc.names.others⟩,
    ⟨hc.slots.bounds, hc.slots.distinct, hc.slots.offset⟩, hc.frame⟩

theorem Rep.withDepth {m : Mem} (d : Int) (h : Rep sym gs base c σ m) :
    Rep sym gs base (c.withDepth d) σ m :=
  ⟨h.locals, h.globals⟩

theorem Rep.of_withDepth {m : Mem} {d : Int} (h : Rep sym gs base (c.withDepth d) σ m) :
    Rep sym gs base c σ m :=
  ⟨h.locals, h.globals⟩

end memory

/-! ## Expressions -/

/-- The code of a phrase computes what the interpreter evaluates. -/
def Realises (I : Image) (prog : List Line) (gs : List CString) (callee : Callees)
    (bytes lo : Nat) (base : Word) (frame : Nat) (c : AsmCtx) (p : Phrase) (items : List Item) :
    Prop :=
  ∀ {σ σ' : Store} {vs : List Word} {s : State} {k : List Line},
    evalPhraseIn callee p σ = some (vs, σ') → codeOf items ++ k <:+ prog →
      Rep I.sym gs base c σ s.mem → s.regs .rbp = base →
        lo + bytes + 8 * p.need ≤ (s.regs .rsp).toNat → (s.regs .rsp).toNat + frame ≤ base.toNat →
          ∃ s', LinkedSteps I prog ⟨s, codeOf items ++ k⟩ ⟨s', k⟩ ∧
            Computed I.sym gs base frame c p s s' vs σ'

section exprs
variable {I : Image} {prog : List Line} {gs : List CString} {callee : Callees}
  {bytes lo frame : Nat} {base : Word} {c : AsmCtx} {items items' : List Item}

theorem evalPhraseIn_expr {e : Expr} {σ σ' : Store} {vs : List Word}
    (h : evalPhraseIn callee (.expr e) σ = some (vs, σ')) :
    ∃ v, vs = [v] ∧ evalExprIn callee e σ = some (v, σ') := by
  obtain ⟨⟨v, σ''⟩, he, heq⟩ := Option.map_eq_some_iff.mp h
  obtain ⟨rfl, rfl⟩ := Prod.mk.inj heq
  exact ⟨v, rfl, he⟩

/-- An instruction that only writes `%rax`. -/
theorem Computed.of_set {e : Expr} {σ : Store} {s : State} {v : Word}
    (hrep : Rep I.sym gs base c σ s.mem) (hbp : s.regs .rbp = base) :
    Computed I.sym gs base frame c (.expr e) s (s.set .rax v) [v] σ where
  rep := hrep
  rbp := by simp [State.set_regs, hbp]
  rsp := by simp [State.set_regs, Phrase.pushes]
  delivers := by simp [Delivers]
  keeps := fun _ _ _ _ => rfl

theorem realises_literal (lit : LiteralExpr) :
    Realises I prog gs callee bytes lo base frame c (.expr (.literal lit))
      [c.item (.mov (.imm lit.numValue) (.reg .rax))] := by
  intro σ σ' vs s k heval _ hrep hbp _ _
  obtain ⟨v, rfl, he⟩ := evalPhraseIn_expr heval
  rw [evalExprIn] at he
  by_cases hstr : lit.strValue.isNone = true
  · rw [if_pos hstr] at he
    obtain ⟨rfl, rfl⟩ := Prod.mk.inj (Option.some.inj he)
    exact ⟨_, linkedSteps_instr rfl k, .of_set hrep hbp⟩
  · rw [if_neg hstr] at he
    exact absurd he (by simp)

theorem realises_identifier {name : CString} {v : Symbol} (hc : Scoped gs frame c)
    (hv : findSymbol c name = some v) :
    Realises I prog gs callee bytes lo base frame c (.expr (.identifier name))
      [c.item (readInstr v name)] := by
  intro σ σ' vs s k heval _ hrep hbp _ _
  obtain ⟨w, rfl, he⟩ := evalPhraseIn_expr heval
  rw [evalExprIn, Option.map_eq_some_iff] at he
  obtain ⟨w', hread, heq⟩ := he
  obtain ⟨rfl, rfl⟩ := Prod.mk.inj heq
  obtain ⟨a, ha, rfl⟩ := hrep.read hc hread
  obtain ⟨a', ha', hexec⟩ := exec_read I.sym hv s
  rw [hbp] at ha'
  obtain rfl := Option.some.inj (ha'.symm.trans ha)
  exact ⟨_, linkedSteps_instr hexec k, .of_set hrep hbp⟩

theorem realises_unary {op : UnaryOp} {e : Expr} {is : List Instr} (hop : unaryInstrs op = some is)
    (ih : Realises I prog gs callee bytes lo base frame c (.expr e) items) :
    Realises I prog gs callee bytes lo base frame c (.expr (.unary op e))
      (items ++ c.itemsOf is) := by
  intro σ σ' vs s k heval hk hrep hbp hlo hhi
  obtain ⟨v, rfl, hunary⟩ := evalPhraseIn_expr heval
  simp only [evalExprIn, Option.bind_eq_bind, Option.bind_eq_some_iff] at hunary
  obtain ⟨⟨a, σ₁⟩, he, w, hw, heq⟩ := hunary
  obtain ⟨rfl, rfl⟩ := Prod.mk.inj (Option.some.inj heq)
  have he' : evalPhraseIn callee (.expr e) σ = some ([a], σ₁) := by rw [evalPhraseIn, he]; rfl
  rw [codeOf_append, List.append_assoc] at hk ⊢
  obtain ⟨s₁, hrun, hs₁⟩ := ih he' hk hrep hbp hlo hhi
  obtain rfl : a = s₁.regs .rax := List.head_eq_of_cons_eq hs₁.delivers
  obtain ⟨w', s₂, hw', hrun₂, hcomp⟩ := execInstrs_unary I.sym (s := s₁) hop
  obtain rfl := Option.some.inj (hw'.symm.trans hw)
  refine ⟨s₂, ?_, ?_, ?_, ?_, ?_, ?_⟩
  · rw [codeOf_itemsOf] at hrun ⊢
    exact hrun.trans (linkedSteps_instrs (unaryInstrs_not_call hop) hrun₂ k)
  · rw [hcomp.mem]
    exact hs₁.rep
  · rw [hcomp.regs _ (by decide) (by decide), hs₁.rbp]
  · rw [hcomp.regs _ (by decide) (by decide), hs₁.rsp]
    rfl
  · rw [Delivers, hcomp.rax]
  · intro x hx hframe hgs
    rw [hcomp.mem, hs₁.keeps x hx hframe hgs]

/-- What a push behind an expression leaves for the code behind it. -/
theorem Computed.push {e : Expr} {σ : Store} {s s₁ : State} {v : Word} {need : Nat}
    (hl : Layout I.sym gs base frame lo) (hc : Scoped gs frame c)
    (h : Computed I.sym gs base frame c (.expr e) s s₁ [v] σ)
    (hlo : lo + bytes + 8 * (1 + need) ≤ (s.regs .rsp).toNat)
    (hhi : (s.regs .rsp).toNat + frame ≤ base.toNat) :
    Rep I.sym gs base c σ s₁.pushed.mem ∧ s₁.pushed.regs .rbp = base ∧
      (s₁.pushed.regs .rsp).toNat = (s.regs .rsp).toNat - 8 ∧
        lo + bytes + 8 * need ≤ (s₁.pushed.regs .rsp).toNat ∧
          KeepsOver I.sym gs base frame s s₁.pushed := by
  have hsp : s₁.regs .rsp = s.regs .rsp := by simpa [Phrase.pushes] using h.rsp
  have hsp' := push_room (s := s₁) (by rw [hsp]; omega)
  rw [hsp] at hsp'
  refine ⟨h.rep.pushed hl hc (by rw [hsp]; omega) (by rw [hsp]; exact hhi), ?_, hsp', by omega, ?_⟩
  · rw [pushed_regs (by decide), h.rbp]
  · exact h.keeps.trans (keepsOver_pushed (by rw [hsp]; omega)) (by rw [hsp])

theorem realises_binary (hl : Layout I.sym gs base frame lo) (hc : Scoped gs frame c)
    {op : BinaryOp} {left right : Expr}
    (ihl : Realises I prog gs callee bytes lo base frame c (.expr left) items)
    (ihr : Realises I prog gs callee bytes lo base frame (c.withDepth (c.pushDepth + 1))
      (.expr right) items') :
    Realises I prog gs callee bytes lo base frame c (.expr (.binary op left right))
      (items ++ c.item (.push (.reg .rax)) :: items' ++
        (c.withDepth (c.pushDepth + 1)).itemsOf [.mov (.reg .rax) (.reg .rcx), .pop (.reg .rax)] ++
        c.itemsOf (binaryInstrs op)) := by
  intro σ σ' vs s k heval hk hrep hbp hlo hhi
  obtain ⟨v, rfl, hbinary⟩ := evalPhraseIn_expr heval
  simp only [evalExprIn, Option.bind_eq_bind, Option.bind_eq_some_iff] at hbinary
  obtain ⟨⟨a, σ₁⟩, hleft, ⟨b, σ₂⟩, hright, w, hw, heq⟩ := hbinary
  obtain ⟨rfl, rfl⟩ := Prod.mk.inj (Option.some.inj heq)
  have hleft' : evalPhraseIn callee (.expr left) σ = some ([a], σ₁) := by
    rw [evalPhraseIn, hleft]; rfl
  have hright' : evalPhraseIn callee (.expr right) σ₁ = some ([b], σ₂) := by
    rw [evalPhraseIn, hright]; rfl
  have hneed : exprNeed (.binary op left right) = max (exprNeed left) (1 + exprNeed right) := rfl
  simp only [Phrase.need, hneed] at hlo
  rw [codeOf_binary, List.append_assoc, List.cons_append, List.append_assoc] at hk ⊢
  obtain ⟨s₁, hrun₁, hs₁⟩ := ihl hleft' hk hrep hbp (by simp only [Phrase.need]; omega) hhi
  obtain ⟨hrep₁, hbp₁, hsp₁, hlo₁, hkeeps₁⟩ :=
    @Computed.push _ _ bytes _ _ _ _ _ _ _ _ _ (exprNeed right) hl hc hs₁ (by omega) hhi
  have hk₁ := (List.suffix_cons _ _).trans ((List.suffix_append _ _).trans hk)
  obtain ⟨s₂, hrun₂, hs₂⟩ := ihr hright' hk₁ (hrep₁.withDepth _) hbp₁ hlo₁ (by omega)
  obtain rfl : a = s₁.regs .rax := List.head_eq_of_cons_eq hs₁.delivers
  obtain rfl : b = s₂.regs .rax := List.head_eq_of_cons_eq hs₂.delivers
  have hsp : s₁.regs .rsp = s.regs .rsp := by simpa [Phrase.pushes] using hs₁.rsp
  have hsp₂ : s₂.regs .rsp = s₁.regs .rsp - 8 := by simpa [Phrase.pushes] using hs₂.rsp
  -- the left operand is on top of the stack
  have hload : load64 s₂.mem (s₂.regs .rsp) = s₁.regs .rax := by
    rw [hsp₂, ← load_pushed (s := s₁)]
    rw [pushed_rsp] at hsp₁
    exact hs₂.keeps.load hl (by omega) (by rw [pushed_rsp]) (by omega)
  have hop := execInstrs_binaryTail I.sym op s₂
  rw [hload, hw] at hop
  obtain ⟨s₃, hs₃, hrax, hmem, hsp₃, hbp₃⟩ := hop
  refine ⟨s₃, ?_, ?_, ?_, ?_, ?_, ?_⟩
  · refine hrun₁.trans (.head (.inner (.instr (exec_push I.sym))) (hrun₂.trans ?_))
    exact linkedSteps_instrs (binaryTail_not_call op) hs₃ k
  · rw [hmem]
    exact hs₂.rep.of_withDepth
  · rw [hbp₃, hs₂.rbp]
  · rw [hsp₃, hsp₂, hsp]
    simp only [Phrase.pushes]
    bv_omega
  · rw [Delivers, hrax]
  · intro x hx hframe hgs
    rw [hmem, hkeeps₁.trans hs₂.keeps (by omega) x hx hframe hgs]

theorem realises_assign (hl : Layout I.sym gs base frame lo) (hc : Scoped gs frame c)
    {name : CString} {val : Expr} {v : Symbol} (hv : findSymbol c name = some v)
    (ih : Realises I prog gs callee bytes lo base frame c (.expr val) items) :
    Realises I prog gs callee bytes lo base frame c (.expr (.assign (.identifier name) val))
      (items ++ [c.item (writeInstr v name)]) := by
  intro σ σ' vs s k heval hk hrep hbp hlo hhi
  obtain ⟨w, rfl, hassign⟩ := evalPhraseIn_expr heval
  simp only [evalExprIn, Option.bind_eq_bind, Option.bind_eq_some_iff] at hassign
  obtain ⟨⟨w', σ₁⟩, hval, σ₂, hwrite, heq⟩ := hassign
  obtain ⟨rfl, rfl⟩ := Prod.mk.inj (Option.some.inj heq)
  have hval' : evalPhraseIn callee (.expr val) σ = some ([w'], σ₁) := by rw [evalPhraseIn, hval]; rfl
  rw [codeOf_append, List.append_assoc] at hk ⊢
  obtain ⟨s₁, hrun, hs₁⟩ := ih hval' hk hrep hbp hlo hhi
  obtain rfl : w' = s₁.regs .rax := List.head_eq_of_cons_eq hs₁.delivers
  obtain ⟨a, ha, hrep'⟩ := hs₁.rep.write hl hc hwrite
  obtain ⟨a', ha', hexec⟩ := exec_write I.sym hv s₁
  rw [hs₁.rbp] at ha'
  obtain rfl : a = a' := Option.some.inj (ha.symm.trans ha')
  refine ⟨_, hrun.trans (linkedSteps_instr hexec k), hrep', hs₁.rbp, hs₁.rsp, rfl, ?_⟩
  intro x hx hframe hgs
  have hcell : ¬ InCell a x := by
    have hname := findSymbol_name hv
    by_cases hg : v.isGlobal = true
    · obtain rfl : I.sym name = a := by simpa [addrOf, hv, hg] using ha
      exact hgs name (hc.names.others name v hv hg)
    · obtain rfl : slotAddr base v = a := by simpa [addrOf, hv, hg, slotAddr] using ha
      have hmem := findSymbol_mem_locals hv (by simpa using hg)
      have hbottom := hl.bottom_le hc
      have hscope := hc.frame
      obtain ⟨hlow, hhigh, _⟩ := hc.slots.bounds v hmem
      rw [inCell_slot hc.slots (by omega) hmem]
      omega
  show store64 s₁.mem a _ x = _
  rw [Lib.Mem.store64_of_not_inCell hcell, hs₁.keeps x hx hframe hgs]

theorem realises_argsCons (hl : Layout I.sym gs base frame lo) (hc : Scoped gs frame c)
    {arg : Expr} {args : List Expr}
    (ih : Realises I prog gs callee bytes lo base frame c (.expr arg) items)
    (ihs : Realises I prog gs callee bytes lo base frame (c.withDepth (c.pushDepth + 1))
      (.exprs args) items') :
    Realises I prog gs callee bytes lo base frame c (.exprs (arg :: args))
      (items ++ c.item (.push (.reg .rax)) :: items') := by
  intro σ σ' vs s k heval hk hrep hbp hlo hhi
  simp only [evalPhraseIn, evalArgsIn, Option.bind_eq_bind, Option.bind_eq_some_iff] at heval
  obtain ⟨⟨a, σ₁⟩, harg, ⟨ws, σ₂⟩, hargs, heq⟩ := heval
  obtain ⟨rfl, rfl⟩ := Prod.mk.inj (Option.some.inj heq)
  have harg' : evalPhraseIn callee (.expr arg) σ = some ([a], σ₁) := by rw [evalPhraseIn, harg]; rfl
  have hneed : argsNeed (arg :: args) = max (exprNeed arg) (1 + argsNeed args) := rfl
  simp only [Phrase.need, hneed] at hlo
  rw [codeOf_append, codeOf_cons, List.append_assoc, List.cons_append] at hk ⊢
  obtain ⟨s₁, hrun₁, hs₁⟩ := ih harg' hk hrep hbp (by simp only [Phrase.need]; omega) hhi
  obtain ⟨hrep₁, hbp₁, hsp₁, hlo₁, hkeeps₁⟩ :=
    @Computed.push _ _ bytes _ _ _ _ _ _ _ _ _ (argsNeed args) hl hc hs₁ (by omega) hhi
  have hk₁ := (List.suffix_cons _ _).trans ((List.suffix_append _ _).trans hk)
  obtain ⟨s₂, hrun₂, hs₂⟩ := ihs hargs hk₁ (hrep₁.withDepth _) hbp₁ hlo₁ (by omega)
  obtain rfl : a = s₁.regs .rax := List.head_eq_of_cons_eq hs₁.delivers
  have hsp : s₁.regs .rsp = s.regs .rsp := by simpa [Phrase.pushes] using hs₁.rsp
  obtain ⟨hlen, hholds⟩ := hs₂.delivers
  have hsp₂ : s₂.regs .rsp = s₁.regs .rsp - 8 - BitVec.ofNat 64 (8 * args.length) := by
    rw [hs₂.rsp, pushed_rsp]
    rfl
  refine ⟨s₂, hrun₁.trans (.head (.inner (.instr (exec_push I.sym))) hrun₂),
    hs₂.rep.of_withDepth, hs₂.rbp, ?_, ⟨by rw [List.length_cons, List.length_cons, hlen], ?_⟩,
    hkeeps₁.trans hs₂.keeps (by omega)⟩
  · rw [hsp₂, hsp]
    simp only [Phrase.pushes, List.length_cons]
    bv_omega
  · rw [List.reverse_cons, holds_append]
    refine ⟨hholds, ?_, trivial⟩
    have haddr : s₂.regs .rsp + BitVec.ofNat 64 (8 * ws.reverse.length) = s₁.regs .rsp - 8 := by
      rw [hsp₂, List.length_reverse, hlen]
      bv_omega
    rw [haddr, ← load_pushed (s := s₁)]
    rw [pushed_rsp] at hsp₁
    exact hs₂.keeps.load hl (by omega) (by rw [pushed_rsp]) (by omega)

/-! ## Calls -/

theorem execInstrs_pops (sym : CString → Word) (ids : List RegId) : ∀ s : State,
    ∃ s', execInstrs sym (ids.map fun id => .pop (.reg id)) s = some s' := by
  induction ids with
  | nil => exact fun s => ⟨s, rfl⟩
  | cons id ids ih =>
    intro s
    obtain ⟨s', h⟩ := ih (s.popped id)
    exact ⟨s', by rw [List.map_cons, execInstrs, exec_pop]; exact h⟩

/-- The state in front of a `call`: the arguments are in their registers, and the stack is as it was
before them. -/
structure ReadyIn (sym : CString → Word) (gs : List CString) (base : Word) (frame : Nat)
    (c : AsmCtx) (s s' : State) (vs : List Word) (σ' : Store) : Prop where
  rep : Rep sym gs base c σ' s'.mem
  rbp : s'.regs .rbp = base
  rsp : s'.regs .rsp = s.regs .rsp
  args : ArgsIn s' vs
  keeps : KeepsOver sym gs base frame s s'

theorem realises_ready {args : List Expr} {d : AsmCtx} (hn : args.length ≤ 6)
    (ih : Realises I prog gs callee bytes lo base frame c (.exprs args) items)
    {σ σ' : Store} {vs : List Word} {s : State} {k : List Line}
    (heval : evalArgsIn callee args σ = some (vs, σ'))
    (hk : codeOf (items ++ d.popItems (argRegs.take args.length).reverse) ++ k <:+ prog)
    (hrep : Rep I.sym gs base c σ s.mem) (hbp : s.regs .rbp = base)
    (hlo : lo + bytes + 8 * argsNeed args ≤ (s.regs .rsp).toNat)
    (hhi : (s.regs .rsp).toNat + frame ≤ base.toNat) :
    ∃ s', LinkedSteps I prog
        ⟨s, codeOf (items ++ d.popItems (argRegs.take args.length).reverse) ++ k⟩ ⟨s', k⟩ ∧
      ReadyIn I.sym gs base frame c s s' vs σ' := by
  rw [codeOf_append, List.append_assoc] at hk ⊢
  obtain ⟨s₁, hrun, hs₁⟩ := ih heval hk hrep hbp hlo hhi
  obtain ⟨hlen, hholds⟩ := hs₁.delivers
  have hregs : (argRegs.take args.length).reverse.length = vs.reverse.length := by
    simp only [List.length_reverse, List.length_take, argRegs, List.length_cons, List.length_nil]
    omega
  obtain ⟨s₂, hpops⟩ := execInstrs_pops I.sym (argRegs.take args.length).reverse s₁
  have hcode : codeOf (d.popItems (argRegs.take args.length).reverse) =
      ((argRegs.take args.length).reverse.map fun id => Instr.pop (.reg id)).map .instr := by
    rw [codeOf_popItems, List.map_map]
    rfl
  have hexec : Exec I.world ((argRegs.take args.length).reverse.map fun id =>
      .instr (.pop (.reg id))) s₁ [] s₂ := by
    rw [← codeOf_popItems _ d, hcode]
    exact (exec_instrs (pops_not_call _)).mpr ⟨hpops, rfl⟩
  obtain ⟨-, hmem, hsp, hzip, hother⟩ := exec_pops _ _ (argRegs_take_nodup _)
    (not_mem_argRegs_take (by decide) _) hregs hholds hexec
  refine ⟨s₂, ?_, ?_, ?_, ?_, argsIn_of_zip fun p hp => hzip p ?_, ?_⟩
  · rw [hcode] at hrun ⊢
    exact hrun.trans (linkedSteps_instrs (pops_not_call _) hpops k)
  · rw [hmem]
    exact hs₁.rep
  · rw [hother _ (not_mem_argRegs_take (by decide) _) (by decide), hs₁.rbp]
  · rw [hsp, hs₁.rsp, hregs, List.length_reverse, hlen]
    simp only [Phrase.pushes]
    bv_omega
  · rw [← hlen]
    exact mem_zip_argRegs (by omega) hp
  · intro x hx hframe hgs
    rw [hmem, hs₁.keeps x hx hframe hgs]

/-- A call with its arguments in the registers. -/
theorem ReadyIn.called {top : Nat} (hl : Layout I.sym gs base frame lo) (hc : Scoped gs frame c)
    (hserves : Serves I prog gs callee bytes lo top) {f : CString} {s s' : State} {vs : List Word}
    {v : Word} {σ : Store} {g : CString → Option Word} {k : List Line}
    (h : ReadyIn I.sym gs base frame c s s' vs σ) (hcall : callee f vs σ.globals = some (v, g))
    (hk : .instr (.call f) :: k <:+ prog) (hlo : lo + bytes ≤ (s.regs .rsp).toNat)
    (hhi : (s.regs .rsp).toNat + frame ≤ base.toNat) (htop : base.toNat ≤ top) :
    ∃ s'', LinkedSteps I prog ⟨s', .instr (.call f) :: k⟩ ⟨s'', k⟩ ∧ s''.regs .rax = v ∧
      s''.regs .rbp = base ∧ s''.regs .rsp = s.regs .rsp ∧
        Rep I.sym gs base c { σ with globals := g } s''.mem ∧
          KeepsOver I.sym gs base frame s s'' := by
  obtain ⟨s'', hrun, hret⟩ := hserves hcall hk h.args ⟨h.rep.globals⟩ (by rw [h.rsp]; exact hlo)
    (by rw [h.rsp]; omega)
  refine ⟨s'', hrun, hret.rax, hret.rbp.trans h.rbp, hret.rsp.trans h.rsp,
    h.rep.called hl hc (by rw [h.rsp]; exact hhi) hret, fun x hx hframe hgs => ?_⟩
  rw [hret.mem x (by rw [h.rsp]; exact hx) hgs, h.keeps x hx hframe hgs]

theorem realises_call {top : Nat} (hl : Layout I.sym gs base frame lo) (hc : Scoped gs frame c)
    (hserves : Serves I prog gs callee bytes lo top) (htop : base.toNat ≤ top) {f : CString}
    {args : List Expr} {d : AsmCtx} (hn : args.length ≤ 6)
    (ih : Realises I prog gs callee bytes lo base frame c (.exprs args) items) :
    Realises I prog gs callee bytes lo base frame c (.expr (.call f args))
      (items ++ d.popItems (argRegs.take args.length).reverse ++ [c.item (.call f)]) := by
  intro σ σ' vs s k heval hk hrep hbp hlo hhi
  obtain ⟨v, rfl, hcall⟩ := evalPhraseIn_expr heval
  simp only [evalExprIn, Option.bind_eq_bind, Option.bind_eq_some_iff] at hcall
  obtain ⟨⟨ws, σ₁⟩, hargs, ⟨w, g⟩, hres, heq⟩ := hcall
  obtain ⟨rfl, rfl⟩ := Prod.mk.inj (Option.some.inj heq)
  have hneed : exprNeed (.call f args) = 1 + argsNeed args := rfl
  simp only [Phrase.need, hneed] at hlo
  rw [codeOf_append, List.append_assoc] at hk ⊢
  obtain ⟨s₁, hrun₁, hs₁⟩ := realises_ready hn ih hargs hk hrep hbp (by omega) hhi
  obtain ⟨s₂, hrun₂, hrax, hbp₂, hsp₂, hrep₂, hkeeps⟩ := hs₁.called hl hc hserves hres
    ((List.suffix_append _ _).trans hk) (by omega) hhi htop
  refine ⟨s₂, hrun₁.trans hrun₂, hrep₂, hbp₂, ?_, by rw [Delivers, hrax], hkeeps⟩
  rw [hsp₂]
  simp [Phrase.pushes]

/-- With padding, the call happens eight bytes further down. -/
theorem realises_callPad {top : Nat} (hl : Layout I.sym gs base frame lo) (hc : Scoped gs frame c)
    (hserves : Serves I prog gs callee bytes lo top) (htop : base.toNat ≤ top) {f : CString}
    {args : List Expr} {d : AsmCtx} (hn : args.length ≤ 6)
    (ih : Realises I prog gs callee bytes lo base frame (c.withDepth (c.pushDepth + 1))
      (.exprs args) items) :
    Realises I prog gs callee bytes lo base frame c (.expr (.call f args))
      (c.item (.sub (.imm 8) (.reg .rsp)) :: items ++
        d.popItems (argRegs.take args.length).reverse ++
        (c.withDepth (c.pushDepth + 1)).itemsOf [.call f, .add (.imm 8) (.reg .rsp)]) := by
  intro σ σ' vs s k heval hk hrep hbp hlo hhi
  obtain ⟨v, rfl, hcall⟩ := evalPhraseIn_expr heval
  simp only [evalExprIn, Option.bind_eq_bind, Option.bind_eq_some_iff] at hcall
  obtain ⟨⟨ws, σ₁⟩, hargs, ⟨w, g⟩, hres, heq⟩ := hcall
  obtain ⟨rfl, rfl⟩ := Prod.mk.inj (Option.some.inj heq)
  have hneed : exprNeed (.call f args) = 1 + argsNeed args := rfl
  simp only [Phrase.need, hneed] at hlo
  have hcode : codeOf (c.item (.sub (.imm 8) (.reg .rsp)) :: items ++
      d.popItems (argRegs.take args.length).reverse ++
      (c.withDepth (c.pushDepth + 1)).itemsOf [.call f, .add (.imm 8) (.reg .rsp)]) ++ k =
      .instr (.sub (.imm 8) (.reg .rsp)) ::
        (codeOf (items ++ d.popItems (argRegs.take args.length).reverse) ++
          .instr (.call f) :: .instr (.add (.imm 8) (.reg .rsp)) :: k) := by
    simp
  rw [hcode] at hk ⊢
  have hk₁ := (List.suffix_cons _ _).trans hk
  have hsub : ((s.clobber.set .rsp (s.regs .rsp - 8)).regs .rsp) = s.regs .rsp - 8 :=
    State.set_regs_same _ _ _
  have hnat : (s.regs .rsp - 8).toNat = (s.regs .rsp).toNat - 8 := by bv_omega
  have hbp₀ : (s.clobber.set .rsp (s.regs .rsp - 8)).regs .rbp = base := hbp
  have hrep₀ : Rep I.sym gs base (c.withDepth (c.pushDepth + 1)) σ
      (s.clobber.set .rsp (s.regs .rsp - 8)).mem := hrep.withDepth _
  obtain ⟨s₁, hrun₁, hs₁⟩ := realises_ready hn ih hargs hk₁ hrep₀ hbp₀
    (by rw [hsub]; omega) (by rw [hsub]; omega)
  obtain ⟨s₂, hrun₂, hrax, hbp₂, hsp₂, hrep₂, hkeeps⟩ := hs₁.called hl (hc.withDepth _) hserves
    hres ((List.suffix_append _ _).trans hk₁) (by rw [hsub]; omega) (by rw [hsub]; omega) htop
  refine ⟨s₂.clobber.set .rsp (s₂.regs .rsp + 8), .head (.inner (.instr (exec_sub_rsp I.sym s)))
    (hrun₁.trans (hrun₂.trans (linkedSteps_instr (exec_add_rsp I.sym s₂) k))),
    hrep₂.of_withDepth, hbp₂, ?_, ?_, ?_⟩
  · rw [State.set_regs_same, hsp₂, hsub]
    simp only [Phrase.pushes]
    bv_omega
  · exact congrArg (fun w => [w]) hrax.symm
  · intro x hx hframe hgs
    exact hkeeps x (by rw [hsub]; omega) hframe hgs

/-! ## All expressions -/

theorem unaryVal_addr (a : Word) : unaryVal .uAddr a = none := rfl

/-- **The code of an expression computes what the interpreter evaluates**, calls included. -/
theorem ExprCode.realises {top : Nat} (hserves : Serves I prog gs callee bytes lo top)
    (htop : base.toNat ≤ top) (hl : Layout I.sym gs base frame lo) {p : Phrase}
    (hcode : ExprCode c p items) :
    Scoped gs frame c → Realises I prog gs callee bytes lo base frame c p items := by
  induction hcode with
  | literal => exact fun _ => realises_literal _
  | identifier hs => exact fun hc => realises_identifier hc hs
  | addr hs =>
    intro hc σ σ' vs s k heval
    obtain ⟨v, rfl, haddr⟩ := evalPhraseIn_expr heval
    simp only [evalExprIn, unaryVal_addr, Option.bind_eq_bind, Option.bind_eq_some_iff] at haddr
    obtain ⟨_, _, _, h, _⟩ := haddr
    exact absurd h (by simp)
  | unary hop _ ih => exact fun hc => realises_unary hop (ih hc)
  | binary _ _ ihl ihr => exact fun hc => realises_binary hl hc (ihl hc) (ihr (hc.withDepth _))
  | call hn _ _ ih => exact fun hc => realises_call hl hc hserves htop hn (ih hc)
  | callPad hn _ _ ih =>
    exact fun hc => realises_callPad hl hc hserves htop hn (ih (hc.withDepth _))
  | assign _ hs ih => exact fun hc => realises_assign hl hc hs (ih hc)
  | @cast c t inner items _ ih =>
    intro hc σ σ' vs s k heval hk hrep hbp hlo hhi
    obtain ⟨v, rfl, hcast⟩ := evalPhraseIn_expr heval
    rw [evalExprIn] at hcast
    by_cases ht : t.isQword = true
    · rw [if_pos ht] at hcast
      have hinner : evalPhraseIn callee (.expr inner) σ = some ([v], σ') := by
        rw [evalPhraseIn, hcast]; rfl
      obtain ⟨s', hrun, hs'⟩ := ih hc hinner hk hrep hbp hlo hhi
      exact ⟨s', hrun, hs'.rep, hs'.rbp, hs'.rsp, hs'.delivers, hs'.keeps⟩
    · rw [if_neg ht] at hcast
      exact absurd hcast (by simp)
  | argsNil =>
    intro hc σ σ' vs s k heval _ hrep hbp _ _
    obtain ⟨rfl, rfl⟩ := Prod.mk.inj (Option.some.inj heval)
    exact ⟨s, .refl, hrep, hbp, by simp [Phrase.pushes], ⟨rfl, trivial⟩, fun _ _ _ _ => rfl⟩
  | argsCons _ _ ih ihs =>
    exact fun hc => realises_argsCons hl hc (ih hc) (ihs (hc.withDepth _))

end exprs

end ACompiler
