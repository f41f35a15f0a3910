import ACompiler.Correct.Call

/-!
# Runs of call-free expressions

An evaluation without calls is a run of the code (`ExprCode.runs`): together with `ExprCode.sound`
this makes the code of a call-free expression mean what the expression means.
-/

namespace ACompiler

open Lib (Word Mem)
open Lib.Mem (load64 store64 InCell)

/-- An evaluation without calls writes visible cells only. -/
theorem RefEval.frame {A : CString → Option Word} {p : Phrase} {m m' : Mem} {calls : List RefCall}
    {vs : List Word} (h : RefEval A p m calls vs m') : calls = [] → ∀ x,
      (∀ name a, A name = some a → ¬ InCell a x) → m' x = m x := by
  induction h with
  | literal => exact fun _ _ _ => rfl
  | identifier _ => exact fun _ _ _ => rfl
  | addr _ => exact fun _ _ _ => rfl
  | unary _ _ ih => exact ih
  | binary _ _ _ ihl ihr =>
    intro hcalls x hx
    obtain ⟨h₁, h₂⟩ := List.append_eq_nil_iff.mp hcalls
    rw [ihr h₂ x hx, ihl h₁ x hx]
  | call _ _ =>
    intro hcalls
    exact absurd hcalls (by simp)
  | assign _ ha ih =>
    intro hcalls x hx
    rw [Lib.Mem.store64_of_not_inCell (hx _ _ ha), ih hcalls x hx]
  | cast _ ih => exact ih
  | argsNil => exact fun _ _ _ => rfl
  | argsCons _ _ iha ihs =>
    intro hcalls x hx
    obtain ⟨h₁, h₂⟩ := List.append_eq_nil_iff.mp hcalls
    rw [ihs h₂ x hx, iha h₁ x hx]

/-- Outside of the stack from `lo` to `hi` only visible cells have changed. -/
def Spares (A : CString → Option Word) (lo hi : Nat) (m m' : Mem) : Prop :=
  ∀ x : Word, ¬ (lo ≤ x.toNat ∧ x.toNat < hi) → (∀ name a, A name = some a → ¬ InCell a x) →
    m' x = m x

theorem Spares.trans {A : CString → Option Word} {lo hi : Nat} {m m' m'' : Mem}
    (h : Spares A lo hi m m') (h' : Spares A lo hi m' m'') : Spares A lo hi m m'' :=
  fun x hx hnone => (h' x hx hnone).trans (h x hx hnone)

/-- A push writes into the stack. -/
theorem spares_pushed {A : CString → Option Word} {lo hi : Nat} {s : State}
    (hlo : lo + 8 ≤ (s.regs .rsp).toNat) (hhi : (s.regs .rsp).toNat ≤ hi) :
    Spares A lo hi s.mem s.pushed.mem := by
  intro x hx _
  have hsub : (s.regs .rsp - 8).toNat = (s.regs .rsp).toNat - 8 := by bv_omega
  have hlt := (s.regs .rsp).isLt
  have hx' : ¬ InCell (s.regs .rsp - 8) x := by
    rw [inCell_iff (by omega)]
    omega
  exact Lib.Mem.store64_of_not_inCell hx'

section runs
variable {W : World} {A : CString → Option Word} {lo hi : Nat} {c : AsmCtx}
  {items items' : List Item}

/-- Every evaluation without calls is a run. -/
def Runs (W : World) (A : CString → Option Word) (lo hi : Nat) (c : AsmCtx) (p : Phrase)
    (items : List Item) : Prop :=
  ∀ {e : Expr} {s : State} {m m' : Mem} {calls : List RefCall} {vs : List Word}, p = .expr e →
    addrOf W.sym (findSymbol c) (s.regs .rbp) = A → RefEval A p m calls vs m' → calls = [] →
      AgreeOn A s.mem m → Room p lo hi s →
        ∃ s' v, Exec W (codeOf items) s [] s' ∧ Evaluates A p m s s' [] [] [v] m' ∧ vs = [v] ∧
          Spares A lo hi s.mem s'.mem

theorem exec_of_instrs {is : List Instr} (his : ∀ i ∈ is, i.isCall = false) {s s' : State}
    (h : execInstrs W.sym is s = some s') : Exec W (is.map .instr) s [] s' :=
  (exec_instrs his).mpr ⟨h, rfl⟩

theorem runs_unary {op : UnaryOp} {e : Expr} {is : List Instr} (hop : unaryInstrs op = some is)
    (ih : Runs W A lo hi c (.expr e) items) :
    Runs W A lo hi c (.expr (.unary op e)) (items ++ c.itemsOf is) := by
  intro _ s m m' calls vs _ hA heval hcalls hm hroom
  cases heval with
  | addr _ => simp [unaryInstrs] at hop
  | unary he hv =>
    obtain ⟨s₁, a, hrun, hev, ha, hspares⟩ := ih rfl hA he hcalls hm ⟨hroom.low, hroom.high⟩
    obtain ⟨rfl, -⟩ := List.cons.inj ha
    obtain ⟨w, s₂, hw, hrun₂, hmem, hev₂⟩ := Evaluates.unary (W := W) hop hev
    obtain rfl := Option.some.inj (hv.symm.trans hw)
    refine ⟨s₂, _, ?_, hev₂, rfl, by rw [hmem]; exact hspares⟩
    rw [codeOf_append, codeOf_itemsOf]
    exact hrun.append (exec_of_instrs (unaryInstrs_not_call hop) hrun₂)

theorem runs_binary (hA' : Avoids A lo hi) {op : BinaryOp} {left right : Expr}
    (ihl : Runs W A lo hi c (.expr left) items)
    (ihr : Runs W A lo hi (c.withDepth (c.pushDepth + 1)) (.expr right) items') :
    Runs W A lo hi c (.expr (.binary op left right))
      (items ++ c.item (.push (.reg .rax)) :: items' ++
        (c.withDepth (c.pushDepth + 1)).itemsOf [.mov (.reg .rax) (.reg .rcx), .pop (.reg .rax)] ++
        c.itemsOf (binaryInstrs op)) := by
  intro _ s m m' calls vs _ hA heval hcalls hm hroom
  have hlo := hroom.low
  have hneed : exprNeed (.binary op left right) = max (exprNeed left) (1 + exprNeed right) := rfl
  simp only [Phrase.need, hneed] at hlo
  cases heval with
  | binary hl hr hv =>
    obtain ⟨h₁, h₂⟩ := List.append_eq_nil_iff.mp hcalls
    obtain ⟨s₁, a, hrun₁, hev₁, ha, hspares₁⟩ := ihl rfl hA hl h₁ hm
      ⟨by simp only [Phrase.need]; omega, hroom.high⟩
    obtain ⟨rfl, -⟩ := List.cons.inj ha
    obtain ⟨hagree, hroom', _⟩ := hev₁.behind_push (p := .expr right) hA' hlo hroom.high
    obtain ⟨s₂, b, hrun₂, hev₂, hb, hspares₂⟩ := ihr rfl (by rw [pushed_regs (by decide), hev₁.rbp]; exact hA)
      hr h₂ hagree hroom'
    obtain ⟨rfl, -⟩ := List.cons.inj hb
    have hop := Evaluates.binary (W := W) hA' hev₁ hev₂ hroom
    rw [hv] at hop
    obtain ⟨s₃, hrun₃, hmem, hev₃⟩ := hop
    refine ⟨s₃, _, ?_, hev₃, rfl, ?_⟩
    · rw [codeOf_binary]
      exact hrun₁.append (.instr (exec_push W.sym)
        (hrun₂.append (exec_of_instrs (binaryTail_not_call op) hrun₃)))
    · have hsp : s₁.regs .rsp = s.regs .rsp := by simpa [Phrase.pushes] using hev₁.rsp
      have hpush : Spares A lo hi s₁.mem s₁.pushed.mem :=
        spares_pushed (by rw [hsp]; omega) (by rw [hsp]; exact hroom.high)
      rw [hmem]
      exact (hspares₁.trans hpush).trans hspares₂

theorem runs_assign {name : CString} {val : Expr} {v : Symbol}
    (ih : Runs W A lo hi c (.expr val) items) (hv : findSymbol c name = some v) :
    Runs W A lo hi c (.expr (.assign (.identifier name) val))
      (items ++ [c.item (writeInstr v name)]) := by
  intro _ s m m' calls vs _ hA heval hcalls hm hroom
  cases heval with
  | assign he ha =>
    obtain ⟨s₁, w, hrun, hev, hw, hspares⟩ := ih rfl hA he hcalls hm ⟨hroom.low, hroom.high⟩
    obtain ⟨rfl, -⟩ := List.cons.inj hw
    obtain ⟨a, s₂, hwrite, ha', hmem, hev₂⟩ := hev.assign (W := W) hv hA
    obtain rfl := Option.some.inj (ha.symm.trans ha')
    refine ⟨s₂, _, ?_, hev₂, rfl, ?_⟩
    · rw [codeOf_append]
      exact hrun.append (.instr hwrite .nil)
    · intro x hx hnone
      rw [hmem, Lib.Mem.store64_of_not_inCell (hnone name _ ha), hspares x hx hnone]

/-- **An evaluation without calls is a run of the code.** -/
theorem ExprCode.runs {p : Phrase} (hA' : Avoids A lo hi) (h : ExprCode c p items) :
    Runs W A lo hi c p items := by
  induction h with
  | literal =>
    intro _ s m m' calls vs _ _ heval _ hm _
    cases heval
    exact ⟨_, _, .instr rfl .nil, .of_set .literal hm, rfl, fun _ _ _ => rfl⟩
  | @identifier c name v hv =>
    intro _ s m m' calls vs _ hA heval _ hm _
    cases heval with
    | identifier ha =>
      obtain ⟨a, ha', hread⟩ := exec_read W.sym hv s
      rw [hA] at ha'
      obtain rfl := Option.some.inj (ha'.symm.trans ha)
      rw [← hm.load ha]
      refine ⟨_, _, .instr hread .nil, ?_, rfl, fun _ _ _ => rfl⟩
      rw [hm.load ha]
      exact .of_set (.identifier ha) hm
  | @addr c name v hv =>
    intro _ s m m' calls vs _ hA heval _ hm _
    cases heval with
    | addr ha =>
      obtain ⟨a, ha', haddr⟩ := exec_addr W.sym hv s (findSymbol_name hv)
      rw [hA] at ha'
      obtain rfl := Option.some.inj (ha'.symm.trans ha)
      exact ⟨_, _, .instr haddr .nil, .of_set (.addr ha) hm, rfl, fun _ _ _ => rfl⟩
    | unary _ hv => exact absurd hv (by simp [unaryVal])
  | unary hop _ ih => exact runs_unary hop ih
  | binary _ _ ihl ihr => exact runs_binary hA' ihl ihr
  | call _ _ _ _ =>
    intro _ s m m' calls vs _ _ heval hcalls _ _
    cases heval with
    | call _ => exact absurd hcalls (by simp)
  | callPad _ _ _ _ =>
    intro _ s m m' calls vs _ _ heval hcalls _ _
    cases heval with
    | call _ => exact absurd hcalls (by simp)
  | assign _ hs ih => exact runs_assign ih hs
  | cast _ ih =>
    intro _ s m m' calls vs _ hA heval hcalls hm hroom
    cases heval with
    | cast he =>
      obtain ⟨s', v, hrun, hev, hv, hspares⟩ := ih rfl hA he hcalls hm ⟨hroom.low, hroom.high⟩
      exact ⟨s', v, hrun, ⟨.cast hev.eval, hev.calls, hev.agree, hev.keeps, hev.rbp, hev.rsp,
        hev.delivers⟩, hv, hspares⟩
  | argsNil => rintro _ _ _ _ _ _ ⟨⟩
  | argsCons _ _ _ _ => rintro _ _ _ _ _ _ ⟨⟩

end runs

end ACompiler
