import ACompiler.Correct.Layout
import ACompiler.Correct.Prologue

/-!
# The calling convention

Whenever a run of the code of an expression comes to one of its calls, an evaluation of the
expression comes to the same call after the same calls, and its arguments are in the argument
registers (`ExprCode.reaches`). Together with what a completed call leaves and with what a prologue
makes of the registers, caller and callee agree (`calling_convention`).
-/

namespace ACompiler

open Lib (Word Mem)
open Lib.Mem (load64 store64 InCell)

/-! ## Where a call stands in the code -/

/-- No call stands among instructions that are none. -/
theorem not_call_of_map (is : List Instr) (his : ∀ i ∈ is, i.isCall = false) {f : CString}
    {pre post : List Line} : is.map Line.instr ≠ pre ++ .instr (.call f) :: post := by
  intro h
  have hmem : Line.instr (.call f) ∈ is.map Line.instr := by
    rw [h]
    simp
  obtain ⟨i, hi, heq⟩ := List.mem_map.mp hmem
  rw [Line.instr.injEq] at heq
  subst heq
  simpa [Instr.isCall] using his _ hi

/-! ## Coming to a call -/

section reaches
variable {W : World} {A : CString → Option Word} {lo hi : Nat} {c : AsmCtx}
  {items items' : List Item}

/-- The run has come to a call of `f`: so has an evaluation, and its arguments are in the registers.
Nothing from the stack pointer of `s` on has changed but visible cells. -/
structure Reached (A : CString → Option Word) (p : Phrase) (m : Mem) (s s' : State)
    (evs : List CallEvent) (f : CString) (calls : List RefCall) (vs : List Word) : Prop where
  reaches : RefReaches A p m calls f vs
  calls : List.Forall₂ CallEvent.Matches evs calls
  regs : ∀ p ∈ argRegs.zip vs, s'.regs p.1 = p.2
  keeps : Keeps A s s'

/-- Every run of the code up to one of its calls comes to a call of an evaluation. -/
def ReachesCalls (W : World) (A : CString → Option Word) (lo hi : Nat) (c : AsmCtx) (p : Phrase)
    (items : List Item) : Prop :=
  ∀ {pre post : List Line} {f : CString} {s s' : State} {evs : List CallEvent} {m : Mem},
    codeOf items = pre ++ .instr (.call f) :: post →
      addrOf W.sym (findSymbol c) (s.regs .rbp) = A → Exec W pre s evs s' →
        AgreeOn A s.mem m → Room p lo hi s → ∃ calls vs, Reached A p m s s' evs f calls vs

theorem reaches_of_instrs {p : Phrase} (is : List Instr) (his : ∀ i ∈ is, i.isCall = false)
    (hitems : codeOf items = is.map .instr) : ReachesCalls W A lo hi c p items := by
  intro pre post f s s' evs m hsplit
  rw [hitems] at hsplit
  exact absurd hsplit (not_call_of_map _ his)

theorem reaches_unary {op : UnaryOp} {e : Expr} {is : List Instr}
    (hop : unaryInstrs op = some is) (ih : ReachesCalls W A lo hi c (.expr e) items) :
    ReachesCalls W A lo hi c (.expr (.unary op e)) (items ++ c.itemsOf is) := by
  intro pre post f s s' evs m hsplit hA hrun hm hroom
  rw [codeOf_append, codeOf_itemsOf] at hsplit
  rcases append_eq_append_cons hsplit with ⟨post', h, -⟩ | ⟨_, _, h⟩
  · obtain ⟨calls, vs, hr⟩ := ih h hA hrun hm ⟨hroom.low, hroom.high⟩
    exact ⟨calls, vs, .unary hr.reaches, hr.calls, hr.regs, hr.keeps⟩
  · exact absurd h (not_call_of_map _ (unaryInstrs_not_call hop))

/-- A phrase, its push, and then a run to a call in the code behind. -/
theorem reaches_behind_push (hW : W.Preserves) (hA' : Avoids A lo hi) {e : Expr} {p : Phrase}
    (he : ExprCode c (.expr e) items)
    (ih : ReachesCalls W A lo hi (c.withDepth (c.pushDepth + 1)) p items')
    {pre post : List Line} {f : CString} {s s' : State} {evs : List CallEvent} {m : Mem}
    (hsplit : codeOf items' = pre ++ .instr (.call f) :: post)
    (hA : addrOf W.sym (findSymbol c) (s.regs .rbp) = A)
    (hrun : Exec W (codeOf items ++ .instr (.push (.reg .rax)) :: pre) s evs s')
    (hm : AgreeOn A s.mem m) (hlo : lo + 8 * max (exprNeed e) (1 + p.need) ≤ (s.regs .rsp).toNat)
    (hhi : (s.regs .rsp).toNat ≤ hi) :
    ∃ calls calls' a vs m', RefEval A (.expr e) m calls [a] m' ∧ RefReaches A p m' calls' f vs ∧
      List.Forall₂ CallEvent.Matches evs (calls ++ calls') ∧
      (∀ p ∈ argRegs.zip vs, s'.regs p.1 = p.2) ∧ Keeps A s s' := by
  have hcode : codeOf items ++ .instr (.push (.reg .rax)) :: pre =
      codeOf items ++ ([.instr (.push (.reg .rax))] ++ pre) := rfl
  rw [hcode] at hrun
  obtain ⟨s₁, evs₁, _, h₁, hrun₁, rfl⟩ := hrun.split
  obtain ⟨_, _, _, hpush, h₂, rfl⟩ := hrun₁.split
  obtain ⟨rfl, rfl⟩ := exec_single rfl (exec_push W.sym) hpush
  obtain ⟨calls, vs, m₁, hl⟩ := he.sound hW hA' hA h₁ hm ⟨by simp only [Phrase.need]; omega, hhi⟩
  obtain rfl : vs = [s₁.regs .rax] := hl.delivers
  have hsp : s₁.regs .rsp = s.regs .rsp := by simpa [Phrase.pushes] using hl.rsp
  have hsp' := push_room (s := s₁) (by rw [hsp]; omega)
  obtain ⟨hagree, hroom, hkeeps⟩ := hl.behind_push (p := p) hA' hlo hhi
  obtain ⟨calls', vs, hr⟩ := ih hsplit (by rw [pushed_regs (by decide), hl.rbp]; exact hA) h₂
    hagree hroom
  refine ⟨calls, calls', _, vs, m₁, hl.eval, hr.reaches, ?_, hr.regs,
    hkeeps.trans hr.keeps (by rw [hsp', hsp]; omega)⟩
  simpa using List.rel_append hl.calls hr.calls

theorem reaches_binary (hW : W.Preserves) (hA' : Avoids A lo hi) {op : BinaryOp}
    {left right : Expr} (hl : ExprCode c (.expr left) items)
    (ihl : ReachesCalls W A lo hi c (.expr left) items)
    (ihr : ReachesCalls W A lo hi (c.withDepth (c.pushDepth + 1)) (.expr right) items') :
    ReachesCalls W A lo hi c (.expr (.binary op left right))
      (items ++ c.item (.push (.reg .rax)) :: items' ++
        (c.withDepth (c.pushDepth + 1)).itemsOf [.mov (.reg .rax) (.reg .rcx), .pop (.reg .rax)] ++
        c.itemsOf (binaryInstrs op)) := by
  rintro pre post f s s' evs m hsplit hA hrun hm ⟨hlo, hhi⟩
  have hneed : exprNeed (.binary op left right) = max (exprNeed left) (1 + exprNeed right) := rfl
  simp only [Phrase.need, hneed] at hlo
  rw [codeOf_binary] at hsplit
  rcases append_eq_append_cons hsplit with ⟨post', h, -⟩ | ⟨pre', rfl, h⟩
  · obtain ⟨calls, vs, hr⟩ := ihl h hA hrun hm ⟨by simp only [Phrase.need]; omega, hhi⟩
    exact ⟨calls, vs, .left hr.reaches, hr.calls, hr.regs, hr.keeps⟩
  · cases pre' with
    | nil => simp at h
    | cons l pre' =>
      rw [List.cons_append, List.cons.injEq] at h
      obtain ⟨rfl, h⟩ := h
      rcases append_eq_append_cons h with ⟨post', h, -⟩ | ⟨_, _, h⟩
      · obtain ⟨calls, calls', a, vs, m', heval, hreach, hcalls, hregs, hkeeps⟩ :=
          reaches_behind_push hW hA' hl ihr h hA hrun hm hlo hhi
        exact ⟨_, vs, .right heval hreach, hcalls, hregs, hkeeps⟩
      · exact absurd h (not_call_of_map _ (binaryTail_not_call op))

theorem reaches_assign {name : CString} {val : Expr} {v : Symbol}
    (ih : ReachesCalls W A lo hi c (.expr val) items) :
    ReachesCalls W A lo hi c (.expr (.assign (.identifier name) val))
      (items ++ [c.item (writeInstr v name)]) := by
  intro pre post f s s' evs m hsplit hA hrun hm hroom
  rw [codeOf_append] at hsplit
  rcases append_eq_append_cons hsplit with ⟨post', h, -⟩ | ⟨_, _, h⟩
  · obtain ⟨calls, vs, hr⟩ := ih h hA hrun hm ⟨hroom.low, hroom.high⟩
    exact ⟨calls, vs, .assign hr.reaches, hr.calls, hr.regs, hr.keeps⟩
  · have hcall : (writeInstr v name).isCall = false := by
      rw [writeInstr]
      split <;> rfl
    exact absurd h (not_call_of_map [writeInstr v name] (by simpa using hcall))

theorem reaches_argsCons (hW : W.Preserves) (hA' : Avoids A lo hi) {arg : Expr}
    {args : List Expr} (ha : ExprCode c (.expr arg) items)
    (ih : ReachesCalls W A lo hi c (.expr arg) items)
    (ihs : ReachesCalls W A lo hi (c.withDepth (c.pushDepth + 1)) (.exprs args) items') :
    ReachesCalls W A lo hi c (.exprs (arg :: args))
      (items ++ c.item (.push (.reg .rax)) :: items') := by
  rintro pre post f s s' evs m hsplit hA hrun hm ⟨hlo, hhi⟩
  have hneed : argsNeed (arg :: args) = max (exprNeed arg) (1 + argsNeed args) := rfl
  simp only [Phrase.need, hneed] at hlo
  rw [codeOf_append, codeOf_cons] at hsplit
  rcases append_eq_append_cons hsplit with ⟨post', h, -⟩ | ⟨pre', rfl, h⟩
  · obtain ⟨calls, vs, hr⟩ := ih h hA hrun hm ⟨by simp only [Phrase.need]; omega, hhi⟩
    exact ⟨calls, vs, .argsHead hr.reaches, hr.calls, hr.regs, hr.keeps⟩
  · cases pre' with
    | nil => simp at h
    | cons l pre' =>
      rw [List.cons_append, List.cons.injEq] at h
      obtain ⟨rfl, h⟩ := h
      obtain ⟨calls, calls', a, vs, m', heval, hreach, hcalls, hregs, hkeeps⟩ :=
        reaches_behind_push hW hA' ha ihs h hA hrun hm hlo hhi
      exact ⟨_, vs, .argsTail heval hreach, hcalls, hregs, hkeeps⟩

theorem pops_not_call (ids : List RegId) :
    ∀ i ∈ ids.map fun id => Instr.pop (.reg id), i.isCall = false := by
  intro i hi
  obtain ⟨id, _, rfl⟩ := List.mem_map.mp hi
  rfl

/-- A call among the arguments, or the call itself. -/
theorem reaches_call_code {callee : CString} {args : List Expr} {d : AsmCtx} {m : Mem}
    (hn : args.length ≤ 6) (hs : Sound W A lo hi c (.exprs args) items)
    (ih : ReachesCalls W A lo hi c (.exprs args) items) {pre post tail : List Line} {f : CString}
    {s s' : State} {evs : List CallEvent}
    (htail : ∀ pre post, tail ≠ pre ++ .instr (.call f) :: post)
    (hsplit : codeOf (items ++ d.popItems (argRegs.take args.length).reverse) ++
      .instr (.call callee) :: tail = pre ++ .instr (.call f) :: post)
    (hA : addrOf W.sym (findSymbol c) (s.regs .rbp) = A) (hrun : Exec W pre s evs s')
    (hm : AgreeOn A s.mem m) (hroom : Room (.exprs args) lo hi s) :
    ∃ calls vs, Reached A (.expr (.call callee args)) m s s' evs f calls vs := by
  rcases append_eq_append_cons hsplit with ⟨post', h, -⟩ | ⟨pre', rfl, h⟩
  · rw [codeOf_append, codeOf_popItems] at h
    rcases append_eq_append_cons h with ⟨post', h, -⟩ | ⟨_, _, h⟩
    · obtain ⟨calls, vs, hr⟩ := ih h hA hrun hm hroom
      exact ⟨calls, vs, .callArgs hr.reaches, hr.calls, hr.regs, hr.keeps⟩
    · have hmap : ((argRegs.take args.length).reverse.map fun id => Line.instr (.pop (.reg id))) =
          ((argRegs.take args.length).reverse.map fun id => Instr.pop (.reg id)).map .instr := by
        rw [List.map_map]
        rfl
      rw [hmap] at h
      exact absurd h (not_call_of_map _ (pops_not_call _))
  · cases pre' with
    | nil =>
      simp only [List.nil_append, List.cons.injEq, Line.instr.injEq, Instr.call.injEq] at h
      obtain ⟨rfl, -⟩ := h
      rw [List.append_nil] at hrun
      obtain ⟨calls, vs, m', hp⟩ := prepared_of_exec hn hs hA hrun hm hroom
      exact ⟨calls, vs, .call hp.eval, hp.calls, hp.regs, hp.keeps⟩
    | cons l pre' =>
      rw [List.cons_append, List.cons.injEq] at h
      exact absurd h.2 (htail _ _)

/-- **Every call a run comes to is a call of the evaluation**, with its arguments in the argument
registers. -/
theorem ExprCode.reaches {p : Phrase} (hW : W.Preserves) (hA' : Avoids A lo hi)
    (h : ExprCode c p items) : ReachesCalls W A lo hi c p items := by
  induction h with
  | literal => exact reaches_of_instrs [_] (by simp [Instr.isCall]) rfl
  | @identifier c name v hs =>
    refine reaches_of_instrs [readInstr v name] ?_ rfl
    rw [readInstr]
    split <;> simp [Instr.isCall]
  | @addr c name v hs =>
    refine reaches_of_instrs [addrInstr v] ?_ rfl
    rw [addrInstr]
    split <;> simp [Instr.isCall]
  | unary hop _ ih => exact reaches_unary hop ih
  | binary hl _ ihl ihr => exact reaches_binary hW hA' hl ihl ihr
  | call hn _ ha ih =>
    rintro pre post f s s' evs m hsplit hA hrun hm ⟨hlo, hhi⟩
    simp only [Phrase.need, exprNeed] at hlo
    rw [codeOf_append] at hsplit
    exact reaches_call_code hn (ha.sound hW hA') ih (by simp) hsplit hA hrun hm
      ⟨by simp only [Phrase.need]; omega, hhi⟩
  | @callPad c callee args items hn _ ha ih =>
    rintro pre post f s s' evs m hsplit hA hrun hm ⟨hlo, hhi⟩
    simp only [Phrase.need, exprNeed] at hlo
    simp only [List.cons_append, codeOf_cons, item_line] at hsplit
    cases pre with
    | nil => simp at hsplit
    | cons l pre =>
      rw [List.cons_append, List.cons.injEq] at hsplit
      obtain ⟨rfl, hsplit⟩ := hsplit
      rw [codeOf_append, codeOf_itemsOf] at hsplit
      have hrun' : Exec W ([.instr (.sub (.imm 8) (.reg .rsp))] ++ pre) s evs s' := hrun
      obtain ⟨_, _, _, hsub, h₂, rfl⟩ := hrun'.split
      obtain ⟨rfl, rfl⟩ := exec_single rfl (exec_sub_rsp W.sym s) hsub
      have hsp₀ : (s.clobber.set .rsp (s.regs .rsp - 8)).regs .rsp = s.regs .rsp - 8 :=
        State.set_regs_same _ _ _
      have hnat : (s.regs .rsp - 8).toNat = (s.regs .rsp).toNat - 8 := by bv_omega
      have hA₀ : addrOf W.sym (findSymbol c)
          ((s.clobber.set .rsp (s.regs .rsp - 8)).regs .rbp) = A := hA
      obtain ⟨calls, vs, hr⟩ := reaches_call_code hn (ha.sound hW hA') ih
        (by
          intro pre post
          exact not_call_of_map [.add (.imm 8) (.reg .rsp)] (by simp [Instr.isCall]))
        hsplit hA₀ h₂ hm ⟨by simp only [Phrase.need, hsp₀, hnat]; omega, by rw [hsp₀, hnat]; omega⟩
      refine ⟨calls, vs, hr.reaches, hr.calls, hr.regs, ?_⟩
      intro x hx hnone
      exact hr.keeps x (by rw [hsp₀, hnat]; omega) hnone
  | assign _ hs ih => exact reaches_assign ih
  | cast _ ih =>
    intro pre post f s s' evs m hsplit hA hrun hm hroom
    obtain ⟨calls, vs, hr⟩ := ih hsplit hA hrun hm ⟨hroom.low, hroom.high⟩
    exact ⟨calls, vs, .cast hr.reaches, hr.calls, hr.regs, hr.keeps⟩
  | argsNil => exact reaches_of_instrs [] (by simp) rfl
  | argsCons ha _ ih ihs => exact reaches_argsCons hW hA' ha ih ihs

end reaches

/-! ## Caller and callee -/

/-- The argument registers hold these values. -/
def ArgsIn (s : State) (vs : List Word) : Prop :=
  ∀ (i : Nat) (id : RegId) (v : Word), argRegs[i]? = some id → vs[i]? = some v → s.regs id = v

theorem argsIn_of_zip {s : State} {vs : List Word} (h : ∀ p ∈ argRegs.zip vs, s.regs p.1 = p.2) :
    ArgsIn s vs := by
  intro i id v hid hv
  refine h (id, v) (List.mem_of_getElem? (i := i) ?_)
  rw [List.getElem?_zip_eq_some]
  exact ⟨hid, hv⟩

/-- The caller's side, for the code of an expression entered in `s`. The temporaries of the code
around it lie between the stack pointer and `hi`. -/
structure CallerAgrees (W : World) (c : AsmCtx) (e : Expr) (items : List Item) (s : State)
    (hi : Nat) : Prop where
  /-- At every call that a run comes to, the registers hold the arguments. -/
  atCall : ∀ pre f post s' evs, codeOf items = pre ++ .instr (.call f) :: post →
    Exec W pre s evs s' → ∃ calls vs,
      RefReaches (addrOf W.sym (findSymbol c) (s.regs .rbp)) (.expr e) s.mem calls f vs ∧
        List.Forall₂ CallEvent.Matches evs calls ∧ ArgsIn s' vs
  /-- A run evaluates the expression, and keeps the stack pointer and all temporaries. -/
  evaluates : ∀ s' evs, Exec W (codeOf items) s evs s' → ∃ calls m',
    RefEval (addrOf W.sym (findSymbol c) (s.regs .rbp)) (.expr e) s.mem calls [s'.regs .rax] m' ∧
      List.Forall₂ CallEvent.Matches evs calls ∧ s'.regs .rsp = s.regs .rsp ∧
      s'.regs .rbp = s.regs .rbp ∧
      ∀ x : Word, (s.regs .rsp).toNat ≤ x.toNat → x.toNat < hi → s'.mem x = s.mem x
  /-- Behind a call `%rax` holds the callee's result. -/
  result : ∀ f args s' evs, e = .call f args → Exec W (codeOf items) s evs s' →
    ∃ evs' ev, evs = evs' ++ [ev] ∧ ev.callee = f ∧ s'.regs .rax = ev.after.regs .rax

/-- The callee's side: behind the prologue every parameter is in the slot its name resolves to. -/
def CalleeAgrees (W : World) (decl : FuncDecl) (c : AsmCtx) (items : List Item) : Prop :=
  ∃ body : List Line, codeOf items = codeOf (prologueItems decl c ++ spillItems decl) ++ body ∧
    ∀ (prog : List Line) (s : State), ∃ s', Steps W prog ⟨s, codeOf items⟩ ⟨s', body⟩ ∧
      ∀ (i : Nat) (p : FuncParam) (id : RegId), decl.params[i]? = some p →
        argRegs[i]? = some id → ∃ v, findSymbol (c.bodyCtx decl) p.ident = some v ∧ v.isGlobal = false ∧
          load64 s'.mem (s'.regs .rbp + BitVec.ofInt 64 v.stackOffset) = s.regs id

/-- What is related to a list with a last element has a last element. -/
theorem forall₂_snoc {α β : Type} {R : α → β → Prop} {l : List α} {l' : List β} {b : β}
    (h : List.Forall₂ R l (l' ++ [b])) : ∃ k a, l = k ++ [a] ∧ R a b := by
  have hlast := List.forall₂_drop_append _ _ _ h
  have hsplit := List.take_append_drop l'.length l
  cases hdrop : l.drop l'.length with
  | nil =>
    rw [hdrop] at hlast
    cases hlast
  | cons a rest =>
    rw [hdrop] at hlast hsplit
    cases hlast with
    | cons hab hnil =>
      cases hnil
      exact ⟨_, a, hsplit.symm, hab⟩

theorem callerAgrees {W : World} (hW : W.Preserves) {e : Expr} {c : AsmCtx} {items : List Item}
    (hcode : ExprCode c (.expr e) items) {s : State} {lo : Nat} (hs : Placed W.sym c s lo)
    (hlo : lo + 8 * exprNeed e ≤ (s.regs .rsp).toNat) :
    CallerAgrees W c e items s (c.bottom (s.regs .rbp)) := by
  have hA := hs.avoids
  have hroom : Room (.expr e) lo (c.bottom (s.regs .rbp)) s := ⟨hlo, hs.rsp_le⟩
  have hrefl : AgreeOn (addrOf W.sym (findSymbol c) (s.regs .rbp)) s.mem s.mem :=
    fun _ _ _ _ _ => rfl
  refine ⟨?_, ?_, ?_⟩
  · intro pre f post s' evs hsplit hrun
    obtain ⟨calls, vs, hr⟩ := hcode.reaches hW hA hsplit rfl hrun hrefl hroom
    exact ⟨calls, vs, hr.reaches, hr.calls, argsIn_of_zip hr.regs⟩
  · intro s' evs hrun
    obtain ⟨calls, vs, m', he⟩ := hcode.sound hW hA rfl hrun hrefl hroom
    obtain rfl : vs = [s'.regs .rax] := he.delivers
    refine ⟨calls, m', he.eval, he.calls, by simpa [Phrase.pushes] using he.rsp, he.rbp, ?_⟩
    intro x hx hxhi
    refine he.keeps x hx fun name a ha hcell => hA name a ha x hcell ⟨?_, hxhi⟩
    omega
  · rintro f args s' evs rfl hrun
    obtain ⟨calls, vs, m', he⟩ := hcode.sound hW hA rfl hrun hrefl hroom
    obtain rfl : vs = [s'.regs .rax] := he.delivers
    have hcalls := he.calls
    cases he.eval with
    | call ha =>
      obtain ⟨evs', ev, rfl, hm⟩ := forall₂_snoc hcalls
      exact ⟨evs', ev, rfl, hm.callee, hm.result.symm⟩

/-- **Caller and callee agree.** In every run of the code of an expression, at any push depth and
with callees that keep `%rbp`, `%rsp` and the memory from `%rsp` on, each call is reached with its
arguments, evaluated once each from left to right, in the argument registers, and leaves the
callee's result in `%rax`, the stack pointer and the temporaries; and behind the prologue of a
function with distinct parameters each parameter's slot holds the register of its argument. The
stack need only lie below the slots of the locals, as it does everywhere in a function. -/
theorem calling_convention (W : World) (hW : W.Preserves) :
    (∀ e c r, genExpr e c = .ok r → ∀ s lo, Placed W.sym c s lo →
      lo + 8 * exprNeed e ≤ (s.regs .rsp).toNat →
        CallerAgrees W c e r.items s (c.bottom (s.regs .rbp))) ∧
    (∀ decl c r, genFuncDecl decl c = .ok r → (decl.params.map FuncParam.ident).Nodup →
      CalleeAgrees W decl c r.items) ∧
    (∀ decl c r, genFuncDecl decl c = .ok r → c.GlobalsOnly →
      ∀ m ∈ r.marks, m.Slotted ∧ -(computeFrameSize decl : Int) ≤ m.curOffset) := by
  refine ⟨?_, ?_, ?_⟩
  · intro e c r hgen s lo hs hlo
    exact callerAgrees hW (genExpr_iff.mp hgen).1 hs hlo
  · intro decl c r hgen hnodup
    obtain ⟨hparams, c', body, _, hr⟩ := genFuncDecl_eq_ok hgen
    have hcode : codeOf r.items = codeOf (prologueItems decl c ++ spillItems decl) ++
        codeOf (body ++ epilogueItems c.labelCount) := by
      rw [hr]
      simp
    refine ⟨_, hcode, fun prog s => ?_⟩
    obtain ⟨s', hrun, hentered⟩ := prologue_steps W prog hparams c s
      (codeOf (body ++ epilogueItems c.labelCount))
    rw [hcode]
    refine ⟨s', hrun, ?_⟩
    intro i p id hp hid
    refine ⟨_, findSymbol_param c hnodup hp, rfl, ?_⟩
    have hi : i < decl.params.length := (List.getElem?_eq_some_iff.mp hp).1
    rw [hentered.rbp]
    exact hentered.slots i hi id hid
  · intro decl c r hgen hc
    exact genFuncDecl_slots hc hgen

/-- A callee that returns 7 and changes nothing else. -/
def sevenWorld : World := ⟨fun _ => 0, fun _ s s' => s' = s.set .rax 7⟩

theorem sevenWorld_preserves : sevenWorld.Preserves := by
  rintro name s s' rfl
  exact ⟨rfl, rfl, fun _ _ => rfl⟩

/-- A state with a little stack below an empty frame. -/
def smallStack : State := ⟨fun id => if id = .rsp ∨ id = .rbp then 64 else 0, none, fun _ => 0⟩

/-- In `call f(5)`, a run that comes to the call has 5 in `%rdi`. -/
theorem calling_convention_five :
    ∃ s', Exec sevenWorld [.instr (.mov (.imm 5) (.reg .rax)), .instr (.push (.reg .rax)),
      .instr (.pop (.reg .rdi))] smallStack [] s' ∧ s'.regs .rdi = 5 := by
  have hgen : genExpr (.call (ascii "f") [.literal ⟨5, none⟩]) asmInit =
      .ok ⟨(), asmInit, [asmInit.item (.mov (.imm 5) (.reg .rax)),
        asmInit.item (.push (.reg .rax)),
        (asmInit.withDepth 1).item (.pop (.reg .rdi)), asmInit.item (.call (ascii "f"))], []⟩ := rfl
  have hrun : Exec sevenWorld [.instr (.mov (.imm 5) (.reg .rax)), .instr (.push (.reg .rax)),
      .instr (.pop (.reg .rdi))] smallStack [] _ := .instr rfl (.instr rfl (.instr rfl .nil))
  refine ⟨_, hrun, ?_⟩
  have hplaced : Placed sevenWorld.sym asmInit smallStack 0 :=
    ⟨⟨by simp [AsmCtx.locals, asmInit], List.nodup_nil, by decide⟩, by decide,
      by simp [findSymbol, asmInit]⟩
  have h := (calling_convention sevenWorld sevenWorld_preserves).1 _ _ _ hgen smallStack 0 hplaced
    (by decide)
  obtain ⟨calls, vs, hreach, -, hargs⟩ := h.atCall _ _ [] _ _ rfl hrun
  cases hreach with
  | call ha =>
    cases ha with
    | argsCons h₁ h₂ =>
      cases h₁
      exact hargs 0 .rdi _ rfl rfl
  | callArgs ha =>
    cases ha with
    | argsHead h => cases h
    | argsTail _ h => cases h

end ACompiler
