import ACompiler.Machine.Stack
import ACompiler.Semantics.Trace

/-!
# Calls

Every run of the code of an expression is an evaluation of it: it makes the calls of the evaluation
in the same order, with the values of the arguments in the argument registers, and behind it the
value is in `%rax`, the stack pointer is back and the temporaries below are untouched. The callees
may do anything that keeps `%rbp`, `%rsp` and the memory from `%rsp` on.
-/

namespace ACompiler

open Lib (Word Mem)
open Lib.Mem (load64 store64 InCell)

/-- The lines of printed items. -/
def codeOf (items : List Item) : List Line := items.map Item.line

@[simp] theorem codeOf_nil : codeOf [] = [] := rfl

@[simp] theorem codeOf_cons (i : Item) (items : List Item) :
    codeOf (i :: items) = i.line :: codeOf items := rfl

@[simp] theorem codeOf_append (items items' : List Item) :
    codeOf (items ++ items') = codeOf items ++ codeOf items' := List.map_append

@[simp] theorem item_line (c : AsmCtx) (i : Instr) : (c.item i).line = .instr i := rfl

@[simp] theorem codeOf_itemsOf (c : AsmCtx) (is : List Instr) :
    codeOf (c.itemsOf is) = is.map .instr := by
  simp [codeOf, AsmCtx.itemsOf]

theorem codeOf_popItems (ids : List RegId) : ∀ c : AsmCtx,
    codeOf (c.popItems ids) = ids.map fun id => .instr (.pop (.reg id)) := by
  induction ids with
  | nil => intro c; rfl
  | cons id ids ih => intro c; simp [AsmCtx.popItems, ih]

theorem codeOf_eq_append_cons {items : List Item} {pre post : List Line} {l : Line}
    (h : codeOf items = pre ++ l :: post) :
    ∃ before item behind, items = before ++ item :: behind ∧ item.line = l ∧
      codeOf behind = post := by
  unfold codeOf at h
  obtain ⟨before, rest, rfl, _, hrest⟩ := List.map_eq_append_iff.mp h
  obtain ⟨item, behind, rfl, hline, hpost⟩ := List.map_eq_cons_iff.mp hrest
  exact ⟨before, item, behind, rfl, hline, hpost⟩

/-- Every callee keeps `%rbp`, `%rsp` and the memory from `%rsp` on. -/
def World.Preserves (W : World) : Prop :=
  ∀ name s s', W.callee name s s' → s'.regs .rbp = s.regs .rbp ∧ s'.regs .rsp = s.regs .rsp ∧
    ∀ x : Word, (s.regs .rsp).toNat ≤ x.toNat → s'.mem x = s.mem x

/-- The call of a run is the call of an evaluation: the argument registers hold the arguments. -/
structure CallEvent.Matches (ev : CallEvent) (call : RefCall) : Prop where
  callee : ev.callee = call.callee
  args : call.args.length ≤ 6
  regs : ∀ p ∈ argRegs.zip call.args, ev.before.regs p.1 = p.2
  result : ev.after.regs .rax = call.result
  mem : ev.after.mem = call.mem

/-- Where the values of a phrase are behind its code. -/
def Delivers : Phrase → State → List Word → Prop
  | .expr _, s, vs => vs = [s.regs .rax]
  | .exprs es, s, vs => vs.length = es.length ∧ Holds s.mem (s.regs .rsp) vs.reverse

/-- A run of the code of a phrase, as an evaluation from `m`. -/
structure Evaluates (A : CString → Option Word) (p : Phrase) (m : Mem) (s s' : State)
    (evs : List CallEvent) (calls : List RefCall) (vs : List Word) (m' : Mem) : Prop where
  eval : RefEval A p m calls vs m'
  calls : List.Forall₂ CallEvent.Matches evs calls
  agree : AgreeOn A s'.mem m'
  keeps : Keeps A s s'
  rbp : s'.regs .rbp = s.regs .rbp
  rsp : s'.regs .rsp = s.regs .rsp - BitVec.ofNat 64 (8 * p.pushes)
  delivers : Delivers p s' vs

/-- There is room for the code of a phrase on the stack, from `lo` up, and the temporaries end
below `hi`. -/
structure Room (p : Phrase) (lo hi : Nat) (s : State) : Prop where
  low : lo + 8 * p.need ≤ (s.regs .rsp).toNat
  high : (s.regs .rsp).toNat ≤ hi

section calls
variable {W : World} {A : CString → Option Word} {lo hi : Nat} {s s' : State} {m : Mem}
  {evs : List CallEvent}

/-- An instruction that only writes `%rax`. -/
theorem Evaluates.of_set {e : Expr} {v : Word} (heval : RefEval A (.expr e) m [] [v] m)
    (hm : AgreeOn A s.mem m) : Evaluates A (.expr e) m s (s.set .rax v) [] [] [v] m where
  eval := heval
  calls := .nil
  agree := hm
  keeps := fun _ _ _ => rfl
  rbp := by simp [State.set_regs]
  rsp := by simp [State.set_regs, Phrase.pushes]
  delivers := by simp [Delivers]

theorem exec_single {i : Instr} {s₁ : State} (hi : i.isCall = false)
    (h : execInstr W.sym s i = some s₁) (hrun : Exec W [.instr i] s evs s') : s' = s₁ ∧ evs = [] := by
  have hmap : [Line.instr i] = [i].map .instr := rfl
  rw [hmap, exec_instrs (by simpa using hi)] at hrun
  obtain ⟨hrun, rfl⟩ := hrun
  simp [execInstrs, h] at hrun
  exact ⟨hrun.symm, rfl⟩

theorem push_room (hlo : 8 ≤ (s.regs .rsp).toNat) :
    (s.pushed.regs .rsp).toNat = (s.regs .rsp).toNat - 8 := by
  rw [pushed_rsp]
  bv_omega

/-- Every run of the code is an evaluation. -/
def Sound (W : World) (A : CString → Option Word) (lo hi : Nat) (c : AsmCtx) (p : Phrase)
    (items : List Item) : Prop :=
  ∀ {s s' : State} {evs : List CallEvent} {m : Mem},
    addrOf W.sym (findSymbol c) (s.regs .rbp) = A → Exec W (codeOf items) s evs s' →
      AgreeOn A s.mem m → Room p lo hi s →
        ∃ calls vs m', Evaluates A p m s s' evs calls vs m'

variable {c : AsmCtx} {items items' : List Item}

theorem sound_literal (lit : LiteralExpr) :
    Sound W A lo hi c (.expr (.literal lit)) [c.item (.mov (.imm lit.numValue) (.reg .rax))] := by
  intro s s' evs m _ hrun hm _
  obtain ⟨rfl, rfl⟩ := exec_single rfl rfl hrun
  exact ⟨_, _, _, .of_set .literal hm⟩

theorem sound_identifier {name : CString} {v : Symbol} (hv : findSymbol c name = some v) :
    Sound W A lo hi c (.expr (.identifier name)) [c.item (readInstr v name)] := by
  intro s s' evs m hA hrun hm _
  obtain ⟨a, ha, hread⟩ := exec_read W.sym hv s
  rw [hA] at ha
  have hcall : (readInstr v name).isCall = false := by
    rw [readInstr]
    split <;> rfl
  obtain ⟨rfl, rfl⟩ := exec_single hcall hread hrun
  rw [hm.load ha]
  exact ⟨_, _, _, .of_set (.identifier ha) hm⟩

theorem sound_addr {name : CString} {v : Symbol} (hv : findSymbol c name = some v) :
    Sound W A lo hi c (.expr (.unary .uAddr (.identifier name))) [c.item (addrInstr v)] := by
  intro s s' evs m hA hrun hm _
  obtain ⟨a, ha, haddr⟩ := exec_addr W.sym hv s (findSymbol_name hv)
  rw [hA] at ha
  have hcall : (addrInstr v).isCall = false := by
    rw [addrInstr]
    split <;> rfl
  obtain ⟨rfl, rfl⟩ := exec_single hcall haddr hrun
  exact ⟨_, _, _, .of_set (.addr ha) hm⟩

theorem unaryInstrs_not_call {op : UnaryOp} {is : List Instr} (h : unaryInstrs op = some is) :
    ∀ i ∈ is, i.isCall = false := by
  cases op <;> simp [unaryInstrs] at h <;> subst h <;> simp [Instr.isCall]

theorem binaryTail_not_call (op : BinaryOp) : ∀ i ∈ binaryTail op, i.isCall = false := by
  cases op <;> decide

/-- The instructions of a unary operator behind its operand. -/
theorem Evaluates.unary {op : UnaryOp} {e : Expr} {is : List Instr} {a : Word} {s₁ : State}
    {calls : List RefCall} {m' : Mem} (hop : unaryInstrs op = some is)
    (he : Evaluates A (.expr e) m s s₁ evs calls [a] m') :
    ∃ v s', unaryVal op a = some v ∧ execInstrs W.sym is s₁ = some s' ∧ s'.mem = s₁.mem ∧
      Evaluates A (.expr (.unary op e)) m s s' evs calls [v] m' := by
  obtain rfl : a = s₁.regs .rax := List.head_eq_of_cons_eq he.delivers
  obtain ⟨v, s₂, hv, hrun, hc⟩ := execInstrs_unary W.sym (s := s₁) hop
  refine ⟨v, s₂, hv, hrun, hc.mem, .unary he.eval hv, he.calls, ?_, ?_, ?_, ?_, ?_⟩
  · rw [hc.mem]
    exact he.agree
  · intro x hx hnone
    rw [hc.mem, he.keeps x hx hnone]
  · rw [hc.regs _ (by decide) (by decide), he.rbp]
  · rw [hc.regs _ (by decide) (by decide), he.rsp]
    rfl
  · rw [Delivers, hc.rax]

theorem sound_unary {op : UnaryOp} {e : Expr} {is : List Instr} (hop : unaryInstrs op = some is)
    (ih : Sound W A lo hi c (.expr e) items) :
    Sound W A lo hi c (.expr (.unary op e)) (items ++ c.itemsOf is) := by
  intro s s' evs m hA hrun hm hroom
  rw [codeOf_append, codeOf_itemsOf] at hrun
  obtain ⟨s₁, evs₁, evs₂, h₁, h₂, rfl⟩ := hrun.split
  obtain ⟨calls, vs, m', he⟩ := ih hA h₁ hm ⟨hroom.low, hroom.high⟩
  obtain rfl : vs = [s₁.regs .rax] := he.delivers
  rw [exec_instrs (unaryInstrs_not_call hop)] at h₂
  obtain ⟨h₂, rfl⟩ := h₂
  obtain ⟨v, s₂, _, hrun₂, _, hv⟩ := Evaluates.unary (W := W) hop he
  obtain rfl := Option.some.inj (h₂.symm.trans hrun₂)
  rw [List.append_nil]
  exact ⟨calls, [v], m', hv⟩

/-- The lines of a binary operator, with the operands' code apart. -/
theorem codeOf_binary (c : AsmCtx) (items items' : List Item) (op : BinaryOp) :
    codeOf (items ++ c.item (.push (.reg .rax)) :: items' ++
      (c.withDepth (c.pushDepth + 1)).itemsOf [.mov (.reg .rax) (.reg .rcx), .pop (.reg .rax)] ++
      c.itemsOf (binaryInstrs op)) = codeOf items ++ (.instr (.push (.reg .rax)) ::
        (codeOf items' ++ (binaryTail op).map .instr)) := by
  simp [binaryTail]

/-- Behind the left operand and its push, the right operand finds the stack and the variables as it
needs them. -/
theorem Evaluates.behind_push (hA' : Avoids A lo hi) {e : Expr} {p : Phrase} {a : Word} {s₁ : State}
    {calls : List RefCall} {m₁ : Mem} (hl : Evaluates A (.expr e) m s s₁ evs calls [a] m₁)
    (hlo : lo + 8 * max (exprNeed e) (1 + p.need) ≤ (s.regs .rsp).toNat)
    (hhi : (s.regs .rsp).toNat ≤ hi) :
    AgreeOn A s₁.pushed.mem m₁ ∧ Room p lo hi s₁.pushed ∧ Keeps A s s₁.pushed := by
  have hsp : s₁.regs .rsp = s.regs .rsp := by simpa [Phrase.pushes] using hl.rsp
  have hsp' := push_room (s := s₁) (by rw [hsp]; omega)
  refine ⟨?_, ⟨?_, ?_⟩, ?_⟩
  · exact (agreeOn_pushed hA' (by rw [hsp]; omega) (by rw [hsp]; exact hhi)).trans hl.agree
  · rw [hsp', hsp]
    omega
  · rw [hsp', hsp]
    omega
  · refine hl.keeps.trans (keeps_pushed (by rw [hsp]; omega)) ?_
    exact Nat.le_of_eq (congrArg BitVec.toNat hsp)

/-- A pushed word is still there behind code that keeps the stack. -/
theorem load_behind (hA' : Avoids A lo hi) {s₁ s₂ : State} (hrsp : lo + 8 ≤ (s₁.regs .rsp).toNat)
    (hhi : (s₁.regs .rsp).toNat ≤ hi) (hkeeps : Keeps A s₁.pushed s₂) :
    load64 s₂.mem (s₁.regs .rsp - 8) = s₁.regs .rax := by
  have hlt := (s₁.regs .rsp).isLt
  have hsp := push_room (s := s₁) (by omega)
  rw [← load_pushed (s := s₁)]
  rw [pushed_rsp] at hsp
  refine hkeeps.load hA' ?_ ?_ ?_ ?_
  · omega
  · omega
  · omega
  · exact Nat.le_of_eq (congrArg BitVec.toNat pushed_rsp)

/-- The end of a binary operator behind both operands. -/
theorem Evaluates.binary (hA' : Avoids A lo hi) {op : BinaryOp} {left right : Expr} {a b : Word}
    {s₁ s₂ : State} {evs' : List CallEvent} {calls calls' : List RefCall} {m₁ m₂ : Mem}
    (hl : Evaluates A (.expr left) m s s₁ evs calls [a] m₁)
    (hr : Evaluates A (.expr right) m₁ s₁.pushed s₂ evs' calls' [b] m₂)
    (hroom : Room (.expr (.binary op left right)) lo hi s) :
    match binaryVal op a b with
    | some v => ∃ s', execInstrs W.sym (binaryTail op) s₂ = some s' ∧ s'.mem = s₂.mem ∧
        Evaluates A (.expr (.binary op left right)) m s s' (evs ++ evs') (calls ++ calls') [v] m₂
    | none => execInstrs W.sym (binaryTail op) s₂ = none := by
  obtain ⟨hlo, hhi⟩ := hroom
  have hneed : exprNeed (.binary op left right) = max (exprNeed left) (1 + exprNeed right) := rfl
  simp only [Phrase.need, hneed] at hlo
  obtain rfl : a = s₁.regs .rax := List.head_eq_of_cons_eq hl.delivers
  obtain rfl : b = s₂.regs .rax := List.head_eq_of_cons_eq hr.delivers
  have hsp : s₁.regs .rsp = s.regs .rsp := by simpa [Phrase.pushes] using hl.rsp
  have hsp' := push_room (s := s₁) (by rw [hsp]; omega)
  have hsp₂ : s₂.regs .rsp = s₁.regs .rsp - 8 := by simpa [Phrase.pushes] using hr.rsp
  obtain ⟨_, _, hkeeps⟩ := hl.behind_push (p := .expr right) hA' hlo hhi
  have hkeeps₂ : Keeps A s s₂ := hkeeps.trans hr.keeps (by rw [hsp', hsp]; omega)
  have hop := execInstrs_binaryTail W.sym op s₂
  rw [hsp₂, load_behind hA' (by rw [hsp]; omega) (by rw [hsp]; exact hhi) hr.keeps] at hop
  cases hv : binaryVal op (s₁.regs .rax) (s₂.regs .rax) with
  | none =>
    rw [hv] at hop
    exact hop
  | some v =>
    rw [hv] at hop
    obtain ⟨s₃, hs₃, hrax, hmem, hsp₃, hbp⟩ := hop
    refine ⟨s₃, hs₃, hmem, .binary hl.eval hr.eval hv, List.rel_append hl.calls hr.calls, ?_, ?_,
      ?_, ?_, ?_⟩
    · rw [hmem]
      exact hr.agree
    · intro x hx hnone
      rw [hmem, hkeeps₂ x hx hnone]
    · rw [hbp, hr.rbp, pushed_regs (by decide), hl.rbp]
    · rw [hsp₃, hsp]
      simp only [Phrase.pushes]
      bv_omega
    · rw [Delivers, hrax]

theorem sound_binary (hA' : Avoids A lo hi) {op : BinaryOp} {left right : Expr}
    (ihl : Sound W A lo hi c (.expr left) items)
    (ihr : Sound W A lo hi (c.withDepth (c.pushDepth + 1)) (.expr right) items') :
    Sound W A lo hi c (.expr (.binary op left right))
      (items ++ c.item (.push (.reg .rax)) :: items' ++
        (c.withDepth (c.pushDepth + 1)).itemsOf [.mov (.reg .rax) (.reg .rcx), .pop (.reg .rax)] ++
        c.itemsOf (binaryInstrs op)) := by
  intro s s' evs m hA hrun hm hroom
  rw [codeOf_binary] at hrun
  obtain ⟨s₁, evs₁, _, h₁, hrun₁, rfl⟩ := hrun.split
  rw [← List.singleton_append] at hrun₁
  obtain ⟨_, _, _, hpush, hrun₂, rfl⟩ := hrun₁.split
  obtain ⟨s₂, evs₂, _, h₂, htail, rfl⟩ := hrun₂.split
  obtain ⟨rfl, rfl⟩ := exec_single rfl (exec_push W.sym) hpush
  have hneed : exprNeed (.binary op left right) = max (exprNeed left) (1 + exprNeed right) := rfl
  have hlo := hroom.low
  simp only [Phrase.need, hneed] at hlo
  obtain ⟨calls, vs, m₁, hl⟩ := ihl hA h₁ hm ⟨by simp only [Phrase.need]; omega, hroom.high⟩
  obtain rfl : vs = [s₁.regs .rax] := hl.delivers
  obtain ⟨hagree, hroom', _⟩ := hl.behind_push (p := .expr right) hA' hlo hroom.high
  obtain ⟨calls', vs, m₂, hr⟩ := ihr (by rw [pushed_regs (by decide), hl.rbp]; exact hA) h₂ hagree
    hroom'
  obtain rfl : vs = [s₂.regs .rax] := hr.delivers
  rw [exec_instrs (binaryTail_not_call op)] at htail
  obtain ⟨htail, rfl⟩ := htail
  have hop := Evaluates.binary (W := W) hA' hl hr hroom
  rw [List.nil_append, List.append_nil]
  cases hv : binaryVal op (s₁.regs .rax) (s₂.regs .rax) with
  | none =>
    rw [hv, htail] at hop
    exact absurd hop (by simp)
  | some v =>
    rw [hv] at hop
    obtain ⟨s₃, hs₃, _, heval⟩ := hop
    obtain rfl := Option.some.inj (hs₃.symm.trans htail)
    exact ⟨_, _, _, heval⟩

theorem writeInstr_not_call (v : Symbol) (name : CString) : (writeInstr v name).isCall = false := by
  unfold writeInstr
  split <;> rfl

/-- The store of an assignment behind its value. -/
theorem Evaluates.assign {name : CString} {val : Expr} {v : Symbol} {w : Word} {s₁ : State}
    {calls : List RefCall} {m' : Mem} (hv : findSymbol c name = some v)
    (hA : addrOf W.sym (findSymbol c) (s.regs .rbp) = A)
    (he : Evaluates A (.expr val) m s s₁ evs calls [w] m') :
    ∃ a s', execInstr W.sym s₁ (writeInstr v name) = some s' ∧ A name = some a ∧
      s'.mem = store64 s₁.mem a w ∧
      Evaluates A (.expr (.assign (.identifier name) val)) m s s' evs calls [w]
        (store64 m' a w) := by
  obtain rfl : w = s₁.regs .rax := List.head_eq_of_cons_eq he.delivers
  obtain ⟨a, ha, hwrite⟩ := exec_write W.sym hv s₁
  rw [he.rbp, hA] at ha
  refine ⟨a, _, hwrite, ha, rfl, .assign he.eval ha, he.calls, he.agree.store a _, ?_, he.rbp, he.rsp,
    rfl⟩
  intro x hx hnone
  rw [State.store_mem, Lib.Mem.store64_of_not_inCell (hnone name a ha), he.keeps x hx hnone]

theorem sound_assign {name : CString} {val : Expr} {v : Symbol}
    (ih : Sound W A lo hi c (.expr val) items) (hv : findSymbol c name = some v) :
    Sound W A lo hi c (.expr (.assign (.identifier name) val))
      (items ++ [c.item (writeInstr v name)]) := by
  intro s s' evs m hA hrun hm hroom
  rw [codeOf_append] at hrun
  obtain ⟨s₁, evs₁, evs₂, h₁, h₂, rfl⟩ := hrun.split
  obtain ⟨calls, vs, m', he⟩ := ih hA h₁ hm ⟨hroom.low, hroom.high⟩
  obtain rfl : vs = [s₁.regs .rax] := he.delivers
  obtain ⟨a, s₂, hwrite, _, _, heval⟩ := he.assign (W := W) hv hA
  obtain ⟨rfl, rfl⟩ := exec_single (writeInstr_not_call v name) hwrite h₂
  rw [List.append_nil]
  exact ⟨_, _, _, heval⟩

theorem sound_argsCons (hA' : Avoids A lo hi) {arg : Expr} {args : List Expr}
    (ih : Sound W A lo hi c (.expr arg) items)
    (ihs : Sound W A lo hi (c.withDepth (c.pushDepth + 1)) (.exprs args) items') :
    Sound W A lo hi c (.exprs (arg :: args)) (items ++ c.item (.push (.reg .rax)) :: items') := by
  intro s s' evs m hA hrun hm hroom
  have hcode : codeOf (items ++ c.item (.push (.reg .rax)) :: items') =
      codeOf items ++ ([.instr (.push (.reg .rax))] ++ codeOf items') := by
    simp
  rw [hcode] at hrun
  obtain ⟨s₁, evs₁, _, h₁, hrun₁, rfl⟩ := hrun.split
  obtain ⟨_, _, _, hpush, h₂, rfl⟩ := hrun₁.split
  obtain ⟨rfl, rfl⟩ := exec_single rfl (exec_push W.sym) hpush
  obtain ⟨hlo, hhi⟩ := hroom
  have hneed : argsNeed (arg :: args) = max (exprNeed arg) (1 + argsNeed args) := rfl
  simp only [Phrase.need, hneed] at hlo
  obtain ⟨calls, vs, m₁, ha⟩ := ih hA h₁ hm ⟨by simp only [Phrase.need]; omega, hhi⟩
  obtain rfl : vs = [s₁.regs .rax] := ha.delivers
  have hsp : s₁.regs .rsp = s.regs .rsp := by simpa [Phrase.pushes] using ha.rsp
  have hsp' := push_room (s := s₁) (by rw [hsp]; omega)
  obtain ⟨hagree, hroom', hkeeps⟩ := ha.behind_push (p := .exprs args) hA' hlo hhi
  obtain ⟨calls', vs, m₂, hs⟩ := ihs (by rw [pushed_regs (by decide), ha.rbp]; exact hA) h₂ hagree
    hroom'
  obtain ⟨hlen, hholds⟩ := hs.delivers
  have hsp₂ : s'.regs .rsp = s₁.regs .rsp - 8 - BitVec.ofNat 64 (8 * args.length) := by
    rw [hs.rsp, pushed_rsp]
    rfl
  refine ⟨calls ++ calls', s₁.regs .rax :: vs, m₂, .argsCons ha.eval hs.eval, ?_, hs.agree,
    hkeeps.trans hs.keeps (by rw [hsp', hsp]; omega), ?_, ?_, ?_⟩
  · simpa using List.rel_append ha.calls hs.calls
  · rw [hs.rbp, pushed_regs (by decide), ha.rbp]
  · rw [hsp₂, hsp]
    simp only [Phrase.pushes, List.length_cons]
    bv_omega
  · refine ⟨by rw [List.length_cons, List.length_cons, hlen], ?_⟩
    rw [List.reverse_cons, holds_append]
    refine ⟨hholds, ?_, trivial⟩
    have haddr : s'.regs .rsp + BitVec.ofNat 64 (8 * vs.reverse.length) = s₁.regs .rsp - 8 := by
      rw [hsp₂, List.length_reverse, hlen]
      bv_omega
    rw [haddr]
    exact load_behind hA' (by rw [hsp]; omega) (by rw [hsp]; exact hhi) hs.keeps

/-- The pops of a call pair the last argument with the last register. -/
theorem mem_zip_argRegs {vs : List Word} (hlen : vs.length ≤ 6) {p : RegId × Word}
    (hp : p ∈ argRegs.zip vs) : p ∈ (argRegs.take vs.length).reverse.zip vs.reverse := by
  have hregs : argRegs.length = 6 := rfl
  have hmin : min argRegs.length vs.length = vs.length := by omega
  have hrev : (argRegs.take vs.length).reverse.zip vs.reverse =
      ((argRegs.take vs.length).zip vs).reverse := by
    have hlen' : (argRegs.take vs.length).length = vs.length := by
      rw [List.length_take]
      omega
    exact (List.reverse_zipWith hlen').symm
  rw [List.zip_eq_zip_take_min, hmin, List.take_length] at hp
  rw [hrev, List.mem_reverse]
  exact hp

theorem argRegs_take_nodup (n : Nat) : (argRegs.take n).reverse.Nodup := by
  rw [List.nodup_reverse]
  exact (by decide : argRegs.Nodup).sublist (List.take_sublist n argRegs)

theorem not_mem_argRegs_take {id : RegId} (h : id ∉ argRegs) (n : Nat) :
    id ∉ (argRegs.take n).reverse := by
  rw [List.mem_reverse]
  exact fun hmem => h (List.mem_of_mem_take hmem)

theorem RefEval.length {p : Phrase} {m m' : Mem} {calls : List RefCall} {vs : List Word}
    (h : RefEval A p m calls vs m') : ∀ es, p = .exprs es → vs.length = es.length := by
  induction h with
  | argsNil => rintro _ ⟨⟩; rfl
  | argsCons _ _ _ ih =>
    rintro _ ⟨⟩
    rw [List.length_cons, List.length_cons, ih _ rfl]
  | _ => rintro _ ⟨⟩

/-- The state in front of the `call`: every argument is evaluated once, from left to right, and is
in its register; the stack is as it was before the arguments. -/
structure Prepared (A : CString → Option Word) (args : List Expr) (m : Mem) (s s' : State)
    (evs : List CallEvent) (calls : List RefCall) (vs : List Word) (m' : Mem) : Prop where
  eval : RefEval A (.exprs args) m calls vs m'
  calls : List.Forall₂ CallEvent.Matches evs calls
  agree : AgreeOn A s'.mem m'
  keeps : Keeps A s s'
  rbp : s'.regs .rbp = s.regs .rbp
  rsp : s'.regs .rsp = s.regs .rsp
  length : vs.length = args.length
  regs : ∀ p ∈ argRegs.zip vs, s'.regs p.1 = p.2

theorem prepared_of_exec {args : List Expr} {d : AsmCtx} (hn : args.length ≤ 6)
    (ih : Sound W A lo hi c (.exprs args) items)
    (hA : addrOf W.sym (findSymbol c) (s.regs .rbp) = A)
    (hrun : Exec W (codeOf (items ++ d.popItems (argRegs.take args.length).reverse)) s evs s')
    (hm : AgreeOn A s.mem m) (hroom : Room (.exprs args) lo hi s) :
    ∃ calls vs m', Prepared A args m s s' evs calls vs m' := by
  rw [codeOf_append, codeOf_popItems] at hrun
  obtain ⟨s₁, evs₁, _, h₁, h₂, rfl⟩ := hrun.split
  obtain ⟨calls, vs, m', ha⟩ := ih hA h₁ hm hroom
  obtain ⟨hlen, hholds⟩ := ha.delivers
  have hregs : (argRegs.take args.length).reverse.length = vs.reverse.length := by
    simp only [List.length_reverse, List.length_take, argRegs, List.length_cons, List.length_nil]
    omega
  obtain ⟨rfl, hmem, hsp, hzip, hother⟩ := exec_pops _ _ (argRegs_take_nodup _)
    (not_mem_argRegs_take (by decide) _) hregs hholds h₂
  refine ⟨calls, vs, m', ha.eval, by simpa using ha.calls, ?_, ?_, ?_, ?_, hlen, ?_⟩
  · rw [hmem]
    exact ha.agree
  · intro x hx hnone
    rw [hmem, ha.keeps x hx hnone]
  · rw [hother _ (not_mem_argRegs_take (by decide) _) (by decide), ha.rbp]
  · rw [hsp, ha.rsp, hregs, List.length_reverse, hlen]
    simp only [Phrase.pushes]
    bv_omega
  · intro p hp
    refine hzip p ?_
    rw [← hlen]
    exact mem_zip_argRegs (by omega) hp

theorem Prepared.matches {args : List Expr} {evs : List CallEvent} {calls : List RefCall}
    {vs : List Word} {m' : Mem} (h : Prepared A args m s s' evs calls vs m')
    (hn : args.length ≤ 6) (callee : CString) (s'' : State) :
    CallEvent.Matches ⟨callee, s', s''⟩ ⟨callee, vs, s''.regs .rax, s''.mem⟩ :=
  ⟨rfl, by rw [h.length]; exact hn, h.regs, rfl, rfl⟩

theorem sound_call (hW : W.Preserves) {callee : CString} {args : List Expr} {d : AsmCtx}
    (hn : args.length ≤ 6) (ih : Sound W A lo hi c (.exprs args) items) :
    Sound W A lo hi c (.expr (.call callee args))
      (items ++ d.popItems (argRegs.take args.length).reverse ++ [c.item (.call callee)]) := by
  intro s s' evs m hA hrun hm hroom
  obtain ⟨hlo, hhi⟩ := hroom
  have hneed : exprNeed (.call callee args) = 1 + argsNeed args := rfl
  simp only [Phrase.need, hneed] at hlo
  rw [codeOf_append] at hrun
  obtain ⟨s₁, evs₁, _, h₁, h₂, rfl⟩ := hrun.split
  obtain ⟨calls, vs, m', hp⟩ := prepared_of_exec hn ih hA h₁ hm
    ⟨by simp only [Phrase.need]; omega, hhi⟩
  cases h₂ with
  | instr h _ => simp [execInstr] at h
  | call hcall hk =>
    cases hk with
    | nil =>
      obtain ⟨hbp, hsp, hmem⟩ := hW _ _ _ hcall
      refine ⟨_, _, s'.mem, .call hp.eval, ?_, fun _ _ _ _ _ => rfl, ?_, ?_, ?_, rfl⟩
      · exact List.rel_append hp.calls (.cons (hp.matches hn callee s') .nil)
      · intro x hx hnone
        rw [hmem x (by rw [hp.rsp]; exact hx), hp.keeps x hx hnone]
      · rw [hbp, hp.rbp]
      · rw [hsp, hp.rsp]
        simp [Phrase.pushes]

theorem exec_sub_rsp (sym : CString → Word) (s : State) :
    execInstr sym s (.sub (.imm 8) (.reg .rsp)) = some (s.clobber.set .rsp (s.regs .rsp - 8)) := rfl

theorem exec_add_rsp (sym : CString → Word) (s : State) :
    execInstr sym s (.add (.imm 8) (.reg .rsp)) = some (s.clobber.set .rsp (s.regs .rsp + 8)) := rfl

/-- With padding, the call happens eight bytes further down. -/
theorem sound_callPad (hW : W.Preserves) {callee : CString} {args : List Expr} {d : AsmCtx}
    (hn : args.length ≤ 6)
    (ih : Sound W A lo hi (c.withDepth (c.pushDepth + 1)) (.exprs args) items) :
    Sound W A lo hi c (.expr (.call callee args))
      (c.item (.sub (.imm 8) (.reg .rsp)) :: items ++
        d.popItems (argRegs.take args.length).reverse ++
        (c.withDepth (c.pushDepth + 1)).itemsOf [.call callee, .add (.imm 8) (.reg .rsp)]) := by
  intro s s' evs m hA hrun hm hroom
  obtain ⟨hlo, hhi⟩ := hroom
  have hneed : exprNeed (.call callee args) = 1 + argsNeed args := rfl
  simp only [Phrase.need, hneed] at hlo
  have hcode : codeOf (c.item (.sub (.imm 8) (.reg .rsp)) :: items ++
      d.popItems (argRegs.take args.length).reverse ++
      (c.withDepth (c.pushDepth + 1)).itemsOf [.call callee, .add (.imm 8) (.reg .rsp)]) =
      [.instr (.sub (.imm 8) (.reg .rsp))] ++
        (codeOf (items ++ d.popItems (argRegs.take args.length).reverse) ++
          [.instr (.call callee), .instr (.add (.imm 8) (.reg .rsp))]) := by
    simp
  rw [hcode] at hrun
  obtain ⟨_, _, _, hsub, hrun₁, rfl⟩ := hrun.split
  obtain ⟨rfl, rfl⟩ := exec_single rfl (exec_sub_rsp W.sym s) hsub
  obtain ⟨s₁, evs₁, _, h₁, h₂, rfl⟩ := hrun₁.split
  have hsp₀ : (s.clobber.set .rsp (s.regs .rsp - 8)).regs .rsp = s.regs .rsp - 8 :=
    State.set_regs_same _ _ _
  have hnat : (s.regs .rsp - 8).toNat = (s.regs .rsp).toNat - 8 := by bv_omega
  have hA₀ : addrOf W.sym (findSymbol c) ((s.clobber.set .rsp (s.regs .rsp - 8)).regs .rbp) = A :=
    hA
  obtain ⟨calls, vs, m', hp⟩ := prepared_of_exec hn ih hA₀ h₁ hm
    ⟨by simp only [Phrase.need, hsp₀, hnat]; omega, by rw [hsp₀, hnat]; omega⟩
  cases h₂ with
  | instr h _ => simp [execInstr] at h
  | @call _ _ _ s₂ _ _ hcall hk =>
    obtain ⟨rfl, rfl⟩ := exec_single rfl (exec_add_rsp W.sym s₂) hk
    obtain ⟨hbp, hsp, hmem⟩ := hW _ _ _ hcall
    refine ⟨_, [s₂.regs .rax], s₂.mem, .call hp.eval, ?_, fun _ _ _ _ _ => rfl, ?_, ?_, ?_, rfl⟩
    · exact List.rel_append hp.calls (.cons (hp.matches hn callee s₂) .nil)
    · intro x hx hnone
      have hx' : ((s.clobber.set .rsp (s.regs .rsp - 8)).regs .rsp).toNat ≤ x.toNat := by
        rw [hsp₀, hnat]
        omega
      rw [State.set_mem, State.clobber_mem, hmem x (by rw [hp.rsp]; exact hx'),
        hp.keeps x hx' hnone]
      rfl
    · have h : (s₂.clobber.set .rsp (s₂.regs .rsp + 8)).regs .rbp = s₂.regs .rbp := rfl
      rw [h, hbp, hp.rbp]
      rfl
    · rw [State.set_regs_same, hsp, hp.rsp, hsp₀]
      simp only [Phrase.pushes]
      bv_omega

/-- **The code of an expression evaluates it**: every run makes the calls of an evaluation, in order
and with the arguments in the argument registers. -/
theorem ExprCode.sound {p : Phrase} (hW : W.Preserves) (hA : Avoids A lo hi)
    (h : ExprCode c p items) : Sound W A lo hi c p items := by
  induction h with
  | literal => exact sound_literal _
  | identifier hs => exact sound_identifier hs
  | addr hs => exact sound_addr hs
  | unary hop _ ih => exact sound_unary hop ih
  | binary _ _ ihl ihr => exact sound_binary hA ihl ihr
  | call hn _ _ ih => exact sound_call hW hn ih
  | callPad hn _ _ ih => exact sound_callPad hW hn ih
  | assign _ hs ih => exact sound_assign ih hs
  | cast _ ih =>
    intro s s' evs m hfind hrun hm hroom
    obtain ⟨calls, vs, m', h⟩ := ih hfind hrun hm ⟨hroom.low, hroom.high⟩
    obtain rfl : vs = [s'.regs .rax] := h.delivers
    exact ⟨calls, _, m', .cast h.eval, h.calls, h.agree, h.keeps, h.rbp, h.rsp, rfl⟩
  | argsNil =>
    intro s s' evs m _ hrun hm _
    cases hrun
    exact ⟨[], [], m, .argsNil, .nil, hm, fun _ _ _ => rfl, rfl, by simp [Phrase.pushes],
      rfl, trivial⟩
  | argsCons _ _ ih ihs => exact sound_argsCons hA ih ihs

end calls

end ACompiler
