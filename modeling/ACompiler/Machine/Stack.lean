import ACompiler.Machine.Alu

/-!
# The stack of temporaries

Pushes and pops as the emitted code makes them, while the stack neither wraps around nor meets the
cell of a variable. `Holds` says which words lie on top of the stack.
-/

namespace ACompiler

open Lib (Word Mem)
open Lib.Mem (load64 store64 InCell Apart load64_congr store64_of_not_inCell)

/-- A cell that does not wrap around is an interval. -/
theorem inCell_iff {a x : Word} (h : a.toNat + 8 ≤ 2 ^ 64) :
    InCell a x ↔ a.toNat ≤ x.toNat ∧ x.toNat < a.toNat + 8 := by
  rw [InCell]
  constructor
  · intro hx
    bv_omega
  · intro hx
    bv_omega

/-- No visible cell meets the addresses from `lo` to `hi`. -/
def Avoids (A : CString → Option Word) (lo hi : Nat) : Prop :=
  ∀ name a, A name = some a → ∀ x, InCell a x → ¬ (lo ≤ x.toNat ∧ x.toNat < hi)

/-- Two memories agree on the visible cells. -/
def AgreeOn (A : CString → Option Word) (m m' : Mem) : Prop :=
  ∀ name a, A name = some a → ∀ x, InCell a x → m x = m' x

/-- From its stack pointer on, the memory of `s'` is that of `s`, but for the visible cells. -/
def Keeps (A : CString → Option Word) (s s' : State) : Prop :=
  ∀ x : Word, (s.regs .rsp).toNat ≤ x.toNat → (∀ name a, A name = some a → ¬ InCell a x) →
    s'.mem x = s.mem x

section agree
variable {A : CString → Option Word} {m m' m'' : Mem}

theorem AgreeOn.trans (h : AgreeOn A m m') (h' : AgreeOn A m' m'') : AgreeOn A m m'' :=
  fun name a ha x hx => (h name a ha x hx).trans (h' name a ha x hx)

theorem AgreeOn.load (h : AgreeOn A m m') {name : CString} {a : Word} (ha : A name = some a) :
    load64 m a = load64 m' a :=
  load64_congr fun x hx => h name a ha x hx

theorem AgreeOn.store (h : AgreeOn A m m') (a v : Word) :
    AgreeOn A (store64 m a v) (store64 m' a v) := by
  intro name b hb x hx
  by_cases hcell : InCell a x
  · rw [Lib.Mem.store64_of_inCell hcell, Lib.Mem.store64_of_inCell hcell]
  · rw [store64_of_not_inCell hcell, store64_of_not_inCell hcell]
    exact h name b hb x hx

end agree

/-- The words `vs` lie in memory from `a` on. -/
def Holds (m : Mem) : Word → List Word → Prop
  | _, [] => True
  | a, v :: vs => load64 m a = v ∧ Holds m (a + 8) vs

theorem holds_append (m : Mem) (vs ws : List Word) : ∀ a : Word,
    Holds m a (vs ++ ws) ↔ Holds m a vs ∧ Holds m (a + BitVec.ofNat 64 (8 * vs.length)) ws := by
  induction vs with
  | nil => intro a; simp [Holds]
  | cons v vs ih =>
    intro a
    have haddr : a + 8 + BitVec.ofNat 64 (8 * vs.length) =
        a + BitVec.ofNat 64 (8 * (v :: vs).length) := by
      rw [List.length_cons]
      bv_omega
    rw [List.cons_append, Holds, Holds, ih, haddr, and_assoc]

/-- Words above the stack pointer survive what keeps the stack. -/
theorem Keeps.load {A : CString → Option Word} {s s' : State} (h : Keeps A s s') {lo hi : Nat}
    (hA : Avoids A lo hi) {a : Word} (hlo : lo ≤ a.toNat) (hhi : a.toNat + 8 ≤ hi)
    (hwrap : a.toNat + 8 ≤ 2 ^ 64) (hrsp : (s.regs .rsp).toNat ≤ a.toNat) :
    load64 s'.mem a = load64 s.mem a := by
  apply load64_congr
  intro x hx
  rw [inCell_iff hwrap] at hx
  refine h x (by omega) ?_
  intro name b hb hbx
  exact hA name b hb x hbx ⟨by omega, by omega⟩

theorem Keeps.trans {A : CString → Option Word} {s s' s'' : State} (h : Keeps A s s')
    (h' : Keeps A s' s'') (hle : (s'.regs .rsp).toNat ≤ (s.regs .rsp).toNat) : Keeps A s s'' := by
  intro x hx hA
  rw [h' x (by omega) hA, h x hx hA]

section push
variable {A : CString → Option Word} {s : State}

/-- The state after a `pushq %rax`. -/
def State.pushed (s : State) : State :=
  (s.store (s.regs .rsp - 8) (s.regs .rax)).set .rsp (s.regs .rsp - 8)

theorem exec_push (sym : CString → Word) :
    execInstr sym s (.push (.reg .rax)) = some s.pushed := rfl

theorem pushed_regs {id : RegId} (h : id ≠ .rsp) : s.pushed.regs id = s.regs id := by
  simp [State.pushed, State.set_regs, h]

@[simp] theorem pushed_rsp : s.pushed.regs .rsp = s.regs .rsp - 8 := by
  simp [State.pushed]

@[simp] theorem load_pushed : load64 s.pushed.mem (s.regs .rsp - 8) = s.regs .rax := by
  simp [State.pushed]

/-- A push writes below the stack pointer. -/
theorem keeps_pushed (h : 8 ≤ (s.regs .rsp).toNat) : Keeps A s s.pushed := by
  intro x hx _
  have hx' : ¬ InCell (s.regs .rsp - 8) x := by
    have hsub : (s.regs .rsp - 8).toNat = (s.regs .rsp).toNat - 8 := by bv_omega
    have hlt := (s.regs .rsp).isLt
    rw [inCell_iff (by omega)]
    omega
  exact store64_of_not_inCell hx'

/-- A push does not touch a visible cell. -/
theorem agreeOn_pushed {lo hi : Nat} (hA : Avoids A lo hi) (hlo : lo + 8 ≤ (s.regs .rsp).toNat)
    (hhi : (s.regs .rsp).toNat ≤ hi) : AgreeOn A s.pushed.mem s.mem := by
  intro name a ha x hx
  have hx' : ¬ InCell (s.regs .rsp - 8) x := by
    intro hcell
    have hsub : (s.regs .rsp - 8).toNat = (s.regs .rsp).toNat - 8 := by bv_omega
    have hlt := (s.regs .rsp).isLt
    rw [inCell_iff (by omega)] at hcell
    exact hA name a ha x hx ⟨by omega, by omega⟩
  exact store64_of_not_inCell hx'

end push

/-- The state after a `popq` into a register. -/
def State.popped (s : State) (id : RegId) : State :=
  (s.set .rsp (s.regs .rsp + 8)).set id (load64 s.mem (s.regs .rsp))

theorem exec_pop (sym : CString → Word) (s : State) (id : RegId) :
    execInstr sym s (.pop (.reg id)) = some (s.popped id) := rfl

/-- A run of pops takes the words on top of the stack, each into its own register. -/
theorem exec_pops {W : World} : ∀ (ids : List RegId) (ws : List Word) {s s' : State}
    {evs : List CallEvent}, ids.Nodup → .rsp ∉ ids → ids.length = ws.length →
      Holds s.mem (s.regs .rsp) ws →
        Exec W (ids.map fun id => .instr (.pop (.reg id))) s evs s' →
          evs = [] ∧ s'.mem = s.mem ∧
            s'.regs .rsp = s.regs .rsp + BitVec.ofNat 64 (8 * ids.length) ∧
            (∀ p ∈ ids.zip ws, s'.regs p.1 = p.2) ∧
            ∀ id, id ∉ ids → id ≠ .rsp → s'.regs id = s.regs id := by
  intro ids
  induction ids with
  | nil =>
    intro ws s s' evs _ _ _ _ h
    cases h
    simp
  | cons id ids ih =>
    intro ws s s' evs hnodup hrsp hlen hholds h
    cases ws with
    | nil => simp at hlen
    | cons w ws =>
      rw [List.nodup_cons] at hnodup
      rw [List.mem_cons, not_or] at hrsp
      cases h with
      | instr hi hk =>
        rw [exec_pop] at hi
        obtain rfl := Option.some.inj hi
        have hsp : (s.popped id).regs .rsp = s.regs .rsp + 8 := by
          simp [State.popped, State.set_regs, hrsp.1]
        have hid : (s.popped id).regs id = w := by
          rw [← hholds.1]
          simp [State.popped]
        obtain ⟨rfl, hmem, hsp', hzip, hother⟩ := ih ws hnodup.2 hrsp.2 (by simpa using hlen)
          (by rw [hsp]; exact hholds.2) hk
        refine ⟨rfl, hmem, ?_, ?_, ?_⟩
        · rw [hsp', hsp, List.length_cons]
          bv_omega
        · intro p hp
          rw [List.zip_cons_cons, List.mem_cons] at hp
          rcases hp with rfl | hp
          · rw [hother _ hnodup.1 (Ne.symm hrsp.1), hid]
          · exact hzip p hp
        · intro id' hid' hne
          rw [List.mem_cons, not_or] at hid'
          rw [hother id' hid'.2 hne]
          simp [State.popped, State.set_regs, hid'.1, hne]

/-- The end of a binary operator: the left operand is popped, the right one is in `%rax`. -/
def binaryTail (op : BinaryOp) : List Instr :=
  .mov (.reg .rax) (.reg .rcx) :: .pop (.reg .rax) :: binaryInstrs op

theorem execInstrs_binaryTail (sym : CString → Word) (op : BinaryOp) (s : State) :
    match binaryVal op (load64 s.mem (s.regs .rsp)) (s.regs .rax) with
    | some v => ∃ s', execInstrs sym (binaryTail op) s = some s' ∧ s'.regs .rax = v ∧
        s'.mem = s.mem ∧ s'.regs .rsp = s.regs .rsp + 8 ∧ s'.regs .rbp = s.regs .rbp
    | none => execInstrs sym (binaryTail op) s = none := by
  have hpop := execInstrs_binary sym (s := (s.set .rcx (s.regs .rax)).popped .rax) op
  have hrax : ((s.set .rcx (s.regs .rax)).popped .rax).regs .rax = load64 s.mem (s.regs .rsp) := by
    simp [State.popped, State.set_regs]
  have hrcx : ((s.set .rcx (s.regs .rax)).popped .rax).regs .rcx = s.regs .rax := by
    simp [State.popped, State.set_regs]
  rw [hrax, hrcx] at hpop
  have hrun : execInstrs sym (binaryTail op) s =
      execInstrs sym (binaryInstrs op) ((s.set .rcx (s.regs .rax)).popped .rax) := rfl
  rw [hrun]
  cases hv : binaryVal op (load64 s.mem (s.regs .rsp)) (s.regs .rax) with
  | none =>
    rw [hv] at hpop
    exact hpop
  | some v =>
    rw [hv] at hpop
    obtain ⟨s', hs', hc⟩ := hpop
    refine ⟨s', hs', hc.rax, hc.mem, ?_, ?_⟩
    · rw [hc.regs _ (by decide) (by decide)]
      simp [State.popped, State.set_regs]
    · rw [hc.regs _ (by decide) (by decide)]
      simp [State.popped, State.set_regs]

/-! ## Variables -/

/-- The address of a name: of the symbol it resolves to, in a frame with that `%rbp`. -/
def addrOf (sym : CString → Word) (find : CString → Option Symbol) (rbp : Word) (name : CString) :
    Option Word :=
  (find name).map fun s => if s.isGlobal then sym name else rbp + BitVec.ofInt 64 s.stackOffset

theorem findSymbol_name {c : AsmCtx} {name : CString} {sym : Symbol}
    (h : findSymbol c name = some sym) : sym.name = name := by
  obtain ⟨s, _, hs⟩ := List.exists_of_findSome?_eq_some h
  rw [s.agree] at hs
  simpa using List.find?_some hs

section vars
variable (sym : CString → Word) {find : CString → Option Symbol} {name : CString} {v : Symbol}
  (hv : find name = some v) (s : State)
include hv

theorem exec_read : ∃ a, addrOf sym find (s.regs .rbp) name = some a ∧
    execInstr sym s (readInstr v name) = some (s.set .rax (load64 s.mem a)) := by
  by_cases hg : v.isGlobal = true
  · exact ⟨sym name, by simp [addrOf, hv, hg], by simp [readInstr, hg, execInstr, Operand.read,
      Operand.write]⟩
  · exact ⟨_, by simp [addrOf, hv, hg]; rfl, by simp [readInstr, hg, execInstr, Operand.read,
      Operand.write]⟩

theorem exec_write : ∃ a, addrOf sym find (s.regs .rbp) name = some a ∧
    execInstr sym s (writeInstr v name) = some (s.store a (s.regs .rax)) := by
  by_cases hg : v.isGlobal = true
  · exact ⟨sym name, by simp [addrOf, hv, hg], by simp [writeInstr, hg, execInstr, Operand.read,
      Operand.write]⟩
  · exact ⟨_, by simp [addrOf, hv, hg]; rfl, by simp [writeInstr, hg, execInstr, Operand.read,
      Operand.write]⟩

theorem exec_addr (hname : v.name = name) : ∃ a, addrOf sym find (s.regs .rbp) name = some a ∧
    execInstr sym s (addrInstr v) = some (s.set .rax a) := by
  by_cases hg : v.isGlobal = true
  · exact ⟨sym name, by simp [addrOf, hv, hg], by simp [addrInstr, hg, execInstr, Operand.addr,
      Operand.write, hname]⟩
  · exact ⟨_, by simp [addrOf, hv, hg]; rfl, by simp [addrInstr, hg, execInstr, Operand.addr,
      Operand.write]⟩

end vars

/-! ## Room for temporaries -/

mutual

/-- A bound on the words an expression has on the stack at once. -/
def exprNeed : Expr → Nat
  | .literal _ | .identifier _ => 0
  | .unary _ e => exprNeed e
  | .binary _ left right => max (exprNeed left) (1 + exprNeed right)
  | .call _ args => 1 + argsNeed args
  | .assign _ val => exprNeed val
  | .cast _ inner => exprNeed inner
  | .index _ _ => 0

def argsNeed : List Expr → Nat
  | [] => 0
  | arg :: args => max (exprNeed arg) (1 + argsNeed args)

end

def Phrase.need : Phrase → Nat
  | .expr e => exprNeed e
  | .exprs es => argsNeed es

end ACompiler
