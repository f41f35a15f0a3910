import ACompiler.Assembler.Shape
import ACompiler.Machine.Run
import ACompiler.Semantics.Values

/-!
# The operators in machine code

The instructions behind the operands of `gen_unary` and `gen_binary` compute the operator of the
language in `%rax`, and fault exactly where it has no result. They touch no memory and no register
but `%rax` and `%rdx`.
-/

namespace ACompiler

open Lib (Word Mem)

/-- Instructions one after the other. -/
def execInstrs (sym : CString → Word) : List Instr → State → Option State
  | [], s => some s
  | i :: is, s => do
    let s' ← execInstr sym s i
    execInstrs sym is s'

/-- The instruction is not a call. -/
def Instr.isCall : Instr → Bool
  | .call _ => true
  | _ => false

theorem exec_instrs {W : World} {is : List Instr} (hcall : ∀ i ∈ is, i.isCall = false) :
    ∀ {s s' : State} {evs : List CallEvent},
      Exec W (is.map .instr) s evs s' ↔ execInstrs W.sym is s = some s' ∧ evs = [] := by
  induction is with
  | nil =>
    intro s s' evs
    constructor
    · intro h
      cases h
      exact ⟨rfl, rfl⟩
    · rintro ⟨h, rfl⟩
      obtain rfl := Option.some.inj h
      exact .nil
  | cons i is ih =>
    intro s s' evs
    have ih' := @ih fun i hi => hcall i (List.mem_cons_of_mem _ hi)
    constructor
    · intro h
      cases h with
      | instr h hk =>
        obtain ⟨hrun, rfl⟩ := ih'.mp hk
        exact ⟨by simp [execInstrs, h, hrun], rfl⟩
      | call _ _ => simpa [Instr.isCall] using hcall _ List.mem_cons_self
    · rintro ⟨h, rfl⟩
      cases hi : execInstr W.sym s i with
      | none => simp [execInstrs, hi] at h
      | some s₁ =>
        simp [execInstrs, hi] at h
        exact .instr hi (ih'.mpr ⟨h, rfl⟩)

/-- `s'` is `s` with `v` in `%rax`: nothing else that later code looks at has changed. -/
structure Computes (s s' : State) (v : Word) : Prop where
  rax : s'.regs .rax = v
  mem : s'.mem = s.mem
  regs : ∀ id, id ≠ .rax → id ≠ .rdx → s'.regs id = s.regs id

/-! ## Single facts about words -/

theorem movzbq_setcc (x : Word) (b : Bool) :
    (x &&& 0xFFFFFFFFFFFFFF00 ||| (if b then 1 else 0 : Word)) &&& 0xFF = boolVal b := by
  have h : x &&& 0xFFFFFFFFFFFFFF00 &&& 0xFF = (0 : Word) := by
    have hz : (0xFFFFFFFFFFFFFF00 &&& 0xFF : Word) = 0 := by decide
    rw [BitVec.and_assoc, hz]
    exact BitVec.and_zero
  rw [BitVec.and_or_distrib_right, h]
  cases b <;> decide

/-- The sign extension that `cqto` prepares. -/
theorem toInt_cqto (a : Word) :
    ((if a.msb then -1 else 0 : Word) ++ a : BitVec 128).toInt = a.toInt := by
  have hrun := BitVec.toInt_append (x := (if a.msb then -1 else 0 : Word)) (y := a)
  simp only [Nat.reduceBEq, Bool.false_eq_true, if_false] at hrun
  refine hrun.trans ?_
  rw [BitVec.toInt_eq_msb_cond a]
  have hneg : (-1 : Word).toInt = -1 := by decide
  have hzero : (0 : Word).toInt = 0 := by decide
  by_cases h : a.msb = true
  · rw [if_pos h, if_pos h, hneg]
    omega
  · rw [if_neg h, if_neg h, hzero]
    omega

theorem toInt_int64Min : int64Min.toInt = -2 ^ 63 := by decide

/-- The quotient of two words fits, but for one pair. -/
theorem tdiv_range {a b : Word} (hb : b ≠ 0) :
    (a.toInt.tdiv b.toInt < -2 ^ 63 ∨ 2 ^ 63 ≤ a.toInt.tdiv b.toInt) ↔
      (a = int64Min ∧ b = -1) := by
  have ha := BitVec.two_mul_toInt_lt (x := a)
  have ha' := BitVec.le_two_mul_toInt (x := a)
  have hq := Int.natAbs_tdiv_le_natAbs a.toInt b.toInt
  have hb' : b.toInt ≠ 0 := fun h => hb (BitVec.eq_of_toInt_eq (by rw [h]; decide))
  constructor
  · intro h
    have hq' : a.toInt.tdiv b.toInt = 2 ^ 63 := by omega
    have hmin : a.toInt = -2 ^ 63 := by
      rcases Int.natAbs_eq a.toInt with h₁ | h₁ <;> omega
    refine ⟨BitVec.eq_of_toInt_eq (by rw [hmin, toInt_int64Min]), BitVec.eq_of_toInt_eq ?_⟩
    have hmul := Int.mul_tdiv_add_tmod a.toInt b.toInt
    have hmod := Int.natAbs_tmod a.toInt b.toInt
    have habs : (a.toInt.tdiv b.toInt).natAbs = a.toInt.natAbs / b.toInt.natAbs :=
      Int.natAbs_tdiv _ _
    have hneg : (-1 : Word).toInt = -1 := by decide
    rw [hneg]
    rw [hq', hmin] at habs
    have hone : b.toInt.natAbs = 1 := by
      have hpos : 0 < b.toInt.natAbs := Int.natAbs_pos.mpr hb'
      by_contra hne
      have hlt : (-2 ^ 63 : Int).natAbs / b.toInt.natAbs < (-2 ^ 63 : Int).natAbs :=
        Nat.div_lt_self (by decide) (by omega)
      rw [← habs] at hlt
      exact absurd hlt (by decide)
    rcases Int.natAbs_eq b.toInt with h₂ | h₂
    · rw [hone] at h₂
      rw [hmin, h₂] at hq'
      exact absurd hq' (by decide)
    · rw [h₂, hone]
      rfl
  · rintro ⟨rfl, rfl⟩
    right
    decide

/-- `cqto` and `idivq` divide, or fault where the quotient does not exist. -/
theorem idivide_cqto (a b : Word) :
    (idivide (if a.msb then -1 else 0) a b).map Prod.fst = binaryVal .bDiv a b := by
  simp only [idivide, binaryVal, toInt_cqto]
  by_cases hb : b = 0
  · simp [hb]
  · by_cases hr : a = int64Min ∧ b = -1
    · rw [if_pos (Or.inr ((tdiv_range hb).mpr hr)), if_pos (Or.inr hr)]
      rfl
    · rw [if_neg (not_or.mpr ⟨hb, fun h => hr ((tdiv_range hb).mp h)⟩),
        if_neg (not_or.mpr ⟨hb, hr⟩)]
      rfl

/-! ## The instructions of the operators -/

section operators
variable (sym : CString → Word) {s : State}

/-- A comparison leaves its truth value. -/
theorem execInstrs_compare (src : Operand) (cond : Cond) :
    ∃ s', execInstrs sym [.cmp src (.reg .rax), .setcc cond, .movzbq] s = some s' ∧
      Computes s s' (boolVal (cond.holds (s.regs .rax) (src.read sym s))) := by
  refine ⟨_, rfl, ?_, rfl, ?_⟩
  · simp only [State.set_regs_same]
    exact movzbq_setcc _ _
  · intro id hrax _
    simp [State.set_regs, hrax]

/-- The instructions behind the operand of a unary operator. -/
theorem execInstrs_unary {op : UnaryOp} {is : List Instr} (h : unaryInstrs op = some is) :
    ∃ v s', unaryVal op (s.regs .rax) = some v ∧ execInstrs sym is s = some s' ∧
      Computes s s' v := by
  cases op with
  | uNeg =>
    obtain rfl := Option.some.inj h
    refine ⟨_, _, rfl, rfl, ?_, rfl, ?_⟩
    · simp [Operand.read]
    · intro id hrax _
      simp [State.set_regs, hrax]
  | uNot =>
    obtain rfl := Option.some.inj h
    obtain ⟨s', hrun, hs'⟩ := execInstrs_compare sym (s := s) (.imm 0) .e
    exact ⟨_, s', rfl, hrun, hs'⟩
  | uPos =>
    obtain rfl := Option.some.inj h
    exact ⟨_, s, rfl, rfl, rfl, rfl, fun _ _ _ => rfl⟩
  | _ => simp [unaryInstrs] at h

/-- The state after a division with that quotient and remainder. -/
def State.divided (s : State) (qr : Word × Word) : State :=
  ((s.set .rdx (if (s.regs .rax).msb then -1 else 0)).clobber.set .rax qr.1).set .rdx qr.2

theorem execInstrs_div :
    execInstrs sym [.cqto, .idiv (.reg .rcx)] s =
      (idivide (if (s.regs .rax).msb then -1 else 0) (s.regs .rax) (s.regs .rcx)).map
        s.divided := by
  have hrun : execInstrs sym [.cqto, .idiv (.reg .rcx)] s =
      ((idivide (if (s.regs .rax).msb then -1 else 0) (s.regs .rax) (s.regs .rcx)).bind
        fun qr => some (s.divided qr)).bind fun s' => some s' := rfl
  rw [hrun]
  cases idivide (if (s.regs .rax).msb then -1 else 0) (s.regs .rax) (s.regs .rcx) <;> rfl

/-- The instructions behind the operands of a binary operator compute it, or fault where it has no
result. -/
theorem execInstrs_binary (op : BinaryOp) :
    match binaryVal op (s.regs .rax) (s.regs .rcx) with
    | some v => ∃ s', execInstrs sym (binaryInstrs op) s = some s' ∧ Computes s s' v
    | none => execInstrs sym (binaryInstrs op) s = none := by
  have hcmp := execInstrs_compare sym (s := s) (.reg .rcx)
  cases op with
  | bAdd =>
    refine ⟨_, rfl, ?_, rfl, ?_⟩
    · simp [Operand.read]
    · intro id hrax _
      simp [State.set_regs, hrax]
  | bSub =>
    refine ⟨_, rfl, ?_, rfl, ?_⟩
    · simp [Operand.read]
    · intro id hrax _
      simp [State.set_regs, hrax]
  | bMul =>
    refine ⟨_, rfl, ?_, rfl, ?_⟩
    · simp [Operand.read]
    · intro id hrax _
      simp [State.set_regs, hrax]
  | bDiv =>
    rw [← idivide_cqto, binaryInstrs, execInstrs_div]
    cases idivide (if (s.regs .rax).msb then -1 else 0) (s.regs .rax) (s.regs .rcx) with
    | none => rfl
    | some qr =>
      refine ⟨_, rfl, ?_, rfl, ?_⟩
      · simp [State.divided, State.set_regs]
      · intro id hrax hrdx
        simp [State.divided, State.set_regs, hrax, hrdx]
  | bLess => exact hcmp .l
  | bGreater => exact hcmp .g
  | bEqualEqual => exact hcmp .e
  | bNotEqual => exact hcmp .ne
  | bGeq => exact hcmp .ge
  | bLeq => exact hcmp .le

end operators

end ACompiler
