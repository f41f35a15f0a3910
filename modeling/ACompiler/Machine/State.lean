import ACompiler.Assembler.Emitter
import ACompiler.Lib.Memory

/-!
# The target machine

The part of x86-64 that the emitted lines use: sixteen registers, a byte-addressed memory, and of
the flags what the last `cmp` compared. Flags after any other arithmetic are not tracked, and an
instruction that would read them is stuck; so is a division that faults, and an operand combination
that does not exist. The addresses of named symbols are a parameter.
-/

namespace ACompiler

open Lib (Word Mem)
open Lib.Mem (load64 store64)

/-- Registers, memory, and the operands `(dest, src)` of the last `cmpq src, dest`. -/
structure State where
  regs : RegId → Word
  flags : Option (Word × Word)
  mem : Mem

namespace State

/-- Write a register. -/
def set (s : State) (id : RegId) (v : Word) : State :=
  { s with regs := fun id' => if id' = id then v else s.regs id' }

/-- Write eight bytes of memory. -/
def store (s : State) (a v : Word) : State := { s with mem := store64 s.mem a v }

/-- Forget the flags. -/
def clobber (s : State) : State := { s with flags := none }

@[simp] theorem set_regs_same (s : State) (id : RegId) (v : Word) : (s.set id v).regs id = v :=
  if_pos rfl

theorem set_regs (s : State) (id id' : RegId) (v : Word) :
    (s.set id v).regs id' = if id' = id then v else s.regs id' := rfl

@[simp] theorem set_mem (s : State) (id : RegId) (v : Word) : (s.set id v).mem = s.mem := rfl

@[simp] theorem set_flags (s : State) (id : RegId) (v : Word) : (s.set id v).flags = s.flags := rfl

@[simp] theorem store_regs (s : State) (a v : Word) : (s.store a v).regs = s.regs := rfl

@[simp] theorem store_mem (s : State) (a v : Word) : (s.store a v).mem = store64 s.mem a v := rfl

@[simp] theorem store_flags (s : State) (a v : Word) : (s.store a v).flags = s.flags := rfl

@[simp] theorem clobber_regs (s : State) : s.clobber.regs = s.regs := rfl

@[simp] theorem clobber_mem (s : State) : s.clobber.mem = s.mem := rfl

end State

section exec
variable (sym : CString → Word)

/-- The address of a memory operand. -/
def Operand.addr (s : State) : Operand → Option Word
  | .mem base disp => some (s.regs base + BitVec.ofInt 64 disp)
  | .sym name => some (sym name)
  | .reg _ | .imm _ => none

/-- The value of an operand. -/
def Operand.read (s : State) : Operand → Word
  | .reg id => s.regs id
  | .imm n => BitVec.ofInt 64 n
  | .mem base disp => load64 s.mem (s.regs base + BitVec.ofInt 64 disp)
  | .sym name => load64 s.mem (sym name)

/-- Write an operand. -/
def Operand.write (s : State) (v : Word) : Operand → Option State
  | .reg id => some (s.set id v)
  | .imm _ => none
  | .mem base disp => some (s.store (s.regs base + BitVec.ofInt 64 disp) v)
  | .sym name => some (s.store (sym name) v)

/-- The outcome of comparing `a` with `b`, as signed numbers. -/
def Cond.holds : Cond → Word → Word → Bool
  | .e, a, b => decide (a = b)
  | .ne, a, b => decide (a ≠ b)
  | .l, a, b => decide (a.toInt < b.toInt)
  | .g, a, b => decide (b.toInt < a.toInt)
  | .ge, a, b => decide (b.toInt ≤ a.toInt)
  | .le, a, b => decide (a.toInt ≤ b.toInt)

/-- `idivq`: the signed quotient and remainder of `hi:lo` by `d`, or a fault. -/
def idivide (hi lo d : Word) : Option (Word × Word) :=
  let n : Int := (hi ++ lo : BitVec 128).toInt
  let q := n.tdiv d.toInt
  if d = 0 ∨ q < -2 ^ 63 ∨ 2 ^ 63 ≤ q then none
  else some (BitVec.ofInt 64 q, BitVec.ofInt 64 (n.tmod d.toInt))

/-- One instruction other than a jump, a call or `ret`. -/
def execInstr (s : State) : Instr → Option State
  | .mov src dest => dest.write sym s (src.read sym s)
  | .lea src dest => do
    let a ← src.addr sym s
    dest.write sym s a
  | .push op =>
    some ((s.store (s.regs .rsp - 8) (op.read sym s)).set .rsp (s.regs .rsp - 8))
  | .pop op => op.write sym (s.set .rsp (s.regs .rsp + 8)) (load64 s.mem (s.regs .rsp))
  | .add src dest => dest.write sym s.clobber (dest.read sym s + src.read sym s)
  | .sub src dest => dest.write sym s.clobber (dest.read sym s - src.read sym s)
  | .imul src dest => dest.write sym s.clobber (dest.read sym s * src.read sym s)
  | .neg op => op.write sym s.clobber (-op.read sym s)
  | .idiv divisor => do
    let (q, r) ← idivide (s.regs .rdx) (s.regs .rax) (divisor.read sym s)
    some ((s.clobber.set .rax q).set .rdx r)
  | .cmp src dest => some { s with flags := some (dest.read sym s, src.read sym s) }
  | .setcc cond => do
    let (a, b) ← s.flags
    let al : Word := if cond.holds a b then 1 else 0
    some (s.set .rax (s.regs .rax &&& 0xFFFFFFFFFFFFFF00 ||| al))
  | .movzbq => some (s.set .rax (s.regs .rax &&& 0xFF))
  | .cqto => some (s.set .rdx (if (s.regs .rax).msb then -1 else 0))
  | .call _ | .je _ | .jmp _ | .ret => none

end exec

end ACompiler
