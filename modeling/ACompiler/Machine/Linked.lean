import ACompiler.Machine.Stack

/-!
# The linked program

The machine of `Run` with calls inside of the program: `call` pushes the address of the line behind
it and goes to the label of the function, `ret` pops an address and goes there. Where data and code
lie is a parameter; the address of a place in the code is given by the number of lines from it on.
-/

namespace ACompiler

open Lib (Word Mem)
open Lib.Mem (load64 store64 InCell Apart)

/-- Where the linker put the named data and the lines of the code. -/
structure Image where
  sym : CString → Word
  place : Nat → Word

/-- The world of a function on its own, without callees. -/
def Image.world (I : Image) : World := ⟨I.sym, fun _ _ _ => False⟩

/-- The lines behind the label of a function. -/
def findEntry (name : CString) : List Line → Option (List Line)
  | [] => none
  | .symbol x :: rest => if x = name then some rest else findEntry name rest
  | _ :: rest => findEntry name rest

/-- The state after a word is pushed. -/
def State.pushWord (s : State) (w : Word) : State :=
  (s.store (s.regs .rsp - 8) w).set .rsp (s.regs .rsp - 8)

/-- One step of the linked program: one of the function that runs, a call or a return. -/
inductive LinkedStep (I : Image) (prog : List Line) : Config → Config → Prop
  | inner {cfg cfg' : Config} (h : Step I.world prog cfg cfg') : LinkedStep I prog cfg cfg'
  | call {s : State} {name : CString} {k k' : List Line} (h : findEntry name prog = some k') :
      LinkedStep I prog ⟨s, .instr (.call name) :: k⟩ ⟨s.pushWord (I.place k.length), k'⟩
  | ret {s : State} {k k' : List Line} (hk : k' <:+ prog)
      (h : load64 s.mem (s.regs .rsp) = I.place k'.length) :
      LinkedStep I prog ⟨s, .instr .ret :: k⟩ ⟨s.set .rsp (s.regs .rsp + 8), k'⟩

/-- Any number of steps. -/
abbrev LinkedSteps (I : Image) (prog : List Line) : Config → Config → Prop :=
  Relation.ReflTransGen (LinkedStep I prog)

section linked
variable {I : Image} {prog : List Line}

theorem LinkedSteps.of_steps {cfg cfg' : Config} (h : Steps I.world prog cfg cfg') :
    LinkedSteps I prog cfg cfg' := by
  induction h with
  | refl => exact .refl
  | tail _ hstep ih => exact ih.tail (.inner hstep)

/-- Instructions that run through are steps. -/
theorem linkedSteps_instrs {is : List Instr} {s s' : State} (his : ∀ i ∈ is, i.isCall = false)
    (h : execInstrs I.sym is s = some s') (k : List Line) :
    LinkedSteps I prog ⟨s, is.map .instr ++ k⟩ ⟨s', k⟩ := by
  have hrun : Exec I.world (is.map .instr) s [] s' := (exec_instrs his).mpr ⟨h, rfl⟩
  exact .of_steps (hrun.steps k)

theorem linkedSteps_instr {i : Instr} {s s' : State} (h : execInstr I.sym s i = some s')
    (k : List Line) : LinkedSteps I prog ⟨s, .instr i :: k⟩ ⟨s', k⟩ :=
  .single (.inner (.instr h))

end linked

/-! ## Entries -/

theorem findEntry_of_not_mem {name : CString} {k : List Line} : ∀ {pre : List Line},
    Line.symbol name ∉ pre → findEntry name (pre ++ .symbol name :: k) = some k := by
  intro pre
  induction pre with
  | nil => intro _; simp [findEntry]
  | cons l pre ih =>
    intro h
    rw [List.mem_cons, not_or] at h
    rw [List.cons_append]
    unfold findEntry
    split
    · rename_i heq
      exact absurd heq (by simp)
    · rename_i x rest heq
      obtain ⟨rfl, rfl⟩ := List.cons.inj heq
      rw [if_neg fun hx => h.1 (by rw [hx]), ih h.2]
    · rename_i l' rest _ heq
      obtain ⟨rfl, rfl⟩ := List.cons.inj heq
      exact ih h.2

/-! ## Pushed words -/

section push
variable {s : State} {w : Word}

@[simp] theorem pushWord_rsp : (s.pushWord w).regs .rsp = s.regs .rsp - 8 := by
  simp [State.pushWord]

theorem pushWord_regs {id : RegId} (h : id ≠ .rsp) : (s.pushWord w).regs id = s.regs id := by
  simp [State.pushWord, State.set_regs, h]

@[simp] theorem load_pushWord : load64 (s.pushWord w).mem (s.regs .rsp - 8) = w := by
  simp [State.pushWord]

theorem pushed_eq_pushWord : s.pushed = s.pushWord (s.regs .rax) := rfl

/-- A push writes to the eight bytes below the stack pointer. -/
theorem pushWord_mem (h : 8 ≤ (s.regs .rsp).toNat) {x : Word}
    (hx : ¬ ((s.regs .rsp).toNat - 8 ≤ x.toNat ∧ x.toNat < (s.regs .rsp).toNat)) :
    (s.pushWord w).mem x = s.mem x := by
  have hlt := (s.regs .rsp).isLt
  have hsub : (s.regs .rsp - 8).toNat = (s.regs .rsp).toNat - 8 := by bv_omega
  refine Lib.Mem.store64_of_not_inCell fun hcell => hx ?_
  rw [inCell_iff (by omega), hsub] at hcell
  omega

end push

end ACompiler
