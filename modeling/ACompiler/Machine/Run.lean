import ACompiler.Machine.State

/-!
# Runs of the machine

A configuration is a state and the lines that are still to be run; a jump goes to the lines behind
its label. What a call does is a relation between the state before it and the state after it, which
stands for the callee from its entry to its return. Code without jumps and labels is also given a
big-step meaning, `Exec`, that lists its calls in order.
-/

namespace ACompiler

open Lib (Word Mem)

/-- The world the code runs in: where the named symbols are, and what the functions do. -/
structure World where
  sym : CString → Word
  callee : CString → State → State → Prop

/-- The lines behind a label. -/
def findLabel (n : Nat) : List Line → Option (List Line)
  | [] => none
  | .label m :: rest => if m = n then some rest else findLabel n rest
  | _ :: rest => findLabel n rest

/-- The line does nothing when control passes it. -/
def Line.isMark : Line → Bool
  | .instr _ => false
  | _ => true

/-- A state, and the lines still to be run. -/
structure Config where
  state : State
  code : List Line

/-- One step in a program. Control stops at a `ret`. -/
inductive Step (W : World) (prog : List Line) : Config → Config → Prop
  | mark {s : State} {l : Line} {k : List Line} (h : l.isMark = true) : Step W prog ⟨s, l :: k⟩ ⟨s, k⟩
  | instr {s s' : State} {i : Instr} {k : List Line} (h : execInstr W.sym s i = some s') :
      Step W prog ⟨s, .instr i :: k⟩ ⟨s', k⟩
  | call {s s' : State} {name : CString} {k : List Line} (h : W.callee name s s') :
      Step W prog ⟨s, .instr (.call name) :: k⟩ ⟨s', k⟩
  | jmp {s : State} {n : Nat} {k k' : List Line} (h : findLabel n prog = some k') :
      Step W prog ⟨s, .instr (.jmp n) :: k⟩ ⟨s, k'⟩
  | jeTaken {s : State} {n : Nat} {k k' : List Line} {a : Word} (hf : s.flags = some (a, a))
      (h : findLabel n prog = some k') : Step W prog ⟨s, .instr (.je n) :: k⟩ ⟨s, k'⟩
  | jePassed {s : State} {n : Nat} {k : List Line} {a b : Word} (hf : s.flags = some (a, b))
      (hab : a ≠ b) : Step W prog ⟨s, .instr (.je n) :: k⟩ ⟨s, k⟩

/-- Any number of steps. -/
abbrev Steps (W : World) (prog : List Line) : Config → Config → Prop :=
  Relation.ReflTransGen (Step W prog)

/-- A call in a run: the callee, and the states before and after. -/
structure CallEvent where
  callee : CString
  before : State
  after : State

/-- A run of straight-line code, with its calls in order. -/
inductive Exec (W : World) : List Line → State → List CallEvent → State → Prop
  | nil {s : State} : Exec W [] s [] s
  | instr {i : Instr} {k : List Line} {s s' s'' : State} {evs : List CallEvent}
      (h : execInstr W.sym s i = some s') (hk : Exec W k s' evs s'') :
      Exec W (.instr i :: k) s evs s''
  | call {name : CString} {k : List Line} {s s' s'' : State} {evs : List CallEvent}
      (h : W.callee name s s') (hk : Exec W k s' evs s'') :
      Exec W (.instr (.call name) :: k) s (⟨name, s, s'⟩ :: evs) s''

variable {W : World} {prog : List Line}

/-! ## Labels -/

/-- An element of an appended list stands in one of its parts. -/
theorem append_eq_append_cons {α : Type} {k k' pre post : List α} {x : α}
    (h : k ++ k' = pre ++ x :: post) :
    (∃ post', k = pre ++ x :: post' ∧ post = post' ++ k') ∨
      ∃ pre', pre = k ++ pre' ∧ k' = pre' ++ x :: post := by
  rw [List.append_eq_append_iff] at h
  rcases h with ⟨l, hpre, hk'⟩ | ⟨l, hk, hcons⟩
  · exact .inr ⟨l, hpre, hk'⟩
  · cases l with
    | nil => exact .inr ⟨[], by simpa using hk.symm, by simpa using hcons.symm⟩
    | cons y l =>
      rw [List.cons_append, List.cons.injEq] at hcons
      exact .inl ⟨l, by rw [hk, hcons.1], hcons.2⟩

theorem findLabel_eq_some {n : Nat} {k : List Line} : ∀ {prog : List Line},
    findLabel n prog = some k → ∃ pre, prog = pre ++ .label n :: k := by
  intro prog
  induction prog with
  | nil => intro h; simp [findLabel] at h
  | cons l prog ih =>
    intro h
    unfold findLabel at h
    split at h
    · rename_i heq
      exact absurd heq (by simp)
    · rename_i m rest heq
      obtain ⟨rfl, rfl⟩ := List.cons.inj heq
      by_cases hm : m = n
      · rw [if_pos hm] at h
        obtain rfl := Option.some.inj h
        exact ⟨[], by rw [hm, List.nil_append]⟩
      · rw [if_neg hm] at h
        obtain ⟨pre, hpre⟩ := ih h
        exact ⟨_ :: pre, by rw [hpre, List.cons_append]⟩
    · rename_i l' rest _ heq
      obtain ⟨rfl, rfl⟩ := List.cons.inj heq
      obtain ⟨pre, hpre⟩ := ih h
      exact ⟨_ :: pre, by rw [hpre, List.cons_append]⟩

theorem findLabel_of_not_mem {n : Nat} {k : List Line} : ∀ {pre : List Line},
    Line.label n ∉ pre → findLabel n (pre ++ .label n :: k) = some k := by
  intro pre
  induction pre with
  | nil => intro _; simp [findLabel]
  | cons l pre ih =>
    intro h
    rw [List.mem_cons, not_or] at h
    rw [List.cons_append]
    unfold findLabel
    split
    · rename_i heq
      exact absurd heq (by simp)
    · rename_i m rest heq
      obtain ⟨rfl, rfl⟩ := List.cons.inj heq
      rw [if_neg fun hm => h.1 (by rw [hm]), ih h.2]
    · rename_i l' rest _ heq
      obtain ⟨rfl, rfl⟩ := List.cons.inj heq
      exact ih h.2

/-! ## Straight lines -/

/-- The line goes on to the next one, without a call. -/
def Line.isStraight : Line → Bool
  | .instr (.call _) | .instr (.je _) | .instr (.jmp _) => false
  | _ => true

/-- Run straight lines. -/
def execLines (sym : CString → Word) : List Line → State → Option State
  | [], s => some s
  | .instr i :: k, s => do
    let s' ← execInstr sym s i
    execLines sym k s'
  | _ :: k, s => execLines sym k s

theorem execLines_mark {sym : CString → Word} {l : Line} (h : l.isMark = true) (k : List Line)
    (s : State) : execLines sym (l :: k) s = execLines sym k s := by
  cases l with
  | instr i => exact absurd h (by simp [Line.isMark])
  | _ => rfl

theorem steps_of_execLines {k : List Line} : ∀ {code : List Line} {s s' : State},
    execLines W.sym code s = some s' → Steps W prog ⟨s, code ++ k⟩ ⟨s', k⟩ := by
  intro code
  induction code with
  | nil =>
    intro s s' h
    obtain rfl := Option.some.inj h
    exact .refl
  | cons l code ih =>
    intro s s' h
    by_cases hl : l.isMark = true
    · rw [execLines_mark hl] at h
      exact .head (.mark hl) (ih h)
    · cases l with
      | instr i =>
        rw [execLines, Option.bind_eq_bind, Option.bind_eq_some_iff] at h
        obtain ⟨s₁, hi, h⟩ := h
        exact .head (.instr hi) (ih h)
      | _ => exact absurd rfl hl

/-- Whatever is reached behind straight lines is reached through their end. -/
theorem steps_straight {code : List Line} (hcode : ∀ l ∈ code, l.isStraight = true) :
    ∀ {s t : State} {k k' : List Line}, Steps W prog ⟨s, code ++ k⟩ ⟨t, k'⟩ →
      k'.length ≤ k.length →
        ∃ s₁, execLines W.sym code s = some s₁ ∧ Steps W prog ⟨s₁, k⟩ ⟨t, k'⟩ := by
  induction code with
  | nil => exact fun h _ => ⟨_, rfl, h⟩
  | cons l code ih =>
    intro s t k k' h hlen
    have ih' := @ih fun l hl => hcode l (List.mem_cons_of_mem _ hl)
    have hl := hcode l List.mem_cons_self
    rcases Relation.ReflTransGen.cases_head h with heq | ⟨⟨s₁, k₁⟩, hstep, hrest⟩
    · have hcode' := congrArg Config.code heq
      simp only at hcode'
      rw [← hcode', List.length_append, List.length_cons] at hlen
      omega
    · cases hstep with
      | mark hm =>
        obtain ⟨s₂, hrun, hsteps⟩ := ih' hrest hlen
        exact ⟨s₂, by rw [execLines_mark hm, hrun], hsteps⟩
      | instr hi =>
        obtain ⟨s₂, hrun, hsteps⟩ := ih' hrest hlen
        exact ⟨s₂, by rw [execLines, hi]; exact hrun, hsteps⟩
      | call _ => exact absurd hl (by simp [Line.isStraight])
      | jmp _ => exact absurd hl (by simp [Line.isStraight])
      | jeTaken _ _ => exact absurd hl (by simp [Line.isStraight])
      | jePassed _ _ => exact absurd hl (by simp [Line.isStraight])

/-! ## Runs of straight-line code -/

theorem Exec.append {k k' : List Line} {s s' s'' : State} {evs evs' : List CallEvent}
    (h : Exec W k s evs s') (h' : Exec W k' s' evs' s'') :
    Exec W (k ++ k') s (evs ++ evs') s'' := by
  induction h with
  | nil => exact h'
  | instr h _ ih => exact .instr h (ih h')
  | call h _ ih => exact .call h (ih h')

/-- A run of two pieces of code runs the first, then the second. -/
theorem Exec.split {k k' : List Line} : ∀ {s s'' : State} {evs : List CallEvent},
    Exec W (k ++ k') s evs s'' → ∃ s' evs₁ evs₂, Exec W k s evs₁ s' ∧ Exec W k' s' evs₂ s'' ∧
      evs = evs₁ ++ evs₂ := by
  induction k with
  | nil => intro s s'' evs h; exact ⟨s, [], evs, .nil, h, rfl⟩
  | cons l k ih =>
    intro s s'' evs h
    cases h with
    | instr h hk =>
      obtain ⟨s', evs₁, evs₂, h₁, h₂, rfl⟩ := ih hk
      exact ⟨s', evs₁, evs₂, .instr h h₁, h₂, rfl⟩
    | call h hk =>
      obtain ⟨s', evs₁, evs₂, h₁, h₂, rfl⟩ := ih hk
      exact ⟨s', _ :: evs₁, evs₂, .call h h₁, h₂, rfl⟩

/-- A single instruction that is not a call. -/
theorem Exec.single {i : Instr} {s s' : State} {evs : List CallEvent} (hi : ∀ name, i ≠ .call name)
    (h : Exec W [.instr i] s evs s') : execInstr W.sym s i = some s' ∧ evs = [] := by
  cases h with
  | instr h hk =>
    cases hk with
    | nil => exact ⟨h, rfl⟩
  | call h _ => exact absurd rfl (hi _)

/-- Running straight-line code inside a program. -/
theorem Exec.steps {k : List Line} {s s' : State} {evs : List CallEvent} (h : Exec W k s evs s')
    (rest : List Line) : Steps W prog ⟨s, k ++ rest⟩ ⟨s', rest⟩ := by
  induction h with
  | nil => exact .refl
  | instr h _ ih => exact .head (.instr h) ih
  | call h _ ih => exact .head (.call h) ih

end ACompiler
