import Mathlib

/-!
# Parsers over a token list

A parser is a program of operations on a cursor. The cursor of a recursive-descent parser over an
array is the suffix of the tokens it points at: an operation looks at its head or at the token
behind, or drops the head. A parser is run as a function of the tokens that are left, which fails or
returns a value and the tokens that are left after it, and step by step, which shows the cursor at
every operation.
-/

namespace ACompiler.Lib

/-- A parser over tokens `τ` that fails with `ε`: what it returns, or its next operation and what
follows it. -/
inductive TokenParser (τ ε α : Type) : Type
  | ret (a : α)
  | fail (e : ε)
  | onPeek (k : Option τ → TokenParser τ ε α)
  | onPeekNext (k : Option τ → TokenParser τ ε α)
  | onAdvance (k : Unit → TokenParser τ ε α)

variable {τ ε α β : Type}

namespace TokenParser

def andThen (f : α → TokenParser τ ε β) : TokenParser τ ε α → TokenParser τ ε β
  | ret a => f a
  | fail e => fail e
  | onPeek k => onPeek fun t => andThen f (k t)
  | onPeekNext k => onPeekNext fun t => andThen f (k t)
  | onAdvance k => onAdvance fun u => andThen f (k u)

instance : Monad (TokenParser τ ε) where
  pure := ret
  bind x f := andThen f x

/-- The run on the tokens that are left. -/
def run : TokenParser τ ε α → List τ → Except ε (α × List τ)
  | ret a, ts => .ok (a, ts)
  | fail e, _ => .error e
  | onPeek k, ts => run (k ts.head?) ts
  | onPeekNext k, ts => run (k ts[1]?) ts
  | onAdvance k, ts => run (k ()) ts.tail

instance : CoeFun (TokenParser τ ε α) fun _ => List τ → Except ε (α × List τ) := ⟨run⟩

/-- The token under the cursor. -/
def peek : TokenParser τ ε (Option τ) := onPeek ret

/-- The token behind the one under the cursor. -/
def peekNext : TokenParser τ ε (Option τ) := onPeekNext ret

def advance : TokenParser τ ε Unit := onAdvance ret

@[simp] theorem pure_run (a : α) (ts : List τ) :
    (pure a : TokenParser τ ε α) ts = .ok (a, ts) := rfl

@[simp] theorem fail_run (e : ε) (ts : List τ) : (fail e : TokenParser τ ε α) ts = .error e := rfl

@[simp] theorem peek_run (ts : List τ) : (peek : TokenParser τ ε (Option τ)) ts = .ok (ts.head?, ts) :=
  rfl

@[simp] theorem advance_run (ts : List τ) : (advance : TokenParser τ ε Unit) ts = .ok ((), ts.tail) :=
  rfl

@[simp] theorem peek_bind (f : Option τ → TokenParser τ ε α) (ts : List τ) :
    (peek >>= f) ts = f ts.head? ts := rfl

@[simp] theorem peekNext_bind (f : Option τ → TokenParser τ ε α) (ts : List τ) :
    (peekNext >>= f) ts = f ts[1]? ts := rfl

@[simp] theorem advance_bind (f : Unit → TokenParser τ ε α) (ts : List τ) :
    (advance >>= f) ts = f () ts.tail := rfl

@[simp] theorem pure_bind (a : α) (f : α → TokenParser τ ε β) (ts : List τ) :
    (pure a >>= f) ts = f a ts := rfl

@[simp] theorem fail_bind (e : ε) (f : α → TokenParser τ ε β) (ts : List τ) :
    (fail e >>= f) ts = .error e := rfl

theorem bind_run (x : TokenParser τ ε α) (f : α → TokenParser τ ε β) (ts : List τ) :
    (x >>= f) ts =
      match x ts with
      | .error e => .error e
      | .ok (a, rest) => f a rest := by
  show run (andThen f x) ts = _
  induction x generalizing ts with
  | ret a => rfl
  | fail e => rfl
  | onPeek k ih => exact ih ts.head? ts
  | onPeekNext k ih => exact ih ts[1]? ts
  | onAdvance k ih => exact ih () ts.tail

/-- A successful sequence splits into two successful runs. -/
theorem bind_eq_ok {x : TokenParser τ ε α} {f : α → TokenParser τ ε β} {ts : List τ}
    {r : β × List τ} :
    (x >>= f) ts = .ok r ↔ ∃ a rest, x ts = .ok (a, rest) ∧ f a rest = .ok r := by
  rw [bind_run]
  cases x ts with
  | error e => simp
  | ok p =>
    obtain ⟨a, rest⟩ := p
    simp

/-- A failing sequence fails in its first or in its second part. -/
theorem bind_eq_error {x : TokenParser τ ε α} {f : α → TokenParser τ ε β} {ts : List τ} {e : ε} :
    (x >>= f) ts = .error e ↔
      x ts = .error e ∨ ∃ a rest, x ts = .ok (a, rest) ∧ f a rest = .error e := by
  rw [bind_run]
  cases x ts with
  | error e' => simp
  | ok p =>
    obtain ⟨a, rest⟩ := p
    simp

theorem bind_of_ok {x : TokenParser τ ε α} {f : α → TokenParser τ ε β} {ts : List τ} {a : α}
    {rest : List τ} (hx : x ts = .ok (a, rest)) : (x >>= f) ts = f a rest := by
  rw [bind_run, hx]

theorem bind_of_error {x : TokenParser τ ε α} {f : α → TokenParser τ ε β} {ts : List τ} {e : ε}
    (hx : x ts = .error e) : (x >>= f) ts = .error e := by
  rw [bind_run, hx]

/-! ## Step by step -/

/-- One operation on the cursor: what is left to do, with the tokens that are left, before and after
it. -/
inductive Step : TokenParser τ ε α × List τ → TokenParser τ ε α × List τ → Prop
  | peek {k : Option τ → TokenParser τ ε α} {ts : List τ} : Step (onPeek k, ts) (k ts.head?, ts)
  | peekNext {k : Option τ → TokenParser τ ε α} {ts : List τ} :
      Step (onPeekNext k, ts) (k ts[1]?, ts)
  | advance {k : Unit → TokenParser τ ε α} {ts : List τ} : Step (onAdvance k, ts) (k (), ts.tail)

/-- Any number of operations. -/
abbrev Reaches : TokenParser τ ε α × List τ → TokenParser τ ε α × List τ → Prop :=
  Relation.ReflTransGen Step

/-- What is reached from a parser is the parser itself, or reached behind its first operation. -/
theorem Reaches.cases {x y : TokenParser τ ε α} {ts rest : List τ}
    (h : Reaches (x, ts) (y, rest)) :
    (y = x ∧ rest = ts) ∨ ∃ x' ts', Step (x, ts) (x', ts') ∧ Reaches (x', ts') (y, rest) := by
  rcases Relation.ReflTransGen.cases_head h with heq | ⟨c, hstep, hrest⟩
  · obtain ⟨rfl, rfl⟩ := Prod.mk.inj heq
    exact .inl ⟨rfl, rfl⟩
  · exact .inr ⟨c.1, c.2, hstep, hrest⟩

/-- An operation does not change what a run gives. -/
theorem Step.run_eq {x y : TokenParser τ ε α} {ts rest : List τ} (h : Step (x, ts) (y, rest)) :
    x ts = y rest := by
  cases h with
  | peek => rfl
  | peekNext => rfl
  | advance => rfl

theorem Reaches.run_eq {c d : TokenParser τ ε α × List τ} (h : Reaches c d) :
    c.1 c.2 = d.1 d.2 := by
  induction h with
  | refl => rfl
  | tail _ hstep ih => exact ih.trans hstep.run_eq

/-- A run comes step by step to its value or its error. -/
theorem reaches_end (x : TokenParser τ ε α) (ts : List τ) :
    (∃ a rest, x ts = .ok (a, rest) ∧ Reaches (x, ts) (ret a, rest)) ∨
      ∃ e rest, x ts = .error e ∧ Reaches (x, ts) (fail e, rest) := by
  induction x generalizing ts with
  | ret a => exact .inl ⟨a, ts, rfl, .refl⟩
  | fail e => exact .inr ⟨e, ts, rfl, .refl⟩
  | onPeek k ih =>
    refine (ih ts.head? ts).imp ?_ ?_
    · rintro ⟨a, rest, hrun, h⟩
      exact ⟨a, rest, hrun, .head .peek h⟩
    · rintro ⟨e, rest, hrun, h⟩
      exact ⟨e, rest, hrun, .head .peek h⟩
  | onPeekNext k ih =>
    refine (ih ts[1]? ts).imp ?_ ?_
    · rintro ⟨a, rest, hrun, h⟩
      exact ⟨a, rest, hrun, .head .peekNext h⟩
    · rintro ⟨e, rest, hrun, h⟩
      exact ⟨e, rest, hrun, .head .peekNext h⟩
  | onAdvance k ih =>
    refine (ih () ts.tail).imp ?_ ?_
    · rintro ⟨a, rest, hrun, h⟩
      exact ⟨a, rest, hrun, .head .advance h⟩
    · rintro ⟨e, rest, hrun, h⟩
      exact ⟨e, rest, hrun, .head .advance h⟩

theorem run_eq_ok_iff {x : TokenParser τ ε α} {ts rest : List τ} {a : α} :
    x ts = .ok (a, rest) ↔ Reaches (x, ts) (ret a, rest) := by
  refine ⟨fun h => ?_, fun h => h.run_eq⟩
  rcases reaches_end x ts with ⟨b, rest', hrun, hreach⟩ | ⟨e, rest', hrun, _⟩
  · rw [h] at hrun
    obtain ⟨rfl, rfl⟩ := Prod.mk.inj (Except.ok.inj hrun)
    exact hreach
  · rw [h] at hrun
    exact absurd hrun (by simp)

/-! ## What holds at every step -/

/-- The tokens that are left meet `I` at every step of the run. -/
def Always (I : List τ → Prop) (x : TokenParser τ ε α) (ts : List τ) : Prop :=
  ∀ y rest, Reaches (x, ts) (y, rest) → I rest

section always
variable {I : List τ → Prop} {ts : List τ}

theorem Always.start {x : TokenParser τ ε α} (h : Always I x ts) : I ts := h x ts .refl

/-- What holds at every step holds of what is left. -/
theorem Always.rest {x : TokenParser τ ε α} {rest : List τ} {a : α} (h : Always I x ts)
    (hx : x ts = .ok (a, rest)) : I rest :=
  h _ _ (run_eq_ok_iff.mp hx)

theorem always_ret (a : α) (h : I ts) : Always I (ret a : TokenParser τ ε α) ts := by
  intro y rest hreach
  rcases hreach.cases with ⟨_, rfl⟩ | ⟨x', ts', hstep, _⟩
  · exact h
  · exact absurd hstep (by rintro ⟨⟩)

theorem always_fail (e : ε) (h : I ts) : Always I (fail e : TokenParser τ ε α) ts := by
  intro y rest hreach
  rcases hreach.cases with ⟨_, rfl⟩ | ⟨x', ts', hstep, _⟩
  · exact h
  · exact absurd hstep (by rintro ⟨⟩)

theorem always_onPeek {k : Option τ → TokenParser τ ε α} (h : Always I (k ts.head?) ts) :
    Always I (onPeek k) ts := by
  intro y rest hreach
  rcases hreach.cases with ⟨_, rfl⟩ | ⟨x', ts', hstep, hrest⟩
  · exact h.start
  · cases hstep
    exact h y rest hrest

theorem always_onPeekNext {k : Option τ → TokenParser τ ε α} (h : Always I (k ts[1]?) ts) :
    Always I (onPeekNext k) ts := by
  intro y rest hreach
  rcases hreach.cases with ⟨_, rfl⟩ | ⟨x', ts', hstep, hrest⟩
  · exact h.start
  · cases hstep
    exact h y rest hrest

theorem always_onAdvance {k : Unit → TokenParser τ ε α} (hts : I ts)
    (h : Always I (k ()) ts.tail) : Always I (onAdvance k) ts := by
  intro y rest hreach
  rcases hreach.cases with ⟨_, rfl⟩ | ⟨x', ts', hstep, hrest⟩
  · exact hts
  · cases hstep
    exact h y rest hrest

/-- What holds along a parser, and along what follows it, holds along both. -/
theorem Always.bind {x : TokenParser τ ε α} {f : α → TokenParser τ ε β} (hx : Always I x ts)
    (hf : ∀ a rest, x ts = .ok (a, rest) → Always I (f a) rest) : Always I (x >>= f) ts := by
  show Always I (andThen f x) ts
  induction x generalizing ts with
  | ret a => exact hf a ts rfl
  | fail e => exact always_fail e hx.start
  | onPeek k ih =>
    exact always_onPeek (ih ts.head? (fun y rest h => hx y rest (.head .peek h)) hf)
  | onPeekNext k ih =>
    exact always_onPeekNext (ih ts[1]? (fun y rest h => hx y rest (.head .peekNext h)) hf)
  | onAdvance k ih =>
    exact always_onAdvance hx.start (ih () (fun y rest h => hx y rest (.head .advance h)) hf)

end always

end TokenParser

end ACompiler.Lib
