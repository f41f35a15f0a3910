import Mathlib

/-!
# An emitting computation

A code generator is a function of a context that may fail, and that otherwise returns a value, the
context it leaves, the items it printed and the contexts it passed through at the points it marked.
The printed items and the marks of two computations run one after the other are concatenated, so
what a part printed never mentions what was printed before it.
-/

namespace ACompiler.Lib

/-- What a successful run leaves: the items in the order printed, and the marked contexts. -/
structure Emitted (σ ι α : Type) where
  val : α
  ctx : σ
  items : List ι
  marks : List σ

/-- A computation over contexts `σ` that prints items `ι` and fails with `ε`. -/
def Emit (σ ι ε α : Type) : Type := σ → Except ε (Emitted σ ι α)

variable {σ ι ε α β : Type}

namespace Emit

instance : Monad (Emit σ ι ε) where
  pure a := fun c => .ok ⟨a, c, [], []⟩
  bind x f := fun c =>
    match x c with
    | .error e => .error e
    | .ok r =>
      match f r.val r.ctx with
      | .error e => .error e
      | .ok r' => .ok ⟨r'.val, r'.ctx, r.items ++ r'.items, r.marks ++ r'.marks⟩

/-- Print one item, which may be read off the context. -/
def print (item : σ → ι) : Emit σ ι ε Unit := fun c => .ok ⟨(), c, [item c], []⟩

def get : Emit σ ι ε σ := fun c => .ok ⟨c, c, [], []⟩

def modify (f : σ → σ) : Emit σ ι ε Unit := fun c => .ok ⟨(), f c, [], []⟩

def throw (e : ε) : Emit σ ι ε α := fun _ => .error e

/-- Mark the current context. -/
def mark : Emit σ ι ε Unit := fun c => .ok ⟨(), c, [], [c]⟩

/-! ## Runs -/

@[simp] theorem pure_run (a : α) (c : σ) :
    (pure a : Emit σ ι ε α) c = .ok ⟨a, c, [], []⟩ := rfl

@[simp] theorem print_run (item : σ → ι) (c : σ) :
    (print item : Emit σ ι ε Unit) c = .ok ⟨(), c, [item c], []⟩ := rfl

@[simp] theorem get_run (c : σ) : (get : Emit σ ι ε σ) c = .ok ⟨c, c, [], []⟩ := rfl

@[simp] theorem modify_run (f : σ → σ) (c : σ) :
    (modify f : Emit σ ι ε Unit) c = .ok ⟨(), f c, [], []⟩ := rfl

@[simp] theorem throw_run (e : ε) (c : σ) : (throw e : Emit σ ι ε α) c = .error e := rfl

@[simp] theorem mark_run (c : σ) : (mark : Emit σ ι ε Unit) c = .ok ⟨(), c, [], [c]⟩ := rfl

theorem bind_run (x : Emit σ ι ε α) (f : α → Emit σ ι ε β) (c : σ) :
    (x >>= f) c =
      match x c with
      | .error e => .error e
      | .ok r =>
        match f r.val r.ctx with
        | .error e => .error e
        | .ok r' => .ok ⟨r'.val, r'.ctx, r.items ++ r'.items, r.marks ++ r'.marks⟩ := rfl

/-- A successful sequence splits into two successful runs. -/
theorem bind_eq_ok {x : Emit σ ι ε α} {f : α → Emit σ ι ε β} {c : σ} {r : Emitted σ ι β} :
    (x >>= f) c = .ok r ↔
      ∃ r₁ r₂, x c = .ok r₁ ∧ f r₁.val r₁.ctx = .ok r₂ ∧
        r = ⟨r₂.val, r₂.ctx, r₁.items ++ r₂.items, r₁.marks ++ r₂.marks⟩ := by
  rw [bind_run]
  cases hx : x c with
  | error e => simp
  | ok r₁ =>
    cases hf : f r₁.val r₁.ctx with
    | error e => simp [hf]
    | ok r₂ => simp [hf, eq_comm]

/-- A first step that succeeds can be run off. -/
theorem bind_of_ok {x : Emit σ ι ε α} {f : α → Emit σ ι ε β} {c : σ} {r₁ : Emitted σ ι α}
    (hx : x c = .ok r₁) :
    (x >>= f) c =
      match f r₁.val r₁.ctx with
      | .error e => .error e
      | .ok r₂ => .ok ⟨r₂.val, r₂.ctx, r₁.items ++ r₂.items, r₁.marks ++ r₂.marks⟩ := by
  rw [bind_run, hx]

end Emit

end ACompiler.Lib
