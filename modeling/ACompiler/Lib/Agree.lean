import Mathlib.Logic.Basic

/-!
# Computations that agree

Two computations that may fail are compared by `Agree R`: they fail with the same error, or both
succeed, with results that `R` relates.
-/

namespace ACompiler.Lib

variable {ε α β γ δ : Type} {R : α → β → Prop} {S : γ → δ → Prop}

/-- The same error, or related results. -/
inductive Agree (R : α → β → Prop) : Except ε α → Except ε β → Prop
  | error (e : ε) : Agree R (.error e) (.error e)
  | ok {a : α} {b : β} (h : R a b) : Agree R (.ok a) (.ok b)

variable {x : Except ε α} {y : Except ε β}

/-- The second parts are compared after a first part that has succeeded. -/
theorem Agree.bind_of_ok {f : α → Except ε γ} {g : β → Except ε δ} (h : Agree R x y)
    (hf : ∀ a b, x = .ok a → R a b → Agree S (f a) (g b)) : Agree S (x >>= f) (y >>= g) := by
  cases h with
  | error e => exact .error e
  | @ok a b h => exact hf a b rfl h

theorem Agree.bind {f : α → Except ε γ} {g : β → Except ε δ} (h : Agree R x y)
    (hf : ∀ a b, R a b → Agree S (f a) (g b)) : Agree S (x >>= f) (y >>= g) :=
  h.bind_of_ok fun a b _ hab => hf a b hab

theorem Agree.map {f : α → γ} {g : β → δ} (h : Agree R x y)
    (hf : ∀ a b, R a b → S (f a) (g b)) : Agree S (x.map f) (y.map g) := by
  cases h with
  | error e => exact .error e
  | @ok a b h => exact .ok (hf a b h)

theorem Agree.mono {R' : α → β → Prop} (h : Agree R x y) (hR : ∀ a b, R a b → R' a b) :
    Agree R' x y := by
  cases h with
  | error e => exact .error e
  | @ok a b h => exact .ok (hR a b h)

theorem Agree.of_ok {a : α} (h : Agree R (.ok a : Except ε α) y) : ∃ b, y = .ok b ∧ R a b := by
  cases h with
  | @ok _ b h => exact ⟨b, rfl, h⟩

theorem Agree.of_ok_right {b : β} (h : Agree R x (.ok b : Except ε β)) :
    ∃ a, x = .ok a ∧ R a b := by
  cases h with
  | @ok a _ h => exact ⟨a, rfl, h⟩

theorem Agree.error_iff {e : ε} (h : Agree R x y) : x = .error e ↔ y = .error e := by
  cases h with
  | error e' => exact ⟨fun heq => by rw [Except.error.inj heq], fun heq => by rw [Except.error.inj heq]⟩
  | ok h => exact ⟨fun heq => absurd heq (by simp), fun heq => absurd heq (by simp)⟩

theorem Agree.of_eq {y : Except ε α} (h : x = y) : Agree (· = ·) x y := by
  subst h
  cases x with
  | error e => exact .error e
  | ok a => exact .ok rfl

theorem Agree.eq {y : Except ε α} (h : Agree (· = ·) x y) : x = y := by
  cases h with
  | error e => rfl
  | ok h => rw [h]

end ACompiler.Lib
