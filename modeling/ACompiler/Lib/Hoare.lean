import ACompiler.Lib.Emit

/-!
# Rules for emitting computations

`Triple` speaks of one run: what holds of the value and the context it leaves, or of the error it
fails with. `Coupled` speaks of two runs side by side: both succeed and print the same, or both fail
with the same error. Both go through `bind`.
-/

namespace ACompiler.Lib.Emit

variable {σ ι ε α β γ δ : Type}

/-! ## One run -/

/-- From a context with `P` the computation leaves a value and a context with `Q`, or fails with `E`. -/
def Triple (P : σ → Prop) (x : Emit σ ι ε α) (Q : α → σ → Prop) (E : ε → Prop) : Prop :=
  ∀ c, P c → (∀ r, x c = .ok r → Q r.val r.ctx) ∧ ∀ e, x c = .error e → E e

section triple
variable {P : σ → Prop} {E : ε → Prop}

theorem Triple.pure {a : α} {Q : α → σ → Prop} (h : ∀ c, P c → Q a c) :
    Triple P (Pure.pure a : Emit σ ι ε α) Q E := by
  refine fun c hc => ⟨fun r hr => ?_, fun e he => absurd he (by simp)⟩
  obtain rfl := Except.ok.inj hr
  exact h c hc

theorem Triple.bind {x : Emit σ ι ε α} {f : α → Emit σ ι ε β} {Q : α → σ → Prop}
    {R : β → σ → Prop} (hx : Triple P x Q E) (hf : ∀ a, Triple (Q a) (f a) R E) :
    Triple P (x >>= f) R E := by
  intro c hc
  obtain ⟨hok, herr⟩ := hx c hc
  refine ⟨fun r hr => ?_, fun e he => ?_⟩
  · obtain ⟨r₁, r₂, h₁, h₂, rfl⟩ := bind_eq_ok.mp hr
    exact (hf r₁.val r₁.ctx (hok r₁ h₁)).1 r₂ h₂
  · rw [bind_run] at he
    cases hrun : x c with
    | error e' =>
      simp only [hrun, Except.error.injEq] at he
      exact he ▸ herr e' hrun
    | ok r₁ =>
      simp only [hrun] at he
      cases hrun' : f r₁.val r₁.ctx with
      | error e' =>
        simp only [hrun', Except.error.injEq] at he
        exact he ▸ (hf r₁.val r₁.ctx (hok r₁ hrun)).2 e' hrun'
      | ok r₂ => exact absurd he (by simp [hrun'])

theorem Triple.get {Q : σ → σ → Prop} (h : ∀ c, P c → Q c c) :
    Triple P (Emit.get : Emit σ ι ε σ) Q E := by
  refine fun c hc => ⟨fun r hr => ?_, fun e he => absurd he (by simp)⟩
  obtain rfl := Except.ok.inj hr
  exact h c hc

theorem Triple.modify {g : σ → σ} {Q : Unit → σ → Prop} (h : ∀ c, P c → Q () (g c)) :
    Triple P (Emit.modify g : Emit σ ι ε Unit) Q E := by
  refine fun c hc => ⟨fun r hr => ?_, fun e he => absurd he (by simp)⟩
  obtain rfl := Except.ok.inj hr
  exact h c hc

theorem Triple.print {item : σ → ι} {Q : Unit → σ → Prop} (h : ∀ c, P c → Q () c) :
    Triple P (Emit.print item : Emit σ ι ε Unit) Q E := by
  refine fun c hc => ⟨fun r hr => ?_, fun e he => absurd he (by simp)⟩
  obtain rfl := Except.ok.inj hr
  exact h c hc

theorem Triple.mark {Q : Unit → σ → Prop} (h : ∀ c, P c → Q () c) :
    Triple P (Emit.mark : Emit σ ι ε Unit) Q E := by
  refine fun c hc => ⟨fun r hr => ?_, fun e he => absurd he (by simp)⟩
  obtain rfl := Except.ok.inj hr
  exact h c hc

theorem Triple.throw {e : ε} {Q : α → σ → Prop} (h : E e) :
    Triple P (Emit.throw e : Emit σ ι ε α) Q E := by
  refine fun c _ => ⟨fun r hr => absurd hr (by simp), fun e' he' => ?_⟩
  obtain rfl := Except.error.inj he'
  exact h

end triple

/-! ## Two runs -/

/-- From contexts related by `R` two computations print the same and leave values and contexts
related by `S`, or fail with the same error. -/
def Coupled (R : σ → σ → Prop) (x : Emit σ ι ε α) (y : Emit σ ι ε β)
    (S : α → β → σ → σ → Prop) : Prop :=
  ∀ c d, R c d →
    (∃ r r', x c = .ok r ∧ y d = .ok r' ∧ r.items = r'.items ∧ S r.val r'.val r.ctx r'.ctx) ∨
      ∃ e, x c = .error e ∧ y d = .error e

section coupled
variable {R : σ → σ → Prop}

theorem Coupled.pure {a : α} {b : β} {S : α → β → σ → σ → Prop} (h : ∀ c d, R c d → S a b c d) :
    Coupled R (Pure.pure a : Emit σ ι ε α) (Pure.pure b) S :=
  fun c d hcd => .inl ⟨_, _, rfl, rfl, rfl, h c d hcd⟩

theorem Coupled.bind {x : Emit σ ι ε α} {y : Emit σ ι ε β} {f : α → Emit σ ι ε γ}
    {g : β → Emit σ ι ε δ} {S : α → β → σ → σ → Prop} {T : γ → δ → σ → σ → Prop}
    (hx : Coupled R x y S) (hf : ∀ a b, Coupled (S a b) (f a) (g b) T) :
    Coupled R (x >>= f) (y >>= g) T := by
  intro c d hcd
  rcases hx c d hcd with ⟨r, r', hr, hr', hitems, hS⟩ | ⟨e, he, he'⟩
  · rcases hf _ _ _ _ hS with ⟨s, s', hs, hs', hitems', hT⟩ | ⟨e, he, he'⟩
    · refine .inl ⟨_, _, bind_eq_ok.mpr ⟨r, s, hr, hs, rfl⟩, bind_eq_ok.mpr ⟨r', s', hr', hs', rfl⟩,
        ?_, hT⟩
      show r.items ++ s.items = r'.items ++ s'.items
      rw [hitems, hitems']
    · exact .inr ⟨e, by rw [bind_of_ok hr]; simp only [he], by rw [bind_of_ok hr']; simp only [he']⟩
  · exact .inr ⟨e, by rw [bind_run, he], by rw [bind_run, he']⟩

theorem Coupled.conseq {R' : σ → σ → Prop} {x : Emit σ ι ε α} {y : Emit σ ι ε β}
    {S S' : α → β → σ → σ → Prop} (h : Coupled R x y S) (hR : ∀ c d, R' c d → R c d)
    (hS : ∀ a b c d, S a b c d → S' a b c d) : Coupled R' x y S' := by
  intro c d hcd
  rcases h c d (hR c d hcd) with ⟨r, r', hr, hr', hitems, hpost⟩ | hfail
  · exact .inl ⟨r, r', hr, hr', hitems, hS _ _ _ _ hpost⟩
  · exact .inr hfail

/-- What is known of the two values besides the contexts. -/
theorem Coupled.bind_of {R' : σ → σ → Prop} {x : Emit σ ι ε α} {y : Emit σ ι ε β}
    {f : α → Emit σ ι ε γ} {g : β → Emit σ ι ε δ} {p : α → β → Prop} {T : γ → δ → σ → σ → Prop}
    (hx : Coupled R x y fun a b c d => p a b ∧ R' c d)
    (hf : ∀ a b, p a b → Coupled R' (f a) (g b) T) : Coupled R (x >>= f) (y >>= g) T :=
  Coupled.bind hx fun a b c d h => hf a b h.1 c d h.2

theorem Coupled.of_exists {κ : Type} {R : κ → σ → σ → Prop} {x : Emit σ ι ε α}
    {y : Emit σ ι ε β} {S : α → β → σ → σ → Prop} (h : ∀ k, Coupled (R k) x y S) :
    Coupled (fun c d => ∃ k, R k c d) x y S := by
  rintro c d ⟨k, hk⟩
  exact h k c d hk

/-- A computation is coupled with itself. -/
theorem Coupled.refl (x : Emit σ ι ε α) :
    Coupled Eq x x (fun a b c d => a = b ∧ c = d) := by
  rintro c _ rfl
  cases h : x c with
  | error e => exact .inr ⟨e, rfl, rfl⟩
  | ok r => exact .inl ⟨r, r, rfl, rfl, rfl, rfl, rfl⟩

/-- A step of the second run that prints nothing and keeps the context may be left out. -/
theorem Coupled.silent_right {x : Emit σ ι ε α} {y : Emit σ ι ε β} {z : Emit σ ι ε γ}
    {S : α → β → σ → σ → Prop} (hz : ∀ c, ∃ a m, z c = .ok ⟨a, c, [], m⟩) (h : Coupled R x y S) :
    Coupled R x (z >>= fun _ => y) S := by
  intro c d hcd
  obtain ⟨a, m, hm⟩ := hz d
  rcases h c d hcd with ⟨r, r', hr, hr', hitems, hS⟩ | ⟨e, he, he'⟩
  · exact .inl ⟨r, _, hr, bind_eq_ok.mpr ⟨_, r', hm, hr', rfl⟩, hitems, hS⟩
  · refine .inr ⟨e, he, ?_⟩
    rw [bind_of_ok hm]
    simp only [he']

theorem Coupled.get {S : σ → σ → σ → σ → Prop} (h : ∀ c d, R c d → S c d c d) :
    Coupled R (Emit.get : Emit σ ι ε σ) Emit.get S :=
  fun c d hcd => .inl ⟨_, _, rfl, rfl, rfl, h c d hcd⟩

theorem Coupled.modify {f g : σ → σ} {S : Unit → Unit → σ → σ → Prop}
    (h : ∀ c d, R c d → S () () (f c) (g d)) :
    Coupled R (Emit.modify f : Emit σ ι ε Unit) (Emit.modify g) S :=
  fun c d hcd => .inl ⟨_, _, rfl, rfl, rfl, h c d hcd⟩

theorem Coupled.print {f g : σ → ι} {S : Unit → Unit → σ → σ → Prop}
    (hitem : ∀ c d, R c d → f c = g d) (h : ∀ c d, R c d → S () () c d) :
    Coupled R (Emit.print f : Emit σ ι ε Unit) (Emit.print g) S :=
  fun c d hcd => .inl ⟨_, _, rfl, rfl, by simp [hitem c d hcd], h c d hcd⟩

theorem Coupled.mark {S : Unit → Unit → σ → σ → Prop} (h : ∀ c d, R c d → S () () c d) :
    Coupled R (Emit.mark : Emit σ ι ε Unit) Emit.mark S :=
  fun c d hcd => .inl ⟨_, _, rfl, rfl, rfl, h c d hcd⟩

theorem Coupled.throw (e : ε) {S : α → β → σ → σ → Prop} :
    Coupled R (Emit.throw e : Emit σ ι ε α) (Emit.throw e) S :=
  fun _ _ _ => .inr ⟨e, rfl, rfl⟩

end coupled

end ACompiler.Lib.Emit
