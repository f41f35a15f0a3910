import ACompiler.Parser.Complete

/-!
# Expressions are read as far as they go

What an expression function leaves does not continue the phrase it read (`exprStops`). So
`parse_assign_expr` returns exactly the derivations that what is left stops
(`parseAssignExpr_iff`).
-/

namespace ACompiler

open Lib (TokenParser)
open Lib.TokenParser (fail peek peekNext advance bind_eq_ok)

/-- Where an operand stops and its operator is missing, the level stops. -/
theorem Stops.level {l : Level} {rest : List Token} (h : Stops l.operand rest)
    (hop : (rest.head?.bind fun t => l.op t.type) = none) : Stops (.binary l) rest := by
  obtain ⟨t, rest', rfl, h⟩ := h
  refine .head ?_
  cases l <;> simp_all [Cat.continues, Level.operand, Level.op]

/-- What a parse function leaves stops its category, where it leaves anything. -/
def LeavesStopped (c : Cat) (x : Parse Expr) : Prop :=
  ∀ ts rest e, x ts = .ok (e, rest) → rest ≠ [] → Stops c rest

theorem stops_of_ne_nil {c : Cat} {rest : List Token} (h : rest ≠ [])
    (hhead : ∀ t, rest.head? = some t → c.continues t.type = false) : Stops c rest := by
  cases rest with
  | nil => exact absurd rfl h
  | cons t rest => exact .head (hhead t rfl)

theorem binaryLoop_stops {l : Level} {sub : Parse Expr} (hsub : LeavesStopped l.operand sub) :
    ∀ (fuel : Nat) (ts rest : List Token) (left e : Expr), (ts ≠ [] → Stops l.operand ts) →
      binaryLoop l.op sub fuel left ts = .ok (e, rest) → rest ≠ [] → Stops (.binary l) rest := by
  intro fuel
  induction fuel with
  | zero => intro ts rest left e _ h; simp [binaryLoop] at h
  | succ fuel ih =>
    intro ts rest left e hts h hne
    rw [binaryLoop, Lib.TokenParser.peek_bind] at h
    cases hop : ts.head?.bind fun t => l.op t.type with
    | none =>
      rw [hop] at h
      obtain ⟨_, rfl⟩ := Prod.mk.inj (Except.ok.inj h)
      exact (hts hne).level hop
    | some b =>
      rw [hop] at h
      simp only [Lib.TokenParser.advance_bind] at h
      obtain ⟨right, mid, hright, h⟩ := bind_eq_ok.mp h
      exact ih mid rest _ e (hsub _ mid right hright) h hne

theorem parsePostfixLoop_stops : ∀ (fuel : Nat) (node : Expr),
    LeavesStopped .postExpr (parsePostfixLoop fuel node) := by
  intro fuel
  induction fuel with
  | zero => intro node ts rest e h; simp [parsePostfixLoop] at h
  | succ fuel ih =>
    intro node ts rest e h hne
    rw [parsePostfixLoop, Lib.TokenParser.peek_bind] at h
    by_cases hl : pMatch ts.head? .tLeftBracket = true
    · rw [if_pos hl, Lib.TokenParser.advance_bind] at h
      obtain ⟨idx, mid, _, h⟩ := bind_eq_ok.mp h
      obtain ⟨_, mid', _, h⟩ := bind_eq_ok.mp h
      exact ih _ _ _ _ h hne
    · rw [if_neg hl] at h
      obtain ⟨_, rfl⟩ := Prod.mk.inj (Except.ok.inj h)
      refine stops_of_ne_nil hne fun t ht => ?_
      rw [ht] at hl
      simpa [Cat.continues] using hl

theorem parseUnaryExpr_stops : ∀ fuel : Nat, LeavesStopped .unary (parseUnaryExpr fuel) := by
  intro fuel
  induction fuel with
  | zero => intro ts rest e h; simp [parseUnaryExpr] at h
  | succ fuel ih =>
    intro ts rest e h hne
    rw [parseUnaryExpr, Lib.TokenParser.peek_bind] at h
    cases hop : ts.head?.bind fun t => unaryOpOf t.type with
    | some op =>
      rw [hop] at h
      simp only [Lib.TokenParser.advance_bind] at h
      obtain ⟨inner, mid, hinner, h⟩ := bind_eq_ok.mp h
      obtain ⟨_, rfl⟩ := Prod.mk.inj (Except.ok.inj h)
      exact ih _ _ _ hinner hne
    | none =>
      rw [hop] at h
      cases fuel with
      | zero => simp [parsePostfix] at h
      | succ fuel =>
        rw [parsePostfix] at h
        obtain ⟨node, mid, _, h⟩ := bind_eq_ok.mp h
        exact parsePostfixLoop_stops fuel node mid rest e h hne

/-- A level that parses an operand and then loops leaves what stops it. -/
theorem level_stops {l : Level} {sub : Parse Expr} {fuel : Nat}
    (hsub : LeavesStopped l.operand sub) :
    LeavesStopped (.binary l) (do let left ← sub; binaryLoop l.op sub fuel left) := by
  intro ts rest e h hne
  obtain ⟨left, mid, hleft, h⟩ := bind_eq_ok.mp h
  exact binaryLoop_stops hsub fuel mid rest left e (hsub ts mid left hleft) h hne

theorem parseLevel_stops_of_operand {l : Level}
    (h : ∀ fuel, LeavesStopped l.operand (parseOperand l fuel)) (fuel : Nat) :
    LeavesStopped (.binary l) (parseLevel l fuel) := by
  cases fuel with
  | zero =>
    intro ts rest e h
    cases l <;> simp [parseLevel, parseFactor, parseTerm, parseCompare, parseEqual] at h
  | succ fuel =>
    rw [parseLevel_succ]
    exact level_stops (h fuel)

theorem parseLevel_stops (l : Level) (fuel : Nat) :
    LeavesStopped (.binary l) (parseLevel l fuel) := by
  have hfactor := parseLevel_stops_of_operand (l := .factor) parseUnaryExpr_stops
  have hterm := parseLevel_stops_of_operand (l := .term) hfactor
  have hcompare := parseLevel_stops_of_operand (l := .compare) hterm
  cases l with
  | factor => exact hfactor fuel
  | term => exact hterm fuel
  | compare => exact hcompare fuel
  | equal => exact parseLevel_stops_of_operand (l := .equal) hcompare fuel

theorem parseBinaryExpr_stops (fuel : Nat) :
    LeavesStopped (.binary .equal) (parseBinaryExpr fuel) := by
  cases fuel with
  | zero => intro ts rest e h; simp [parseBinaryExpr] at h
  | succ fuel => exact parseLevel_stops .equal fuel

theorem parseAssignExpr_stops : ∀ fuel : Nat, LeavesStopped .assign (parseAssignExpr fuel) := by
  intro fuel
  induction fuel with
  | zero => intro ts rest e h; simp [parseAssignExpr] at h
  | succ fuel ih =>
    intro ts rest e h hne
    rw [parseAssignExpr] at h
    obtain ⟨left, mid, hleft, h⟩ := bind_eq_ok.mp h
    rw [Lib.TokenParser.peek_bind] at h
    split_ifs at h with hq ha
    · rw [Lib.TokenParser.advance_bind, Lib.TokenParser.peek_bind] at h
      obtain ⟨val, mid', hval, h⟩ := bind_eq_ok.mp h
      obtain ⟨_, rfl⟩ := Prod.mk.inj (Except.ok.inj h)
      exact ih _ _ _ hval hne
    · rw [Lib.TokenParser.advance_bind, Lib.TokenParser.peek_bind] at h
      exact absurd h (compileError_ne_ok _ _ _ _)
    · obtain ⟨_, rfl⟩ := Prod.mk.inj (Except.ok.inj h)
      obtain ⟨t, rest', rfl, ht⟩ := parseBinaryExpr_stops fuel _ _ _ hleft hne
      refine .head ?_
      have hq : t.type ≠ .tEqual := by simpa using hq
      simpa [Cat.continues, hq] using ht

/-- **The expression parser returns the derivations that its next token stops.** -/
theorem parseAssignExpr_iff {fuel : Nat} {ts rest : List Token} {e : Expr} (hne : rest ≠ [])
    (hfuel : 12 * ts.length + 10 ≤ fuel) :
    parseAssignExpr fuel ts = .ok (e, rest) ↔
      Derives .assign ts rest (.expr e) ∧ Stops .assign rest := by
  constructor
  · exact fun h => ⟨(exprSound fuel).assign h, parseAssignExpr_stops fuel ts rest e h hne⟩
  · rintro ⟨h, hstop⟩
    exact h.accepts hstop fuel hfuel

end ACompiler
