import ACompiler.Parser.Parens

/-!
# Calls at the start of a statement

`parse_expr` reads a leading `call` as a call and nothing more, `parse_assign_expr` as the start of
an expression. They agree exactly when nothing that continues an expression follows the call
(`parseExpr_agrees_iff`); otherwise the statement is rejected for its missing semicolon
(`parseStatment_callContinued`).
-/

namespace ACompiler

open Lib.TokenParser (bind_of_ok bind_eq_ok bind_eq_error)

/-- Both functions reject, or both return the same tree with the same tokens left. -/
def SameResult (fuel : Nat) (ts : List Token) : Prop :=
  (∃ e rest, parseExpr fuel ts = .ok (.expr e, rest) ∧ parseAssignExpr fuel ts = .ok (e, rest)) ∨
    (∃ err, parseExpr fuel ts = .error err ∧ err.Rejects) ∧
      ∃ err, parseAssignExpr fuel ts = .error err ∧ err.Rejects

/-- The tokens start with a call, and the next token continues an expression: it is `[`, `=` or an
operator. -/
def CallContinued (ts : List Token) : Prop :=
  ∃ e t rest, Derives .call ts (t :: rest) (.expr e) ∧ Cat.assign.continues t.type = true

section agrees
variable {fuel : Nat} {ts : List Token}

theorem parseExpr_call (hc : pMatch ts.head? .tCall = true) : parseExpr (fuel + 1) ts =
    (do let call ← parseCallExpr fuel; pure (Stmt.expr call) : Parse Stmt) ts := by
  obtain ⟨t, rest, rfl, ht⟩ := pMatch_eq_true hc
  rw [parseExpr, Lib.TokenParser.peek_bind, if_neg (by simp), if_pos hc]

theorem parseExpr_assign (hts : ts ≠ []) (hc : pMatch ts.head? .tCall = false)
    (hb : pMatch ts.head? .tLeftBrace = false) : parseExpr (fuel + 1) ts =
      (do let expr ← parseAssignExpr fuel; pure (Stmt.expr expr) : Parse Stmt) ts := by
  cases ts with
  | nil => exact absurd rfl hts
  | cons t ts =>
    rw [parseExpr, Lib.TokenParser.peek_bind, if_neg (by simp), if_neg (by simpa using hc),
      if_neg (by simpa using hb)]

/-- `parse_expr` reads a call. -/
theorem parseExpr_of_call {rest : List Token} {e : Expr} (h : Derives .call ts rest (.expr e))
    (hfuel : 12 * ts.length + 2 ≤ fuel) : parseExpr fuel ts = .ok (.expr e, rest) := by
  obtain ⟨t, ts', rfl, ht⟩ := h.starts (by simp)
  have hc : pMatch (t :: ts').head? .tCall = true := by simpa [Cat.starts] using ht
  cases fuel with
  | zero => omega
  | succ fuel =>
    rw [parseExpr_call hc, bind_of_ok (h.accepts fuel (by omega))]
    rfl

/-- Where an expression is read that starts with `call`, it starts with a call. -/
theorem Derives.starts_with_call {rest : List Token} {e : Expr}
    (h : Derives .assign ts rest (.expr e)) (hc : pMatch ts.head? .tCall = true) :
    ∃ mid e', Derives .call ts mid (.expr e') := by
  obtain ⟨t, ts, rfl, ht⟩ := pMatch_eq_true hc
  obtain ⟨mid, e', hprim⟩ := h.leftmost (by simp) t rfl (by simp [startsPrimary, ht])
  cases hprim with
  | cast hl _ _ _ _ => exact absurd hl (by simp [ht])
  | callExpr hcall => exact ⟨mid, e', hcall⟩
  | identifier hi => exact absurd hi (by simp [ht])
  | number hn => exact absurd hn (by simp [ht])
  | string hs => exact absurd hs (by simp [ht])
  | paren hl _ _ _ => exact absurd hl (by simp [ht])

/-- With a leading `call` the two agree where what follows the call stops an expression. -/
theorem sameResult_call (heof : EofLast ts) (hc : pMatch ts.head? .tCall = true)
    (hfuel : parseFuel ts ≤ fuel) (hstop : ¬ CallContinued ts) : SameResult fuel ts := by
  unfold parseFuel at hfuel
  obtain ⟨_, hrejects⟩ := (exprRejects fuel).assign ts heof (by omega) heof
  obtain ⟨_, hrejects'⟩ := (stmtRejects fuel).expr ts heof (by omega) heof
  cases hassign : parseAssignExpr fuel ts with
  | error err =>
    refine .inr ⟨?_, err, hassign, hrejects err hassign⟩
    cases hexpr : parseExpr fuel ts with
    | error err' => exact ⟨err', rfl, hrejects' err' hexpr⟩
    | ok r =>
      -- a call that is read, and stopped, is an expression
      cases fuel with
      | zero => omega
      | succ fuel =>
        rw [parseExpr_call hc] at hexpr
        obtain ⟨e, mid, hcall, _⟩ := bind_eq_ok.mp hexpr
        have hderives := (exprSound fuel).call hcall
        have hmid := heof.of_consumes hderives.consumes_ne_eof
        obtain ⟨t, mid, rfl⟩ := List.exists_cons_of_ne_nil hmid.ne_nil
        have hcont : Cat.assign.continues t.type = false := by
          rw [← Bool.not_eq_true]
          exact fun h => hstop ⟨e, t, mid, hderives, h⟩
        have hrun := (Derives.assign_of_primary (.callExpr hderives)).accepts (.head hcont)
          (fuel + 1) (by omega)
        exact absurd (hassign.symm.trans hrun) (by simp)
  | ok r =>
    obtain ⟨e, rest⟩ := r
    obtain ⟨mid, e', hcall⟩ := ((exprSound fuel).assign hassign).starts_with_call hc
    have hmid := heof.of_consumes hcall.consumes_ne_eof
    obtain ⟨t, mid, rfl⟩ := List.exists_cons_of_ne_nil hmid.ne_nil
    have hcont : Cat.assign.continues t.type = false := by
      rw [← Bool.not_eq_true]
      exact fun h => hstop ⟨e', t, mid, hcall, h⟩
    have hrun := (Derives.assign_of_primary (.callExpr hcall)).accepts (.head hcont) fuel (by omega)
    exact .inl ⟨e', t :: mid, parseExpr_of_call hcall (by omega), hassign ▸ hrun⟩

/-- Without a leading `call` or block, `parse_expr` is `parse_assign_expr`. -/
theorem sameResult_assign (heof : EofLast ts) (hc : pMatch ts.head? .tCall = false)
    (hb : pMatch ts.head? .tLeftBrace = false) (hfuel : parseFuel ts ≤ fuel) :
    SameResult fuel ts := by
  unfold parseFuel at hfuel
  obtain ⟨_, hrejects⟩ := (exprRejects fuel).assign ts heof (by omega) heof
  obtain ⟨_, hrejects'⟩ := (stmtRejects fuel).expr ts heof (by omega) heof
  cases fuel with
  | zero => omega
  | succ fuel =>
    have hne : ∀ {fuel e rest}, parseAssignExpr fuel ts = .ok (e, rest) → rest ≠ [] :=
      fun h => (heof.of_consumes ((exprSound _).assign h).consumes_ne_eof).ne_nil
    -- one unit of fuel more does not matter
    have hsame : ∀ e rest, parseAssignExpr fuel ts = .ok (e, rest) ↔
        parseAssignExpr (fuel + 1) ts = .ok (e, rest) := by
      intro e rest
      constructor
      · intro h
        exact (parseAssignExpr_iff (hne h) (by omega)).mpr
          ((parseAssignExpr_iff (hne h) (by omega)).mp h)
      · intro h
        exact (parseAssignExpr_iff (hne h) (by omega)).mpr
          ((parseAssignExpr_iff (hne h) (by omega)).mp h)
    have hexpr := @parseExpr_assign fuel ts heof.ne_nil hc hb
    cases hassign : parseAssignExpr (fuel + 1) ts with
    | ok r =>
      obtain ⟨e, rest⟩ := r
      refine .inl ⟨e, rest, ?_, hassign⟩
      rw [hexpr, bind_of_ok ((hsame e rest).mpr hassign)]
      rfl
    | error err =>
      refine .inr ⟨?_, err, hassign, hrejects err hassign⟩
      cases hrun : parseExpr (fuel + 1) ts with
      | error err' => exact ⟨err', rfl, hrejects' err' hrun⟩
      | ok r =>
        rw [hexpr] at hrun
        obtain ⟨e, rest, h, _⟩ := bind_eq_ok.mp hrun
        exact absurd (hassign.symm.trans ((hsame e rest).mp h)) (by simp)

/-- **The fast path agrees with the expression parser exactly when the call ends the expression.**
A call that is read is what `parse_expr` returns, whatever follows it. -/
theorem parseExpr_agrees_iff (ts : List Token) (heof : EofLast ts)
    (hb : pMatch ts.head? .tLeftBrace = false) (fuel : Nat) (hfuel : parseFuel ts ≤ fuel) :
    (SameResult fuel ts ↔ ¬ CallContinued ts) ∧
      ∀ e rest, Derives .call ts rest (.expr e) → parseExpr fuel ts = .ok (.expr e, rest) := by
  have hfuel' := hfuel
  unfold parseFuel at hfuel'
  refine ⟨⟨?_, fun hstop => ?_⟩, fun e rest h => parseExpr_of_call h (by omega)⟩
  · rintro hsame ⟨e, t, rest, hcall, hcont⟩
    have hrun := @parseExpr_of_call fuel ts _ _ hcall (by omega)
    rcases hsame with ⟨e', rest', hexpr, hassign⟩ | ⟨⟨err, hexpr, _⟩, _⟩
    · -- what the expression parser leaves is stopped
      obtain ⟨_, rfl⟩ := Prod.mk.inj (Except.ok.inj (hrun.symm.trans hexpr))
      obtain ⟨t', rest', heq, hstop⟩ := parseAssignExpr_stops fuel _ _ _ hassign (by simp)
      obtain ⟨rfl, _⟩ := List.cons.inj heq
      exact absurd (hcont.symm.trans hstop) (by decide)
    · exact absurd (hrun.symm.trans hexpr) (by simp)
  · cases hc : pMatch ts.head? .tCall with
    | true => exact sameResult_call heof hc hfuel hstop
    | false => exact sameResult_assign heof hc hb hfuel

/-- Where the two disagree, the statement is rejected. -/
theorem parseStatment_callContinued (h : CallContinued ts) (hfuel : parseFuel ts ≤ fuel) :
    ∃ t, parseStatment (fuel + 1) ts =
      .error (.compileError t "expected a semicolon after expression") := by
  obtain ⟨e, t, rest, hcall, hcont⟩ := h
  unfold parseFuel at hfuel
  have hrun := @parseExpr_of_call fuel ts _ _ hcall (by omega)
  obtain ⟨c, ts', rfl, hc⟩ := hcall.starts (by simp)
  have hc : c.type = .tCall := by simpa [Cat.starts] using hc
  have ht : t.type ≠ .tSemicolon := by
    intro ht
    rw [ht] at hcont
    exact absurd hcont (by decide)
  refine ⟨t, ?_⟩
  rw [parseStatment, Lib.TokenParser.peek_bind, if_neg (by simp [hc]), if_neg (by simp [hc]),
    if_neg (by simp [hc]), bind_of_ok hrun, Lib.TokenParser.bind_run, expect,
    Lib.TokenParser.peek_bind, if_neg (by simpa using ht)]
  rfl

end agrees

/-- `call f() + 1; ` and the end of the file. -/
def callPlusOneTokens : List Token :=
  [⟨.tCall, ascii "call", 4, 1, 1⟩, ⟨.tIdentifier, ascii "f", 1, 1, 6⟩,
    ⟨.tLeftParen, ascii "(", 1, 1, 7⟩, ⟨.tRightParen, ascii ")", 1, 1, 8⟩,
    ⟨.tPlus, ascii "+", 1, 1, 10⟩, ⟨.tNumberLit, ascii "1", 1, 1, 12⟩,
    ⟨.tSemicolon, ascii ";", 1, 1, 13⟩, ⟨.tEof, ascii "eof", 3, 1, 14⟩]

theorem eofLast_callPlusOneTokens : EofLast callPlusOneTokens :=
  ⟨callPlusOneTokens.dropLast, ⟨.tEof, ascii "eof", 3, 1, 14⟩, rfl, rfl, by decide⟩

/-- The fast path returns the call, the expression parser the sum. -/
theorem callPlusOne_disagrees : EofLast callPlusOneTokens ∧
    pMatch callPlusOneTokens.head? .tLeftBrace = false ∧
      ¬ SameResult (parseFuel callPlusOneTokens) callPlusOneTokens := by
  have hexpr : parseExpr (parseFuel callPlusOneTokens) callPlusOneTokens =
      .ok (.expr (.call (ascii "f") []), callPlusOneTokens.drop 4) := rfl
  have hassign : parseAssignExpr (parseFuel callPlusOneTokens) callPlusOneTokens =
      .ok (.binary .bAdd (.call (ascii "f") []) (.literal ⟨1, none⟩), callPlusOneTokens.drop 6) :=
    rfl
  refine ⟨eofLast_callPlusOneTokens, rfl, ?_⟩
  rintro (⟨e, rest, h, h'⟩ | ⟨⟨err, h, _⟩, _⟩)
  · obtain ⟨_, rfl⟩ := Prod.mk.inj (Except.ok.inj (hexpr.symm.trans h))
    exact absurd (congrArg List.length (Prod.mk.inj (Except.ok.inj (hassign.symm.trans h'))).2)
      (by decide)
  · exact absurd (hexpr.symm.trans h) (by simp)

theorem parseExpr_agrees_iff_returnOne :
    SameResult 200 (returnOneTokens.drop 6) ↔ ¬ CallContinued (returnOneTokens.drop 6) :=
  (parseExpr_agrees_iff (returnOneTokens.drop 6)
    ⟨(returnOneTokens.drop 6).dropLast, ⟨.tEof, ascii "eof", 3, 1, 21⟩, rfl, rfl, by decide⟩ rfl 200
    (by decide)).1

end ACompiler
