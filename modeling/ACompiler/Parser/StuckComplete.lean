import ACompiler.Parser.Stuck

/-!
# An assertion fails wherever one can

On tokens whose beginning is a program up to an assertion, and that have another token there, that
assertion fails (`StuckProgram.asserts`). With the other direction this says exactly on which tokens
malformed input is asserted and not reported (`parseProgram_reports_iff`).
-/

namespace ACompiler

open Lib (TokenParser)
open Lib.TokenParser (fail peek peekNext advance bind_of_ok bind_of_error)

/-! ## Types -/

/-- A base that is written out starts with a type token. -/
theorem DerivesBase.isVarType_head {ts rest : List Token} {b : VarBase} (h : DerivesBase ts rest b)
    (hne : ts ≠ rest) : isVarType ts.head? = true := by
  cases h with
  | adr ht _ => simp [isVarType, ht]
  | @lit p _ l hp => cases hpt : p.type <;> simp_all [isVarType, litOf]
  | empty => exact absurd rfl hne

theorem WholeType.isVarType_head {ts rest : List Token} (h : WholeType ts rest) :
    isVarType ts.head? = true := by
  cases h with
  | scalar hb hne _ => exact hb.isVarType_head hne
  | array hb hne _ _ _ => exact hb.isVarType_head hne

theorem WholeType.length_lt {ts rest : List Token} (h : WholeType ts rest) :
    rest.length < ts.length := by
  cases h with
  | scalar hb hne _ =>
    cases hb with
    | adr _ _ => simp
    | lit _ => simp
    | empty => exact absurd rfl hne
  | array hb _ _ _ _ =>
    have hlen := hb.consumes.length_le
    simp only [List.length_cons] at hlen
    omega

/-- A whole type is parsed whole, whatever follows it. -/
theorem WholeType.parse {ts mid : List Token} {r : Token} (h : WholeType ts (r :: mid)) :
    ∃ v, parseVarType ts = .ok (v, r :: mid) := by
  cases h with
  | scalar hb hne hstop =>
    exact ⟨_, parseVarType_base hb (by simp) (fun _ _ _ heq => absurd heq hne)
      (parseArrayLen_scalar hstop)⟩
  | array hb hne hl hn hr =>
    exact ⟨_, parseVarType_base hb (by simp) (fun _ _ _ heq => absurd heq hne)
      (parseArrayLen_array hl hn hr)⟩

/-! ## Expressions -/

/-- The first token of what is stuck is the first token of a phrase. -/
theorem Stuck.starts {c : Cat} {ts : List Token} (h : Stuck c ts) :
    ∃ t ts', ts = t :: ts' ∧ c.starts t.type = true := by
  induction h with
  | equal _ ih => exact ih
  | assign hl _ _ _ _ => exact hl.starts (by simp)
  | @operand l _ _ ih => cases l <;> exact ih
  | operator hl _ _ _ => exact hl.starts (by simp)
  | unary ht _ _ => exact ⟨_, _, rfl, by simp [Cat.starts, startsExpr, ht]⟩
  | ofPost _ ih =>
    obtain ⟨t, ts', hts, ht⟩ := ih
    exact ⟨t, ts', hts, startsExpr_of_startsPrimary ht⟩
  | primary _ ih => exact ih
  | index h _ _ _ => exact h.starts (by simp)
  | castParen hl _ _ => exact ⟨_, _, rfl, by simp [Cat.starts, startsPrimary, hl]⟩
  | castInner hl _ _ _ _ _ => exact ⟨_, _, rfl, by simp [Cat.starts, startsPrimary, hl]⟩
  | callExpr _ ih =>
    obtain ⟨t, ts', hts, ht⟩ := ih
    have ht : t.type = .tCall := by simpa [Cat.starts] using ht
    exact ⟨t, ts', hts, by simp [Cat.starts, startsPrimary, ht]⟩
  | paren hl _ _ _ => exact ⟨_, _, rfl, by simp [Cat.starts, startsPrimary, hl]⟩
  | call hc _ _ _ _ => exact ⟨_, _, rfl, by simp [Cat.starts, hc]⟩
  | arg _ ih =>
    obtain ⟨t, ts', hts, _⟩ := ih
    exact ⟨t, ts', hts, rfl⟩
  | moreArgs h _ _ _ =>
    obtain ⟨t, ts', rfl, _⟩ := h.starts (by simp)
    exact ⟨t, ts', rfl, rfl⟩

/-- The run ends in a failed assertion. -/
def Asserts {α : Type} (x : Parse α) (ts : List Token) : Prop := x ts = .error .assertFailed

/-- What the parse function of a category does where it is stuck. -/
def StuckAsserts : Cat → List Token → Prop
  | .assign, ts => ∀ fuel, 12 * ts.length + 10 ≤ fuel → Asserts (parseAssignExpr fuel) ts
  | .binary l, ts => ∀ fuel, 12 * ts.length + l.rank ≤ fuel → Asserts (parseLevel l fuel) ts
  | .unary, ts => ∀ fuel, 12 * ts.length + 4 ≤ fuel → Asserts (parseUnaryExpr fuel) ts
  | .postExpr, ts => ∀ fuel, 12 * ts.length + 3 ≤ fuel → Asserts (parsePostfix fuel) ts
  | .primary, ts => ∀ fuel, 12 * ts.length + 2 ≤ fuel → Asserts (parsePrimary fuel) ts
  | .call, ts => ∀ fuel, 12 * ts.length + 1 ≤ fuel → Asserts (parseCallExpr fuel) ts
  | .args, ts => ∀ fuel, 12 * ts.length + 10 ≤ fuel → Asserts (parseArgsLoop fuel) ts

theorem StuckAsserts.binaryExpr {ts : List Token} (h : StuckAsserts (.binary .equal) ts)
    (fuel : Nat) (hfuel : 12 * ts.length + 9 ≤ fuel) : Asserts (parseBinaryExpr fuel) ts := by
  cases fuel with
  | zero => omega
  | succ fuel => exact h fuel (by simpa [Level.rank] using hfuel)

/-- The operands of a level, one level down or unary. -/
theorem StuckAsserts.parseOperand {l : Level} {ts : List Token} (h : StuckAsserts l.operand ts)
    {fuel : Nat} (hfuel : 12 * ts.length + l.rank ≤ fuel + 1) :
    Asserts (ACompiler.parseOperand l fuel) ts := by
  cases l with
  | factor => exact h fuel (by simpa [Level.rank] using hfuel)
  | term => exact h fuel (by simpa [Level.rank] using hfuel)
  | compare => exact h fuel (by simpa [Level.rank] using hfuel)
  | equal => exact h fuel (by simpa [Level.rank] using hfuel)

section expressions
variable {ts mid : List Token}

theorem asserts_equal (ih : StuckAsserts (.binary .equal) ts) : StuckAsserts .assign ts := by
  intro fuel hfuel
  cases fuel with
  | zero => omega
  | succ fuel =>
    unfold Asserts
    rw [parseAssignExpr, bind_of_error (ih.binaryExpr fuel (by omega))]

theorem asserts_assign {t : Token} {target : Expr}
    (hl : Derives (.binary .equal) ts (t :: mid) (.expr target)) (ht : t.type = .tEqual)
    (ha : isAssignable target = true) (ih : StuckAsserts .assign mid) : StuckAsserts .assign ts := by
  intro fuel hfuel
  have hlen := hl.length_lt (by simp)
  rw [List.length_cons] at hlen
  cases fuel with
  | zero => omega
  | succ fuel =>
    have hleft := hl.parseBinaryExpr (by simp [Cat.continues, ht, factorOp, termOp, compareOp,
      equalOp]) fuel (by omega)
    unfold Asserts
    rw [parseAssignExpr, bind_of_ok hleft, Lib.TokenParser.peek_bind, if_pos (by simp [ht]),
      Lib.TokenParser.advance_bind, List.tail_cons, Lib.TokenParser.peek_bind, if_pos ha,
      bind_of_error (ih fuel (by omega))]

theorem asserts_operand {l : Level} (ih : StuckAsserts l.operand ts) :
    StuckAsserts (.binary l) ts := by
  intro fuel hfuel
  cases fuel with
  | zero => cases l <;> simp [Level.rank] at hfuel
  | succ fuel =>
    unfold Asserts
    rw [parseLevel_succ, bind_of_error (ih.parseOperand hfuel)]

theorem asserts_operator {l : Level} {t : Token} {b : BinaryOp} {left : Expr}
    (hl : Derives (.binary l) ts (t :: mid) (.expr left)) (ht : l.op t.type = some b)
    (ih : StuckAsserts l.operand mid) : StuckAsserts (.binary l) ts := by
  intro fuel hfuel
  have hlen := hl.length_lt (by simp)
  rw [List.length_cons] at hlen
  cases fuel with
  | zero => cases l <;> simp [Level.rank] at hfuel
  | succ fuel =>
    obtain ⟨k, hk, hrun⟩ := hl.accepts (stops_of_op ht) fuel hfuel
    unfold Asserts
    rw [hrun]
    cases k with
    | zero => omega
    | succ k =>
      rw [binaryLoop, Lib.TokenParser.peek_bind]
      simp only [List.head?_cons, Option.bind_some, ht, Lib.TokenParser.advance_bind,
        List.tail_cons]
      rw [bind_of_error (ih.parseOperand (by omega))]

theorem asserts_unary {t : Token} {op : UnaryOp} (ht : unaryOpOf t.type = some op)
    (ih : StuckAsserts .unary ts) : StuckAsserts .unary (t :: ts) := by
  intro fuel hfuel
  rw [List.length_cons] at hfuel
  cases fuel with
  | zero => omega
  | succ fuel =>
    unfold Asserts
    rw [parseUnaryExpr, Lib.TokenParser.peek_bind]
    simp only [List.head?_cons, Option.bind_some, ht, Lib.TokenParser.advance_bind, List.tail_cons]
    rw [bind_of_error (ih fuel (by omega))]

theorem asserts_ofPost (h : Stuck .postExpr ts) (ih : StuckAsserts .postExpr ts) :
    StuckAsserts .unary ts := by
  intro fuel hfuel
  obtain ⟨t, ts', rfl, ht⟩ := h.starts
  have hop := unaryOpOf_of_startsPrimary ht
  cases fuel with
  | zero => omega
  | succ fuel =>
    unfold Asserts
    rw [parseUnaryExpr, Lib.TokenParser.peek_bind]
    simp only [List.head?_cons, Option.bind_some, hop]
    exact ih fuel (by omega)

theorem asserts_primary (ih : StuckAsserts .primary ts) : StuckAsserts .postExpr ts := by
  intro fuel hfuel
  cases fuel with
  | zero => omega
  | succ fuel =>
    unfold Asserts
    rw [parsePostfix, bind_of_error (ih fuel (by omega))]

theorem asserts_index {l : Token} {node : Expr} (h : Derives .postExpr ts (l :: mid) (.expr node))
    (hl : l.type = .tLeftBracket) (ih : StuckAsserts (.binary .equal) mid) :
    StuckAsserts .postExpr ts := by
  intro fuel hfuel
  obtain ⟨k, hk, hrun⟩ := h.accepts fuel hfuel
  rw [List.length_cons] at hk
  unfold Asserts
  rw [hrun]
  cases k with
  | zero => omega
  | succ k =>
    rw [parsePostfixLoop, Lib.TokenParser.peek_bind, if_pos (by simp [hl]),
      Lib.TokenParser.advance_bind, List.tail_cons, bind_of_error (ih.binaryExpr k (by omega))]

theorem asserts_castParen {l r : Token} (hl : l.type = .tLeftParen)
    (ht : WholeType ts (r :: mid)) (hr : r.type ≠ .tRightParen) :
    StuckAsserts .primary (l :: ts) := by
  intro fuel hfuel
  rw [List.length_cons] at hfuel
  obtain ⟨fuel, rfl⟩ : ∃ k, fuel = k + 2 := ⟨fuel - 2, by omega⟩
  obtain ⟨v, htype⟩ := ht.parse
  unfold Asserts
  rw [parsePrimary_cast hl ht.isVarType_head, bind_of_ok htype, Lib.TokenParser.peek_bind,
    List.head?_cons, assertType, if_neg hr]
  rfl

theorem asserts_castInner {l r : Token} {v : VarT} (hl : l.type = .tLeftParen)
    (hv : isVarType ts.head? = true) (ht : DerivesType ts (r :: mid) v)
    (hr : r.type = .tRightParen) (ih : StuckAsserts .primary mid) :
    StuckAsserts .primary (l :: ts) := by
  intro fuel hfuel
  have hlen := ht.consumes.length_le
  simp only [List.length_cons] at hfuel hlen
  obtain ⟨fuel, rfl⟩ : ∃ k, fuel = k + 2 := ⟨fuel - 2, by omega⟩
  have htype := parseVarType_complete ht (by simp [hr]) (by simp [hr]) (by simp [hr, litOf])
  unfold Asserts
  rw [parsePrimary_cast hl hv, bind_of_ok htype, Lib.TokenParser.peek_bind, List.head?_cons,
    assertType, if_pos hr, Lib.TokenParser.pure_bind, Lib.TokenParser.advance_bind, List.tail_cons,
    bind_of_error (ih fuel (by omega))]

theorem asserts_callExpr (h : Stuck .call ts) (ih : StuckAsserts .call ts) :
    StuckAsserts .primary ts := by
  intro fuel hfuel
  obtain ⟨t, ts', rfl, ht⟩ := h.starts
  have ht : t.type = .tCall := by simpa [Cat.starts] using ht
  cases fuel with
  | zero => omega
  | succ fuel =>
    have hcall := ih fuel (by omega)
    unfold Asserts at hcall ⊢
    rw [parsePrimary, Lib.TokenParser.peek_bind, Lib.TokenParser.peekNext_bind,
      if_neg (by simp [ht]), if_pos (by simp [ht]), hcall]

theorem asserts_paren {l : Token} (hl : l.type = .tLeftParen) (hv : isVarType ts.head? = false)
    (ih : StuckAsserts .assign ts) : StuckAsserts .primary (l :: ts) := by
  intro fuel hfuel
  rw [List.length_cons] at hfuel
  have hnext : isVarType (l :: ts)[1]? = false := by
    rw [List.head?_eq_getElem?] at hv
    exact hv
  cases fuel with
  | zero => omega
  | succ fuel =>
    unfold Asserts
    rw [parsePrimary, Lib.TokenParser.peek_bind, Lib.TokenParser.peekNext_bind,
      if_neg (by rw [hnext]; simp)]
    simp only [List.head?_cons, pMatch_some, hl, reduceCtorEq, decide_false, Bool.false_eq_true,
      if_false, Bool.or_self, decide_true, if_true]
    rw [Lib.TokenParser.advance_bind, List.tail_cons, bind_of_error (ih fuel (by omega))]

theorem asserts_call {c i l : Token} (hc : c.type = .tCall) (hi : i.type = .tIdentifier)
    (hl : l.type = .tLeftParen) (ih : StuckAsserts .args ts) :
    StuckAsserts .call (c :: i :: l :: ts) := by
  intro fuel hfuel
  simp only [List.length_cons] at hfuel
  obtain ⟨fuel, rfl⟩ : ∃ k, fuel = k + 2 := ⟨fuel - 2, by omega⟩
  have hrun : Asserts (parseArgs (fuel + 1)) (l :: ts) := by
    unfold Asserts
    rw [parseArgs, bind_of_ok (expect_complete hl), bind_of_error (ih fuel (by omega))]
  unfold Asserts
  rw [parseCallExpr, Lib.TokenParser.peek_bind, if_pos (by simp [hc]),
    Lib.TokenParser.advance_bind, List.tail_cons, Lib.TokenParser.peek_bind, if_pos (by simp [hi]),
    bind_of_ok (parseIdentifierExpr_complete hi), Lib.TokenParser.peek_bind, if_pos (by simp [hl]),
    bind_of_error hrun]

theorem asserts_arg (h : Stuck (.binary .equal) ts) (ih : StuckAsserts (.binary .equal) ts) :
    StuckAsserts .args ts := by
  intro fuel hfuel
  obtain ⟨t, ts', rfl, ht⟩ := h.starts
  have hne : t.type ≠ .tRightParen := by
    intro hr
    simp [Cat.starts, hr, startsExpr, startsPrimary, unaryOpOf] at ht
  cases fuel with
  | zero => omega
  | succ fuel =>
    unfold Asserts
    rw [parseArgsLoop, Lib.TokenParser.peek_bind, if_neg (by simpa using hne),
      bind_of_error (ih.binaryExpr fuel (by omega))]

theorem asserts_moreArgs {t : Token} {e : Expr}
    (h : Derives (.binary .equal) ts (t :: mid) (.expr e)) (ht : t.type = .tComma)
    (ih : StuckAsserts .args mid) : StuckAsserts .args ts := by
  intro fuel hfuel
  have hlen := h.length_lt (by simp)
  rw [List.length_cons] at hlen
  cases fuel with
  | zero => omega
  | succ fuel =>
    have harg := h.parseBinaryExpr (by simp [Cat.continues, ht, factorOp, termOp, compareOp,
      equalOp]) fuel (by omega)
    unfold Asserts
    rw [parseArgsLoop, Lib.TokenParser.peek_bind, if_neg (by simp [not_rightParen h]),
      bind_of_ok harg, Lib.TokenParser.peek_bind, if_pos (by simp [ht]),
      Lib.TokenParser.advance_bind, List.tail_cons, bind_of_error (ih fuel (by omega))]

end expressions

/-- **Where an expression is stuck, an assertion fails.** -/
theorem Stuck.asserts {c : Cat} {ts : List Token} (h : Stuck c ts) : StuckAsserts c ts := by
  induction h with
  | equal _ ih => exact asserts_equal ih
  | assign hl ht ha _ ih => exact asserts_assign hl ht ha ih
  | operand _ ih => exact asserts_operand ih
  | operator hl ht _ ih => exact asserts_operator hl ht ih
  | unary ht _ ih => exact asserts_unary ht ih
  | ofPost h ih => exact asserts_ofPost h ih
  | primary _ ih => exact asserts_primary ih
  | index h hl _ ih => exact asserts_index h hl ih
  | castParen hl ht hr => exact asserts_castParen hl ht hr
  | castInner hl hv ht hr _ ih => exact asserts_castInner hl hv ht hr ih
  | callExpr h ih => exact asserts_callExpr h ih
  | paren hl hv _ ih => exact asserts_paren hl hv ih
  | call hc hi hl _ ih => exact asserts_call hc hi hl ih
  | arg h ih => exact asserts_arg h ih
  | moreArgs h ht _ ih => exact asserts_moreArgs h ht ih

theorem StuckVarDecl.asserts {ts : List Token} (h : StuckVarDecl ts) (fuel : Nat)
    (hfuel : 12 * ts.length ≤ fuel + 3) : Asserts (parseVarDecl fuel) ts := by
  cases h with
  | init ht hv hi hq he =>
    have htype := parseVarType_complete hv (by simp [hi]) (by simp [hi]) (by simp [hi, litOf])
    have hlen := hv.consumes.length_le
    simp only [List.length_cons] at hfuel hlen
    unfold Asserts
    rw [parseVarDecl, Lib.TokenParser.peek_bind, if_pos (by simp [ht]),
      Lib.TokenParser.advance_bind, List.tail_cons, bind_of_ok htype,
      bind_of_ok (parseIdentifierExpr_complete hi), Lib.TokenParser.peek_bind,
      if_pos (by simp [hq]), Lib.TokenParser.advance_bind, List.tail_cons,
      bind_of_error (he.asserts.binaryExpr fuel (by omega))]

/-! ## Statements -/

/-- A stuck statement starts a statement, and is no comment. -/
theorem StuckStmt.starts {ts : List Token} (h : StuckStmt .stmt ts) :
    ∃ t ts', ts = t :: ts' ∧ startsStmt t.type = true ∧ t.type ≠ .tComment := by
  cases h with
  | ifCond hi _ _ => exact ⟨_, _, rfl, by simp [startsStmt, hi], by simp [hi]⟩
  | ifThen hi _ _ _ _ => exact ⟨_, _, rfl, by simp [startsStmt, hi], by simp [hi]⟩
  | ifElse hi _ _ _ _ _ _ => exact ⟨_, _, rfl, by simp [startsStmt, hi], by simp [hi]⟩
  | ret ht _ => exact ⟨_, _, rfl, by simp [startsStmt, ht], by simp [ht]⟩
  | call h =>
    obtain ⟨t, ts', rfl, ht⟩ := h.starts
    have ht : t.type = .tCall := by simpa [Cat.starts] using ht
    exact ⟨t, ts', rfl, by simp [startsStmt, ht], by simp [ht]⟩
  | blockStmt hl _ =>
    obtain ⟨t, ts', rfl, ht⟩ := pMatch_eq_true hl
    exact ⟨t, ts', rfl, by simp [startsStmt, ht], by simp [ht]⟩
  | expr _ h =>
    obtain ⟨t, ts', rfl, ht⟩ := h.starts
    refine ⟨t, ts', rfl, startsStmt_of_startsExpr ht, fun hc => ?_⟩
    simp [Cat.starts, hc, startsExpr, startsPrimary, unaryOpOf] at ht

theorem StuckVarDecl.starts {ts : List Token} (h : StuckVarDecl ts) :
    ∃ t ts', ts = t :: ts' ∧ t.type = .tLet := by
  cases h with
  | init ht _ _ _ _ => exact ⟨_, _, rfl, ht⟩

/-- No stuck item starts with `else`. -/
theorem StuckStmt.items_not_else {ts : List Token} (h : StuckStmt .items ts) :
    pMatch ts.head? .tElse = false := by
  cases h with
  | initialiser h =>
    obtain ⟨t, ts', rfl, ht⟩ := h.starts
    simp [ht]
  | first h =>
    obtain ⟨t, ts', rfl, ht, _⟩ := h.starts
    cases htype : t.type <;> simp_all [startsStmt]
  | varDecl h _ =>
    obtain ⟨t, ts', rfl, ht⟩ := h.starts
    simp [ht]
  | cons h _ =>
    obtain ⟨t, ts', rfl, ht⟩ := h.starts
    cases htype : t.type <;> simp_all [startsStmt]

/-- What the parse function of a category does where it is stuck. -/
def StmtStuckAsserts : StmtCat → List Token → Prop
  | .stmt, ts => ∀ fuel, 12 * ts.length + 12 ≤ fuel → Asserts (parseStatment fuel) ts
  | .items, ts => ∀ fuel, 12 * ts.length + 13 ≤ fuel → Asserts (parseBlockLoop fuel) ts
  | .block, ts => ∀ fuel, 12 * ts.length + 2 ≤ fuel → Asserts (parseBlockStmt fuel) ts

section statements
variable {ts mid : List Token}

theorem asserts_ifCond {i l : Token} (hi : i.type = .tIf) (hl : l.type = .tLeftParen)
    (hc : Stuck (.binary .equal) ts) : StmtStuckAsserts .stmt (i :: l :: ts) := by
  intro fuel hfuel
  simp only [List.length_cons] at hfuel
  obtain ⟨fuel, rfl⟩ : ∃ k, fuel = k + 2 := ⟨fuel - 2, by omega⟩
  unfold Asserts
  rw [parseStatment, Lib.TokenParser.peek_bind, if_pos (by simp [hi]), parseIfStmt,
    Lib.TokenParser.peek_bind, List.head?_cons, bind_of_ok (assertMatch_complete hi),
    Lib.TokenParser.advance_bind, List.tail_cons, bind_of_ok (expect_complete hl),
    bind_of_error (hc.asserts.binaryExpr fuel (by omega))]

theorem asserts_ifThen {i l r : Token} {cond : Expr} (hi : i.type = .tIf)
    (hl : l.type = .tLeftParen) (hc : Derives (.binary .equal) ts (r :: mid) (.expr cond))
    (hr : r.type = .tRightParen) (ih : StmtStuckAsserts .block mid) :
    StmtStuckAsserts .stmt (i :: l :: ts) := by
  intro fuel hfuel
  have hlen := hc.length_lt (by simp)
  simp only [List.length_cons] at hfuel hlen
  obtain ⟨fuel, rfl⟩ : ∃ k, fuel = k + 2 := ⟨fuel - 2, by omega⟩
  have hcond := hc.parseBinaryExpr (by simp [Cat.continues, hr, factorOp, termOp, compareOp,
    equalOp]) fuel (by omega)
  unfold Asserts
  rw [parseStatment, Lib.TokenParser.peek_bind, if_pos (by simp [hi]), parseIfStmt,
    Lib.TokenParser.peek_bind, List.head?_cons, bind_of_ok (assertMatch_complete hi),
    Lib.TokenParser.advance_bind, List.tail_cons, bind_of_ok (expect_complete hl),
    bind_of_ok hcond, bind_of_ok (expect_complete hr), bind_of_error (ih fuel (by omega))]

theorem asserts_ifElse {i l r e : Token} {mid' : List Token} {cond : Expr} {nodes : List Stmt}
    (hi : i.type = .tIf) (hl : l.type = .tLeftParen)
    (hc : Derives (.binary .equal) ts (r :: mid) (.expr cond)) (hr : r.type = .tRightParen)
    (hb : DerivesStmt .block mid (e :: mid') (.nodes nodes)) (he : e.type = .tElse)
    (ih : StmtStuckAsserts .block mid') : StmtStuckAsserts .stmt (i :: l :: ts) := by
  intro fuel hfuel
  have hlen := hc.length_lt (by simp)
  have hlen' := hb.consumes.length_le
  simp only [List.length_cons] at hfuel hlen hlen'
  obtain ⟨fuel, rfl⟩ : ∃ k, fuel = k + 2 := ⟨fuel - 2, by omega⟩
  unfold Asserts
  rw [parseStatment, Lib.TokenParser.peek_bind, if_pos (by simp [hi]),
    parseIfStmt_then hi hl hc hr (by omega) (hb.accepts fuel (by omega)),
    Lib.TokenParser.peek_bind, if_pos (by simp [he]), Lib.TokenParser.advance_bind, List.tail_cons,
    bind_of_error (ih fuel (by omega))]

theorem asserts_ret {t : Token} (ht : t.type = .tReturn) (h : Stuck .assign ts) :
    StmtStuckAsserts .stmt (t :: ts) := by
  intro fuel hfuel
  rw [List.length_cons] at hfuel
  cases fuel with
  | zero => omega
  | succ fuel =>
    have hret : Asserts (parseReturnStmt fuel) (t :: ts) := by
      unfold Asserts
      rw [parseReturnStmt, Lib.TokenParser.peek_bind, if_pos (by simp [ht]),
        Lib.TokenParser.advance_bind, List.tail_cons, bind_of_error (h.asserts fuel (by omega))]
    unfold Asserts
    rw [parseStatment, Lib.TokenParser.peek_bind, if_neg (by simp [ht]), if_neg (by simp [ht]),
      if_pos (by simp [ht]), bind_of_error hret]

/-- A statement that `parse_expr` parses. -/
theorem asserts_parseExpr {t : Token}
    (hstart : t.type ≠ .tIf ∧ t.type ≠ .tComment ∧ t.type ≠ .tReturn)
    (h : ∀ fuel, 12 * ts.length + 22 ≤ fuel → Asserts (parseExpr (fuel + 1)) (t :: ts)) :
    StmtStuckAsserts .stmt (t :: ts) := by
  intro fuel hfuel
  rw [List.length_cons] at hfuel
  obtain ⟨fuel, rfl⟩ : ∃ k, fuel = k + 2 := ⟨fuel - 2, by omega⟩
  unfold Asserts
  rw [parseStatment, Lib.TokenParser.peek_bind, if_neg (by simp [hstart]),
    if_neg (by simp [hstart]), if_neg (by simp [hstart]), bind_of_error (h fuel (by omega))]

theorem asserts_callStmt (h : Stuck .call ts) : StmtStuckAsserts .stmt ts := by
  obtain ⟨t, ts', rfl, ht⟩ := h.starts
  have ht : t.type = .tCall := by simpa [Cat.starts] using ht
  refine asserts_parseExpr (by simp [ht]) fun fuel hfuel => ?_
  have hcall := h.asserts fuel (by rw [List.length_cons]; omega)
  unfold Asserts
  rw [parseExpr, Lib.TokenParser.peek_bind, if_neg (by simp), if_pos (by simp [ht]),
    bind_of_error hcall]

theorem asserts_blockStmt (hl : pMatch ts.head? .tLeftBrace = true)
    (ih : StmtStuckAsserts .block ts) : StmtStuckAsserts .stmt ts := by
  obtain ⟨t, ts', rfl, ht⟩ := pMatch_eq_true hl
  refine asserts_parseExpr (by simp [ht]) fun fuel hfuel => ?_
  unfold Asserts
  rw [parseExpr, Lib.TokenParser.peek_bind, if_neg (by simp), if_neg (by simp [ht]), if_pos hl,
    bind_of_error (ih fuel (by rw [List.length_cons]; omega))]

theorem asserts_exprStmt (hc : pMatch ts.head? .tCall = false) (h : Stuck .assign ts) :
    StmtStuckAsserts .stmt ts := by
  obtain ⟨t, ts', rfl, ht⟩ := h.starts
  have hne : t.type ≠ .tIf ∧ t.type ≠ .tComment ∧ t.type ≠ .tReturn ∧ t.type ≠ .tLeftBrace := by
    cases htype : t.type <;> simp_all [Cat.starts, startsExpr, startsPrimary, unaryOpOf]
  refine asserts_parseExpr (by simp [hne]) fun fuel hfuel => ?_
  have hexpr := h.asserts fuel (by rw [List.length_cons]; omega)
  unfold Asserts
  rw [parseExpr, Lib.TokenParser.peek_bind, if_neg (by simp),
    if_neg (by rw [hc]; exact Bool.false_ne_true), if_neg (by simp [hne]), bind_of_error hexpr]

theorem asserts_initialiser (h : StuckVarDecl ts) : StmtStuckAsserts .items ts := by
  intro fuel hfuel
  cases fuel with
  | zero => omega
  | succ fuel =>
    have hdecl := h.asserts fuel (by omega)
    obtain ⟨t, ts', rfl, ht⟩ := h.starts
    unfold Asserts
    rw [parseBlockLoop, Lib.TokenParser.peek_bind, if_neg (by simp [ht]), if_pos (by simp [ht]),
      bind_of_error hdecl]

theorem asserts_first (h : StuckStmt .stmt ts) (ih : StmtStuckAsserts .stmt ts) :
    StmtStuckAsserts .items ts := by
  intro fuel hfuel
  obtain ⟨t, ts', rfl, ht, hcomment⟩ := h.starts
  have hne : t.type ≠ .tRightBrace ∧ t.type ≠ .tLet := by
    cases htype : t.type <;> simp_all [startsStmt]
  cases fuel with
  | zero => omega
  | succ fuel =>
    unfold Asserts
    rw [parseBlockLoop, Lib.TokenParser.peek_bind, if_neg (by simp [hne]), if_neg (by simp [hne]),
      if_neg (by simp [hcomment]), bind_of_error (ih fuel (by omega))]

theorem asserts_afterDecl {d : VarDecl} (h : DerivesVarDecl ts mid d)
    (ih : StmtStuckAsserts .items mid) : StmtStuckAsserts .items ts := by
  intro fuel hfuel
  have hlen := h.length_lt
  cases fuel with
  | zero => omega
  | succ fuel =>
    have hdecl := parseVarDecl_complete h fuel (by omega)
    obtain ⟨t, ts', rfl, ht⟩ := h.starts
    unfold Asserts
    rw [parseBlockLoop, Lib.TokenParser.peek_bind, if_neg (by simp [ht]), if_pos (by simp [ht]),
      bind_of_ok hdecl, bind_of_error (ih fuel (by omega))]

theorem asserts_afterStmt {s : Stmt} (h : DerivesStmt .stmt ts mid (.stmt s))
    (hs : StuckStmt .items mid) (ih : StmtStuckAsserts .items mid) :
    StmtStuckAsserts .items ts := by
  intro fuel hfuel
  have hlen := h.length_lt (by simp)
  obtain ⟨t, ts', rfl, ht⟩ := h.starts
  have hne : t.type ≠ .tRightBrace ∧ t.type ≠ .tLet := by
    cases htype : t.type <;> simp_all [startsStmt]
  cases fuel with
  | zero => omega
  | succ fuel =>
    unfold Asserts
    rw [parseBlockLoop, Lib.TokenParser.peek_bind, if_neg (by simp [hne]), if_neg (by simp [hne])]
    by_cases hcomment : t.type = .tComment
    · obtain ⟨rfl, _⟩ := h.comment_of_starts hcomment
      rw [if_pos (by simp [hcomment]), bind_of_ok (parseCommentStmt_complete hcomment),
        bind_of_error (ih fuel (by omega))]
    · have hstmt := h.accepts hs.items_not_else fuel (by omega)
      rw [if_neg (by simp [hcomment]), bind_of_ok hstmt, bind_of_error (ih fuel (by omega))]

theorem asserts_noBrace (hl : pMatch ts.head? .tLeftBrace = false) :
    StmtStuckAsserts .block ts := by
  intro fuel hfuel
  cases fuel with
  | zero => omega
  | succ fuel =>
    have hassert : Asserts (assertMatch ts.head? .tLeftBrace) ts := by
      unfold Asserts
      rw [assertMatch, if_neg (by rw [hl]; exact Bool.false_ne_true)]
      rfl
    unfold Asserts
    rw [parseBlockStmt, Lib.TokenParser.peek_bind, bind_of_error hassert]

theorem asserts_block {l : Token} (hl : l.type = .tLeftBrace) (ih : StmtStuckAsserts .items ts) :
    StmtStuckAsserts .block (l :: ts) := by
  intro fuel hfuel
  rw [List.length_cons] at hfuel
  cases fuel with
  | zero => omega
  | succ fuel =>
    unfold Asserts
    rw [parseBlockStmt, Lib.TokenParser.peek_bind, List.head?_cons,
      bind_of_ok (assertMatch_complete hl), Lib.TokenParser.advance_bind, List.tail_cons,
      bind_of_error (ih fuel (by omega))]

end statements

/-- **Where a statement is stuck, an assertion fails.** -/
theorem StuckStmt.asserts {c : StmtCat} {ts : List Token} (h : StuckStmt c ts) :
    StmtStuckAsserts c ts := by
  induction h with
  | ifCond hi hl hc => exact asserts_ifCond hi hl hc
  | ifThen hi hl hc hr _ ih => exact asserts_ifThen hi hl hc hr ih
  | ifElse hi hl hc hr hb he _ ih => exact asserts_ifElse hi hl hc hr hb he ih
  | ret ht h => exact asserts_ret ht h
  | call h => exact asserts_callStmt h
  | blockStmt hl _ ih => exact asserts_blockStmt hl ih
  | expr hc h => exact asserts_exprStmt hc h
  | initialiser h => exact asserts_initialiser h
  | first h ih => exact asserts_first h ih
  | varDecl h _ ih => exact asserts_afterDecl h ih
  | cons h hs ih => exact asserts_afterStmt h hs ih
  | noBrace hl => exact asserts_noBrace hl
  | block hl _ ih => exact asserts_block hl ih

/-! ## Functions and programs -/

theorem StuckFunc.asserts {ts : List Token} (h : StuckFunc ts) (fuel : Nat)
    (hfuel : 12 * ts.length ≤ fuel + 1) : Asserts (parseFuncDecl fuel) ts := by
  cases h with
  | body hf hv hi hl hp hr hb =>
    have hlen := hv.consumes.length_le
    have hlen' := hp.consumes.length_le
    simp only [List.length_cons] at hfuel hlen hlen'
    have htype := parseVarType_complete hv (by simp [hi]) (by simp [hi]) (by simp [hi, litOf])
    have hparams := parseParamsLoop_complete hp (by simp [hr]) fuel (by omega)
    unfold Asserts
    rw [parseFuncDecl, Lib.TokenParser.peek_bind, if_pos (by simp [hf]),
      Lib.TokenParser.advance_bind, List.tail_cons,
      bind_of_ok (parseFuncType_complete htype hi hl hparams)]
    simp only
    rw [bind_of_error (hb.asserts fuel (by omega))]

theorem StuckFunc.starts {ts : List Token} (h : StuckFunc ts) :
    ∃ t ts', ts = t :: ts' ∧ t.type = .tFunc := by
  cases h with
  | body hf _ _ _ _ _ _ => exact ⟨_, _, rfl, hf⟩

/-- **On a program up to an assertion, that assertion fails.** -/
theorem StuckProgram.asserts {ts : List Token} (h : StuckProgram ts) :
    ∀ fuel, 12 * ts.length + 12 ≤ fuel → Asserts (parseProgramLoop fuel) ts := by
  induction h with
  | initialiser h =>
    intro fuel hfuel
    cases fuel with
    | zero => omega
    | succ fuel =>
      have hdecl := h.asserts fuel (by omega)
      obtain ⟨t, ts', rfl, ht⟩ := h.starts
      unfold Asserts
      rw [parseProgramLoop, Lib.TokenParser.peek_bind, if_neg (by simp [ht]),
        if_neg (by simp [ht]), if_pos (by simp [ht]), bind_of_error hdecl]
  | body h =>
    intro fuel hfuel
    cases fuel with
    | zero => omega
    | succ fuel =>
      have hdecl := h.asserts fuel (by omega)
      obtain ⟨t, ts', rfl, ht⟩ := h.starts
      unfold Asserts
      rw [parseProgramLoop, Lib.TokenParser.peek_bind, if_neg (by simp [ht]),
        if_pos (by simp [ht]), bind_of_error hdecl]
  | comment ht _ ih =>
    intro fuel hfuel
    rw [List.length_cons] at hfuel
    cases fuel with
    | zero => omega
    | succ fuel =>
      unfold Asserts
      rw [parseProgramLoop, Lib.TokenParser.peek_bind, if_neg (by simp [ht]),
        if_neg (by simp [ht]), if_neg (by simp [ht]), if_pos (by simp [ht]),
        bind_of_ok (parseCommentStmt_complete ht), bind_of_error (ih fuel (by omega))]
  | varDecl hd _ ih =>
    intro fuel hfuel
    have hlen := hd.length_lt
    cases fuel with
    | zero => omega
    | succ fuel =>
      have hdecl := parseVarDecl_complete hd fuel (by omega)
      obtain ⟨t, ts', rfl, ht⟩ := hd.starts
      unfold Asserts
      rw [parseProgramLoop, Lib.TokenParser.peek_bind, if_neg (by simp [ht]),
        if_neg (by simp [ht]), if_pos (by simp [ht]), bind_of_ok hdecl,
        bind_of_error (ih fuel (by omega))]
  | func hf _ ih =>
    intro fuel hfuel
    have hlen := hf.length_lt
    cases fuel with
    | zero => omega
    | succ fuel =>
      have hdecl := parseFuncDecl_complete hf fuel (by omega)
      obtain ⟨t, ts', rfl, ht⟩ := hf.starts
      unfold Asserts
      rw [parseProgramLoop, Lib.TokenParser.peek_bind, if_neg (by simp [ht]),
        if_pos (by simp [ht]), bind_of_ok hdecl, bind_of_error (ih fuel (by omega))]

theorem parseProgram_eq_error {ts : List Token} {e : ParseError} :
    parseProgram ts = .error e ↔ parseProgramLoop (parseFuel ts) ts = .error e := by
  rw [parseProgram, parseProgramFuel]
  cases parseProgramLoop (parseFuel ts) ts <;> simp [Except.map]

/-- The error is a message of the parser. -/
def ParseError.Reports : ParseError → Prop
  | .compileError _ _ | .stdCompileError _ => True
  | .assertFailed | .nullToken | .nullNode | .outOfFuel => False

/-- **Malformed input is reported exactly where no assertion stands in the way.** On tokens that end
in their only `T_EOF`, every rejection is a message if and only if the tokens are not a program up to
a block that does not start with `{` or a cast whose type is not followed by `)`. -/
theorem parseProgram_reports_iff (ts : List Token) (heof : EofLast ts) :
    (∀ e, parseProgram ts = .error e → e.Reports) ↔ ¬ StuckProgram ts := by
  constructor
  · intro hreports hstuck
    exact hreports _ (parseProgram_eq_error.mpr (hstuck.asserts (parseFuel ts) (Nat.le_refl _)))
  · intro hnot e he
    have hrejects := parseProgram_rejects heof he
    cases e with
    | compileError _ _ => trivial
    | stdCompileError _ => trivial
    | assertFailed =>
      exact absurd (parseProgramLoop_stuck _ ts (parseProgram_eq_error.mp he)) hnot
    | nullToken => exact hrejects
    | nullNode => exact hrejects
    | outOfFuel => exact hrejects

theorem parseProgram_reports_iff_returnOne :
    ¬ StuckProgram returnOneTokens := by
  apply (parseProgram_reports_iff returnOneTokens eofLast_returnOneTokens).mp
  intro e he
  have hok : parseProgram returnOneTokens = .ok _ := rfl
  exact absurd (hok.symm.trans he) (by simp)

/-- `fn f() return 1;` as tokens. -/
def noBraceTokens : List Token :=
  [⟨.tFunc, ascii "fn", 2, 1, 1⟩, ⟨.tIdentifier, ascii "f", 1, 1, 4⟩, ⟨.tLeftParen, ascii "(", 1, 1, 5⟩,
    ⟨.tRightParen, ascii ")", 1, 1, 6⟩, ⟨.tReturn, ascii "return", 6, 1, 8⟩,
    ⟨.tNumberLit, ascii "1", 1, 1, 15⟩, ⟨.tSemicolon, ascii ";", 1, 1, 16⟩,
    ⟨.tEof, ascii "eof", 3, 1, 17⟩]

/-- The missing `{` is asserted. -/
theorem parseProgram_noBrace : EofLast noBraceTokens ∧
    parseProgram noBraceTokens = .error .assertFailed :=
  ⟨⟨noBraceTokens.dropLast, ⟨.tEof, ascii "eof", 3, 1, 17⟩, rfl, rfl, by decide⟩, rfl⟩

end ACompiler
