import ACompiler.Parser.Consumed

/-!
# What the parser accepts is a phrase

Every successful run of a parse function has a derivation behind it. The functions of the
expression grammar call each other, so their statements are proved together (`ExprSound`), by
induction on the fuel; the loops of the left-associative levels and of the postfix level are
chains of steps that extend the tree on the left (`LevelStep`, `IndexStep`).
-/

namespace ACompiler

open Lib (TokenParser)
open Lib.TokenParser (fail peek peekNext advance bind_run bind_eq_ok)

/-! ## Single tokens -/

@[simp] theorem pMatch_some (t : Token) (type : TokenType) :
    pMatch (some t) type = decide (t.type = type) := rfl

@[simp] theorem pMatch_none (type : TokenType) : pMatch none type = false := rfl

@[simp] theorem compileError_run {α : Type} (t : Token) (message : String) (ts : List Token) :
    (compileError (some t) message : Parse α) ts = .error (.compileError t message) := rfl

@[simp] theorem compileError_none_run {α : Type} (message : String) (ts : List Token) :
    (compileError none message : Parse α) ts = .error .nullToken := rfl

theorem pMatch_eq_true {ts : List Token} {type : TokenType} (h : pMatch ts.head? type = true) :
    ∃ t rest, ts = t :: rest ∧ t.type = type := by
  cases ts with
  | nil => simp at h
  | cons t rest => exact ⟨t, rest, rfl, by simpa using h⟩

theorem compileError_ne_ok {α : Type} (token : Option Token) (message : String) (ts : List Token)
    (r : α × List Token) : (compileError token message : Parse α) ts ≠ .ok r := by
  cases token <;> simp

theorem expect_eq_ok {type : TokenType} {message : String} {ts rest : List Token} {u : Unit}
    (h : expect type message ts = .ok (u, rest)) : ∃ t, ts = t :: rest ∧ t.type = type := by
  cases ts with
  | nil => simp [expect] at h
  | cons t ts =>
    by_cases ht : t.type = type
    · simp [expect, ht] at h
      exact ⟨t, by rw [h], ht⟩
    · simp [expect, ht] at h

theorem parseIdentifierExpr_sound {ts rest : List Token} {name : CString}
    (h : parseIdentifierExpr ts = .ok (name, rest)) :
    ∃ t, ts = t :: rest ∧ t.type = .tIdentifier ∧ t.lexeme = name := by
  cases ts with
  | nil => simp [parseIdentifierExpr] at h
  | cons t ts =>
    by_cases ht : t.type = .tIdentifier
    · simp [parseIdentifierExpr, ht] at h
      exact ⟨t, by rw [h.2], ht, h.1⟩
    · simp [parseIdentifierExpr, ht] at h

theorem parseLiteralExpr_sound {ts rest : List Token} {e : Expr}
    (h : parseLiteralExpr ts = .ok (e, rest)) : Derives .primary ts rest (.expr e) := by
  cases ts with
  | nil => simp [parseLiteralExpr] at h
  | cons t ts =>
    by_cases hs : t.type = .tStringLit
    · simp [parseLiteralExpr, hs] at h
      obtain ⟨rfl, rfl⟩ := h
      exact .string hs
    · by_cases hn : t.type = .tNumberLit
      · simp [parseLiteralExpr, hn] at h
        obtain ⟨rfl, rfl⟩ := h
        exact .number hn
      · simp [parseLiteralExpr, hs, hn] at h

/-! ## Types -/

theorem parseArrayLen_sound {ts ts' rest : List Token} {b : VarBase} {v : VarT}
    (hb : DerivesBase ts' ts b) (h : parseArrayLen b ts = .ok (v, rest)) :
    DerivesType ts' rest v := by
  cases ts with
  | nil =>
    simp [parseArrayLen] at h
    obtain ⟨rfl, rfl⟩ := h
    exact .scalar hb
  | cons l ts =>
    by_cases hl : l.type = .tLeftBracket
    · cases ts with
      | nil => simp [parseArrayLen, hl] at h
      | cons n ts =>
        by_cases hn : n.type = .tNumberLit
        · simp only [parseArrayLen, Lib.TokenParser.peek_bind, List.head?_cons, pMatch_some, hl,
            decide_true, if_true, Lib.TokenParser.advance_bind, List.tail_cons, hn] at h
          obtain ⟨u, mid, he, hv⟩ := bind_eq_ok.mp h
          obtain ⟨r, rfl, hr⟩ := expect_eq_ok he
          simp at hv
          obtain ⟨rfl, rfl⟩ := hv
          exact .array hb hl hn hr
        · simp [parseArrayLen, hl, hn] at h
    · simp [parseArrayLen, hl] at h
      obtain ⟨rfl, rfl⟩ := h
      exact .scalar hb

theorem parseVarType_sound {ts rest : List Token} {v : VarT}
    (h : parseVarType ts = .ok (v, rest)) : DerivesType ts rest v := by
  cases ts with
  | nil => simp [parseVarType, getVarType, bind_run] at h
  | cons t ts =>
    by_cases ht : t.type = .tAnd
    · cases ts with
      | nil => simp [parseVarType, getVarType, ht, bind_run] at h
      | cons p ts =>
        cases ha : litAdrOf p.type with
        | none =>
          simp [parseVarType, getVarType, ht, ha, bind_run] at h
        | some a =>
          simp [parseVarType, getVarType, ht, ha, bind_run] at h
          exact parseArrayLen_sound (.adr ht ha) h
    · cases hl : litOf t.type with
      | none =>
        simp [parseVarType, getVarType, ht, hl, bind_run] at h
        exact parseArrayLen_sound .empty h
      | some l =>
        simp [parseVarType, getVarType, ht, hl, bind_run] at h
        exact parseArrayLen_sound (.lit hl) h

/-! ## Expressions -/

theorem binaryLoop_sound {l : Level} {sub : Parse Expr}
    (hsub : ∀ {ts rest e}, sub ts = .ok (e, rest) → Derives l.operand ts rest (.expr e)) :
    ∀ (fuel : Nat) {ts' ts rest : List Token} {left e : Expr},
      Derives (.binary l) ts' ts (.expr left) → binaryLoop l.op sub fuel left ts = .ok (e, rest) →
        Derives (.binary l) ts' rest (.expr e) := by
  intro fuel
  induction fuel with
  | zero => intro ts' ts rest left e _ h; simp [binaryLoop] at h
  | succ fuel ih =>
    intro ts' ts rest left e hleft h
    rw [binaryLoop, Lib.TokenParser.peek_bind] at h
    cases hop : ts.head?.bind fun t => l.op t.type with
    | none =>
      simp [hop] at h
      obtain ⟨rfl, rfl⟩ := h
      exact hleft
    | some b =>
      simp only [hop, Lib.TokenParser.advance_bind] at h
      obtain ⟨right, mid, hr, hloop⟩ := bind_eq_ok.mp h
      cases ts with
      | nil => simp at hop
      | cons t ts => exact ih (.operator hleft hop (hsub hr)) hloop

/-- What a successful run of each expression function derives. -/
structure ExprSound (fuel : Nat) : Prop where
  cast : ∀ {ts rest e}, parseCastExpr fuel ts = .ok (e, rest) → isVarType ts[1]? = true →
    Derives .primary ts rest (.expr e)
  argsLoop : ∀ {ts rest es}, parseArgsLoop fuel ts = .ok (es, rest) →
    Derives .args ts rest (.exprs es)
  args : ∀ {ts rest es}, parseArgs fuel ts = .ok (es, rest) →
    ∃ l mid r, ts = l :: mid ∧ l.type = .tLeftParen ∧
      Derives .args mid (r :: rest) (.exprs es) ∧ r.type = .tRightParen
  call : ∀ {ts rest e}, parseCallExpr fuel ts = .ok (e, rest) → Derives .call ts rest (.expr e)
  primary : ∀ {ts rest e}, parsePrimary fuel ts = .ok (e, rest) →
    Derives .primary ts rest (.expr e)
  postfixLoop : ∀ {ts' ts rest node e}, Derives .postExpr ts' ts (.expr node) →
    parsePostfixLoop fuel node ts = .ok (e, rest) → Derives .postExpr ts' rest (.expr e)
  postExpr : ∀ {ts rest e}, parsePostfix fuel ts = .ok (e, rest) →
    Derives .postExpr ts rest (.expr e)
  unary : ∀ {ts rest e}, parseUnaryExpr fuel ts = .ok (e, rest) → Derives .unary ts rest (.expr e)
  factor : ∀ {ts rest e}, parseFactor fuel ts = .ok (e, rest) →
    Derives (.binary .factor) ts rest (.expr e)
  term : ∀ {ts rest e}, parseTerm fuel ts = .ok (e, rest) →
    Derives (.binary .term) ts rest (.expr e)
  compare : ∀ {ts rest e}, parseCompare fuel ts = .ok (e, rest) →
    Derives (.binary .compare) ts rest (.expr e)
  equal : ∀ {ts rest e}, parseEqual fuel ts = .ok (e, rest) →
    Derives (.binary .equal) ts rest (.expr e)
  binary : ∀ {ts rest e}, parseBinaryExpr fuel ts = .ok (e, rest) →
    Derives (.binary .equal) ts rest (.expr e)
  assign : ∀ {ts rest e}, parseAssignExpr fuel ts = .ok (e, rest) →
    Derives .assign ts rest (.expr e)

section step
variable {fuel : Nat} (ih : ExprSound fuel) {ts rest : List Token}
include ih

theorem parseCastExpr_sound {e : Expr} (h : parseCastExpr (fuel + 1) ts = .ok (e, rest))
    (hv : isVarType ts[1]? = true) : Derives .primary ts rest (.expr e) := by
  cases ts with
  | nil => simp [isVarType] at hv
  | cons l ts =>
    rw [parseCastExpr, Lib.TokenParser.peek_bind] at h
    rw [bind_eq_ok] at h
    obtain ⟨_, ts₁, hl, h⟩ := h
    by_cases hlt : l.type = .tLeftParen
    · simp [assertType, hlt] at hl
      subst hl
      rw [Lib.TokenParser.advance_bind] at h
      rw [bind_eq_ok] at h
      obtain ⟨v, ts₂, htype, h⟩ := h
      rw [Lib.TokenParser.peek_bind] at h
      rw [bind_eq_ok] at h
      obtain ⟨_, ts₃, hr, h⟩ := h
      cases ts₂ with
      | nil => simp [assertType] at hr
      | cons r mid =>
        by_cases hrt : r.type = .tRightParen
        · simp [assertType, hrt] at hr
          subst hr
          rw [Lib.TokenParser.advance_bind] at h
          rw [bind_eq_ok] at h
          obtain ⟨inner, ts₄, hinner, h⟩ := h
          simp at h
          obtain ⟨rfl, rfl⟩ := h
          refine .cast hlt ?_ (parseVarType_sound htype) hrt (ih.primary hinner)
          rw [List.head?_eq_getElem?]
          exact hv
        · simp [assertType, hrt] at hr
    · simp [assertType, hlt] at hl

theorem parseArgsLoop_sound {es : List Expr} (h : parseArgsLoop (fuel + 1) ts = .ok (es, rest)) :
    Derives .args ts rest (.exprs es) := by
  rw [parseArgsLoop, Lib.TokenParser.peek_bind] at h
  by_cases hr : pMatch ts.head? .tRightParen = true
  · rw [if_pos hr] at h
    simp at h
    obtain ⟨rfl, rfl⟩ := h
    exact .argsNil
  · rw [if_neg hr] at h
    rw [bind_eq_ok] at h
    obtain ⟨arg, mid, harg, h⟩ := h
    rw [Lib.TokenParser.peek_bind] at h
    by_cases hc : pMatch mid.head? .tComma = true
    · rw [if_pos hc, Lib.TokenParser.advance_bind] at h
      obtain ⟨c, mid', rfl, hct⟩ := pMatch_eq_true hc
      rw [bind_eq_ok] at h
      obtain ⟨args, ts', hargs, h⟩ := h
      simp at h
      obtain ⟨rfl, rfl⟩ := h
      exact .argsCons (ih.binary harg) hct (ih.argsLoop hargs)
    · rw [if_neg hc] at h
      simp at h
      obtain ⟨rfl, rfl⟩ := h
      exact .argsLast (ih.binary harg)

theorem parseArgs_sound {es : List Expr} (h : parseArgs (fuel + 1) ts = .ok (es, rest)) :
    ∃ l mid r, ts = l :: mid ∧ l.type = .tLeftParen ∧
      Derives .args mid (r :: rest) (.exprs es) ∧ r.type = .tRightParen := by
  rw [parseArgs] at h
  rw [bind_eq_ok] at h
  obtain ⟨_, mid, hl, h⟩ := h
  rw [bind_eq_ok] at h
  obtain ⟨args, ts', hargs, h⟩ := h
  rw [bind_eq_ok] at h
  obtain ⟨_, ts'', hr, h⟩ := h
  simp at h
  obtain ⟨rfl, rfl⟩ := h
  obtain ⟨l, rfl, hlt⟩ := expect_eq_ok hl
  obtain ⟨r, rfl, hrt⟩ := expect_eq_ok hr
  exact ⟨l, mid, r, rfl, hlt, ih.argsLoop hargs, hrt⟩

theorem parseCallExpr_sound {e : Expr} (h : parseCallExpr (fuel + 1) ts = .ok (e, rest)) :
    Derives .call ts rest (.expr e) := by
  rw [parseCallExpr, Lib.TokenParser.peek_bind] at h
  split_ifs at h with hc
  · obtain ⟨c, ts₁, rfl, hct⟩ := pMatch_eq_true hc
    rw [Lib.TokenParser.advance_bind, Lib.TokenParser.peek_bind] at h
    split_ifs at h with hi
    · rw [bind_eq_ok] at h
      obtain ⟨callee, ts₂, hcallee, h⟩ := h
      obtain ⟨i, hts, hit, rfl⟩ := parseIdentifierExpr_sound hcallee
      simp only [List.tail_cons] at hts
      subst hts
      rw [Lib.TokenParser.peek_bind] at h
      split_ifs at h with hl
      · rw [bind_eq_ok] at h
        obtain ⟨args, ts₃, hargs, h⟩ := h
        simp at h
        obtain ⟨rfl, rfl⟩ := h
        obtain ⟨l, mid, r, rfl, hlt, hargs, hrt⟩ := ih.args hargs
        exact .call hct hit hlt hargs hrt
      · exact absurd h (compileError_ne_ok _ _ _ _)
    · exact absurd h (compileError_ne_ok _ _ _ _)
  · simp at h

theorem parsePrimary_sound {e : Expr} (h : parsePrimary (fuel + 1) ts = .ok (e, rest)) :
    Derives .primary ts rest (.expr e) := by
  rw [parsePrimary, Lib.TokenParser.peek_bind, Lib.TokenParser.peekNext_bind] at h
  split_ifs at h with hcast hcall hident hlit hparen
  · simp only [Bool.and_eq_true] at hcast
    exact ih.cast h hcast.2
  · exact .callExpr (ih.call h)
  · rw [bind_eq_ok] at h
    obtain ⟨name, mid, hname, h⟩ := h
    simp at h
    obtain ⟨rfl, rfl⟩ := h
    obtain ⟨t, rfl, ht, rfl⟩ := parseIdentifierExpr_sound hname
    exact .identifier ht
  · exact parseLiteralExpr_sound h
  · obtain ⟨l, ts₁, rfl, hlt⟩ := pMatch_eq_true hparen
    rw [Lib.TokenParser.advance_bind] at h
    rw [bind_eq_ok] at h
    obtain ⟨inner, mid, hinner, h⟩ := h
    rw [bind_eq_ok] at h
    obtain ⟨_, mid', hr, h⟩ := h
    simp at h
    obtain ⟨rfl, rfl⟩ := h
    obtain ⟨r, rfl, hrt⟩ := expect_eq_ok hr
    refine .paren hlt ?_ (ih.assign hinner) hrt
    rw [List.head?_eq_getElem?]
    simpa [hlt] using hcast
  · exact absurd h (compileError_ne_ok _ _ _ _)

theorem parsePostfixLoop_sound {ts' : List Token} {node e : Expr}
    (hnode : Derives .postExpr ts' ts (.expr node))
    (h : parsePostfixLoop (fuel + 1) node ts = .ok (e, rest)) :
    Derives .postExpr ts' rest (.expr e) := by
  rw [parsePostfixLoop, Lib.TokenParser.peek_bind] at h
  split_ifs at h with hl
  · obtain ⟨l, ts₁, rfl, hlt⟩ := pMatch_eq_true hl
    rw [Lib.TokenParser.advance_bind] at h
    rw [bind_eq_ok] at h
    obtain ⟨idx, mid, hidx, h⟩ := h
    rw [bind_eq_ok] at h
    obtain ⟨_, mid', hr, h⟩ := h
    obtain ⟨r, rfl, hrt⟩ := expect_eq_ok hr
    exact ih.postfixLoop (.index hnode hlt (ih.binary hidx) hrt) h
  · simp at h
    obtain ⟨rfl, rfl⟩ := h
    exact hnode

theorem parseUnaryExpr_sound {e : Expr} (h : parseUnaryExpr (fuel + 1) ts = .ok (e, rest)) :
    Derives .unary ts rest (.expr e) := by
  rw [parseUnaryExpr, Lib.TokenParser.peek_bind] at h
  cases hop : ts.head?.bind fun t => unaryOpOf t.type with
  | none =>
    simp only [hop] at h
    exact .ofPost (ih.postExpr h)
  | some op =>
    simp only [hop, Lib.TokenParser.advance_bind] at h
    rw [bind_eq_ok] at h
    obtain ⟨expr, mid, hexpr, h⟩ := h
    simp at h
    obtain ⟨rfl, rfl⟩ := h
    cases ts with
    | nil => simp at hop
    | cons t ts => exact .unary hop (ih.unary hexpr)

theorem parseAssignExpr_sound {e : Expr} (h : parseAssignExpr (fuel + 1) ts = .ok (e, rest)) :
    Derives .assign ts rest (.expr e) := by
  rw [parseAssignExpr] at h
  rw [bind_eq_ok] at h
  obtain ⟨left, mid, hleft, h⟩ := h
  rw [Lib.TokenParser.peek_bind] at h
  by_cases heq : pMatch mid.head? .tEqual = true
  · obtain ⟨t, mid', rfl, ht⟩ := pMatch_eq_true heq
    rw [if_pos heq, Lib.TokenParser.advance_bind, Lib.TokenParser.peek_bind] at h
    by_cases ha : isAssignable left = true
    · rw [if_pos ha] at h
      rw [bind_eq_ok] at h
      obtain ⟨value, ts', hvalue, h⟩ := h
      simp at h
      obtain ⟨rfl, rfl⟩ := h
      exact .assign (ih.binary hleft) ht ha (ih.assign hvalue)
    · rw [if_neg ha] at h
      exact absurd h (compileError_ne_ok _ _ _ _)
  · rw [if_neg heq] at h
    simp at h
    obtain ⟨rfl, rfl⟩ := h
    exact .equal (ih.binary hleft)

end step

/-- **The expression functions are sound**, for any fuel. -/
theorem exprSound : ∀ fuel : Nat, ExprSound fuel := by
  intro fuel
  induction fuel with
  | zero => constructor <;> intros <;> simp_all [parseCastExpr, parseArgsLoop, parseArgs,
      parseCallExpr, parsePrimary, parsePostfixLoop, parsePostfix, parseUnaryExpr, parseFactor,
      parseTerm, parseCompare, parseEqual, parseBinaryExpr, parseAssignExpr]
  | succ fuel ih =>
    exact {
      cast := parseCastExpr_sound ih
      argsLoop := parseArgsLoop_sound ih
      args := parseArgs_sound ih
      call := parseCallExpr_sound ih
      primary := parsePrimary_sound ih
      postfixLoop := parsePostfixLoop_sound ih
      postExpr := by
        intro ts rest e h
        rw [parsePostfix] at h
        rw [bind_eq_ok] at h
        obtain ⟨node, mid, hnode, h⟩ := h
        exact ih.postfixLoop (.primary (ih.primary hnode)) h
      unary := parseUnaryExpr_sound ih
      factor := by
        intro ts rest e h
        rw [parseFactor] at h
        rw [bind_eq_ok] at h
        obtain ⟨left, mid, hleft, h⟩ := h
        exact binaryLoop_sound (l := .factor) ih.unary fuel (.operand (ih.unary hleft)) h
      term := by
        intro ts rest e h
        rw [parseTerm] at h
        rw [bind_eq_ok] at h
        obtain ⟨left, mid, hleft, h⟩ := h
        exact binaryLoop_sound (l := .term) ih.factor fuel (.operand (ih.factor hleft)) h
      compare := by
        intro ts rest e h
        rw [parseCompare] at h
        rw [bind_eq_ok] at h
        obtain ⟨left, mid, hleft, h⟩ := h
        exact binaryLoop_sound (l := .compare) ih.term fuel (.operand (ih.term hleft)) h
      equal := by
        intro ts rest e h
        rw [parseEqual] at h
        rw [bind_eq_ok] at h
        obtain ⟨left, mid, hleft, h⟩ := h
        exact binaryLoop_sound (l := .equal) ih.compare fuel (.operand (ih.compare hleft)) h
      binary := fun h => ih.equal h
      assign := parseAssignExpr_sound ih }

/-! ## Declarations and statements -/

theorem parseVarDecl_sound {fuel : Nat} {ts rest : List Token} {d : VarDecl}
    (h : parseVarDecl fuel ts = .ok (d, rest)) : DerivesVarDecl ts rest d := by
  rw [parseVarDecl, Lib.TokenParser.peek_bind] at h
  by_cases hlet : pMatch ts.head? .tLet = true
  · obtain ⟨t, ts₁, rfl, ht⟩ := pMatch_eq_true hlet
    rw [if_pos hlet, Lib.TokenParser.advance_bind] at h
    rw [bind_eq_ok] at h
    obtain ⟨v, ts₂, htype, h⟩ := h
    rw [bind_eq_ok] at h
    obtain ⟨ident, ts₃, hident, h⟩ := h
    obtain ⟨i, rfl, hi, rfl⟩ := parseIdentifierExpr_sound hident
    rw [Lib.TokenParser.peek_bind] at h
    by_cases hq : pMatch ts₃.head? .tEqual = true
    · obtain ⟨q, ts₄, rfl, hqt⟩ := pMatch_eq_true hq
      rw [if_pos hq, Lib.TokenParser.advance_bind] at h
      rw [bind_eq_ok] at h
      obtain ⟨binexpr, ts₅, hexpr, h⟩ := h
      rw [bind_eq_ok] at h
      obtain ⟨_, ts₆, hs, h⟩ := h
      simp at h
      obtain ⟨rfl, rfl⟩ := h
      obtain ⟨s, rfl, hst⟩ := expect_eq_ok hs
      exact .init ht (parseVarType_sound htype) hi hqt ((exprSound fuel).binary hexpr) hst
    · rw [if_neg hq] at h
      rw [bind_eq_ok] at h
      obtain ⟨_, ts₄, hs, h⟩ := h
      simp at h
      obtain ⟨rfl, rfl⟩ := h
      obtain ⟨s, rfl, hst⟩ := expect_eq_ok hs
      exact .uninit ht (parseVarType_sound htype) hi hst
  · rw [if_neg hlet] at h
    simp at h

theorem parseCommentStmt_sound {ts rest : List Token} {text : CString}
    (h : parseCommentStmt ts = .ok (text, rest)) :
    ∃ t, ts = t :: rest ∧ t.type = .tComment ∧ t.lexeme = text := by
  cases ts with
  | nil => simp [parseCommentStmt] at h
  | cons t ts =>
    by_cases ht : t.type = .tComment
    · simp [parseCommentStmt, ht] at h
      exact ⟨t, by rw [h.2], ht, h.1⟩
    · simp [parseCommentStmt, ht] at h

theorem assertMatch_eq_ok {ts rest : List Token} {type : TokenType} {u : Unit}
    (h : assertMatch ts.head? type ts = .ok (u, rest)) :
    ∃ t ts', ts = t :: ts' ∧ t.type = type ∧ rest = ts := by
  rw [assertMatch] at h
  by_cases hm : pMatch ts.head? type = true
  · obtain ⟨t, ts', hts, ht⟩ := pMatch_eq_true hm
    simp [hm] at h
    exact ⟨t, ts', hts, ht, h.symm⟩
  · simp [hm] at h

/-- What a successful run of each statement function derives. -/
structure StmtSound (fuel : Nat) : Prop where
  ifStmt : ∀ {ts rest s}, parseIfStmt fuel ts = .ok (s, rest) → DerivesStmt .stmt ts rest (.stmt s)
  expr : ∀ {ts mid rest s t}, parseExpr fuel ts = .ok (s, mid) → mid = t :: rest →
    t.type = .tSemicolon → DerivesStmt .stmt ts rest (.stmt s)
  statment : ∀ {ts rest s}, parseStatment fuel ts = .ok (s, rest) →
    DerivesStmt .stmt ts rest (.stmt s)
  blockLoop : ∀ {ts rest ss}, parseBlockLoop fuel ts = .ok (ss, rest) →
    DerivesStmt .items ts rest (.nodes ss) ∧ pMatch rest.head? .tRightBrace = true
  blockStmt : ∀ {ts rest ss}, parseBlockStmt fuel ts = .ok (ss, rest) →
    DerivesStmt .block ts rest (.nodes ss)

section step
variable {fuel : Nat} (ih : StmtSound fuel) {ts rest : List Token}
include ih

theorem parseIfStmt_sound {s : Stmt} (h : parseIfStmt (fuel + 1) ts = .ok (s, rest)) :
    DerivesStmt .stmt ts rest (.stmt s) := by
  rw [parseIfStmt, Lib.TokenParser.peek_bind] at h
  rw [bind_eq_ok] at h
  obtain ⟨_, ts₁, hif, h⟩ := h
  obtain ⟨i, ts₂, rfl, hi, rfl⟩ := assertMatch_eq_ok hif
  rw [Lib.TokenParser.advance_bind, List.tail_cons] at h
  rw [bind_eq_ok] at h
  obtain ⟨_, ts₃, hl, h⟩ := h
  obtain ⟨l, rfl, hlt⟩ := expect_eq_ok hl
  rw [bind_eq_ok] at h
  obtain ⟨cond, ts₄, hcond, h⟩ := h
  rw [bind_eq_ok] at h
  obtain ⟨_, ts₅, hr, h⟩ := h
  obtain ⟨r, rfl, hrt⟩ := expect_eq_ok hr
  rw [bind_eq_ok] at h
  obtain ⟨thenBranch, ts₆, hthen, h⟩ := h
  rw [Lib.TokenParser.peek_bind] at h
  have hc := (exprSound fuel).binary hcond
  by_cases helse : pMatch ts₆.head? .tElse = true
  · obtain ⟨e, ts₇, rfl, he⟩ := pMatch_eq_true helse
    rw [if_pos helse, Lib.TokenParser.advance_bind] at h
    rw [bind_eq_ok] at h
    obtain ⟨elseBranch, ts₈, hb, h⟩ := h
    simp at h
    obtain ⟨rfl, rfl⟩ := h
    exact .ifElse hi hlt hc hrt (ih.blockStmt hthen) he (ih.blockStmt hb)
  · rw [if_neg helse] at h
    simp at h
    obtain ⟨rfl, rfl⟩ := h
    exact .ifThen hi hlt hc hrt (ih.blockStmt hthen)

theorem parseExpr_sound {s : Stmt} {mid : List Token} {t : Token}
    (h : parseExpr (fuel + 1) ts = .ok (s, mid)) (hmid : mid = t :: rest)
    (ht : t.type = .tSemicolon) : DerivesStmt .stmt ts rest (.stmt s) := by
  subst hmid
  rw [parseExpr, Lib.TokenParser.peek_bind] at h
  split_ifs at h with hnone hcall hbrace
  · simp at h
  · rw [bind_eq_ok] at h
    obtain ⟨call, mid, hc, h⟩ := h
    simp at h
    obtain ⟨rfl, rfl⟩ := h
    exact .call ((exprSound fuel).call hc) ht
  · rw [bind_eq_ok] at h
    obtain ⟨nodes, mid, hb, h⟩ := h
    simp at h
    obtain ⟨rfl, rfl⟩ := h
    exact .blockStmt (ih.blockStmt hb) ht
  · rw [bind_eq_ok] at h
    obtain ⟨expr, mid, he, h⟩ := h
    simp at h
    obtain ⟨rfl, rfl⟩ := h
    exact .expr (by simpa using hcall) ((exprSound fuel).assign he) ht

theorem parseStatment_sound {s : Stmt} (h : parseStatment (fuel + 1) ts = .ok (s, rest)) :
    DerivesStmt .stmt ts rest (.stmt s) := by
  rw [parseStatment, Lib.TokenParser.peek_bind] at h
  split_ifs at h with hif hcomment hret
  · exact ih.ifStmt h
  · rw [bind_eq_ok] at h
    obtain ⟨text, mid, hc, h⟩ := h
    simp at h
    obtain ⟨rfl, rfl⟩ := h
    obtain ⟨t, rfl, ht, rfl⟩ := parseCommentStmt_sound hc
    exact .comment ht
  · obtain ⟨t, ts₁, rfl, ht⟩ := pMatch_eq_true hret
    rw [bind_eq_ok] at h
    obtain ⟨retStmt, mid, hr, h⟩ := h
    rw [parseReturnStmt, Lib.TokenParser.peek_bind, if_pos hret, Lib.TokenParser.advance_bind] at hr
    rw [bind_eq_ok] at hr
    obtain ⟨retVal, mid', hval, hr⟩ := hr
    simp at hr
    obtain ⟨rfl, rfl⟩ := hr
    rw [bind_eq_ok] at h
    obtain ⟨_, mid'', hs, h⟩ := h
    simp at h
    obtain ⟨rfl, rfl⟩ := h
    obtain ⟨s, rfl, hst⟩ := expect_eq_ok hs
    exact .ret ht ((exprSound fuel).assign hval) hst
  · rw [bind_eq_ok] at h
    obtain ⟨expr, mid, he, h⟩ := h
    rw [bind_eq_ok] at h
    obtain ⟨_, mid', hs, h⟩ := h
    simp at h
    obtain ⟨rfl, rfl⟩ := h
    obtain ⟨s, rfl, hst⟩ := expect_eq_ok hs
    exact ih.expr he rfl hst

theorem parseBlockLoop_sound {ss : List Stmt} (h : parseBlockLoop (fuel + 1) ts = .ok (ss, rest)) :
    DerivesStmt .items ts rest (.nodes ss) ∧ pMatch rest.head? .tRightBrace = true := by
  rw [parseBlockLoop, Lib.TokenParser.peek_bind] at h
  split_ifs at h with hbrace hlet hcomment
  · simp at h
    obtain ⟨rfl, rfl⟩ := h
    exact ⟨.nil, hbrace⟩
  · rw [bind_eq_ok] at h
    obtain ⟨decl, mid, hd, h⟩ := h
    rw [bind_eq_ok] at h
    obtain ⟨nodes, mid', hn, h⟩ := h
    simp at h
    obtain ⟨rfl, rfl⟩ := h
    obtain ⟨hitems, hend⟩ := ih.blockLoop hn
    exact ⟨.varDecl (parseVarDecl_sound hd) hitems, hend⟩
  · rw [bind_eq_ok] at h
    obtain ⟨text, mid, hc, h⟩ := h
    rw [bind_eq_ok] at h
    obtain ⟨nodes, mid', hn, h⟩ := h
    simp at h
    obtain ⟨rfl, rfl⟩ := h
    obtain ⟨hitems, hend⟩ := ih.blockLoop hn
    obtain ⟨t, rfl, ht, rfl⟩ := parseCommentStmt_sound hc
    exact ⟨.cons (.comment ht) hitems, hend⟩
  · rw [bind_eq_ok] at h
    obtain ⟨stmt, mid, hs, h⟩ := h
    rw [bind_eq_ok] at h
    obtain ⟨nodes, mid', hn, h⟩ := h
    simp at h
    obtain ⟨rfl, rfl⟩ := h
    obtain ⟨hitems, hend⟩ := ih.blockLoop hn
    exact ⟨.cons (ih.statment hs) hitems, hend⟩

theorem parseBlockStmt_sound {ss : List Stmt} (h : parseBlockStmt (fuel + 1) ts = .ok (ss, rest)) :
    DerivesStmt .block ts rest (.nodes ss) := by
  rw [parseBlockStmt, Lib.TokenParser.peek_bind] at h
  rw [bind_eq_ok] at h
  obtain ⟨_, ts₁, hl, h⟩ := h
  obtain ⟨l, ts₂, rfl, hlt, rfl⟩ := assertMatch_eq_ok hl
  rw [Lib.TokenParser.advance_bind, List.tail_cons] at h
  rw [bind_eq_ok] at h
  obtain ⟨nodes, ts₃, hn, h⟩ := h
  obtain ⟨hitems, hend⟩ := ih.blockLoop hn
  obtain ⟨r, ts₄, rfl, hrt⟩ := pMatch_eq_true hend
  rw [Lib.TokenParser.advance_bind] at h
  simp at h
  obtain ⟨rfl, rfl⟩ := h
  exact .block hlt hitems hrt

end step

/-- **The statement functions are sound**, for any fuel. -/
theorem stmtSound : ∀ fuel : Nat, StmtSound fuel := by
  intro fuel
  induction fuel with
  | zero => constructor <;> intros <;> simp_all [parseIfStmt, parseExpr, parseStatment,
      parseBlockLoop, parseBlockStmt]
  | succ fuel ih =>
    exact {
      ifStmt := parseIfStmt_sound ih
      expr := parseExpr_sound ih
      statment := parseStatment_sound ih
      blockLoop := parseBlockLoop_sound ih
      blockStmt := parseBlockStmt_sound ih }

/-! ## Functions and programs -/

theorem parseFuncParam_sound {ts rest : List Token} {p : FuncParam}
    (hf : (isVarType ts.head? || pMatch ts.head? .tIdentifier) = true)
    (h : parseFuncParam ts = .ok (p, rest)) : DerivesParam ts rest p := by
  rw [parseFuncParam] at h
  rw [bind_eq_ok] at h
  obtain ⟨v, ts₁, htype, h⟩ := h
  rw [bind_eq_ok] at h
  obtain ⟨ident, ts₂, hident, h⟩ := h
  obtain ⟨i, rfl, hi, rfl⟩ := parseIdentifierExpr_sound hident
  rw [Lib.TokenParser.peek_bind] at h
  split_ifs at h with hc hr
  · obtain ⟨c, ts₃, rfl, hct⟩ := pMatch_eq_true hc
    simp at h
    obtain ⟨rfl, rfl⟩ := h
    exact .comma hf (parseVarType_sound htype) hi hct
  · obtain ⟨r, ts₃, rfl, hrt⟩ := pMatch_eq_true hr
    simp at h
    obtain ⟨rfl, rfl⟩ := h
    exact .last hf (parseVarType_sound htype) hi hrt
  · exact absurd h (compileError_ne_ok _ _ _ _)

theorem parseParamsLoop_sound : ∀ (fuel : Nat) {ts rest : List Token} {ps : List FuncParam},
    parseParamsLoop fuel ts = .ok (ps, rest) →
      DerivesParams ts rest ps ∧ pMatch rest.head? .tRightParen = true := by
  intro fuel
  induction fuel with
  | zero => intro ts rest ps h; simp [parseParamsLoop] at h
  | succ fuel ih =>
    intro ts rest ps h
    rw [parseParamsLoop, Lib.TokenParser.peek_bind] at h
    split_ifs at h with hr hf
    · simp at h
      obtain ⟨rfl, rfl⟩ := h
      exact ⟨.nil, hr⟩
    · rw [bind_eq_ok] at h
      obtain ⟨p, mid, hp, h⟩ := h
      rw [bind_eq_ok] at h
      obtain ⟨params, mid', hps, h⟩ := h
      simp at h
      obtain ⟨rfl, rfl⟩ := h
      obtain ⟨hparams, hend⟩ := ih hps
      exact ⟨.cons (parseFuncParam_sound hf hp) hparams, hend⟩
    · exact absurd h (compileError_ne_ok _ _ _ _)

theorem parseFuncType_sound {fuel : Nat} {ts rest : List Token} {retT : VarT} {ident : CString}
    {params : List FuncParam} (h : parseFuncType fuel ts = .ok ((retT, ident, params), rest)) :
    ∃ i l mid r, DerivesType ts (i :: l :: mid) retT ∧ i.type = .tIdentifier ∧
      l.type = .tLeftParen ∧ DerivesParams mid (r :: rest) params ∧ r.type = .tRightParen ∧
      i.lexeme = ident := by
  rw [parseFuncType] at h
  rw [bind_eq_ok] at h
  obtain ⟨v, ts₁, htype, h⟩ := h
  rw [Lib.TokenParser.peek_bind] at h
  by_cases hid : pMatch ts₁.head? .tIdentifier = true
  · rw [if_pos hid] at h
    rw [bind_eq_ok] at h
    obtain ⟨name, ts₂, hname, h⟩ := h
    obtain ⟨i, rfl, hi, rfl⟩ := parseIdentifierExpr_sound hname
    rw [bind_eq_ok] at h
    obtain ⟨ps, ts₃, hps, h⟩ := h
    simp at h
    obtain ⟨⟨rfl, rfl, rfl⟩, rfl⟩ := h
    rw [parseAllFuncParams, Lib.TokenParser.peek_bind] at hps
    by_cases hl : pMatch ts₂.head? .tLeftParen = true
    · obtain ⟨l, mid, rfl, hlt⟩ := pMatch_eq_true hl
      rw [if_pos hl, Lib.TokenParser.advance_bind, List.tail_cons] at hps
      rw [bind_eq_ok] at hps
      obtain ⟨params', ts₄, hloop, hps⟩ := hps
      obtain ⟨hparams, hend⟩ := parseParamsLoop_sound fuel hloop
      obtain ⟨r, ts₅, rfl, hrt⟩ := pMatch_eq_true hend
      rw [Lib.TokenParser.advance_bind] at hps
      simp at hps
      obtain ⟨rfl, rfl⟩ := hps
      exact ⟨i, l, mid, r, parseVarType_sound htype, hi, hlt, hparams, hrt, rfl⟩
    · rw [if_neg hl] at hps
      exact absurd hps (compileError_ne_ok _ _ _ _)
  · rw [if_neg hid] at h
    exact absurd h (compileError_ne_ok _ _ _ _)

theorem parseFuncDecl_sound {fuel : Nat} {ts rest : List Token} {f : FuncDecl}
    (h : parseFuncDecl fuel ts = .ok (f, rest)) : DerivesFunc ts rest f := by
  rw [parseFuncDecl, Lib.TokenParser.peek_bind] at h
  by_cases hfn : pMatch ts.head? .tFunc = true
  · obtain ⟨t, ts₁, rfl, ht⟩ := pMatch_eq_true hfn
    rw [if_pos hfn, Lib.TokenParser.advance_bind, List.tail_cons] at h
    rw [bind_eq_ok] at h
    obtain ⟨⟨retT, ident, params⟩, ts₂, hft, h⟩ := h
    obtain ⟨i, l, mid, r, htype, hi, hl, hps, hr, rfl⟩ := parseFuncType_sound hft
    rw [bind_eq_ok] at h
    obtain ⟨block, ts₃, hblock, h⟩ := h
    by_cases hret : blockHasRet block = true
    · simp [hret] at h
      obtain ⟨rfl, rfl⟩ := h
      exact .func ht htype hi hl hps hr ((stmtSound fuel).blockStmt hblock) hret
    · simp [hret] at h
  · rw [if_neg hfn] at h
    simp at h

/-- A run of the loop of `parse_program` ends at the end of the tokens or at a `T_EOF`. -/
theorem parseProgramLoop_sound : ∀ (fuel : Nat) {ts rest : List Token} {p : Program},
    EofLast ts → parseProgramLoop fuel ts = .ok (p, rest) → DerivesProgram ts p := by
  intro fuel
  induction fuel with
  | zero => intro ts rest p _ h; simp [parseProgramLoop] at h
  | succ fuel ih =>
    intro ts rest p heof h
    rw [parseProgramLoop, Lib.TokenParser.peek_bind] at h
    split_ifs at h with hend hfunc hlet hcomment
    · simp at h
      obtain ⟨rfl, rfl⟩ := h
      cases ts with
      | nil => exact absurd rfl heof.ne_nil
      | cons t ts =>
        have ht : t.type = .tEof := by simpa using hend
        obtain rfl := heof.eq_singleton ht
        exact .eof ht
    · rw [bind_eq_ok] at h
      obtain ⟨decl, mid, hd, h⟩ := h
      rw [bind_eq_ok] at h
      obtain ⟨nodes, mid', hn, h⟩ := h
      simp at h
      obtain ⟨rfl, rfl⟩ := h
      have hfunc := parseFuncDecl_sound hd
      exact .func hfunc (ih (heof.of_consumes hfunc.consumes) hn)
    · rw [bind_eq_ok] at h
      obtain ⟨decl, mid, hd, h⟩ := h
      rw [bind_eq_ok] at h
      obtain ⟨nodes, mid', hn, h⟩ := h
      simp at h
      obtain ⟨rfl, rfl⟩ := h
      have hdecl := parseVarDecl_sound hd
      exact .varDecl hdecl (ih (heof.of_consumes hdecl.consumes) hn)
    · rw [bind_eq_ok] at h
      obtain ⟨text, mid, hc, h⟩ := h
      rw [bind_eq_ok] at h
      obtain ⟨nodes, mid', hn, h⟩ := h
      simp at h
      obtain ⟨rfl, rfl⟩ := h
      obtain ⟨t, rfl, ht, rfl⟩ := parseCommentStmt_sound hc
      exact .comment ht (ih (heof.of_cons (by simp [ht])) hn)
    · exact absurd h (compileError_ne_ok _ _ _ _)

end ACompiler
