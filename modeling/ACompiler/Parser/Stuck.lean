import ACompiler.Parser.Complete

/-!
# Where an assertion fails

Two assertions of the parser are not guarded by the function that calls them: the `{` of
`parse_block_stmt` and the `)` of `parse_cast_expr`. `Stuck` and its kin describe the tokens whose
beginning is a program up to such a place and that have another token there. An assertion fails on
nothing else (`parseProgramLoop_stuck`).
-/

namespace ACompiler

open Lib (TokenParser)
open Lib.TokenParser (fail peek peekNext advance bind_eq_ok bind_eq_error)

/-! ## Programs up to an assertion -/

/-- A type with its base written out, and with its array length if there is a `[` behind it. -/
inductive WholeType : List Token → List Token → Prop
  | scalar {ts rest : List Token} {b : VarBase} (hb : DerivesBase ts rest b) (hne : ts ≠ rest)
      (hstop : pMatch rest.head? .tLeftBracket = false) : WholeType ts rest
  | array {ts rest : List Token} {b : VarBase} {l n r : Token}
      (hb : DerivesBase ts (l :: n :: r :: rest) b) (hne : ts ≠ l :: n :: r :: rest)
      (hl : l.type = .tLeftBracket) (hn : n.type = .tNumberLit) (hr : r.type = .tRightBracket) :
      WholeType ts rest

/-- A phrase up to a cast whose type is not followed by `)`. -/
inductive Stuck : Cat → List Token → Prop
  | equal {ts : List Token} (h : Stuck (.binary .equal) ts) : Stuck .assign ts
  | assign {ts mid : List Token} {t : Token} {target : Expr}
      (hl : Derives (.binary .equal) ts (t :: mid) (.expr target)) (ht : t.type = .tEqual)
      (ha : isAssignable target = true) (hr : Stuck .assign mid) : Stuck .assign ts
  | operand {l : Level} {ts : List Token} (h : Stuck l.operand ts) : Stuck (.binary l) ts
  | operator {l : Level} {ts mid : List Token} {t : Token} {b : BinaryOp} {left : Expr}
      (hl : Derives (.binary l) ts (t :: mid) (.expr left)) (ht : l.op t.type = some b)
      (hr : Stuck l.operand mid) : Stuck (.binary l) ts
  | unary {t : Token} {ts : List Token} {op : UnaryOp} (ht : unaryOpOf t.type = some op)
      (h : Stuck .unary ts) : Stuck .unary (t :: ts)
  | ofPost {ts : List Token} (h : Stuck .postExpr ts) : Stuck .unary ts
  | primary {ts : List Token} (h : Stuck .primary ts) : Stuck .postExpr ts
  | index {ts mid : List Token} {l : Token} {node : Expr}
      (h : Derives .postExpr ts (l :: mid) (.expr node)) (hl : l.type = .tLeftBracket)
      (hi : Stuck (.binary .equal) mid) : Stuck .postExpr ts
  | castParen {l r : Token} {ts mid : List Token} (hl : l.type = .tLeftParen)
      (ht : WholeType ts (r :: mid)) (hr : r.type ≠ .tRightParen) : Stuck .primary (l :: ts)
  | castInner {l r : Token} {ts mid : List Token} {v : VarT} (hl : l.type = .tLeftParen)
      (hv : isVarType ts.head? = true) (ht : DerivesType ts (r :: mid) v)
      (hr : r.type = .tRightParen) (h : Stuck .primary mid) : Stuck .primary (l :: ts)
  | callExpr {ts : List Token} (h : Stuck .call ts) : Stuck .primary ts
  | paren {l : Token} {ts : List Token} (hl : l.type = .tLeftParen)
      (hv : isVarType ts.head? = false) (h : Stuck .assign ts) : Stuck .primary (l :: ts)
  | call {c i l : Token} {ts : List Token} (hc : c.type = .tCall) (hi : i.type = .tIdentifier)
      (hl : l.type = .tLeftParen) (h : Stuck .args ts) : Stuck .call (c :: i :: l :: ts)
  | arg {ts : List Token} (h : Stuck (.binary .equal) ts) : Stuck .args ts
  | moreArgs {ts mid : List Token} {t : Token} {e : Expr}
      (h : Derives (.binary .equal) ts (t :: mid) (.expr e)) (ht : t.type = .tComma)
      (hs : Stuck .args mid) : Stuck .args ts

/-- A declaration up to an assertion in its initialiser. -/
inductive StuckVarDecl : List Token → Prop
  | init {t i q : Token} {ts mid : List Token} {v : VarT} (ht : t.type = .tLet)
      (hv : DerivesType ts (i :: q :: mid) v) (hi : i.type = .tIdentifier) (hq : q.type = .tEqual)
      (he : Stuck (.binary .equal) mid) : StuckVarDecl (t :: ts)

/-- Statements up to a cast whose type is not followed by `)`, or to a block that does not start with
`{`. -/
inductive StuckStmt : StmtCat → List Token → Prop
  | ifCond {i l : Token} {ts : List Token} (hi : i.type = .tIf) (hl : l.type = .tLeftParen)
      (hc : Stuck (.binary .equal) ts) : StuckStmt .stmt (i :: l :: ts)
  | ifThen {i l r : Token} {ts mid : List Token} {cond : Expr} (hi : i.type = .tIf)
      (hl : l.type = .tLeftParen) (hc : Derives (.binary .equal) ts (r :: mid) (.expr cond))
      (hr : r.type = .tRightParen) (hb : StuckStmt .block mid) : StuckStmt .stmt (i :: l :: ts)
  | ifElse {i l r e : Token} {ts mid mid' : List Token} {cond : Expr} {nodes : List Stmt}
      (hi : i.type = .tIf) (hl : l.type = .tLeftParen)
      (hc : Derives (.binary .equal) ts (r :: mid) (.expr cond)) (hr : r.type = .tRightParen)
      (hb : DerivesStmt .block mid (e :: mid') (.nodes nodes)) (he : e.type = .tElse)
      (hb' : StuckStmt .block mid') : StuckStmt .stmt (i :: l :: ts)
  | ret {t : Token} {ts : List Token} (ht : t.type = .tReturn) (h : Stuck .assign ts) :
      StuckStmt .stmt (t :: ts)
  | call {ts : List Token} (h : Stuck .call ts) : StuckStmt .stmt ts
  | blockStmt {ts : List Token} (hl : pMatch ts.head? .tLeftBrace = true)
      (h : StuckStmt .block ts) : StuckStmt .stmt ts
  | expr {ts : List Token} (hc : pMatch ts.head? .tCall = false) (h : Stuck .assign ts) :
      StuckStmt .stmt ts
  | initialiser {ts : List Token} (h : StuckVarDecl ts) : StuckStmt .items ts
  | first {ts : List Token} (h : StuckStmt .stmt ts) : StuckStmt .items ts
  | varDecl {ts mid : List Token} {d : VarDecl} (h : DerivesVarDecl ts mid d)
      (hs : StuckStmt .items mid) : StuckStmt .items ts
  | cons {ts mid : List Token} {s : Stmt} (h : DerivesStmt .stmt ts mid (.stmt s))
      (hs : StuckStmt .items mid) : StuckStmt .items ts
  | noBrace {ts : List Token} (hl : pMatch ts.head? .tLeftBrace = false) : StuckStmt .block ts
  | block {l : Token} {ts : List Token} (hl : l.type = .tLeftBrace) (h : StuckStmt .items ts) :
      StuckStmt .block (l :: ts)

/-- A function up to an assertion in its body, or to a body that does not start with `{`. -/
inductive StuckFunc : List Token → Prop
  | body {f i l r : Token} {ts mid mid' : List Token} {v : VarT} {ps : List FuncParam}
      (hf : f.type = .tFunc) (hv : DerivesType ts (i :: l :: mid) v) (hi : i.type = .tIdentifier)
      (hl : l.type = .tLeftParen) (hp : DerivesParams mid (r :: mid') ps)
      (hr : r.type = .tRightParen) (hb : StuckStmt .block mid') : StuckFunc (f :: ts)

/-- A program up to an assertion. -/
inductive StuckProgram : List Token → Prop
  | initialiser {ts : List Token} (h : StuckVarDecl ts) : StuckProgram ts
  | body {ts : List Token} (h : StuckFunc ts) : StuckProgram ts
  | comment {t : Token} {rest : List Token} (ht : t.type = .tComment) (h : StuckProgram rest) :
      StuckProgram (t :: rest)
  | varDecl {ts rest : List Token} {d : VarDecl} (hd : DerivesVarDecl ts rest d)
      (h : StuckProgram rest) : StuckProgram ts
  | func {ts rest : List Token} {f : FuncDecl} (hf : DerivesFunc ts rest f)
      (h : StuckProgram rest) : StuckProgram ts

/-! ## Failing assertions -/

/-- If an assertion fails in the run, then `P`. -/
def AssertsOnly {α : Type} (P : Prop) (x : Parse α) (ts : List Token) : Prop :=
  x ts = .error .assertFailed → P

section assertsOnly
variable {α β : Type} {P : Prop} {ts : List Token}

theorem AssertsOnly.bind {x : Parse α} {f : α → Parse β} (hx : AssertsOnly P x ts)
    (hf : ∀ a rest, x ts = .ok (a, rest) → AssertsOnly P (f a) rest) :
    AssertsOnly P (x >>= f) ts := by
  intro h
  rcases bind_eq_error.mp h with h | ⟨a, rest, hok, h⟩
  · exact hx h
  · exact hf a rest hok h

theorem AssertsOnly.imp {Q : Prop} {x : Parse α} (h : AssertsOnly P x ts) (hPQ : P → Q) :
    AssertsOnly Q x ts :=
  fun hx => hPQ (h hx)

theorem assertsOnly_pure (a : α) : AssertsOnly P (pure a : Parse α) ts := by
  intro h
  simp at h

theorem assertsOnly_fail {e : ParseError} (he : e ≠ .assertFailed) :
    AssertsOnly P (fail e : Parse α) ts := by
  intro h
  simp at h
  exact absurd h he

theorem assertsOnly_compileError {token : Option Token} {message : String} :
    AssertsOnly P (compileError token message : Parse α) ts := by
  cases token with
  | none => exact assertsOnly_fail (by simp)
  | some t => exact assertsOnly_fail (by simp)

theorem assertsOnly_peek {f : Option Token → Parse α} (h : AssertsOnly P (f ts.head?) ts) :
    AssertsOnly P (peek >>= f) ts := h

theorem assertsOnly_peekNext {f : Option Token → Parse α} (h : AssertsOnly P (f ts[1]?) ts) :
    AssertsOnly P (peekNext >>= f) ts := h

theorem assertsOnly_advance {f : Unit → Parse α} (h : AssertsOnly P (f ()) ts.tail) :
    AssertsOnly P (advance >>= f) ts := h

theorem assertsOnly_ite {p : Prop} [Decidable p] {x y : Parse α} (hx : p → AssertsOnly P x ts)
    (hy : ¬ p → AssertsOnly P y ts) : AssertsOnly P (if p then x else y) ts := by
  by_cases h : p
  · rw [if_pos h]
    exact hx h
  · rw [if_neg h]
    exact hy h

/-! ## Single tokens and types -/

theorem assertsOnly_expect {type : TokenType} {message : String} :
    AssertsOnly P (expect type message) ts := by
  refine assertsOnly_peek (assertsOnly_ite (fun _ h => ?_) fun _ => assertsOnly_compileError)
  simp at h

theorem assertsOnly_parseIdentifierExpr : AssertsOnly P parseIdentifierExpr ts := by
  apply assertsOnly_peek
  cases ts with
  | nil => exact assertsOnly_fail (by simp)
  | cons t ts =>
    exact assertsOnly_ite (fun _ => assertsOnly_advance (assertsOnly_pure _))
      fun _ => assertsOnly_compileError

theorem assertsOnly_parseLiteralExpr : AssertsOnly P parseLiteralExpr ts := by
  apply assertsOnly_peek
  cases ts with
  | nil => exact assertsOnly_fail (by simp)
  | cons t ts =>
    refine assertsOnly_ite (fun _ => assertsOnly_advance (assertsOnly_pure _)) fun _ => ?_
    exact assertsOnly_ite (fun _ => assertsOnly_advance (assertsOnly_pure _))
      fun _ => assertsOnly_compileError

theorem assertsOnly_parseArrayLen (base : VarBase) : AssertsOnly P (parseArrayLen base) ts := by
  refine assertsOnly_peek (assertsOnly_ite (fun _ => ?_) fun _ => assertsOnly_pure _)
  refine assertsOnly_advance (assertsOnly_peek ?_)
  cases ts.tail with
  | nil => exact assertsOnly_fail (by simp)
  | cons n rest =>
    refine assertsOnly_ite (fun _ => ?_) fun _ => assertsOnly_compileError
    exact assertsOnly_advance (assertsOnly_expect.bind fun _ _ _ => assertsOnly_pure _)

theorem assertsOnly_getVarType {t : Option Token} : AssertsOnly P (getVarType t) ts := by
  refine assertsOnly_ite (fun _ => assertsOnly_advance (assertsOnly_peek ?_)) fun _ => ?_
  · cases ts.tail with
    | nil => exact assertsOnly_fail (by simp)
    | cons p rest =>
      cases ha : litAdrOf p.type with
      | none =>
        simp only [List.head?_cons, ha]
        exact assertsOnly_compileError
      | some a =>
        simp only [List.head?_cons, ha]
        exact assertsOnly_pure _
  · cases t with
    | none => exact assertsOnly_fail (by simp)
    | some t =>
      cases hl : litOf t.type with
      | none =>
        simp only [hl]
        exact assertsOnly_pure _
      | some l =>
        simp only [hl]
        exact assertsOnly_pure _

theorem assertsOnly_parseVarType : AssertsOnly P parseVarType ts := by
  refine assertsOnly_peek (assertsOnly_getVarType.bind fun r rest _ => ?_)
  exact assertsOnly_ite (fun _ => assertsOnly_advance (assertsOnly_parseArrayLen _))
    fun _ => assertsOnly_parseArrayLen _

end assertsOnly

/-- The array suffix is read where there is one. -/
theorem parseArrayLen_cases {base : VarBase} {v : VarT} {ts rest : List Token}
    (h : parseArrayLen base ts = .ok (v, rest)) :
    (pMatch ts.head? .tLeftBracket = false ∧ rest = ts) ∨ ∃ l n r, ts = l :: n :: r :: rest ∧
      l.type = .tLeftBracket ∧ n.type = .tNumberLit ∧ r.type = .tRightBracket := by
  rw [parseArrayLen, Lib.TokenParser.peek_bind] at h
  split_ifs at h with hl
  · obtain ⟨l, ts, rfl, hlt⟩ := pMatch_eq_true hl
    rw [Lib.TokenParser.advance_bind, Lib.TokenParser.peek_bind, List.tail_cons] at h
    cases ts with
    | nil => simp at h
    | cons n ts =>
      simp only [List.head?_cons] at h
      split_ifs at h with hn
      · rw [Lib.TokenParser.advance_bind, List.tail_cons] at h
        obtain ⟨_, mid, hr, hpure⟩ := bind_eq_ok.mp h
        obtain ⟨r, rfl, hrt⟩ := expect_eq_ok hr
        obtain ⟨_, rfl⟩ := Prod.mk.inj (Except.ok.inj hpure)
        exact .inr ⟨l, n, r, rfl, hlt, hn, hrt⟩
      · exact absurd h (compileError_ne_ok _ _ _ _)
  · obtain ⟨_, rfl⟩ := Prod.mk.inj (Except.ok.inj h)
    exact .inl ⟨by simpa using hl, rfl⟩

/-- A base with its array suffix is a whole type. -/
theorem wholeType_of_base {base : VarBase} {v : VarT} {ts mid rest : List Token}
    (hb : DerivesBase ts mid base) (hlen : mid.length < ts.length)
    (h : parseArrayLen base mid = .ok (v, rest)) : WholeType ts rest := by
  have hne : ts ≠ mid := by
    rintro rfl
    exact absurd hlen (Nat.lt_irrefl _)
  rcases parseArrayLen_cases h with ⟨hstop, rfl⟩ | ⟨l, n, r, rfl, hl, hn, hr⟩
  · exact .scalar hb hne hstop
  · exact .array hb hne hl hn hr

/-- From a type token on, the parser reads a whole type. -/
theorem parseVarType_whole {v : VarT} {ts rest : List Token} (hv : isVarType ts.head? = true)
    (h : parseVarType ts = .ok (v, rest)) : WholeType ts rest := by
  rw [parseVarType, Lib.TokenParser.peek_bind] at h
  obtain ⟨⟨base, hasExplicitType⟩, mid, hbase, h⟩ := bind_eq_ok.mp h
  cases ts with
  | nil => simp [isVarType] at hv
  | cons t ts =>
    by_cases ht : t.type = .tAnd
    · cases ts with
      | nil => simp [getVarType, ht] at hbase
      | cons p ts =>
        cases ha : litAdrOf p.type with
        | none => simp [getVarType, ht, ha] at hbase
        | some a =>
          simp [getVarType, ht, ha] at hbase
          obtain ⟨⟨rfl, rfl⟩, rfl⟩ := hbase
          exact wholeType_of_base (.adr ht ha) (by simp) h
    · cases hl : litOf t.type with
      | none => cases htt : t.type <;> simp_all [isVarType, litOf]
      | some l =>
        simp [getVarType, ht, hl] at hbase
        obtain ⟨⟨rfl, rfl⟩, rfl⟩ := hbase
        exact wholeType_of_base (.lit hl) (by simp) h

/-! ## Expressions -/

theorem binaryLoop_stuck {l : Level} {sub : Parse Expr}
    (hsound : ∀ {ts rest e}, sub ts = .ok (e, rest) → Derives l.operand ts rest (.expr e))
    (hsub : ∀ ts, AssertsOnly (Stuck l.operand ts) sub ts) :
    ∀ (fuel : Nat) (ts' ts : List Token) (left : Expr), Derives (.binary l) ts' ts (.expr left) →
      AssertsOnly (Stuck (.binary l) ts') (binaryLoop l.op sub fuel left) ts := by
  intro fuel
  induction fuel with
  | zero => exact fun ts' ts left _ => assertsOnly_fail (by simp)
  | succ fuel ih =>
    intro ts' ts left hleft
    apply assertsOnly_peek
    cases hop : ts.head?.bind fun t => l.op t.type with
    | none => exact assertsOnly_pure _
    | some b =>
      cases ts with
      | nil => simp at hop
      | cons t ts =>
        refine assertsOnly_advance (((hsub ts).imp (.operator hleft hop)).bind fun e rest he => ?_)
        exact ih ts' rest _ (.operator hleft hop (hsound he))

/-- Where the assertions of each expression function fail. -/
structure ExprStuck (fuel : Nat) : Prop where
  cast : ∀ ts, pMatch ts.head? .tLeftParen = true → isVarType ts[1]? = true →
    AssertsOnly (Stuck .primary ts) (parseCastExpr fuel) ts
  argsLoop : ∀ ts, AssertsOnly (Stuck .args ts) (parseArgsLoop fuel) ts
  args : ∀ ts, AssertsOnly (∃ l mid, ts = l :: mid ∧ l.type = .tLeftParen ∧ Stuck .args mid)
    (parseArgs fuel) ts
  call : ∀ ts, AssertsOnly (Stuck .call ts) (parseCallExpr fuel) ts
  primary : ∀ ts, AssertsOnly (Stuck .primary ts) (parsePrimary fuel) ts
  postfixLoop : ∀ ts' ts node, Derives .postExpr ts' ts (.expr node) →
    AssertsOnly (Stuck .postExpr ts') (parsePostfixLoop fuel node) ts
  postExpr : ∀ ts, AssertsOnly (Stuck .postExpr ts) (parsePostfix fuel) ts
  unary : ∀ ts, AssertsOnly (Stuck .unary ts) (parseUnaryExpr fuel) ts
  factor : ∀ ts, AssertsOnly (Stuck (.binary .factor) ts) (parseFactor fuel) ts
  term : ∀ ts, AssertsOnly (Stuck (.binary .term) ts) (parseTerm fuel) ts
  compare : ∀ ts, AssertsOnly (Stuck (.binary .compare) ts) (parseCompare fuel) ts
  equal : ∀ ts, AssertsOnly (Stuck (.binary .equal) ts) (parseEqual fuel) ts
  binary : ∀ ts, AssertsOnly (Stuck (.binary .equal) ts) (parseBinaryExpr fuel) ts
  assign : ∀ ts, AssertsOnly (Stuck .assign ts) (parseAssignExpr fuel) ts

section step
variable {fuel : Nat} (ih : ExprStuck fuel) (ts : List Token)
include ih

theorem parseCastExpr_stuck (hl : pMatch ts.head? .tLeftParen = true)
    (hv : isVarType ts[1]? = true) :
    AssertsOnly (Stuck .primary ts) (parseCastExpr (fuel + 1)) ts := by
  obtain ⟨l, ts, rfl, hlt⟩ := pMatch_eq_true hl
  have hv : isVarType ts.head? = true := by
    rw [List.head?_eq_getElem?]
    exact hv
  refine assertsOnly_peek (AssertsOnly.bind ?_ fun _ rest hrest => ?_)
  · exact assertsOnly_ite (fun _ => assertsOnly_pure _) fun h => absurd hlt h
  · simp [assertType, hlt] at hrest
    subst hrest
    refine assertsOnly_advance (assertsOnly_parseVarType.bind fun v mid htype => ?_)
    refine assertsOnly_peek (AssertsOnly.bind ?_ fun _ rest hrest => ?_)
    · cases mid with
      | nil => exact assertsOnly_fail (by simp)
      | cons r mid =>
        exact assertsOnly_ite (fun _ => assertsOnly_pure _)
          fun hr _ => .castParen hlt (parseVarType_whole hv htype) hr
    · cases mid with
      | nil => simp [assertType] at hrest
      | cons r mid =>
        by_cases hrt : r.type = .tRightParen
        · simp [assertType, hrt] at hrest
          subst hrest
          refine assertsOnly_advance (AssertsOnly.bind ?_ fun _ _ _ => assertsOnly_pure _)
          exact (ih.primary mid).imp (.castInner hlt hv (parseVarType_sound htype) hrt)
        · simp [assertType, hrt] at hrest

theorem parseArgsLoop_stuck : AssertsOnly (Stuck .args ts) (parseArgsLoop (fuel + 1)) ts := by
  refine assertsOnly_peek (assertsOnly_ite (fun _ => assertsOnly_pure _) fun _ => ?_)
  refine ((ih.binary ts).imp .arg).bind fun arg mid harg => assertsOnly_peek ?_
  refine assertsOnly_ite (fun hc => ?_) fun _ => assertsOnly_pure _
  obtain ⟨c, mid, rfl, hct⟩ := pMatch_eq_true hc
  refine assertsOnly_advance (AssertsOnly.bind ?_ fun _ _ _ => assertsOnly_pure _)
  exact (ih.argsLoop mid).imp (.moreArgs ((exprSound fuel).binary harg) hct)

theorem parseArgs_stuck : AssertsOnly (∃ l mid, ts = l :: mid ∧ l.type = .tLeftParen ∧
    Stuck .args mid) (parseArgs (fuel + 1)) ts := by
  refine assertsOnly_expect.bind fun _ mid hl => ?_
  obtain ⟨l, rfl, hlt⟩ := expect_eq_ok hl
  refine AssertsOnly.bind ?_ fun _ _ _ => assertsOnly_expect.bind fun _ _ _ => assertsOnly_pure _
  exact (ih.argsLoop mid).imp fun h => ⟨l, mid, rfl, hlt, h⟩

theorem parseCallExpr_stuck : AssertsOnly (Stuck .call ts) (parseCallExpr (fuel + 1)) ts := by
  refine assertsOnly_peek (assertsOnly_ite (fun hc => ?_) fun _ => assertsOnly_fail (by simp))
  obtain ⟨c, ts, rfl, hct⟩ := pMatch_eq_true hc
  refine assertsOnly_advance (assertsOnly_peek (assertsOnly_ite (fun _ => ?_)
    fun _ => assertsOnly_compileError))
  refine assertsOnly_parseIdentifierExpr.bind fun callee rest hcallee => ?_
  obtain ⟨i, hts, hit, _⟩ := parseIdentifierExpr_sound hcallee
  rw [List.tail_cons] at hts
  subst hts
  refine assertsOnly_peek (assertsOnly_ite (fun _ => ?_) fun _ => assertsOnly_compileError)
  refine AssertsOnly.bind ?_ fun _ _ _ => assertsOnly_pure _
  refine (ih.args rest).imp ?_
  rintro ⟨l, mid, rfl, hlt, h⟩
  exact .call hct hit hlt h

theorem parsePrimary_stuck : AssertsOnly (Stuck .primary ts) (parsePrimary (fuel + 1)) ts := by
  refine assertsOnly_peek (assertsOnly_peekNext ?_)
  refine assertsOnly_ite (fun hcast => ?_) fun hcast => ?_
  · rw [Bool.and_eq_true] at hcast
    exact ih.cast ts hcast.1 hcast.2
  refine assertsOnly_ite (fun _ => (ih.call ts).imp .callExpr) fun _ => ?_
  refine assertsOnly_ite (fun _ => ?_) fun _ => ?_
  · exact assertsOnly_parseIdentifierExpr.bind fun _ _ _ => assertsOnly_pure _
  refine assertsOnly_ite (fun _ => assertsOnly_parseLiteralExpr) fun _ => ?_
  refine assertsOnly_ite (fun hl => ?_) fun _ => assertsOnly_compileError
  obtain ⟨l, ts, rfl, hlt⟩ := pMatch_eq_true hl
  have hv : isVarType ts.head? = false := by
    rw [List.head?_eq_getElem?]
    simpa [hlt] using hcast
  refine assertsOnly_advance (AssertsOnly.bind ?_ fun _ _ _ =>
    assertsOnly_expect.bind fun _ _ _ => assertsOnly_pure _)
  exact (ih.assign ts).imp (.paren hlt hv)

theorem parsePostfixLoop_stuck (ts' : List Token) (node : Expr)
    (hnode : Derives .postExpr ts' ts (.expr node)) :
    AssertsOnly (Stuck .postExpr ts') (parsePostfixLoop (fuel + 1) node) ts := by
  refine assertsOnly_peek (assertsOnly_ite (fun hl => ?_) fun _ => assertsOnly_pure _)
  obtain ⟨l, ts, rfl, hlt⟩ := pMatch_eq_true hl
  refine assertsOnly_advance (((ih.binary ts).imp (.index hnode hlt)).bind fun idx mid hidx => ?_)
  refine assertsOnly_expect.bind fun _ rest hr => ?_
  obtain ⟨r, rfl, hrt⟩ := expect_eq_ok hr
  exact ih.postfixLoop ts' rest _ (.index hnode hlt ((exprSound fuel).binary hidx) hrt)

theorem parsePostfix_stuck : AssertsOnly (Stuck .postExpr ts) (parsePostfix (fuel + 1)) ts :=
  ((ih.primary ts).imp .primary).bind fun node mid hnode =>
    ih.postfixLoop ts mid node (.primary ((exprSound fuel).primary hnode))

theorem parseUnaryExpr_stuck : AssertsOnly (Stuck .unary ts) (parseUnaryExpr (fuel + 1)) ts := by
  apply assertsOnly_peek
  cases hop : ts.head?.bind fun t => unaryOpOf t.type with
  | none => exact (ih.postExpr ts).imp .ofPost
  | some op =>
    cases ts with
    | nil => simp at hop
    | cons t ts =>
      exact assertsOnly_advance (((ih.unary ts).imp (.unary hop)).bind fun _ _ _ =>
        assertsOnly_pure _)

theorem parseAssignExpr_stuck :
    AssertsOnly (Stuck .assign ts) (parseAssignExpr (fuel + 1)) ts := by
  refine ((ih.binary ts).imp .equal).bind fun left mid hleft => assertsOnly_peek ?_
  refine assertsOnly_ite (fun hq => ?_) fun _ => assertsOnly_pure _
  obtain ⟨q, mid, rfl, hqt⟩ := pMatch_eq_true hq
  refine assertsOnly_advance (assertsOnly_peek (assertsOnly_ite (fun ha => ?_)
    fun _ => assertsOnly_compileError))
  exact ((ih.assign mid).imp (.assign ((exprSound fuel).binary hleft) hqt ha)).bind
    fun _ _ _ => assertsOnly_pure _

end step

/-- A level that parses an operand and then loops fails an assertion in an operand only. -/
theorem level_stuck {l : Level} {sub : Parse Expr} {fuel : Nat}
    (hsound : ∀ {ts rest e}, sub ts = .ok (e, rest) → Derives l.operand ts rest (.expr e))
    (hsub : ∀ ts, AssertsOnly (Stuck l.operand ts) sub ts) (ts : List Token) :
    AssertsOnly (Stuck (.binary l) ts) (do let left ← sub; binaryLoop l.op sub fuel left) ts :=
  ((hsub ts).imp .operand).bind fun left mid hleft =>
    binaryLoop_stuck hsound hsub fuel ts mid left (.operand (hsound hleft))

/-- **The assertions of the expression functions fail at casts only.** -/
theorem exprStuck : ∀ fuel : Nat, ExprStuck fuel := by
  intro fuel
  induction fuel with
  | zero => constructor <;> intros <;> exact assertsOnly_fail (by simp)
  | succ fuel ih =>
    exact {
      cast := parseCastExpr_stuck ih
      argsLoop := parseArgsLoop_stuck ih
      args := parseArgs_stuck ih
      call := parseCallExpr_stuck ih
      primary := parsePrimary_stuck ih
      postfixLoop := fun ts' ts node h => parsePostfixLoop_stuck ih ts ts' node h
      postExpr := parsePostfix_stuck ih
      unary := parseUnaryExpr_stuck ih
      factor := level_stuck (l := .factor) (exprSound fuel).unary ih.unary
      term := level_stuck (l := .term) (exprSound fuel).factor ih.factor
      compare := level_stuck (l := .compare) (exprSound fuel).term ih.term
      equal := level_stuck (l := .equal) (exprSound fuel).compare ih.compare
      binary := ih.equal
      assign := parseAssignExpr_stuck ih }

/-! ## Statements -/

theorem parseVarDecl_stuck (fuel : Nat) (ts : List Token) :
    AssertsOnly (StuckVarDecl ts) (parseVarDecl fuel) ts := by
  refine assertsOnly_peek (assertsOnly_ite (fun hlet => ?_) fun _ => assertsOnly_fail (by simp))
  obtain ⟨t, ts, rfl, ht⟩ := pMatch_eq_true hlet
  refine assertsOnly_advance (assertsOnly_parseVarType.bind fun v mid hv => ?_)
  refine assertsOnly_parseIdentifierExpr.bind fun ident rest hident => ?_
  obtain ⟨i, rfl, hit, _⟩ := parseIdentifierExpr_sound hident
  refine assertsOnly_peek (assertsOnly_ite (fun hq => ?_) fun _ => ?_)
  · obtain ⟨q, rest, rfl, hqt⟩ := pMatch_eq_true hq
    refine assertsOnly_advance (AssertsOnly.bind ?_ fun _ _ _ =>
      assertsOnly_expect.bind fun _ _ _ => assertsOnly_pure _)
    exact ((exprStuck fuel).binary rest).imp (.init ht (parseVarType_sound hv) hit hqt)
  · exact assertsOnly_expect.bind fun _ _ _ => assertsOnly_pure _

theorem assertsOnly_parseCommentStmt {P : Prop} {ts : List Token}
    (hc : pMatch ts.head? .tComment = true) : AssertsOnly P parseCommentStmt ts := by
  obtain ⟨t, ts, rfl, ht⟩ := pMatch_eq_true hc
  exact assertsOnly_peek (assertsOnly_ite (fun _ => assertsOnly_advance (assertsOnly_pure _))
    fun h => absurd ht h)

/-- Where the assertions of each statement function fail. -/
structure StmtStuck (fuel : Nat) : Prop where
  ifStmt : ∀ ts, pMatch ts.head? .tIf = true →
    AssertsOnly (StuckStmt .stmt ts) (parseIfStmt fuel) ts
  expr : ∀ ts, AssertsOnly (StuckStmt .stmt ts) (parseExpr fuel) ts
  statment : ∀ ts, AssertsOnly (StuckStmt .stmt ts) (parseStatment fuel) ts
  blockLoop : ∀ ts, AssertsOnly (StuckStmt .items ts) (parseBlockLoop fuel) ts
  blockStmt : ∀ ts, AssertsOnly (StuckStmt .block ts) (parseBlockStmt fuel) ts

section step
variable {fuel : Nat} (ih : StmtStuck fuel) (ts : List Token)
include ih

theorem parseIfStmt_stuck (hi : pMatch ts.head? .tIf = true) :
    AssertsOnly (StuckStmt .stmt ts) (parseIfStmt (fuel + 1)) ts := by
  obtain ⟨i, ts, rfl, hit⟩ := pMatch_eq_true hi
  refine assertsOnly_peek (AssertsOnly.bind ?_ fun _ ts₁ hif => ?_)
  · exact assertsOnly_ite (fun _ => assertsOnly_pure _) fun h => absurd hi h
  obtain ⟨_, _, heq, _, rfl⟩ := assertMatch_eq_ok hif
  refine assertsOnly_advance (assertsOnly_expect.bind fun _ ts₃ hl => ?_)
  obtain ⟨l, rfl, hlt⟩ := expect_eq_ok hl
  refine (((exprStuck fuel).binary ts₃).imp (.ifCond hit hlt)).bind fun cond ts₄ hcond => ?_
  have hc := (exprSound fuel).binary hcond
  refine assertsOnly_expect.bind fun _ ts₅ hr => ?_
  obtain ⟨r, rfl, hrt⟩ := expect_eq_ok hr
  refine ((ih.blockStmt ts₅).imp (.ifThen hit hlt hc hrt)).bind fun thenBranch ts₆ hthen => ?_
  have hb := (stmtSound fuel).blockStmt hthen
  refine assertsOnly_peek (assertsOnly_ite (fun he => ?_) fun _ => assertsOnly_pure _)
  obtain ⟨e, ts₇, rfl, het⟩ := pMatch_eq_true he
  refine assertsOnly_advance (AssertsOnly.bind ?_ fun _ _ _ => assertsOnly_pure _)
  exact (ih.blockStmt ts₇).imp (.ifElse hit hlt hc hrt hb het)

theorem parseExpr_stuck : AssertsOnly (StuckStmt .stmt ts) (parseExpr (fuel + 1)) ts := by
  refine assertsOnly_peek (assertsOnly_ite (fun _ => assertsOnly_fail (by simp)) fun _ => ?_)
  refine assertsOnly_ite (fun _ => ?_) fun hc => assertsOnly_ite (fun hl => ?_) fun _ => ?_
  · exact (((exprStuck fuel).call ts).imp .call).bind fun _ _ _ => assertsOnly_pure _
  · exact ((ih.blockStmt ts).imp (.blockStmt hl)).bind fun _ _ _ => assertsOnly_pure _
  · exact (((exprStuck fuel).assign ts).imp (.expr (by simpa using hc))).bind fun _ _ _ =>
      assertsOnly_pure _

theorem parseStatment_stuck : AssertsOnly (StuckStmt .stmt ts) (parseStatment (fuel + 1)) ts := by
  refine assertsOnly_peek (assertsOnly_ite (fun hi => ih.ifStmt ts hi) fun _ => ?_)
  refine assertsOnly_ite (fun hc => ?_) fun _ => assertsOnly_ite (fun hret => ?_) fun _ => ?_
  · exact (assertsOnly_parseCommentStmt hc).bind fun _ _ _ => assertsOnly_pure _
  · obtain ⟨t, ts, rfl, ht⟩ := pMatch_eq_true hret
    refine AssertsOnly.bind ?_ fun _ _ _ => assertsOnly_expect.bind fun _ _ _ => assertsOnly_pure _
    refine assertsOnly_peek (assertsOnly_ite (fun _ => ?_) fun h => absurd hret h)
    exact assertsOnly_advance ((((exprStuck fuel).assign ts).imp (.ret ht)).bind fun _ _ _ =>
      assertsOnly_pure _)
  · exact (ih.expr ts).bind fun _ _ _ => assertsOnly_expect.bind fun _ _ _ => assertsOnly_pure _

theorem parseBlockLoop_stuck :
    AssertsOnly (StuckStmt .items ts) (parseBlockLoop (fuel + 1)) ts := by
  refine assertsOnly_peek (assertsOnly_ite (fun _ => assertsOnly_pure _) fun _ => ?_)
  refine assertsOnly_ite (fun _ => ?_) fun _ => assertsOnly_ite (fun hc => ?_) fun _ => ?_
  · refine ((parseVarDecl_stuck fuel ts).imp .initialiser).bind fun d mid hd => ?_
    exact ((ih.blockLoop mid).imp (.varDecl (parseVarDecl_sound hd))).bind fun _ _ _ =>
      assertsOnly_pure _
  · refine (assertsOnly_parseCommentStmt hc).bind fun text mid htext => ?_
    obtain ⟨t, rfl, ht, _⟩ := parseCommentStmt_sound htext
    exact ((ih.blockLoop mid).imp (.cons (.comment ht))).bind fun _ _ _ => assertsOnly_pure _
  · refine ((ih.statment ts).imp .first).bind fun s mid hs => ?_
    exact ((ih.blockLoop mid).imp (.cons ((stmtSound fuel).statment hs))).bind fun _ _ _ =>
      assertsOnly_pure _

theorem parseBlockStmt_stuck :
    AssertsOnly (StuckStmt .block ts) (parseBlockStmt (fuel + 1)) ts := by
  refine assertsOnly_peek (AssertsOnly.bind ?_ fun _ ts₁ hl => ?_)
  · exact assertsOnly_ite (fun _ => assertsOnly_pure _) fun h _ => .noBrace (by simpa using h)
  obtain ⟨l, ts₂, rfl, hlt, rfl⟩ := assertMatch_eq_ok hl
  refine assertsOnly_advance (((ih.blockLoop ts₂).imp (.block hlt)).bind fun _ _ _ => ?_)
  exact assertsOnly_advance (assertsOnly_pure _)

end step

/-- **The assertions of the statement functions fail at casts and at blocks only.** -/
theorem stmtStuck : ∀ fuel : Nat, StmtStuck fuel := by
  intro fuel
  induction fuel with
  | zero => constructor <;> intros <;> exact assertsOnly_fail (by simp)
  | succ fuel ih =>
    exact {
      ifStmt := parseIfStmt_stuck ih
      expr := parseExpr_stuck ih
      statment := parseStatment_stuck ih
      blockLoop := parseBlockLoop_stuck ih
      blockStmt := parseBlockStmt_stuck ih }

/-! ## Functions and programs -/

theorem assertsOnly_parseFuncParam {P : Prop} {ts : List Token} :
    AssertsOnly P parseFuncParam ts := by
  refine assertsOnly_parseVarType.bind fun _ _ _ => assertsOnly_parseIdentifierExpr.bind
    fun _ _ _ => assertsOnly_peek (assertsOnly_ite (fun _ => ?_) fun _ => ?_)
  · exact assertsOnly_advance (assertsOnly_pure _)
  · exact assertsOnly_ite (fun _ => assertsOnly_pure _) fun _ => assertsOnly_compileError

theorem assertsOnly_parseParamsLoop {P : Prop} : ∀ (fuel : Nat) {ts : List Token},
    AssertsOnly P (parseParamsLoop fuel) ts := by
  intro fuel
  induction fuel with
  | zero => exact assertsOnly_fail (by simp)
  | succ fuel ih =>
    refine assertsOnly_peek (assertsOnly_ite (fun _ => assertsOnly_pure _) fun _ => ?_)
    refine assertsOnly_ite (fun _ => ?_) fun _ => assertsOnly_compileError
    exact assertsOnly_parseFuncParam.bind fun _ _ _ => ih.bind fun _ _ _ => assertsOnly_pure _

theorem assertsOnly_parseFuncType {P : Prop} {fuel : Nat} {ts : List Token} :
    AssertsOnly P (parseFuncType fuel) ts := by
  refine assertsOnly_parseVarType.bind fun _ _ _ => assertsOnly_peek (assertsOnly_ite
    (fun _ => ?_) fun _ => assertsOnly_compileError)
  refine assertsOnly_parseIdentifierExpr.bind fun _ _ _ => AssertsOnly.bind ?_
    fun _ _ _ => assertsOnly_pure _
  refine assertsOnly_peek (assertsOnly_ite (fun _ => ?_) fun _ => assertsOnly_compileError)
  exact assertsOnly_advance ((assertsOnly_parseParamsLoop fuel).bind fun _ _ _ =>
    assertsOnly_advance (assertsOnly_pure _))

theorem parseFuncDecl_stuck (fuel : Nat) (ts : List Token) :
    AssertsOnly (StuckFunc ts) (parseFuncDecl fuel) ts := by
  refine assertsOnly_peek (assertsOnly_ite (fun hfn => ?_) fun _ => assertsOnly_fail (by simp))
  obtain ⟨f, ts, rfl, hft⟩ := pMatch_eq_true hfn
  refine assertsOnly_advance (assertsOnly_parseFuncType.bind fun r rest hr => ?_)
  obtain ⟨retT, ident, params⟩ := r
  obtain ⟨i, l, mid, r, htype, hi, hl, hps, hrt, _⟩ := parseFuncType_sound hr
  refine (((stmtStuck fuel).blockStmt rest).imp (.body hft htype hi hl hps hrt)).bind
    fun block _ _ => ?_
  exact assertsOnly_ite (fun _ => assertsOnly_pure _) fun _ => assertsOnly_fail (by simp)

/-- **An assertion fails on nothing but programs up to one.** -/
theorem parseProgramLoop_stuck : ∀ (fuel : Nat) (ts : List Token),
    AssertsOnly (StuckProgram ts) (parseProgramLoop fuel) ts := by
  intro fuel
  induction fuel with
  | zero => exact fun ts => assertsOnly_fail (by simp)
  | succ fuel ih =>
    intro ts
    refine assertsOnly_peek (assertsOnly_ite (fun _ => assertsOnly_pure _) fun _ => ?_)
    refine assertsOnly_ite (fun _ => ?_) fun _ => assertsOnly_ite (fun _ => ?_) fun _ =>
      assertsOnly_ite (fun hc => ?_) fun _ => assertsOnly_compileError
    · refine ((parseFuncDecl_stuck fuel ts).imp .body).bind fun f mid hf => ?_
      exact ((ih mid).imp (.func (parseFuncDecl_sound hf))).bind fun _ _ _ => assertsOnly_pure _
    · refine ((parseVarDecl_stuck fuel ts).imp .initialiser).bind fun d mid hd => ?_
      exact ((ih mid).imp (.varDecl (parseVarDecl_sound hd))).bind fun _ _ _ => assertsOnly_pure _
    · refine (assertsOnly_parseCommentStmt hc).bind fun text mid htext => ?_
      obtain ⟨t, rfl, ht, _⟩ := parseCommentStmt_sound htext
      exact ((ih mid).imp (.comment ht)).bind fun _ _ _ => assertsOnly_pure _

end ACompiler
