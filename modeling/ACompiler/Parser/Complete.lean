import ACompiler.Parser.Reject

/-!
# Every phrase is accepted

The parse function of a category returns the tree of every phrase of that category, when it is given
enough fuel and the tokens behind the phrase cannot continue it (`Stops`). A derivation of a
left-associative level is followed through the loop from the left: after each operand the loop
holds the tree derived so far (`Accepts`).
-/

namespace ACompiler

open Lib (TokenParser)
open Lib.TokenParser (fail peek peekNext advance bind_run bind_of_ok)

/-! ## Types -/

theorem parseArrayLen_scalar {b : VarBase} {rest : List Token}
    (hstop : pMatch rest.head? .tLeftBracket = false) :
    parseArrayLen b rest = .ok (⟨b, false, 0⟩, rest) := by
  simp [parseArrayLen, hstop]

theorem parseArrayLen_array {b : VarBase} {l n r : Token} {rest : List Token}
    (hl : l.type = .tLeftBracket) (hn : n.type = .tNumberLit) (hr : r.type = .tRightBracket) :
    parseArrayLen b (l :: n :: r :: rest) =
      .ok (⟨b, true, strtoul n.lexeme % 2 ^ 32⟩, rest) := by
  simp [parseArrayLen, hl, hn, hr, expect, bind_run]

/-- No token of a type starts a base. -/
theorem parseVarType_base {ts mid rest : List Token} {b : VarBase} {v : VarT}
    (hb : DerivesBase ts mid b) (hmid : mid ≠ [])
    (hempty : ∀ t ∈ mid.head?, b = .lit .litQword → ts = mid → t.type ≠ .tAnd ∧ litOf t.type = none)
    (hlen : parseArrayLen b mid = .ok (v, rest)) : parseVarType ts = .ok (v, rest) := by
  cases hb with
  | adr ht hp => simp [parseVarType, getVarType, ht, hp, bind_run, hlen]
  | @lit p _ l hp =>
    have hne : p.type ≠ .tAnd := by
      intro h
      simp [h, litOf] at hp
    simp [parseVarType, getVarType, hne, hp, bind_run, hlen]
  | empty =>
    cases ts with
    | nil => exact absurd rfl hmid
    | cons t ts =>
      obtain ⟨hne, hlit⟩ := hempty t rfl rfl rfl
      simp [parseVarType, getVarType, hne, hlit, bind_run, hlen]

/-- A type that is followed by a token of no type is parsed whole. -/
theorem parseVarType_complete {ts rest : List Token} {v : VarT} {t : Token}
    (h : DerivesType ts (t :: rest) v) (hbracket : t.type ≠ .tLeftBracket) (hand : t.type ≠ .tAnd)
    (hlit : litOf t.type = none) : parseVarType ts = .ok (v, t :: rest) := by
  cases h with
  | scalar hb =>
    refine parseVarType_base hb (by simp) ?_ (parseArrayLen_scalar (by simpa using hbracket))
    intro t' ht' _ _
    simp at ht'
    exact ht' ▸ ⟨hand, hlit⟩
  | array hb hl hn hr =>
    refine parseVarType_base hb (by simp) ?_ (parseArrayLen_array hl hn hr)
    intro t' ht' _ _
    simp at ht'
    subst ht'
    rw [hl]
    exact ⟨by decide, rfl⟩

theorem expect_complete {type : TokenType} {message : String} {t : Token} {rest : List Token}
    (ht : t.type = type) : expect type message (t :: rest) = .ok ((), rest) := by
  simp [expect, ht]

theorem parseIdentifierExpr_complete {t : Token} {rest : List Token} (ht : t.type = .tIdentifier) :
    parseIdentifierExpr (t :: rest) = .ok (t.lexeme, rest) := by
  simp [parseIdentifierExpr, ht]

/-! ## What may follow a phrase -/

/-- The token continues a phrase of the category. -/
def Cat.continues : Cat → TokenType → Bool
  | .primary, _ | .call, _ => false
  | .postExpr, t | .unary, t => t == .tLeftBracket
  | .binary .factor, t => t == .tLeftBracket || (factorOp t).isSome
  | .binary .term, t => t == .tLeftBracket || (factorOp t).isSome || (termOp t).isSome
  | .binary .compare, t =>
    t == .tLeftBracket || (factorOp t).isSome || (termOp t).isSome || (compareOp t).isSome
  | .binary .equal, t =>
    t == .tLeftBracket || (factorOp t).isSome || (termOp t).isSome || (compareOp t).isSome ||
      (equalOp t).isSome
  | .assign, t =>
    t == .tLeftBracket || (factorOp t).isSome || (termOp t).isSome || (compareOp t).isSome ||
      (equalOp t).isSome || t == .tEqual
  | .args, t => !(t == .tRightParen)

/-- What is left does not continue a phrase of the category. -/
def Stops (c : Cat) (rest : List Token) : Prop :=
  ∃ t rest', rest = t :: rest' ∧ c.continues t.type = false

theorem Stops.head {c : Cat} {t : Token} {rest : List Token} (h : c.continues t.type = false) :
    Stops c (t :: rest) := ⟨t, rest, rfl, h⟩

/-- Where a level stops, its operands stop and its loop ends. -/
theorem Stops.operand {l : Level} {rest : List Token} (h : Stops (.binary l) rest) :
    Stops l.operand rest ∧ (rest.head?.bind fun t => l.op t.type) = none := by
  obtain ⟨t, rest', rfl, h⟩ := h
  cases l <;> simp_all [Stops, Cat.continues, Level.operand, Level.op]

/-- An operator of a level does not continue its operands. -/
theorem stops_of_op {l : Level} {t : Token} {rest : List Token} {b : BinaryOp}
    (h : l.op t.type = some b) : Stops l.operand (t :: rest) := by
  refine .head ?_
  cases l <;> cases ht : t.type <;>
    simp_all [Cat.continues, Level.operand, Level.op, factorOp, termOp, compareOp, equalOp]

/-! ## Where a phrase starts -/

/-- The token starts a primary expression. -/
def startsPrimary : TokenType → Bool
  | .tLeftParen | .tCall | .tIdentifier | .tNumberLit | .tStringLit => true
  | _ => false

/-- The token starts an expression. -/
def startsExpr (t : TokenType) : Bool := startsPrimary t || (unaryOpOf t).isSome

/-- The first token of each category. -/
def Cat.starts : Cat → TokenType → Bool
  | .primary, t | .postExpr, t => startsPrimary t
  | .call, t => t == .tCall
  | .args, _ => true
  | _, t => startsExpr t

theorem startsExpr_of_startsPrimary {t : TokenType} (h : startsPrimary t = true) :
    startsExpr t = true := by
  simp [startsExpr, h]

theorem unaryOpOf_of_startsPrimary {t : TokenType} (h : startsPrimary t = true) :
    unaryOpOf t = none := by
  cases t <;> simp [startsPrimary, unaryOpOf] at *

theorem Derives.starts {c : Cat} {ts rest : List Token} {p : Phrase} (h : Derives c ts rest p)
    (hcat : c ≠ .args) : ∃ t ts', ts = t :: ts' ∧ c.starts t.type = true := by
  induction h with
  | equal _ ih => exact ih (by simp)
  | assign _ _ _ _ ihl _ => exact ihl (by simp)
  | @operand l _ _ _ _ ih =>
    cases l
    all_goals exact ih (by simp [Level.operand])
  | operator _ _ _ ihl _ => exact ihl (by simp)
  | unary ht _ _ => exact ⟨_, _, rfl, by simp [Cat.starts, startsExpr, ht]⟩
  | ofPost _ ih =>
    obtain ⟨t, ts', hts, ht⟩ := ih (by simp)
    exact ⟨t, ts', hts, startsExpr_of_startsPrimary ht⟩
  | primary _ ih => exact ih (by simp)
  | index _ _ _ _ ih _ => exact ih (by simp)
  | cast hl _ _ _ _ _ => exact ⟨_, _, rfl, by simp [Cat.starts, startsPrimary, hl]⟩
  | callExpr _ ih =>
    obtain ⟨t, ts', hts, ht⟩ := ih (by simp)
    simp [Cat.starts] at ht
    exact ⟨t, ts', hts, by simp [Cat.starts, startsPrimary, ht]⟩
  | identifier ht => exact ⟨_, _, rfl, by simp [Cat.starts, startsPrimary, ht]⟩
  | number ht => exact ⟨_, _, rfl, by simp [Cat.starts, startsPrimary, ht]⟩
  | string ht => exact ⟨_, _, rfl, by simp [Cat.starts, startsPrimary, ht]⟩
  | paren hl _ _ _ _ => exact ⟨_, _, rfl, by simp [Cat.starts, startsPrimary, hl]⟩
  | call hc _ _ _ _ _ => exact ⟨_, _, rfl, by simp [Cat.starts, hc]⟩
  | argsNil => exact absurd rfl hcat
  | argsLast _ _ => exact absurd rfl hcat
  | argsCons _ _ _ _ _ => exact absurd rfl hcat

/-! ## Expressions -/

/-- The parse function of a level. -/
def parseLevel : Level → Nat → Parse Expr
  | .factor => parseFactor
  | .term => parseTerm
  | .compare => parseCompare
  | .equal => parseEqual

/-- The parse function of a level's operands. -/
def parseOperand : Level → Nat → Parse Expr
  | .factor => parseUnaryExpr
  | .term => parseFactor
  | .compare => parseTerm
  | .equal => parseCompare

/-- The fuel a level takes before its first token. -/
def Level.rank : Level → Nat
  | .factor => 5
  | .term => 6
  | .compare => 7
  | .equal => 8

theorem parseLevel_succ (l : Level) (fuel : Nat) :
    parseLevel l (fuel + 1) =
      (do let left ← parseOperand l fuel; binaryLoop l.op (parseOperand l fuel) fuel left) := by
  cases l <;> rfl

/-- What the parse function of a category does with a phrase. The left-recursive categories are
followed into their loops. -/
def Accepts : Cat → List Token → List Token → Phrase → Prop
  | .assign, ts, rest, .expr e =>
    Stops .assign rest → ∀ fuel, 12 * ts.length + 10 ≤ fuel →
      parseAssignExpr fuel ts = .ok (e, rest)
  | .binary l, ts, rest, .expr e =>
    Stops l.operand rest → ∀ fuel, 12 * ts.length + l.rank ≤ fuel + 1 →
      ∃ k, rest.length < k ∧ parseLevel l (fuel + 1) ts =
        binaryLoop l.op (parseOperand l fuel) k e rest
  | .unary, ts, rest, .expr e =>
    Stops .unary rest → ∀ fuel, 12 * ts.length + 4 ≤ fuel → parseUnaryExpr fuel ts = .ok (e, rest)
  | .postExpr, ts, rest, .expr e =>
    ∀ fuel, 12 * ts.length + 3 ≤ fuel →
      ∃ k, 12 * rest.length + 1 ≤ k ∧ parsePostfix fuel ts = parsePostfixLoop k e rest
  | .primary, ts, rest, .expr e =>
    ∀ fuel, 12 * ts.length + 2 ≤ fuel → parsePrimary fuel ts = .ok (e, rest)
  | .call, ts, rest, .expr e =>
    ∀ fuel, 12 * ts.length + 1 ≤ fuel → parseCallExpr fuel ts = .ok (e, rest)
  | .args, ts, rest, .exprs es =>
    Stops .args rest → ∀ fuel, 12 * ts.length + 10 ≤ fuel →
      parseArgsLoop fuel ts = .ok (es, rest)
  | _, _, _, _ => True

/-- Where a level stops, its loop ends with the tree it holds. -/
theorem Accepts.level {l : Level} {ts rest : List Token} {e : Expr}
    (h : Accepts (.binary l) ts rest (.expr e)) (hstop : Stops (.binary l) rest) (fuel : Nat)
    (hfuel : 12 * ts.length + l.rank ≤ fuel) : parseLevel l fuel ts = .ok (e, rest) := by
  obtain ⟨hstop, hop⟩ := hstop.operand
  cases fuel with
  | zero => cases l <;> simp [Level.rank] at hfuel
  | succ fuel =>
    obtain ⟨k, hk, hrun⟩ := h hstop fuel hfuel
    rw [hrun]
    cases k with
    | zero => omega
    | succ k =>
      rw [binaryLoop, Lib.TokenParser.peek_bind, hop]
      rfl

theorem Accepts.binaryExpr {ts rest : List Token} {e : Expr}
    (h : Accepts (.binary .equal) ts rest (.expr e)) (hstop : Stops (.binary .equal) rest)
    (fuel : Nat) (hfuel : 12 * ts.length + 9 ≤ fuel) : parseBinaryExpr fuel ts = .ok (e, rest) := by
  cases fuel with
  | zero => omega
  | succ fuel => exact h.level hstop fuel (by simpa [Level.rank] using hfuel)

/-- The operands of a level, one level down or unary. -/
theorem Accepts.operand {l : Level} {ts rest : List Token} {e : Expr}
    (h : Accepts l.operand ts rest (.expr e)) (hstop : Stops l.operand rest) {fuel : Nat}
    (hfuel : 12 * ts.length + l.rank ≤ fuel + 1) : parseOperand l fuel ts = .ok (e, rest) := by
  cases l with
  | factor => exact h hstop fuel (by simpa [Level.rank] using hfuel)
  | term => exact Accepts.level (l := .factor) h hstop fuel (by simpa [Level.rank] using hfuel)
  | compare => exact Accepts.level (l := .term) h hstop fuel (by simpa [Level.rank] using hfuel)
  | equal => exact Accepts.level (l := .compare) h hstop fuel (by simpa [Level.rank] using hfuel)

theorem accepts_assign_equal {ts rest : List Token} {e : Expr}
    (ih : Accepts (.binary .equal) ts rest (.expr e)) : Accepts .assign ts rest (.expr e) := by
  intro hstop fuel hfuel
  obtain ⟨t, rest', rfl, ht⟩ := hstop
  simp only [Cat.continues, Bool.or_eq_false_iff] at ht
  cases fuel with
  | zero => omega
  | succ fuel =>
    have hrun := ih.binaryExpr (.head (by simp [Cat.continues, ht])) fuel (by omega)
    have hne : t.type ≠ .tEqual := by simpa using ht.2
    rw [parseAssignExpr, bind_of_ok hrun]
    simp [hne]

theorem accepts_assign {ts mid rest : List Token} {t : Token} {target val : Expr}
    (hl : Derives (.binary .equal) ts (t :: mid) (.expr target)) (ht : t.type = .tEqual)
    (ha : isAssignable target = true) (ihl : Accepts (.binary .equal) ts (t :: mid) (.expr target))
    (ihr : Accepts .assign mid rest (.expr val)) :
    Accepts .assign ts rest (.expr (.assign target val)) := by
  intro hstop fuel hfuel
  cases fuel with
  | zero => omega
  | succ fuel =>
    have hlen := hl.length_lt (by simp)
    rw [List.length_cons] at hlen
    have hrun := ihl.binaryExpr (.head (by simp [Cat.continues, ht, factorOp, termOp, compareOp,
      equalOp])) fuel (by omega)
    rw [parseAssignExpr, bind_of_ok hrun]
    simp [ht, ha, bind_run, ihr hstop fuel (by omega)]

theorem accepts_operand {l : Level} {ts rest : List Token} {e : Expr}
    (h : Derives l.operand ts rest (.expr e)) (ih : Accepts l.operand ts rest (.expr e)) :
    Accepts (.binary l) ts rest (.expr e) := by
  intro hstop fuel hfuel
  have hlen : rest.length < ts.length := h.length_lt (by cases l <;> simp [Level.operand])
  refine ⟨fuel, by omega, ?_⟩
  rw [parseLevel_succ, bind_of_ok (ih.operand hstop hfuel)]

theorem accepts_operator {l : Level} {ts mid rest : List Token} {t : Token} {b : BinaryOp}
    {left right : Expr} (hl : Derives (.binary l) ts (t :: mid) (.expr left))
    (ht : l.op t.type = some b) (hr : Derives l.operand mid rest (.expr right))
    (ihl : Accepts (.binary l) ts (t :: mid) (.expr left))
    (ihr : Accepts l.operand mid rest (.expr right)) :
    Accepts (.binary l) ts rest (.expr (.binary b left right)) := by
  intro hstop fuel hfuel
  obtain ⟨k, hk, hrun⟩ := ihl (stops_of_op ht) fuel hfuel
  have hlen := hl.length_lt (by simp)
  have hlen' : rest.length < mid.length := hr.length_lt (by cases l <;> simp [Level.operand])
  rw [List.length_cons] at hk hlen
  cases k with
  | zero => omega
  | succ k =>
    refine ⟨k, by omega, ?_⟩
    rw [hrun, binaryLoop, Lib.TokenParser.peek_bind, List.head?_cons, Option.bind_some, ht]
    simp only [Lib.TokenParser.advance_bind, List.tail_cons]
    rw [bind_of_ok (ihr.operand hstop (by omega))]

theorem accepts_unary {t : Token} {ts rest : List Token} {op : UnaryOp} {e : Expr}
    (ht : unaryOpOf t.type = some op) (ih : Accepts .unary ts rest (.expr e)) :
    Accepts .unary (t :: ts) rest (.expr (.unary op e)) := by
  intro hstop fuel hfuel
  rw [List.length_cons] at hfuel
  cases fuel with
  | zero => omega
  | succ fuel =>
    rw [parseUnaryExpr, Lib.TokenParser.peek_bind, List.head?_cons, Option.bind_some, ht]
    simp only [Lib.TokenParser.advance_bind, List.tail_cons]
    rw [bind_of_ok (ih hstop fuel (by omega))]
    rfl

theorem accepts_ofPost {ts rest : List Token} {e : Expr} (h : Derives .postExpr ts rest (.expr e))
    (ih : Accepts .postExpr ts rest (.expr e)) : Accepts .unary ts rest (.expr e) := by
  intro hstop fuel hfuel
  obtain ⟨t, ts', rfl, ht⟩ := h.starts (by simp)
  cases fuel with
  | zero => omega
  | succ fuel =>
    obtain ⟨k, hk, hrun⟩ := ih fuel (by omega)
    rw [parseUnaryExpr, Lib.TokenParser.peek_bind, List.head?_cons, Option.bind_some,
      unaryOpOf_of_startsPrimary ht]
    simp only
    rw [hrun]
    obtain ⟨t', rest', rfl, ht'⟩ := hstop
    cases k with
    | zero => omega
    | succ k =>
      have hne : t'.type ≠ .tLeftBracket := by simpa [Cat.continues] using ht'
      simp [parsePostfixLoop, hne]

theorem accepts_primary {ts rest : List Token} {e : Expr} (h : Derives .primary ts rest (.expr e))
    (ih : Accepts .primary ts rest (.expr e)) : Accepts .postExpr ts rest (.expr e) := by
  intro fuel hfuel
  have hlen := h.length_lt (by simp)
  cases fuel with
  | zero => omega
  | succ fuel =>
    refine ⟨fuel, by omega, ?_⟩
    rw [parsePostfix, bind_of_ok (ih fuel (by omega))]

theorem accepts_index {ts mid rest : List Token} {l r : Token} {node idx : Expr}
    (hl : l.type = .tLeftBracket) (hi : Derives (.binary .equal) mid (r :: rest) (.expr idx))
    (hr : r.type = .tRightBracket) (ih : Accepts .postExpr ts (l :: mid) (.expr node))
    (ihi : Accepts (.binary .equal) mid (r :: rest) (.expr idx)) :
    Accepts .postExpr ts rest (.expr (.index node idx)) := by
  intro fuel hfuel
  obtain ⟨k, hk, hrun⟩ := ih fuel hfuel
  have hlen := hi.length_lt (by simp)
  rw [List.length_cons] at hk hlen
  cases k with
  | zero => omega
  | succ k =>
    refine ⟨k, by omega, ?_⟩
    have hidx := ihi.binaryExpr (.head (by simp [Cat.continues, hr, factorOp, termOp, compareOp,
      equalOp])) k (by omega)
    rw [hrun, parsePostfixLoop, Lib.TokenParser.peek_bind]
    simp only [List.head?_cons, pMatch_some, hl, decide_true, if_true,
      Lib.TokenParser.advance_bind, List.tail_cons]
    rw [bind_of_ok hidx, bind_of_ok (expect_complete hr)]

/-- A parenthesis with a type token behind it is read as a cast. -/
theorem parsePrimary_cast {l : Token} {ts : List Token} (hl : l.type = .tLeftParen) (hv : isVarType ts.head? = true)
    (fuel : Nat) : parsePrimary (fuel + 2) (l :: ts) =
      (do
        let type ← parseVarType
        let temp ← peek
        assertType temp .tRightParen
        advance
        let inner ← parsePrimary fuel
        pure (.cast type inner) : Parse Expr) ts := by
  have hnext : isVarType (l :: ts)[1]? = true := by
    rw [List.head?_eq_getElem?] at hv
    exact hv
  rw [parsePrimary, Lib.TokenParser.peek_bind, Lib.TokenParser.peekNext_bind,
    if_pos (by rw [hnext]; simp [hl]), parseCastExpr]
  simp only [Lib.TokenParser.peek_bind, List.head?_cons, assertType, hl, if_true]
  rw [Lib.TokenParser.pure_bind, Lib.TokenParser.advance_bind, List.tail_cons]

theorem accepts_cast {l r : Token} {ts mid rest : List Token} {v : VarT} {inner : Expr}
    (hl : l.type = .tLeftParen) (hv : isVarType ts.head? = true)
    (ht : DerivesType ts (r :: mid) v) (hr : r.type = .tRightParen)
    (ih : Accepts .primary mid rest (.expr inner)) :
    Accepts .primary (l :: ts) rest (.expr (.cast v inner)) := by
  intro fuel hfuel
  have hlen := ht.consumes.length_le
  simp only [List.length_cons] at hfuel hlen
  obtain ⟨fuel, rfl⟩ : ∃ k, fuel = k + 2 := ⟨fuel - 2, by omega⟩
  have htype := parseVarType_complete ht (by simp [hr]) (by simp [hr]) (by simp [hr, litOf])
  rw [parsePrimary_cast hl hv, bind_of_ok htype, Lib.TokenParser.peek_bind, List.head?_cons,
    assertType, if_pos hr, Lib.TokenParser.pure_bind, Lib.TokenParser.advance_bind, List.tail_cons,
    bind_of_ok (ih fuel (by omega))]
  rfl

theorem accepts_callExpr {ts rest : List Token} {e : Expr} (h : Derives .call ts rest (.expr e))
    (ih : Accepts .call ts rest (.expr e)) : Accepts .primary ts rest (.expr e) := by
  intro fuel hfuel
  obtain ⟨t, ts', rfl, ht⟩ := h.starts (by simp)
  have ht : t.type = .tCall := by simpa [Cat.starts] using ht
  cases fuel with
  | zero => omega
  | succ fuel =>
    rw [parsePrimary, Lib.TokenParser.peek_bind, Lib.TokenParser.peekNext_bind]
    simp [ht, ih fuel (by omega)]

theorem accepts_paren {l r : Token} {ts rest : List Token} {e : Expr} (hl : l.type = .tLeftParen)
    (hv : isVarType ts.head? = false) (hr : r.type = .tRightParen)
    (ih : Accepts .assign ts (r :: rest) (.expr e)) : Accepts .primary (l :: ts) rest (.expr e) := by
  intro fuel hfuel
  rw [List.length_cons] at hfuel
  cases fuel with
  | zero => omega
  | succ fuel =>
    have hnext : isVarType (l :: ts)[1]? = false := by
      rw [List.head?_eq_getElem?] at hv
      exact hv
    have hinner := ih (.head (by simp [Cat.continues, hr, factorOp, termOp, compareOp, equalOp]))
      fuel (by omega)
    rw [parsePrimary, Lib.TokenParser.peek_bind, Lib.TokenParser.peekNext_bind,
      if_neg (by rw [hnext]; simp)]
    simp only [List.head?_cons, pMatch_some, hl, reduceCtorEq, decide_false, Bool.false_eq_true,
      if_false, Bool.or_self, decide_true, if_true]
    rw [Lib.TokenParser.advance_bind, List.tail_cons, bind_of_ok hinner,
      bind_of_ok (expect_complete hr)]
    rfl

theorem accepts_call {c i l r : Token} {ts rest : List Token} {es : List Expr}
    (hc : c.type = .tCall) (hi : i.type = .tIdentifier) (hl : l.type = .tLeftParen)
    (hr : r.type = .tRightParen) (ih : Accepts .args ts (r :: rest) (.exprs es)) :
    Accepts .call (c :: i :: l :: ts) rest (.expr (.call i.lexeme es)) := by
  intro fuel hfuel
  simp only [List.length_cons] at hfuel
  obtain ⟨fuel, rfl⟩ : ∃ k, fuel = k + 2 := ⟨fuel - 2, by omega⟩
  have hargs := ih (.head (by simp [Cat.continues, hr])) fuel (by omega)
  have hrun : parseArgs (fuel + 1) (l :: ts) = .ok (es, rest) := by
    rw [parseArgs, bind_of_ok (expect_complete hl), bind_of_ok hargs,
      bind_of_ok (expect_complete hr)]
    rfl
  rw [parseCallExpr, Lib.TokenParser.peek_bind, if_pos (by simp [hc]),
    Lib.TokenParser.advance_bind, List.tail_cons, Lib.TokenParser.peek_bind,
    if_pos (by simp [hi]), bind_of_ok (parseIdentifierExpr_complete hi),
    Lib.TokenParser.peek_bind, if_pos (by simp [hl]), bind_of_ok hrun]
  rfl

/-- The parse of an argument does not start at a closing parenthesis. -/
theorem not_rightParen {ts rest : List Token} {e : Expr}
    (h : Derives (.binary .equal) ts rest (.expr e)) : pMatch ts.head? .tRightParen = false := by
  obtain ⟨t, ts', rfl, ht⟩ := h.starts (by simp)
  cases htype : t.type <;> simp_all [Cat.starts, startsExpr, startsPrimary, unaryOpOf]

theorem accepts_argsLast {ts rest : List Token} {e : Expr}
    (h : Derives (.binary .equal) ts rest (.expr e))
    (ih : Accepts (.binary .equal) ts rest (.expr e)) : Accepts .args ts rest (.exprs [e]) := by
  intro hstop fuel hfuel
  obtain ⟨r, rest', rfl, hr⟩ := hstop
  have hr : r.type = .tRightParen := by simpa [Cat.continues] using hr
  cases fuel with
  | zero => omega
  | succ fuel =>
    have hrun := ih.binaryExpr (.head (by simp [Cat.continues, hr, factorOp, termOp, compareOp,
      equalOp])) fuel (by omega)
    rw [parseArgsLoop, Lib.TokenParser.peek_bind, not_rightParen h]
    simp only [Bool.false_eq_true, if_false]
    rw [bind_of_ok hrun, Lib.TokenParser.peek_bind]
    simp [hr]

theorem accepts_argsCons {ts mid rest : List Token} {t : Token} {e : Expr} {es : List Expr}
    (h : Derives (.binary .equal) ts (t :: mid) (.expr e)) (ht : t.type = .tComma)
    (ih : Accepts (.binary .equal) ts (t :: mid) (.expr e))
    (ihs : Accepts .args mid rest (.exprs es)) : Accepts .args ts rest (.exprs (e :: es)) := by
  intro hstop fuel hfuel
  have hlen := h.length_lt (by simp)
  rw [List.length_cons] at hlen
  cases fuel with
  | zero => omega
  | succ fuel =>
    have hrun := ih.binaryExpr (.head (by simp [Cat.continues, ht, factorOp, termOp, compareOp,
      equalOp])) fuel (by omega)
    rw [parseArgsLoop, Lib.TokenParser.peek_bind, not_rightParen h]
    simp only [Bool.false_eq_true, if_false]
    rw [bind_of_ok hrun, Lib.TokenParser.peek_bind]
    simp only [List.head?_cons, pMatch_some, ht, decide_true, if_true,
      Lib.TokenParser.advance_bind, List.tail_cons]
    rw [bind_of_ok (ihs hstop fuel (by omega))]
    rfl

/-- **The expression functions are complete**: by induction on the derivation. -/
theorem Derives.accepts {c : Cat} {ts rest : List Token} {p : Phrase} (h : Derives c ts rest p) :
    Accepts c ts rest p := by
  induction h with
  | equal _ ih => exact accepts_assign_equal ih
  | assign hl ht ha _ ihl ihr => exact accepts_assign hl ht ha ihl ihr
  | operand h ih => exact accepts_operand h ih
  | operator hl ht hr ihl ihr => exact accepts_operator hl ht hr ihl ihr
  | unary ht _ ih => exact accepts_unary ht ih
  | ofPost h ih => exact accepts_ofPost h ih
  | primary h ih => exact accepts_primary h ih
  | index _ hl hi hr ih ihi => exact accepts_index hl hi hr ih ihi
  | cast hl hv ht hr _ ih => exact accepts_cast hl hv ht hr ih
  | callExpr h ih => exact accepts_callExpr h ih
  | identifier ht =>
    intro fuel hfuel
    cases fuel with
    | zero => omega
    | succ fuel =>
      rw [parsePrimary, Lib.TokenParser.peek_bind, Lib.TokenParser.peekNext_bind]
      simp [ht, bind_of_ok (parseIdentifierExpr_complete ht)]
  | number ht =>
    intro fuel hfuel
    cases fuel with
    | zero => omega
    | succ fuel => simp [parsePrimary, ht, parseLiteralExpr]
  | string ht =>
    intro fuel hfuel
    cases fuel with
    | zero => omega
    | succ fuel => simp [parsePrimary, ht, parseLiteralExpr]
  | paren hl hv _ hr ih => exact accepts_paren hl hv hr ih
  | call hc hi hl _ hr ih => exact accepts_call hc hi hl hr ih
  | argsNil =>
    intro hstop fuel hfuel
    obtain ⟨r, rest', rfl, hr⟩ := hstop
    have hr : r.type = .tRightParen := by simpa [Cat.continues] using hr
    cases fuel with
    | zero => omega
    | succ fuel => simp [parseArgsLoop, hr]
  | argsLast h ih => exact accepts_argsLast h ih
  | argsCons h ht _ ih ihs => exact accepts_argsCons h ht ih ihs

/-- A phrase that is stopped by its next token, whose type is known. -/
theorem Derives.parseBinaryExpr {ts rest : List Token} {e : Expr} {t : Token}
    (h : Derives (.binary .equal) ts (t :: rest) (.expr e))
    (hstop : (Cat.binary .equal).continues t.type = false) (fuel : Nat)
    (hfuel : 12 * ts.length + 9 ≤ fuel) :
    ACompiler.parseBinaryExpr fuel ts = .ok (e, t :: rest) :=
  h.accepts.binaryExpr (.head hstop) fuel hfuel

/-! ## Statements -/

theorem parseVarDecl_complete {ts rest : List Token} {d : VarDecl} (h : DerivesVarDecl ts rest d)
    (fuel : Nat) (hfuel : 12 * ts.length ≤ fuel + 3) : parseVarDecl fuel ts = .ok (d, rest) := by
  cases h with
  | uninit ht hv hi hs =>
    have htype := parseVarType_complete hv (by simp [hi]) (by simp [hi]) (by simp [hi, litOf])
    rw [parseVarDecl, Lib.TokenParser.peek_bind, if_pos (by simp [ht]),
      Lib.TokenParser.advance_bind, List.tail_cons, bind_of_ok htype,
      bind_of_ok (parseIdentifierExpr_complete hi), Lib.TokenParser.peek_bind,
      if_neg (by simp [hs]), bind_of_ok (expect_complete hs)]
    rfl
  | init ht hv hi hq he hs =>
    have htype := parseVarType_complete hv (by simp [hi]) (by simp [hi]) (by simp [hi, litOf])
    have hlen := hv.consumes.length_le
    simp only [List.length_cons] at hfuel hlen
    have hexpr := he.parseBinaryExpr (by simp [Cat.continues, hs, factorOp, termOp, compareOp,
      equalOp]) fuel (by omega)
    rw [parseVarDecl, Lib.TokenParser.peek_bind, if_pos (by simp [ht]),
      Lib.TokenParser.advance_bind, List.tail_cons, bind_of_ok htype,
      bind_of_ok (parseIdentifierExpr_complete hi), Lib.TokenParser.peek_bind,
      if_pos (by simp [hq]), Lib.TokenParser.advance_bind, List.tail_cons, bind_of_ok hexpr,
      bind_of_ok (expect_complete hs)]
    rfl

theorem parseCommentStmt_complete {t : Token} {rest : List Token} (ht : t.type = .tComment) :
    parseCommentStmt (t :: rest) = .ok (t.lexeme, rest) := by
  simp [parseCommentStmt, ht]

/-- The token starts a statement. -/
def startsStmt : TokenType → Bool
  | .tRightBrace | .tElse | .tLet | .tSemicolon | .tEof => false
  | _ => true

theorem startsStmt_of_startsExpr {t : TokenType} (h : startsExpr t = true) :
    startsStmt t = true := by
  cases t <;> simp_all [startsStmt, startsExpr, startsPrimary, unaryOpOf]

theorem DerivesStmt.starts_block {ts rest : List Token} {p : StmtPhrase}
    (h : DerivesStmt .block ts rest p) : ∃ t ts', ts = t :: ts' ∧ t.type = .tLeftBrace := by
  cases h with
  | block hl _ _ => exact ⟨_, _, rfl, hl⟩

theorem DerivesStmt.starts {ts rest : List Token} {p : StmtPhrase}
    (h : DerivesStmt .stmt ts rest p) : ∃ t ts', ts = t :: ts' ∧ startsStmt t.type = true := by
  cases h with
  | comment ht => exact ⟨_, _, rfl, by simp [startsStmt, ht]⟩
  | ifThen hi _ _ _ _ => exact ⟨_, _, rfl, by simp [startsStmt, hi]⟩
  | ifElse hi _ _ _ _ _ _ => exact ⟨_, _, rfl, by simp [startsStmt, hi]⟩
  | ret ht _ _ => exact ⟨_, _, rfl, by simp [startsStmt, ht]⟩
  | call h _ =>
    obtain ⟨t, ts', rfl, ht⟩ := h.starts (by simp)
    have ht : t.type = .tCall := by simpa [Cat.starts] using ht
    exact ⟨_, _, rfl, by simp [startsStmt, ht]⟩
  | blockStmt h _ =>
    obtain ⟨t, ts', rfl, ht⟩ := h.starts_block
    exact ⟨_, _, rfl, by simp [startsStmt, ht]⟩
  | expr _ h _ =>
    obtain ⟨t, ts', rfl, ht⟩ := h.starts (by simp)
    exact ⟨_, _, rfl, startsStmt_of_startsExpr ht⟩

theorem DerivesVarDecl.starts {ts rest : List Token} {d : VarDecl} (h : DerivesVarDecl ts rest d) :
    ∃ t ts', ts = t :: ts' ∧ t.type = .tLet := by
  cases h with
  | uninit ht _ _ _ => exact ⟨_, _, rfl, ht⟩
  | init ht _ _ _ _ _ => exact ⟨_, _, rfl, ht⟩

/-- No item of a block starts with `else`. -/
theorem DerivesStmt.items_not_else {ts rest : List Token} {p : StmtPhrase}
    (h : DerivesStmt .items ts rest p) (hrest : pMatch rest.head? .tRightBrace = true) :
    pMatch ts.head? .tElse = false := by
  cases h with
  | nil =>
    obtain ⟨r, rest', rfl, hr⟩ := pMatch_eq_true hrest
    simp [hr]
  | varDecl h _ =>
    obtain ⟨t, ts', rfl, ht⟩ := h.starts
    simp [ht]
  | cons h _ =>
    obtain ⟨t, ts', rfl, ht⟩ := h.starts
    cases htype : t.type <;> simp_all [startsStmt]

/-- What the parse function of a category does with a phrase. A statement may not be followed by an
`else`, the items of a block are followed by its closing brace. -/
def StmtAccepts : StmtCat → List Token → List Token → StmtPhrase → Prop
  | .stmt, ts, rest, .stmt s =>
    pMatch rest.head? .tElse = false → ∀ fuel, 12 * ts.length + 12 ≤ fuel →
      parseStatment fuel ts = .ok (s, rest)
  | .items, ts, rest, .nodes ss =>
    pMatch rest.head? .tRightBrace = true → ∀ fuel, 12 * ts.length + 13 ≤ fuel →
      parseBlockLoop fuel ts = .ok (ss, rest)
  | .block, ts, rest, .nodes ss =>
    ∀ fuel, 12 * ts.length + 2 ≤ fuel → parseBlockStmt fuel ts = .ok (ss, rest)
  | _, _, _, _ => True

theorem assertMatch_complete {t : Token} {rest : List Token} {type : TokenType}
    (ht : t.type = type) : assertMatch (some t) type (t :: rest) = .ok ((), t :: rest) := by
  simp [assertMatch, ht]

/-- The part of `parse_if_stmt` before the `else`. -/
theorem parseIfStmt_then {i l r : Token} {ts mid rest : List Token} {cond : Expr}
    {nodes : List Stmt} (hi : i.type = .tIf) (hl : l.type = .tLeftParen)
    (hc : Derives (.binary .equal) ts (r :: mid) (.expr cond)) (hr : r.type = .tRightParen)
    {fuel : Nat} (hfuel : 12 * ts.length + 9 ≤ fuel)
    (hb : parseBlockStmt fuel mid = .ok (nodes, rest)) :
    parseIfStmt (fuel + 1) (i :: l :: ts) =
      (do
        let temp ← peek
        if pMatch temp .tElse then
          advance
          let elseBranch ← parseBlockStmt fuel
          pure (.ifStmt cond nodes (some elseBranch))
        else pure (.ifStmt cond nodes none) : Parse Stmt) rest := by
  have hcond := hc.parseBinaryExpr (by simp [Cat.continues, hr, factorOp, termOp, compareOp,
    equalOp]) fuel hfuel
  rw [parseIfStmt, Lib.TokenParser.peek_bind, List.head?_cons,
    bind_of_ok (assertMatch_complete hi), Lib.TokenParser.advance_bind, List.tail_cons,
    bind_of_ok (expect_complete hl), bind_of_ok hcond, bind_of_ok (expect_complete hr),
    bind_of_ok hb]

theorem accepts_ifThen {i l r : Token} {ts mid rest : List Token} {cond : Expr}
    {nodes : List Stmt} (hi : i.type = .tIf) (hl : l.type = .tLeftParen)
    (hc : Derives (.binary .equal) ts (r :: mid) (.expr cond)) (hr : r.type = .tRightParen)
    (ih : StmtAccepts .block mid rest (.nodes nodes)) :
    StmtAccepts .stmt (i :: l :: ts) rest (.stmt (.ifStmt cond nodes none)) := by
  intro hstop fuel hfuel
  have hlen := hc.length_lt (by simp)
  simp only [List.length_cons] at hfuel hlen
  obtain ⟨fuel, rfl⟩ : ∃ k, fuel = k + 2 := ⟨fuel - 2, by omega⟩
  rw [parseStatment, Lib.TokenParser.peek_bind, if_pos (by simp [hi]),
    parseIfStmt_then hi hl hc hr (by omega) (ih fuel (by omega)), Lib.TokenParser.peek_bind,
    if_neg (by simp [hstop])]
  rfl

theorem accepts_ifElse {i l r e : Token} {ts mid mid' rest : List Token} {cond : Expr}
    {nodes nodes' : List Stmt} (hi : i.type = .tIf) (hl : l.type = .tLeftParen)
    (hc : Derives (.binary .equal) ts (r :: mid) (.expr cond)) (hr : r.type = .tRightParen)
    (hb : DerivesStmt .block mid (e :: mid') (.nodes nodes)) (he : e.type = .tElse)
    (ih : StmtAccepts .block mid (e :: mid') (.nodes nodes))
    (ih' : StmtAccepts .block mid' rest (.nodes nodes')) :
    StmtAccepts .stmt (i :: l :: ts) rest (.stmt (.ifStmt cond nodes (some nodes'))) := by
  intro _ fuel hfuel
  have hlen := hc.length_lt (by simp)
  have hlen' := hb.consumes.length_le
  simp only [List.length_cons] at hfuel hlen hlen'
  obtain ⟨fuel, rfl⟩ : ∃ k, fuel = k + 2 := ⟨fuel - 2, by omega⟩
  rw [parseStatment, Lib.TokenParser.peek_bind, if_pos (by simp [hi]),
    parseIfStmt_then hi hl hc hr (by omega) (ih fuel (by omega)), Lib.TokenParser.peek_bind,
    if_pos (by simp [he]), Lib.TokenParser.advance_bind, List.tail_cons,
    bind_of_ok (ih' fuel (by omega))]
  rfl

theorem accepts_ret {t s : Token} {ts rest : List Token} {e : Expr} (ht : t.type = .tReturn)
    (h : Derives .assign ts (s :: rest) (.expr e)) (hs : s.type = .tSemicolon) :
    StmtAccepts .stmt (t :: ts) rest (.stmt (.returnStmt e)) := by
  intro _ fuel hfuel
  rw [List.length_cons] at hfuel
  cases fuel with
  | zero => omega
  | succ fuel =>
    have hval := h.accepts (.head (by simp [Cat.continues, hs, factorOp, termOp, compareOp,
      equalOp])) fuel (by omega)
    have hret : parseReturnStmt fuel (t :: ts) = .ok (.returnStmt e, s :: rest) := by
      rw [parseReturnStmt, Lib.TokenParser.peek_bind, if_pos (by simp [ht]),
        Lib.TokenParser.advance_bind, List.tail_cons, bind_of_ok hval]
      rfl
    rw [parseStatment, Lib.TokenParser.peek_bind, if_neg (by simp [ht]), if_neg (by simp [ht]),
      if_pos (by simp [ht]), bind_of_ok hret, bind_of_ok (expect_complete hs)]
    rfl

/-- A statement that `parse_expr` parses. -/
theorem accepts_parseExpr {t s : Token} {ts rest : List Token} {stmt : Stmt}
    (hstart : t.type ≠ .tIf ∧ t.type ≠ .tComment ∧ t.type ≠ .tReturn) (hs : s.type = .tSemicolon)
    (h : ∀ fuel, 12 * ts.length + 22 ≤ fuel → parseExpr (fuel + 1) (t :: ts) = .ok (stmt, s :: rest)) :
    StmtAccepts .stmt (t :: ts) rest (.stmt stmt) := by
  intro _ fuel hfuel
  rw [List.length_cons] at hfuel
  obtain ⟨fuel, rfl⟩ : ∃ k, fuel = k + 2 := ⟨fuel - 2, by omega⟩
  rw [parseStatment, Lib.TokenParser.peek_bind, if_neg (by simp [hstart]),
    if_neg (by simp [hstart]), if_neg (by simp [hstart]), bind_of_ok (h fuel (by omega)),
    bind_of_ok (expect_complete hs)]
  rfl

theorem accepts_callStmt {s : Token} {ts rest : List Token} {e : Expr}
    (h : Derives .call ts (s :: rest) (.expr e)) (hs : s.type = .tSemicolon) :
    StmtAccepts .stmt ts rest (.stmt (.expr e)) := by
  obtain ⟨t, ts', rfl, ht⟩ := h.starts (by simp)
  have ht : t.type = .tCall := by simpa [Cat.starts] using ht
  refine accepts_parseExpr (by simp [ht]) hs fun fuel hfuel => ?_
  have hcall := h.accepts fuel (by rw [List.length_cons]; omega)
  rw [parseExpr, Lib.TokenParser.peek_bind, if_neg (by simp), if_pos (by simp [ht]),
    bind_of_ok hcall]
  rfl

theorem accepts_blockStmt {s : Token} {ts rest : List Token} {nodes : List Stmt}
    (h : DerivesStmt .block ts (s :: rest) (.nodes nodes)) (hs : s.type = .tSemicolon)
    (ih : StmtAccepts .block ts (s :: rest) (.nodes nodes)) :
    StmtAccepts .stmt ts rest (.stmt (.block nodes)) := by
  obtain ⟨t, ts', rfl, ht⟩ := h.starts_block
  refine accepts_parseExpr (by simp [ht]) hs fun fuel hfuel => ?_
  rw [parseExpr, Lib.TokenParser.peek_bind, if_neg (by simp), if_neg (by simp [ht]),
    if_pos (by simp [ht]), bind_of_ok (ih fuel (by rw [List.length_cons]; omega))]
  rfl

theorem accepts_exprStmt {s : Token} {ts rest : List Token} {e : Expr}
    (hc : pMatch ts.head? .tCall = false) (h : Derives .assign ts (s :: rest) (.expr e))
    (hs : s.type = .tSemicolon) : StmtAccepts .stmt ts rest (.stmt (.expr e)) := by
  obtain ⟨t, ts', rfl, ht⟩ := h.starts (by simp)
  have hne : t.type ≠ .tIf ∧ t.type ≠ .tComment ∧ t.type ≠ .tReturn ∧ t.type ≠ .tLeftBrace := by
    cases htype : t.type <;> simp_all [Cat.starts, startsExpr, startsPrimary, unaryOpOf]
  refine accepts_parseExpr (by simp [hne]) hs fun fuel hfuel => ?_
  have hexpr := h.accepts (.head (by simp [Cat.continues, hs, factorOp, termOp, compareOp,
    equalOp])) fuel (by rw [List.length_cons]; omega)
  rw [parseExpr, Lib.TokenParser.peek_bind, if_neg (by simp),
    if_neg (by rw [hc]; exact Bool.false_ne_true), if_neg (by simp [hne]), bind_of_ok hexpr]
  rfl

theorem accepts_varDecl {ts mid rest : List Token} {d : VarDecl} {nodes : List Stmt}
    (h : DerivesVarDecl ts mid d) (ih : StmtAccepts .items mid rest (.nodes nodes)) :
    StmtAccepts .items ts rest (.nodes (.varDecl d :: nodes)) := by
  intro hrest fuel hfuel
  have hlen := h.length_lt
  cases fuel with
  | zero => omega
  | succ fuel =>
    have hdecl := parseVarDecl_complete h fuel (by omega)
    obtain ⟨t, ts', rfl, ht⟩ := h.starts
    rw [parseBlockLoop, Lib.TokenParser.peek_bind, if_neg (by simp [ht]), if_pos (by simp [ht]),
      bind_of_ok hdecl, bind_of_ok (ih hrest fuel (by omega))]
    rfl

/-- A statement that starts with a comment is that comment. -/
theorem DerivesStmt.comment_of_starts {t : Token} {ts mid : List Token} {p : StmtPhrase}
    (h : DerivesStmt .stmt (t :: ts) mid p) (ht : t.type = .tComment) :
    mid = ts ∧ p = .stmt (.comment t.lexeme) := by
  cases h with
  | comment _ => exact ⟨rfl, rfl⟩
  | ifThen hi _ _ _ _ => exact absurd ht (by simp [hi])
  | ifElse hi _ _ _ _ _ _ => exact absurd ht (by simp [hi])
  | ret hret _ _ => exact absurd ht (by simp [hret])
  | call h _ =>
    obtain ⟨t', ts', heq, hstart⟩ := h.starts (by simp)
    obtain ⟨rfl, _⟩ := List.cons.inj heq
    exact absurd hstart (by simp [Cat.starts, ht])
  | blockStmt h _ =>
    obtain ⟨t', ts', heq, hstart⟩ := h.starts_block
    obtain ⟨rfl, _⟩ := List.cons.inj heq
    exact absurd ht (by simp [hstart])
  | expr _ h _ =>
    obtain ⟨t', ts', heq, hstart⟩ := h.starts (by simp)
    obtain ⟨rfl, _⟩ := List.cons.inj heq
    exact absurd hstart (by simp [Cat.starts, startsExpr, startsPrimary, unaryOpOf, ht])

/-- A comment is an item of its own, any other statement goes through `parse_statment`. -/
theorem accepts_cons {ts mid rest : List Token} {s : Stmt} {nodes : List Stmt}
    (h : DerivesStmt .stmt ts mid (.stmt s)) (hs : DerivesStmt .items mid rest (.nodes nodes))
    (ih : StmtAccepts .stmt ts mid (.stmt s)) (ihs : StmtAccepts .items mid rest (.nodes nodes)) :
    StmtAccepts .items ts rest (.nodes (s :: nodes)) := by
  intro hrest fuel hfuel
  have hlen := h.length_lt (by simp)
  cases fuel with
  | zero => omega
  | succ fuel =>
    have hnodes := ihs hrest fuel (by omega)
    obtain ⟨t, ts', rfl, ht⟩ := h.starts
    have hne : t.type ≠ .tRightBrace ∧ t.type ≠ .tLet := by
      cases htype : t.type <;> simp_all [startsStmt]
    rw [parseBlockLoop, Lib.TokenParser.peek_bind, if_neg (by simp [hne]), if_neg (by simp [hne])]
    by_cases hcomment : t.type = .tComment
    · obtain ⟨rfl, hnode⟩ := h.comment_of_starts hcomment
      obtain rfl := StmtPhrase.stmt.inj hnode
      rw [if_pos (by simp [hcomment]), bind_of_ok (parseCommentStmt_complete hcomment),
        bind_of_ok hnodes]
      rfl
    · have hstmt := ih (hs.items_not_else hrest) fuel (by omega)
      rw [if_neg (by simp [hcomment]), bind_of_ok hstmt, bind_of_ok hnodes]
      rfl

/-- **The statement functions are complete**: by induction on the derivation. -/
theorem DerivesStmt.accepts {c : StmtCat} {ts rest : List Token} {p : StmtPhrase}
    (h : DerivesStmt c ts rest p) : StmtAccepts c ts rest p := by
  induction h with
  | comment ht =>
    intro _ fuel hfuel
    cases fuel with
    | zero => omega
    | succ fuel =>
      rw [parseStatment, Lib.TokenParser.peek_bind, if_neg (by simp [ht]), if_pos (by simp [ht]),
        bind_of_ok (parseCommentStmt_complete ht)]
      rfl
  | ifThen hi hl hc hr _ ih => exact accepts_ifThen hi hl hc hr ih
  | ifElse hi hl hc hr hb he _ ih ih' => exact accepts_ifElse hi hl hc hr hb he ih ih'
  | ret ht h hs => exact accepts_ret ht h hs
  | call h hs => exact accepts_callStmt h hs
  | blockStmt h hs ih => exact accepts_blockStmt h hs ih
  | expr hc h hs => exact accepts_exprStmt hc h hs
  | nil =>
    intro hrest fuel hfuel
    cases fuel with
    | zero => omega
    | succ fuel =>
      rw [parseBlockLoop, Lib.TokenParser.peek_bind, if_pos hrest]
      rfl
  | varDecl h _ ih => exact accepts_varDecl h ih
  | cons h hs ih ihs => exact accepts_cons h hs ih ihs
  | block hl h hr ih =>
    intro fuel hfuel
    rw [List.length_cons] at hfuel
    cases fuel with
    | zero => omega
    | succ fuel =>
      rw [parseBlockStmt, Lib.TokenParser.peek_bind, List.head?_cons,
        bind_of_ok (assertMatch_complete hl), Lib.TokenParser.advance_bind, List.tail_cons,
        bind_of_ok (ih (by simp [hr]) fuel (by omega)), Lib.TokenParser.advance_bind]
      rfl

/-! ## Functions and programs -/

theorem parseFuncParam_complete {ts rest : List Token} {p : FuncParam}
    (h : DerivesParam ts rest p) : parseFuncParam ts = .ok (p, rest) := by
  cases h with
  | comma _ hv hi hc =>
    have htype := parseVarType_complete hv (by simp [hi]) (by simp [hi]) (by simp [hi, litOf])
    rw [parseFuncParam, bind_of_ok htype, bind_of_ok (parseIdentifierExpr_complete hi),
      Lib.TokenParser.peek_bind, if_pos (by simp [hc])]
    rfl
  | last _ hv hi hr =>
    have htype := parseVarType_complete hv (by simp [hi]) (by simp [hi]) (by simp [hi, litOf])
    rw [parseFuncParam, bind_of_ok htype, bind_of_ok (parseIdentifierExpr_complete hi),
      Lib.TokenParser.peek_bind, if_neg (by simp [hr]), if_pos (by simp [hr])]
    rfl

theorem DerivesParam.starts {ts rest : List Token} {p : FuncParam} (h : DerivesParam ts rest p) :
    (isVarType ts.head? || pMatch ts.head? .tIdentifier) = true ∧
      pMatch ts.head? .tRightParen = false := by
  have hf : (isVarType ts.head? || pMatch ts.head? .tIdentifier) = true := by
    cases h with
    | comma hf _ _ _ => exact hf
    | last hf _ _ _ => exact hf
  refine ⟨hf, ?_⟩
  cases ts with
  | nil => rfl
  | cons t ts =>
    by_cases ht : t.type = .tRightParen
    · simp [isVarType, ht] at hf
    · simp [ht]

theorem parseParamsLoop_complete {ts rest : List Token} {ps : List FuncParam}
    (h : DerivesParams ts rest ps) (hrest : pMatch rest.head? .tRightParen = true) :
    ∀ fuel, ts.length < fuel → parseParamsLoop fuel ts = .ok (ps, rest) := by
  induction h with
  | nil =>
    intro fuel hfuel
    cases fuel with
    | zero => omega
    | succ fuel =>
      rw [parseParamsLoop, Lib.TokenParser.peek_bind, if_pos hrest]
      rfl
  | cons h _ ih =>
    intro fuel hfuel
    have hlen := h.length_lt
    obtain ⟨hf, hr⟩ := h.starts
    cases fuel with
    | zero => omega
    | succ fuel =>
      rw [parseParamsLoop, Lib.TokenParser.peek_bind, if_neg (by simp [hr]), if_pos hf,
        bind_of_ok (parseFuncParam_complete h), bind_of_ok (ih hrest fuel (by omega))]
      rfl

theorem parseFuncType_complete {ts mid rest : List Token} {v : VarT} {i l r : Token}
    {ps : List FuncParam} {fuel : Nat} (htype : parseVarType ts = .ok (v, i :: l :: mid))
    (hi : i.type = .tIdentifier) (hl : l.type = .tLeftParen)
    (hparams : parseParamsLoop fuel mid = .ok (ps, r :: rest)) :
    parseFuncType fuel ts = .ok ((v, i.lexeme, ps), rest) := by
  have hall : parseAllFuncParams fuel (l :: mid) = .ok (ps, rest) := by
    rw [parseAllFuncParams, Lib.TokenParser.peek_bind, if_pos (by simp [hl]),
      Lib.TokenParser.advance_bind, List.tail_cons, bind_of_ok hparams,
      Lib.TokenParser.advance_bind]
    rfl
  rw [parseFuncType, bind_of_ok htype, Lib.TokenParser.peek_bind, if_pos (by simp [hi]),
    bind_of_ok (parseIdentifierExpr_complete hi), bind_of_ok hall]
  rfl

theorem DerivesFunc.starts {ts rest : List Token} {f : FuncDecl} (h : DerivesFunc ts rest f) :
    ∃ t ts', ts = t :: ts' ∧ t.type = .tFunc := by
  cases h with
  | func hf _ _ _ _ _ _ _ => exact ⟨_, _, rfl, hf⟩

theorem parseFuncDecl_complete {ts rest : List Token} {f : FuncDecl} (h : DerivesFunc ts rest f)
    (fuel : Nat) (hfuel : 12 * ts.length ≤ fuel + 1) : parseFuncDecl fuel ts = .ok (f, rest) := by
  cases h with
  | func hf hv hi hl hp hr hb hret =>
    have hlen := hv.consumes.length_le
    have hlen' := hp.consumes.length_le
    simp only [List.length_cons] at hfuel hlen hlen'
    have htype := parseVarType_complete hv (by simp [hi]) (by simp [hi]) (by simp [hi, litOf])
    have hparams := parseParamsLoop_complete hp (by simp [hr]) fuel (by omega)
    have hft := (parseFuncType_complete htype hi hl hparams)
    rw [parseFuncDecl, Lib.TokenParser.peek_bind, if_pos (by simp [hf]),
      Lib.TokenParser.advance_bind, List.tail_cons, bind_of_ok hft]
    simp only
    rw [bind_of_ok (hb.accepts fuel (by omega)), if_pos hret]
    rfl

theorem parseProgramLoop_complete {ts : List Token} {p : Program} (h : DerivesProgram ts p) :
    ∀ fuel, 12 * ts.length + 12 ≤ fuel → ∃ rest, parseProgramLoop fuel ts = .ok (p, rest) := by
  induction h with
  | eof ht =>
    intro fuel hfuel
    cases fuel with
    | zero => omega
    | succ fuel =>
      rw [parseProgramLoop, Lib.TokenParser.peek_bind, if_pos (by simp [ht])]
      exact ⟨_, rfl⟩
  | comment ht _ ih =>
    intro fuel hfuel
    rw [List.length_cons] at hfuel
    cases fuel with
    | zero => omega
    | succ fuel =>
      obtain ⟨rest, hnodes⟩ := ih fuel (by omega)
      rw [parseProgramLoop, Lib.TokenParser.peek_bind, if_neg (by simp [ht]),
        if_neg (by simp [ht]), if_neg (by simp [ht]), if_pos (by simp [ht]),
        bind_of_ok (parseCommentStmt_complete ht), bind_of_ok hnodes]
      exact ⟨_, rfl⟩
  | varDecl hd _ ih =>
    intro fuel hfuel
    have hlen := hd.length_lt
    cases fuel with
    | zero => omega
    | succ fuel =>
      obtain ⟨rest, hnodes⟩ := ih fuel (by omega)
      have hdecl := parseVarDecl_complete hd fuel (by omega)
      obtain ⟨t, ts', rfl, ht⟩ := hd.starts
      rw [parseProgramLoop, Lib.TokenParser.peek_bind, if_neg (by simp [ht]),
        if_neg (by simp [ht]), if_pos (by simp [ht]), bind_of_ok hdecl, bind_of_ok hnodes]
      exact ⟨_, rfl⟩
  | func hf _ ih =>
    intro fuel hfuel
    have hlen := hf.length_lt
    cases fuel with
    | zero => omega
    | succ fuel =>
      obtain ⟨rest, hnodes⟩ := ih fuel (by omega)
      have hdecl := parseFuncDecl_complete hf fuel (by omega)
      obtain ⟨t, ts', rfl, ht⟩ := hf.starts
      rw [parseProgramLoop, Lib.TokenParser.peek_bind, if_neg (by simp [ht]),
        if_pos (by simp [ht]), bind_of_ok hdecl, bind_of_ok hnodes]
      exact ⟨_, rfl⟩

/-! ## The parser and the grammar -/

theorem parseProgram_derives {ts : List Token} {p : Program} (heof : EofLast ts)
    (h : parseProgram ts = .ok p) : DerivesProgram ts p := by
  rw [parseProgram, parseProgramFuel] at h
  cases hrun : parseProgramLoop (parseFuel ts) ts with
  | error e => simp [hrun, Except.map] at h
  | ok r =>
    obtain ⟨q, rest⟩ := r
    simp [hrun, Except.map] at h
    exact h ▸ parseProgramLoop_sound (parseFuel ts) heof hrun

theorem parseProgram_of_derives {ts : List Token} {p : Program} (h : DerivesProgram ts p) :
    parseProgram ts = .ok p := by
  obtain ⟨rest, hrun⟩ := parseProgramLoop_complete h (parseFuel ts) (Nat.le_refl _)
  rw [parseProgram, parseProgramFuel, hrun]
  rfl

/-- A run that fails rejects. -/
theorem parseProgram_rejects {ts : List Token} (heof : EofLast ts) {e : ParseError}
    (h : parseProgram ts = .error e) : e.Rejects := by
  rw [parseProgram, parseProgramFuel] at h
  cases hrun : parseProgramLoop (parseFuel ts) ts with
  | error e' =>
    simp [hrun, Except.map] at h
    exact h ▸ (parseProgramLoop_rejects (parseFuel ts) ts heof (Nat.le_refl _) heof).2 e' hrun
  | ok r => simp [hrun, Except.map] at h

/-- **The parser accepts exactly its grammar**: on tokens that end in their only `T_EOF` it returns
`p` if and only if they derive `p`, and where they derive nothing it ends in `compile_error`,
`std_compile_error` or a failed `assert`. -/
theorem parseProgram_iff_derivesProgram (ts : List Token) (heof : EofLast ts) :
    (∀ p, parseProgram ts = .ok p ↔ DerivesProgram ts p) ∧
      ((¬ ∃ p, DerivesProgram ts p) → ∃ e, parseProgram ts = .error e ∧ e.Rejects) := by
  refine ⟨fun p => ⟨parseProgram_derives heof, parseProgram_of_derives⟩, fun hno => ?_⟩
  cases h : parseProgram ts with
  | error e => exact ⟨e, rfl, parseProgram_rejects heof h⟩
  | ok p => exact absurd ⟨p, parseProgram_derives heof h⟩ hno

/-- `fn f() { return 1; }` as tokens. -/
def returnOneTokens : List Token :=
  [⟨.tFunc, ascii "fn", 2, 1, 1⟩, ⟨.tIdentifier, ascii "f", 1, 1, 4⟩, ⟨.tLeftParen, ascii "(", 1, 1, 5⟩,
    ⟨.tRightParen, ascii ")", 1, 1, 6⟩, ⟨.tLeftBrace, ascii "\x7b", 1, 1, 8⟩,
    ⟨.tReturn, ascii "return", 6, 1, 10⟩, ⟨.tNumberLit, ascii "1", 1, 1, 17⟩,
    ⟨.tSemicolon, ascii ";", 1, 1, 18⟩, ⟨.tRightBrace, ascii "\x7d", 1, 1, 20⟩,
    ⟨.tEof, ascii "eof", 3, 1, 21⟩]

theorem eofLast_returnOneTokens : EofLast returnOneTokens :=
  ⟨returnOneTokens.dropLast, ⟨.tEof, ascii "eof", 3, 1, 21⟩, rfl, rfl, by decide⟩

theorem parseProgram_iff_derivesProgram_returnOne :
    parseProgram returnOneTokens = .ok [.funcDecl ⟨ascii "f", ⟨.lit .litQword, false, 0⟩, [],
        [.returnStmt (.literal ⟨1, none⟩)]⟩] ↔
      DerivesProgram returnOneTokens [.funcDecl ⟨ascii "f", ⟨.lit .litQword, false, 0⟩, [],
        [.returnStmt (.literal ⟨1, none⟩)]⟩] :=
  (parseProgram_iff_derivesProgram returnOneTokens eofLast_returnOneTokens).1 _

end ACompiler
