import ACompiler.Parser.Parens

/-!
# Expressions as tokens

`render` writes an expression with parentheses only where the precedence of its parts asks for them.
What it writes is a phrase of the grammar (`derives_body`), so the expression parser reads it back
(`parseAssignExpr_render`).
-/

namespace ACompiler

/-! ## Numbers -/

/-- A decimal digit. -/
def digitChar (d : Nat) : UInt8 := (48 + d).toUInt8

/-- A number in decimal. -/
def numberText (n : Nat) : CString :=
  if n = 0 then [48] else (Nat.digits 10 n).reverse.map digitChar

theorem digitChar_toNat {d : Nat} (h : d < 10) : (digitChar d).toNat = 48 + d := by
  rw [digitChar, UInt8.toNat_ofNat']
  omega

theorem isdigit_digitChar {d : Nat} (h : d < 10) : isdigit (digitChar d) = true := by
  interval_cases d <;> decide

theorem isdigit_of_mem_numberText {n : Nat} {c : UInt8} (h : c ∈ numberText n) : isdigit c = true := by
  unfold numberText at h
  split at h
  · rw [List.mem_singleton.mp h]
    decide
  · obtain ⟨d, hd, rfl⟩ := List.mem_map.mp h
    exact isdigit_digitChar (Nat.digits_lt_base (by decide) (List.mem_reverse.mp hd))

theorem digitsVal_map_digitChar {ds : List Nat} (h : ∀ d ∈ ds, d < 10) :
    digitsVal (ds.reverse.map digitChar) = Nat.ofDigits 10 ds := by
  rw [digitsVal, List.foldl_map, List.foldl_reverse, Nat.ofDigits_eq_foldr]
  refine List.foldr_ext _ _ _ fun d hd v => ?_
  rw [digitChar_toNat (h d hd)]
  simp only [Nat.cast_id]
  omega

/-- The digits of a number have its value. -/
theorem digitsVal_numberText (n : Nat) : digitsVal (numberText n) = n := by
  unfold numberText
  split
  · next h => rw [h]; rfl
  · rw [digitsVal_map_digitChar fun d hd => Nat.digits_lt_base (by decide) hd, Nat.ofDigits_digits]

theorem takeWhile_eq_self {w : CString} (h : ∀ c ∈ w, isdigit c = true) :
    w.takeWhile isdigit = w :=
  List.takeWhile_eq_self_iff.mpr h

/-- A digit is neither white space nor a sign, so the digits are read from it on. -/
theorem scanNumber_of_digit {c : UInt8} (hc : isdigit c = true) (w : CString) :
    scanNumber (c :: w) = (false, digitsVal ((c :: w).takeWhile isdigit)) := by
  have hspace : (c :: w).dropWhile isspace = c :: w := by
    rw [List.dropWhile_cons_of_neg]
    simp only [isdigit, Bool.and_eq_true, decide_eq_true_eq] at hc
    simp only [isspace, Bool.or_eq_true, Bool.and_eq_true, decide_eq_true_eq, beq_iff_eq]
    rintro (rfl | ⟨_, hle⟩)
    · exact absurd hc.1 (by decide)
    · rw [UInt8.le_iff_toNat_le] at hc hle
      exact absurd (Nat.le_trans hc.1 hle) (by decide)
  unfold scanNumber
  rw [hspace]
  split
  · next heq =>
    obtain ⟨rfl, _⟩ := List.cons.inj heq
    exact absurd hc (by decide)
  · next heq =>
    obtain ⟨rfl, _⟩ := List.cons.inj heq
    exact absurd hc (by decide)
  · rfl

theorem scanNumber_of_digits {w : CString} (h : ∀ c ∈ w, isdigit c = true) :
    scanNumber w = (false, digitsVal w) := by
  cases w with
  | nil => rfl
  | cons c w =>
    have hself := takeWhile_eq_self h
    rw [scanNumber_of_digit (h c List.mem_cons_self), hself]

theorem strtoll_numberText {n : Nat} (h : n < 2 ^ 63) : strtoll (numberText n) = n := by
  unfold strtoll
  rw [scanNumber_of_digits fun c hc => isdigit_of_mem_numberText hc, digitsVal_numberText]
  simp only
  omega

theorem strtoul_numberText {n : Nat} (h : n < 2 ^ 64) : strtoul (numberText n) = n := by
  unfold strtoul
  rw [scanNumber_of_digits fun c hc => isdigit_of_mem_numberText hc, digitsVal_numberText]
  simp only
  omega

/-! ## Rendering -/

/-- A token with its text. -/
def spelled (type : TokenType) (lexeme : CString) : Token := ⟨type, lexeme, lexeme.length, 1, 1⟩

def UnaryOp.token : UnaryOp → Token
  | .uPos => spelled .tPlus (ascii "+")
  | .uPlusPlus => spelled .tPlusPlus (ascii "++")
  | .uMinusMinus => spelled .tMinusMinus (ascii "--")
  | .uNeg => spelled .tMinus (ascii "-")
  | .uNot => spelled .tNot (ascii "!")
  | .uAddr => spelled .tAnd (ascii "&")

def BinaryOp.token : BinaryOp → Token
  | .bAdd => spelled .tPlus (ascii "+")
  | .bSub => spelled .tMinus (ascii "-")
  | .bMul => spelled .tStar (ascii "*")
  | .bDiv => spelled .tDivide (ascii "/")
  | .bLess => spelled .tLess (ascii "<")
  | .bGreater => spelled .tGreater (ascii ">")
  | .bEqualEqual => spelled .tEqualEqual (ascii "==")
  | .bNotEqual => spelled .tNotEqual (ascii "!=")
  | .bGeq => spelled .tGreaterEqual (ascii ">=")
  | .bLeq => spelled .tLessEqual (ascii "<=")

def BinaryOp.level : BinaryOp → Level
  | .bMul | .bDiv => .factor
  | .bAdd | .bSub => .term
  | .bLess | .bGreater | .bGeq | .bLeq => .compare
  | .bEqualEqual | .bNotEqual => .equal

def LitT.token : LitT → Token
  | .litByte => spelled .tByte (ascii "BYTE")
  | .litWord => spelled .tWord (ascii "WORD")
  | .litDword => spelled .tDword (ascii "DWORD")
  | .litQword => spelled .tQword (ascii "QWORD")

def LitAdrT.token : LitAdrT → Token
  | .adrByte => spelled .tByte (ascii "BYTE")
  | .adrWord => spelled .tWord (ascii "WORD")
  | .adrDword => spelled .tDword (ascii "DWORD")
  | .adrQword => spelled .tQword (ascii "QWORD")

def lparen : Token := spelled .tLeftParen (ascii "(")
def rparen : Token := spelled .tRightParen (ascii ")")
def lbracket : Token := spelled .tLeftBracket (ascii "[")
def rbracket : Token := spelled .tRightBracket (ascii "]")

/-- The base of a type, written out. -/
def VarBase.tokens : VarBase → List Token
  | .adr a => [spelled .tAnd (ascii "&"), a.token]
  | .lit l => [l.token]

def VarT.tokens (v : VarT) : List Token :=
  v.base.tokens ++
    if v.isArray then [lbracket, spelled .tNumberLit (numberText v.arrayLen), rbracket] else []

/-- How tight a level binds. -/
def Level.prec : Level → Nat
  | .equal => 1
  | .compare => 2
  | .term => 3
  | .factor => 4

/-- How tight an expression binds: assignments loosest, primary expressions tightest. -/
def Expr.prec : Expr → Nat
  | .assign _ _ => 0
  | .binary op _ _ => op.level.prec
  | .unary _ _ => 5
  | .index _ _ => 6
  | .identifier _ | .literal _ | .call _ _ | .cast _ _ => 7

/-- The tokens of an expression where something of precedence `p` is asked for. -/
def wrap (p : Nat) (e : Expr) (body : List Token) : List Token :=
  if p ≤ e.prec then body else lparen :: (body ++ [rparen])

mutual

/-- The tokens of an expression, without parentheses around it. -/
def renderBody : Expr → List Token
  | .identifier name => [spelled .tIdentifier name]
  | .literal ⟨_, some text⟩ => [spelled .tStringLit text]
  | .literal ⟨n, none⟩ => [spelled .tNumberLit (numberText n.toNat)]
  | .unary op e => op.token :: wrap 5 e (renderBody e)
  | .binary op left right =>
    wrap op.level.prec left (renderBody left) ++
      op.token :: wrap (op.level.prec + 1) right (renderBody right)
  | .assign target val =>
    wrap 1 target (renderBody target) ++
      spelled .tEqual (ascii "=") :: wrap 0 val (renderBody val)
  | .call callee args =>
    spelled .tCall (ascii "call") :: spelled .tIdentifier callee :: lparen ::
      (renderArgs args ++ [rparen])
  | .cast v inner => lparen :: (v.tokens ++ rparen :: wrap 7 inner (renderBody inner))
  | .index target idx =>
    wrap 6 target (renderBody target) ++ lbracket :: (wrap 1 idx (renderBody idx) ++ [rbracket])

/-- The arguments of a call, with commas between them. -/
def renderArgs : List Expr → List Token
  | [] => []
  | arg :: args => wrap 1 arg (renderBody arg) ++ renderMoreArgs args

def renderMoreArgs : List Expr → List Token
  | [] => []
  | arg :: args =>
    spelled .tComma (ascii ",") :: (wrap 1 arg (renderBody arg) ++ renderMoreArgs args)

end

/-- The tokens of an expression. -/
def render (e : Expr) : List Token := wrap 0 e (renderBody e)

/-! ## What can be rendered -/

/-- A type as the parser builds it. -/
def VarT.Built (v : VarT) : Prop := v.arrayLen < 2 ^ 32 ∧ (v.isArray = false → v.arrayLen = 0)

/-- A literal as the parser builds it. -/
def LiteralExpr.Built : LiteralExpr → Prop
  | ⟨n, none⟩ => 0 ≤ n ∧ n < 2 ^ 63
  | ⟨n, some _⟩ => n = intMin

mutual

/-- The expressions with a rendering: no `&`, and assignments to identifiers and indices only. -/
def Printable : Expr → Prop
  | .identifier _ => True
  | .literal lit => lit.Built
  | .unary op e => op ≠ .uAddr ∧ Printable e
  | .binary _ left right => Printable left ∧ Printable right
  | .assign target val => isAssignable target = true ∧ Printable target ∧ Printable val
  | .call _ args => PrintableArgs args
  | .cast v inner => v.Built ∧ Printable inner
  | .index target idx => Printable target ∧ Printable idx

def PrintableArgs : List Expr → Prop
  | [] => True
  | arg :: args => Printable arg ∧ PrintableArgs args

end

/-! ## A rendering is a phrase -/

/-- What is read where something of precedence `p` is asked for. -/
def catAt : Nat → Cat
  | 0 => .assign
  | 1 => .binary .equal
  | 2 => .binary .compare
  | 3 => .binary .term
  | 4 => .binary .factor
  | 5 => .unary
  | 6 => .postExpr
  | _ => .primary

theorem catAt_prec (l : Level) : catAt l.prec = .binary l := by cases l <;> rfl

theorem catAt_prec_succ (l : Level) : catAt (l.prec + 1) = l.operand := by cases l <;> rfl

/-- A phrase of one precedence is a phrase of the one below. -/
theorem derives_catAt_succ {p : Nat} (hp : p < 7) {ts rest : List Token} {e : Expr}
    (h : Derives (catAt (p + 1)) ts rest (.expr e)) : Derives (catAt p) ts rest (.expr e) := by
  interval_cases p
  · exact .equal h
  · exact .operand (l := .equal) h
  · exact .operand (l := .compare) h
  · exact .operand (l := .term) h
  · exact .operand (l := .factor) h
  · exact .ofPost h
  · exact .primary h

theorem derives_catAt_le {p q : Nat} (hpq : p ≤ q) (hq : q ≤ 7) {ts rest : List Token} {e : Expr}
    (h : Derives (catAt q) ts rest (.expr e)) : Derives (catAt p) ts rest (.expr e) := by
  induction q, hpq using Nat.le_induction with
  | base => exact h
  | succ q hpq ih => exact ih (by omega) (derives_catAt_succ (by omega) h)

theorem Expr.prec_le (e : Expr) : e.prec ≤ 7 := by
  cases e with
  | binary op _ _ => cases op <;> simp [Expr.prec, BinaryOp.level, Level.prec]
  | _ => simp [Expr.prec]

/-- Parentheses, where they are asked for, do not change the phrase. -/
theorem derives_wrap {e : Expr} {body : List Token}
    (hbody : ∀ rest, Derives (catAt e.prec) (body ++ rest) rest (.expr e))
    (hstart : ∃ t ts, body = t :: ts ∧ isVarType (some t) = false) {p : Nat} (hp : p ≤ 7)
    (rest : List Token) : Derives (catAt p) (wrap p e body ++ rest) rest (.expr e) := by
  unfold wrap
  split
  · next h => exact derives_catAt_le h e.prec_le (hbody rest)
  · refine derives_catAt_le hp (Nat.le_refl 7) ?_
    have hinner := derives_catAt_le (Nat.zero_le _) e.prec_le (hbody (rparen :: rest))
    obtain ⟨t, ts, rfl, ht⟩ := hstart
    rw [List.cons_append, List.append_assoc]
    exact .paren rfl ht hinner rfl

theorem wrap_starts {p : Nat} {e : Expr} {body : List Token}
    (h : ∃ t ts, body = t :: ts ∧ isVarType (some t) = false) (rest : List Token) :
    ∃ t ts, wrap p e body ++ rest = t :: ts ∧ isVarType (some t) = false := by
  unfold wrap
  split
  · obtain ⟨t, ts, rfl, ht⟩ := h
    exact ⟨t, ts ++ rest, rfl, ht⟩
  · exact ⟨lparen, _, rfl, rfl⟩

/-- No rendering starts with a token that makes a parenthesis a cast. -/
theorem renderBody_starts (e : Expr) (h : Printable e) :
    ∃ t ts, renderBody e = t :: ts ∧ isVarType (some t) = false := by
  match e, h with
  | .identifier name, _ => exact ⟨_, _, rfl, rfl⟩
  | .literal ⟨n, none⟩, _ => exact ⟨_, _, rfl, rfl⟩
  | .literal ⟨n, some text⟩, _ => exact ⟨_, _, rfl, rfl⟩
  | .unary op e, h =>
    refine ⟨op.token, _, rfl, ?_⟩
    cases op with
    | uAddr => exact absurd rfl h.1
    | _ => rfl
  | .binary op left right, h => exact wrap_starts (renderBody_starts left h.1) _
  | .assign target val, h => exact wrap_starts (renderBody_starts target h.2.1) _
  | .call callee args, _ => exact ⟨_, _, rfl, rfl⟩
  | .cast v inner, _ => exact ⟨_, _, rfl, rfl⟩
  | .index target idx, h => exact wrap_starts (renderBody_starts target h.1) _

theorem derives_base (b : VarBase) (rest : List Token) :
    DerivesBase (b.tokens ++ rest) rest b := by
  cases b with
  | adr a => cases a <;> exact .adr rfl rfl
  | lit l => cases l <;> exact .lit rfl

theorem derives_type {v : VarT} (h : v.Built) (rest : List Token) :
    DerivesType (v.tokens ++ rest) rest v := by
  obtain ⟨base, isArray, arrayLen⟩ := v
  obtain ⟨hlen, hscalar⟩ := h
  cases isArray with
  | false =>
    obtain rfl : arrayLen = 0 := hscalar rfl
    simp only [VarT.tokens, Bool.false_eq_true, if_false, List.append_nil]
    exact .scalar (derives_base base rest)
  | true =>
    have htype := DerivesType.array (derives_base base (lbracket ::
      spelled .tNumberLit (numberText arrayLen) :: rbracket :: rest)) rfl rfl rfl
    have hval : strtoul (spelled .tNumberLit (numberText arrayLen)).lexeme % 2 ^ 32 = arrayLen := by
      rw [spelled, strtoul_numberText (by simp only at hlen; omega), Nat.mod_eq_of_lt hlen]
    rw [hval] at htype
    simpa [VarT.tokens] using htype

theorem isVarType_tokens (v : VarT) (rest : List Token) :
    isVarType (v.tokens ++ rest).head? = true := by
  obtain ⟨base, _, _⟩ := v
  cases base with
  | adr a => rfl
  | lit l => cases l <;> rfl

theorem derives_literal {lit : LiteralExpr} (h : lit.Built) (rest : List Token) :
    Derives .primary (renderBody (.literal lit) ++ rest) rest (.expr (.literal lit)) := by
  obtain ⟨n, text⟩ := lit
  cases text with
  | none =>
    obtain ⟨hpos, hlt⟩ := h
    have hnumber := @Derives.number (spelled .tNumberLit (numberText n.toNat)) rest rfl
    have hval : strtoll (numberText n.toNat) = n := by
      rw [strtoll_numberText (by omega), Int.toNat_of_nonneg hpos]
    simp only [mkLiteralExpr, spelled, hval] at hnumber
    exact hnumber
  | some text =>
    obtain rfl : n = intMin := h
    exact .string rfl

mutual

/-- **What is rendered is a phrase with the expression as its tree.** -/
theorem derives_body (e : Expr) (h : Printable e) (rest : List Token) :
    Derives (catAt e.prec) (renderBody e ++ rest) rest (.expr e) := by
  match e, h with
  | .identifier name, _ => exact .identifier rfl
  | .literal lit, h => exact derives_literal h rest
  | .unary op e, h =>
    have hinner := derives_wrap (derives_body e h.2) (renderBody_starts e h.2)
      (by decide : 5 ≤ 7) rest
    cases op with
    | uAddr => exact absurd rfl h.1
    | _ => exact .unary rfl hinner
  | .binary op left right, h =>
    have hlevel : op.level.prec + 1 ≤ 7 := by cases op <;> decide
    have hright := derives_wrap (derives_body right h.2) (renderBody_starts right h.2) hlevel rest
    have hleft := derives_wrap (derives_body left h.1) (renderBody_starts left h.1)
      (Nat.le_of_succ_le hlevel) (op.token :: (wrap (op.level.prec + 1) right (renderBody right) ++
        rest))
    rw [catAt_prec_succ] at hright
    rw [catAt_prec] at hleft
    rw [renderBody, Expr.prec, catAt_prec, List.append_assoc]
    exact .operator hleft (by cases op <;> rfl) hright
  | .assign target val, h =>
    have hval := derives_wrap (derives_body val h.2.2) (renderBody_starts val h.2.2)
      (Nat.zero_le 7) rest
    have htarget := derives_wrap (derives_body target h.2.1) (renderBody_starts target h.2.1)
      (by decide : 1 ≤ 7) (spelled .tEqual (ascii "=") :: (wrap 0 val (renderBody val) ++ rest))
    rw [renderBody, List.append_assoc]
    exact .assign htarget rfl h.1 hval
  | .call callee args, h =>
    have hargs := derives_args args h rest
    simp only [renderBody, List.cons_append, List.append_assoc]
    exact .callExpr (.call (i := spelled .tIdentifier callee) rfl rfl rfl hargs rfl)
  | .cast v inner, h =>
    have hinner := derives_wrap (derives_body inner h.2) (renderBody_starts inner h.2)
      (Nat.le_refl 7) rest
    rw [renderBody, List.cons_append, List.append_assoc]
    exact .cast rfl (isVarType_tokens v _) (derives_type h.1 _) rfl hinner
  | .index target idx, h =>
    have hidx := derives_wrap (derives_body idx h.2) (renderBody_starts idx h.2)
      (by decide : 1 ≤ 7) (rbracket :: rest)
    have htarget := derives_wrap (derives_body target h.1) (renderBody_starts target h.1)
      (by decide : 6 ≤ 7) (lbracket :: (wrap 1 idx (renderBody idx) ++ rbracket :: rest))
    simp only [renderBody, List.cons_append, List.append_assoc]
    exact .index htarget rfl hidx rfl

theorem derives_args (args : List Expr) (h : PrintableArgs args) (rest : List Token) :
    Derives .args (renderArgs args ++ rparen :: rest) (rparen :: rest) (.exprs args) := by
  match args, h with
  | [], _ => exact .argsNil
  | arg :: args, h =>
    exact derives_moreArgs args h.2 (derives_wrap (derives_body arg h.1)
      (renderBody_starts arg h.1) (by decide : 1 ≤ 7)) rest

/-- An argument with those behind it. -/
theorem derives_moreArgs (args : List Expr) (h : PrintableArgs args) {arg : Expr}
    {body : List Token}
    (harg : ∀ rest, Derives (.binary .equal) (body ++ rest) rest (.expr arg)) (rest : List Token) :
    Derives .args (body ++ renderMoreArgs args ++ rparen :: rest) (rparen :: rest)
      (.exprs (arg :: args)) := by
  match args, h with
  | [], _ =>
    rw [renderMoreArgs, List.append_nil]
    exact .argsLast (harg (rparen :: rest))
  | arg' :: args, h =>
    have hrest := derives_moreArgs args h.2 (derives_wrap (derives_body arg' h.1)
      (renderBody_starts arg' h.1) (by decide : 1 ≤ 7)) rest
    rw [renderMoreArgs, List.append_assoc]
    exact .argsCons (harg _) rfl hrest

end

/-- **Rendering and parsing round-trip.** The expression parser, on the tokens of a printable
expression and a semicolon, returns that expression and stops at the semicolon. -/
theorem parseAssignExpr_render (e : Expr) (h : Printable e) (s : Token) (rest : List Token)
    (fuel : Nat) (hs : s.type = .tSemicolon)
    (hfuel : 12 * (render e ++ s :: rest).length + 10 ≤ fuel) :
    parseAssignExpr fuel (render e ++ s :: rest) = .ok (e, s :: rest) := by
  rw [parseAssignExpr_iff (by simp) hfuel]
  exact ⟨derives_wrap (derives_body e h) (renderBody_starts e h) (Nat.zero_le 7) (s :: rest),
    stops_semicolon hs⟩

/-- `x = -(a - (b - 1)) * call f(c, (d = 2));`. -/
def renderedExample : Expr :=
  .assign (.identifier (ascii "x")) (.binary .bMul
    (.unary .uNeg (.binary .bSub (.identifier (ascii "a"))
      (.binary .bSub (.identifier (ascii "b")) (.literal ⟨1, none⟩))))
    (.call (ascii "f") [.identifier (ascii "c"),
      .assign (.identifier (ascii "d")) (.literal ⟨2, none⟩)]))

theorem parseAssignExpr_render_example :
    parseAssignExpr 400 (render renderedExample ++ [spelled .tSemicolon (ascii ";")]) =
      .ok (renderedExample, [spelled .tSemicolon (ascii ";")]) :=
  parseAssignExpr_render renderedExample (by simp [renderedExample, Printable, PrintableArgs,
    LiteralExpr.Built, isAssignable]) _ [] 400 rfl (by decide)

end ACompiler
