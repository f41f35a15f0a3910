import ACompiler.Parser.Parens

/-!
# Casts

`syntax.md` puts a cast in front of any expression. `parse_cast_expr` reads a primary expression
behind the parenthesis, so the cast takes the leftmost operand of what follows, and an expression that
starts with a unary operator cannot be cast (`castDecl_iff`).
-/

namespace ACompiler

/-- The first token is a unary operator. -/
def startsUnary (ts : List Token) : Bool :=
  match ts with
  | [] => false
  | t :: _ => (unaryOpOf t.type).isSome

/-- The second expression is the first one with the operand `p` at its left end cast to `ty`. -/
inductive CastsLeft (ty : VarT) (p : Expr) : Expr → Expr → Prop
  | here : CastsLeft ty p p (.cast ty p)
  | binary {op : BinaryOp} {left left' right : Expr} (h : CastsLeft ty p left left') :
      CastsLeft ty p (.binary op left right) (.binary op left' right)
  | index {node node' idx : Expr} (h : CastsLeft ty p node node') :
      CastsLeft ty p (.index node idx) (.index node' idx)

/-- The tokens start with a primary expression, and a cast of it is what the two expressions differ
in. -/
def CastsLeftmost (ty : VarT) (ts : List Token) (e e' : Expr) : Prop :=
  ∃ mid p, Derives .primary ts mid (.expr p) ∧ CastsLeft ty p e e'

/-- A category whose phrases start with an operand that can be cast in place. -/
def Cat.castable : Cat → Bool
  | .binary _ | .unary | .postExpr | .primary => true
  | _ => false

theorem Level.castable_operand (l : Level) : l.operand.castable = true := by cases l <;> rfl

section casts
variable {T ts rest : List Token} {l r : Token} {ty : VarT}

/-- A cast in front of a primary expression. -/
theorem Derives.cast_of_primary {e : Expr} (hl : l.type = .tLeftParen) (hr : r.type = .tRightParen)
    (hT : isVarType T.head? = true) (hty : DerivesType (T ++ r :: ts) (r :: ts) ty)
    (h : Derives .primary ts rest (.expr e)) :
    Derives .primary (l :: T ++ r :: ts) rest (.expr (.cast ty e)) := by
  refine .cast hl ?_ hty hr h
  cases T with
  | nil => simp [isVarType] at hT
  | cons t T => exact hT

/-- **A cast in front of a phrase**, where its leftmost operand is a primary expression. -/
theorem Derives.cast_leftmost {c : Cat} {ph : Phrase} (hl : l.type = .tLeftParen)
    (hr : r.type = .tRightParen) (hT : isVarType T.head? = true)
    (hty : ∀ ts, DerivesType (T ++ r :: ts) (r :: ts) ty) (h : Derives c ts rest ph) :
    c.castable = true → startsUnary ts = false → ∀ e, ph = .expr e →
      ∃ e', CastsLeftmost ty ts e e' ∧ Derives c (l :: T ++ r :: ts) rest (.expr e') := by
  have hprimary {ts rest : List Token} {e : Expr} (h : Derives .primary ts rest (.expr e)) :
      ∃ e', CastsLeftmost ty ts e e' ∧ Derives .primary (l :: T ++ r :: ts) rest (.expr e') :=
    ⟨_, ⟨rest, e, h, .here⟩, h.cast_of_primary hl hr hT (hty ts)⟩
  induction h with
  | equal _ _ => exact fun hcat => absurd hcat (by simp [Cat.castable])
  | assign _ _ _ _ _ _ => exact fun hcat => absurd hcat (by simp [Cat.castable])
  | @operand lv _ _ _ _ ih =>
    intro _ hu e he
    obtain ⟨e', hleft, h'⟩ := ih lv.castable_operand hu e he
    exact ⟨e', hleft, .operand h'⟩
  | @operator _ _ _ _ t _ left right _ ht hr' ihl _ =>
    intro _ hu e he
    obtain rfl := Phrase.expr.inj he
    obtain ⟨left', ⟨mid, p, hp, hleft⟩, h'⟩ := ihl rfl hu left rfl
    exact ⟨_, ⟨mid, p, hp, .binary hleft⟩, .operator h' ht hr'⟩
  | unary ht _ _ => exact fun _ hu => absurd hu (by simp [startsUnary, ht])
  | ofPost _ ih =>
    intro _ hu e he
    obtain ⟨e', hleft, h'⟩ := ih rfl hu e he
    exact ⟨e', hleft, .ofPost h'⟩
  | primary h _ =>
    intro _ _ e he
    obtain rfl := Phrase.expr.inj he
    obtain ⟨e', hleft, h'⟩ := hprimary h
    exact ⟨e', hleft, .primary h'⟩
  | @index _ _ _ lb rb node idx _ hlb hi hrb ih _ =>
    intro _ hu e he
    obtain rfl := Phrase.expr.inj he
    obtain ⟨node', ⟨mid, p, hp, hleft⟩, h'⟩ := ih rfl hu node rfl
    exact ⟨_, ⟨mid, p, hp, .index hleft⟩, .index h' hlb hi hrb⟩
  | cast hl' hv ht' hr' h _ =>
    intro _ _ e he
    obtain rfl := Phrase.expr.inj he
    exact hprimary (.cast hl' hv ht' hr' h)
  | callExpr h _ =>
    intro _ _ e he
    obtain rfl := Phrase.expr.inj he
    exact hprimary (.callExpr h)
  | identifier ht =>
    intro _ _ e he
    obtain rfl := Phrase.expr.inj he
    exact hprimary (.identifier ht)
  | number ht =>
    intro _ _ e he
    obtain rfl := Phrase.expr.inj he
    exact hprimary (.number ht)
  | string ht =>
    intro _ _ e he
    obtain rfl := Phrase.expr.inj he
    exact hprimary (.string ht)
  | paren hl' hv h hr' _ =>
    intro _ _ e he
    obtain rfl := Phrase.expr.inj he
    exact hprimary (.paren hl' hv h hr')
  | call _ _ _ _ _ _ => exact fun hcat => absurd hcat (by simp [Cat.castable])
  | argsNil => exact fun hcat => absurd hcat (by simp [Cat.castable])
  | argsLast _ _ => exact fun hcat => absurd hcat (by simp [Cat.castable])
  | argsCons _ _ _ _ _ => exact fun hcat => absurd hcat (by simp [Cat.castable])

/-- In front of a parenthesis a type is read in one way. -/
theorem DerivesType.rest_eq {r' : Token} {mid : List Token} {ty' : VarT}
    (h : DerivesType ts (r :: rest) ty) (h' : DerivesType ts (r' :: mid) ty')
    (hr : r.type = .tRightParen) (hr' : r'.type = .tRightParen) : r' :: mid = r :: rest := by
  have hrun := parseVarType_complete h (by simp [hr]) (by simp [hr]) (by simp [hr, litOf])
  have hrun' := parseVarType_complete h' (by simp [hr']) (by simp [hr']) (by simp [hr', litOf])
  have heq := Except.ok.inj (hrun'.symm.trans hrun)
  exact (Prod.mk.inj heq).2

/-- Behind a cast stands a primary expression. -/
theorem Derives.not_startsUnary_of_cast {e : Expr} (hl : l.type = .tLeftParen)
    (hr : r.type = .tRightParen) (hT : isVarType T.head? = true)
    (hty : DerivesType (T ++ r :: ts) (r :: ts) ty)
    (h : Derives .primary (l :: T ++ r :: ts) rest (.expr e)) : startsUnary ts = false := by
  have hhead : isVarType (T ++ r :: ts).head? = true := by
    cases T with
    | nil => simp [isVarType] at hT
    | cons t T => exact hT
  rw [List.cons_append] at h
  generalize T ++ r :: ts = behind at h hty hhead
  cases h with
  | cast _ _ hty' hr' hinner =>
    obtain ⟨rfl, rfl⟩ := List.cons.inj (hty.rest_eq hty' hr hr')
    obtain ⟨t, ts', rfl, ht⟩ := hinner.starts (by simp)
    show (unaryOpOf t.type).isSome = false
    rw [unaryOpOf_of_startsPrimary ht]
    rfl
  | callExpr hcall =>
    cases hcall with
    | call hc _ _ _ _ => exact absurd hc (by simp [hl])
  | identifier hi => exact absurd hi (by simp [hl])
  | number hn => exact absurd hn (by simp [hl])
  | string hs => exact absurd hs (by simp [hl])
  | paren _ hv _ _ => exact absurd hv (by simpa using hhead)

end casts

/-! ## Declarations -/

section decl
variable {t i q l r s : Token} {T ts rest : List Token} {ty : VarT}

/-- The initialiser of `let v = ts ;`. -/
theorem DerivesVarDecl.initialiser {d : VarDecl} (hi : i.type = .tIdentifier)
    (hq : q.type = .tEqual) (h : DerivesVarDecl (t :: i :: q :: ts) rest d) :
    t.type = .tLet ∧ ∃ s' e, s'.type = .tSemicolon ∧ Derives (.binary .equal) ts (s' :: rest) (.expr e) ∧
      d = ⟨i.lexeme, ⟨.lit .litQword, false, 0⟩, some e⟩ := by
  have hbase {mid b} (hb : DerivesBase (i :: q :: ts) mid b) : mid = i :: q :: ts ∧ b = .lit .litQword := by
    cases hb with
    | adr ht _ => exact absurd ht (by simp [hi])
    | lit hp => exact absurd hp (by simp [hi, litOf])
    | empty => exact ⟨rfl, rfl⟩
  have htype {j p : Token} {mid : List Token} {v : VarT} (hv : DerivesType (i :: q :: ts) (j :: p :: mid) v) :
      j = i ∧ p = q ∧ mid = ts ∧ v = ⟨.lit .litQword, false, 0⟩ := by
    cases hv with
    | scalar hb =>
      obtain ⟨heq, rfl⟩ := hbase hb
      obtain ⟨rfl, htail⟩ := List.cons.inj heq
      obtain ⟨rfl, rfl⟩ := List.cons.inj htail
      exact ⟨rfl, rfl, rfl, rfl⟩
    | array hb hlb _ _ =>
      obtain ⟨heq, _⟩ := hbase hb
      obtain ⟨rfl, _⟩ := List.cons.inj heq
      exact absurd hlb (by simp [hi])
  cases h with
  | uninit ht hv _ hs =>
    obtain ⟨_, rfl, _⟩ := htype hv
    exact absurd hs (by simp [hq])
  | init ht hv _ _ he hs =>
    obtain ⟨rfl, rfl, rfl, rfl⟩ := htype hv
    exact ⟨ht, _, _, hs, he, rfl⟩

/-- **What can be cast**: where `let v = ts ;` is a declaration, so is `let v = (T) ts ;`, with the
leftmost operand cast, if and only if `ts` does not start with a unary operator. -/
theorem castDecl_iff {fuel fuel' : Nat} {e : Expr} (hi : i.type = .tIdentifier)
    (hq : q.type = .tEqual) (hl : l.type = .tLeftParen) (hr : r.type = .tRightParen)
    (hs : s.type = .tSemicolon) (hT : isVarType T.head? = true)
    (hty : parseVarType (T ++ [r]) = .ok (ty, [r]))
    (h : parseVarDecl fuel (t :: i :: q :: (ts ++ s :: rest)) =
      .ok (⟨i.lexeme, ⟨.lit .litQword, false, 0⟩, some e⟩, rest))
    (hfuel : 12 * (t :: i :: q :: (l :: T ++ r :: (ts ++ s :: rest))).length ≤ fuel') :
    (∃ e', parseVarDecl fuel' (t :: i :: q :: (l :: T ++ r :: (ts ++ s :: rest))) =
        .ok (⟨i.lexeme, ⟨.lit .litQword, false, 0⟩, some e'⟩, rest) ∧
      CastsLeftmost ty (ts ++ s :: rest) e e') ↔ startsUnary ts = false := by
  have hder := parseVarDecl_sound h
  obtain ⟨ht, s', e₀, hs', hinit, hd⟩ := hder.initialiser hi hq
  obtain rfl := Option.some.inj (VarDecl.mk.inj hd).2.2
  have hend : s' = s := by
    obtain ⟨used, hused, _⟩ := hinit.follow
    rw [List.append_cons, List.append_cons used] at hused
    have hlast := (List.append_inj' (List.append_cancel_right hused) rfl).2
    exact (List.cons.inj hlast).1.symm
  rw [hend] at hinit
  have htype (more : List Token) : DerivesType (T ++ r :: more) (r :: more) ty := by
    obtain ⟨used, hused, hfollow⟩ := (parseVarType_sound hty).follow
    rw [List.append_cancel_right hused]
    exact hfollow (r :: more)
  have hunary : startsUnary (ts ++ s :: rest) = startsUnary ts := by
    cases ts with
    | nil => exact absurd (hinit.length_lt (by simp)) (by simp)
    | cons t₁ ts => rfl
  constructor
  · rintro ⟨e', hrun, _⟩
    obtain ⟨_, s₁, e₁, hs₁, hcast, _⟩ := (parseVarDecl_sound hrun).initialiser hi hq
    obtain ⟨mid, p, hprim⟩ := hcast.leftmost (by simp) l rfl (by simp [startsPrimary, hl])
    rw [← hunary]
    exact hprim.not_startsUnary_of_cast hl hr hT (htype _)
  · intro hu
    obtain ⟨e', hleft, hcast⟩ :=
      hinit.cast_leftmost hl hr hT htype rfl (hunary.trans hu) e rfl
    refine ⟨e', parseVarDecl_complete ?_ fuel' (by omega), hleft⟩
    exact .init ht (.scalar .empty) hi hq hcast hs

end decl

/-- `let v = `, the tokens given, and `;`. -/
def letTokens (ts : List Token) : List Token :=
  ⟨.tLet, ascii "let", 3, 1, 3⟩ :: ⟨.tIdentifier, ascii "v", 1, 1, 5⟩ ::
    ⟨.tEqual, ascii "=", 1, 1, 7⟩ :: (ts ++ [⟨.tSemicolon, ascii ";", 1, 1, 20⟩,
      ⟨.tEof, ascii "eof", 3, 2 ^ 32 - 1, 2 ^ 32 - 1⟩])

/-- `(BYTE)`. -/
def toByteTokens : List Token :=
  [⟨.tLeftParen, ascii "(", 1, 1, 9⟩, ⟨.tByte, ascii "BYTE", 4, 1, 13⟩,
    ⟨.tRightParen, ascii ")", 1, 1, 14⟩]

/-- `let v = (BYTE) x + 1;`. -/
theorem castDecl_iff_sum : ∃ e', parseVarDecl 200 (letTokens (toByteTokens ++
      [⟨.tIdentifier, ascii "x", 1, 1, 16⟩, ⟨.tPlus, ascii "+", 1, 1, 18⟩,
        ⟨.tNumberLit, ascii "1", 1, 1, 19⟩])) =
      .ok (⟨ascii "v", ⟨.lit .litQword, false, 0⟩, some e'⟩,
        [⟨.tEof, ascii "eof", 3, 2 ^ 32 - 1, 2 ^ 32 - 1⟩]) ∧
    CastsLeftmost ⟨.lit .litByte, false, 0⟩
      [⟨.tIdentifier, ascii "x", 1, 1, 16⟩, ⟨.tPlus, ascii "+", 1, 1, 18⟩,
        ⟨.tNumberLit, ascii "1", 1, 1, 19⟩, ⟨.tSemicolon, ascii ";", 1, 1, 20⟩,
        ⟨.tEof, ascii "eof", 3, 2 ^ 32 - 1, 2 ^ 32 - 1⟩]
      (.binary .bAdd (.identifier (ascii "x")) (.literal ⟨1, none⟩)) e' :=
  (@castDecl_iff ⟨.tLet, ascii "let", 3, 1, 3⟩ ⟨.tIdentifier, ascii "v", 1, 1, 5⟩
    ⟨.tEqual, ascii "=", 1, 1, 7⟩ _ _ _ [⟨.tByte, ascii "BYTE", 4, 1, 13⟩]
    [⟨.tIdentifier, ascii "x", 1, 1, 16⟩, ⟨.tPlus, ascii "+", 1, 1, 18⟩,
      ⟨.tNumberLit, ascii "1", 1, 1, 19⟩] _ _ 100 200 _ rfl rfl rfl rfl rfl rfl rfl rfl
    (by decide)).mpr rfl

/-- `let v = -x;` is a declaration, and `let v = (BYTE) -x;` is a syntax error. -/
theorem castDecl_unary :
    parseProgram (letTokens [⟨.tMinus, ascii "-", 1, 1, 16⟩,
      ⟨.tIdentifier, ascii "x", 1, 1, 17⟩]) = .ok [.varDecl ⟨ascii "v",
        ⟨.lit .litQword, false, 0⟩, some (.unary .uNeg (.identifier (ascii "x")))⟩] ∧
    parseProgram (letTokens (toByteTokens ++ [⟨.tMinus, ascii "-", 1, 1, 16⟩,
      ⟨.tIdentifier, ascii "x", 1, 1, 17⟩])) =
      .error (.compileError ⟨.tMinus, ascii "-", 1, 1, 16⟩ "expected a primary expression") :=
  ⟨rfl, rfl⟩

end ACompiler
