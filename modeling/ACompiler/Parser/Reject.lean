import ACompiler.Parser.Sound

/-!
# What the parser does not accept it rejects

On tokens that end in their only `T_EOF`, the cursor never passes it, and a run that returns no tree
ends in `compile_error`, `std_compile_error` or a failed `assert` (`ParseError.Rejects`): no field of
a `NULL` token is read, no `NULL` node is returned, and the fuel lasts. Each function needs twelve
units of fuel for a token, and a few more for the functions it calls before it takes one.
-/

namespace ACompiler

open Lib (TokenParser)
open Lib.TokenParser (fail peek peekNext advance bind_run bind_eq_ok bind_eq_error Always always_ret
  always_fail always_onPeek always_onPeekNext always_onAdvance)

/-- The error is the parser's verdict on its input. -/
def ParseError.Rejects : ParseError → Prop
  | .compileError _ _ | .stdCompileError _ | .assertFailed => True
  | .nullToken | .nullNode | .outOfFuel => False

/-- The cursor never passes the `T_EOF`, and if the run fails, it rejects. -/
def RejectsOnly {α : Type} (x : Parse α) (ts : List Token) : Prop :=
  EofLast ts → Always EofLast x ts ∧ ∀ e, x ts = .error e → e.Rejects

section rejectsOnly
variable {α β : Type} {ts : List Token}

theorem RejectsOnly.bind {x : Parse α} {f : α → Parse β} (hx : RejectsOnly x ts)
    (hf : ∀ a rest, x ts = .ok (a, rest) → RejectsOnly (f a) rest) : RejectsOnly (x >>= f) ts := by
  intro heof
  obtain ⟨halways, hrejects⟩ := hx heof
  refine ⟨halways.bind fun a rest hok => (hf a rest hok (halways.rest hok)).1, fun e h => ?_⟩
  rcases bind_eq_error.mp h with h | ⟨a, rest, hok, h⟩
  · exact hrejects e h
  · exact (hf a rest hok (halways.rest hok)).2 e h

theorem rejectsOnly_pure (a : α) : RejectsOnly (pure a : Parse α) ts :=
  fun heof => ⟨always_ret a heof, by simp⟩

theorem rejectsOnly_fail {e : ParseError} (he : e.Rejects) :
    RejectsOnly (fail e : Parse α) ts := by
  refine fun heof => ⟨always_fail e heof, fun e' h => ?_⟩
  simp at h
  exact h ▸ he

theorem rejectsOnly_compileError {ts' : List Token} {message : String} (h : ts' ≠ []) :
    RejectsOnly (compileError ts'.head? message : Parse α) ts := by
  cases ts' with
  | nil => exact absurd rfl h
  | cons t ts' => exact rejectsOnly_fail trivial

theorem rejectsOnly_peek {f : Option Token → Parse α} (h : RejectsOnly (f ts.head?) ts) :
    RejectsOnly (peek >>= f) ts :=
  fun heof => ⟨always_onPeek (h heof).1, (h heof).2⟩

theorem rejectsOnly_peekNext {f : Option Token → Parse α} (h : RejectsOnly (f ts[1]?) ts) :
    RejectsOnly (peekNext >>= f) ts :=
  fun heof => ⟨always_onPeekNext (h heof).1, (h heof).2⟩

theorem rejectsOnly_advance {f : Unit → Parse α} (htail : EofLast ts → EofLast ts.tail)
    (h : RejectsOnly (f ()) ts.tail) : RejectsOnly (advance >>= f) ts :=
  fun heof => ⟨always_onAdvance heof (h (htail heof)).1, (h (htail heof)).2⟩

theorem rejectsOnly_ite {p : Prop} [Decidable p] {x y : Parse α} (hx : p → RejectsOnly x ts)
    (hy : ¬ p → RejectsOnly y ts) : RejectsOnly (if p then x else y) ts := by
  by_cases h : p
  · rw [if_pos h]
    exact hx h
  · rw [if_neg h]
    exact hy h

end rejectsOnly

/-! ## Single tokens and types -/

section tokens
variable {ts : List Token}

theorem EofLast.of_pMatch {type : TokenType} (h : EofLast ts)
    (hm : pMatch ts.head? type = true) (hne : type ≠ .tEof) : EofLast ts.tail := by
  obtain ⟨t, rest, rfl, ht⟩ := pMatch_eq_true hm
  exact h.of_cons (ht ▸ hne)

theorem length_tail_of_pMatch {type : TokenType} (hm : pMatch ts.head? type = true) :
    ts.tail.length < ts.length := by
  obtain ⟨t, rest, rfl, _⟩ := pMatch_eq_true hm
  simp

theorem rejectsOnly_expect {type : TokenType} {message : String} (hne : type ≠ .tEof)
    (h : ts ≠ []) : RejectsOnly (expect type message) ts := by
  refine rejectsOnly_peek (rejectsOnly_ite (fun hm => ?_) fun _ => rejectsOnly_compileError h)
  exact rejectsOnly_advance (fun heof => heof.of_pMatch hm hne) (rejectsOnly_pure ())

theorem rejectsOnly_assertType {type : TokenType} (h : ts ≠ []) :
    RejectsOnly (assertType ts.head? type) ts := by
  cases ts with
  | nil => exact absurd rfl h
  | cons t ts => exact rejectsOnly_ite (fun _ => rejectsOnly_pure _) fun _ => rejectsOnly_fail trivial

theorem rejectsOnly_assertMatch {token : Option Token} {type : TokenType} :
    RejectsOnly (assertMatch token type) ts :=
  rejectsOnly_ite (fun _ => rejectsOnly_pure _) fun _ => rejectsOnly_fail trivial

theorem rejectsOnly_parseIdentifierExpr (h : ts ≠ []) : RejectsOnly parseIdentifierExpr ts := by
  cases ts with
  | nil => exact absurd rfl h
  | cons t ts =>
    refine rejectsOnly_peek (rejectsOnly_ite (fun ht => ?_) fun _ => ?_)
    · exact rejectsOnly_advance (fun heof => heof.of_cons (ht ▸ by decide)) (rejectsOnly_pure _)
    · exact rejectsOnly_compileError h

theorem rejectsOnly_parseLiteralExpr (h : ts ≠ []) : RejectsOnly parseLiteralExpr ts := by
  cases ts with
  | nil => exact absurd rfl h
  | cons t ts =>
    refine rejectsOnly_peek (rejectsOnly_ite (fun ht => ?_) fun _ =>
      rejectsOnly_ite (fun ht => ?_) ?_)
    · exact rejectsOnly_advance (fun heof => heof.of_cons (ht ▸ by decide)) (rejectsOnly_pure _)
    · exact rejectsOnly_advance (fun heof => heof.of_cons (ht ▸ by decide)) (rejectsOnly_pure _)
    · exact fun _ => rejectsOnly_compileError h

theorem rejectsOnly_parseArrayLen (base : VarBase) (h : EofLast ts) :
    RejectsOnly (parseArrayLen base) ts := by
  refine rejectsOnly_peek (rejectsOnly_ite (fun hl => ?_) fun _ => rejectsOnly_pure _)
  have hts := h.of_pMatch hl (by decide)
  refine rejectsOnly_advance (fun _ => hts) (rejectsOnly_peek ?_)
  cases htail : ts.tail with
  | nil => exact absurd htail hts.ne_nil
  | cons n ts' =>
    rw [htail] at hts
    refine rejectsOnly_ite (fun hn => ?_) fun _ => rejectsOnly_compileError hts.ne_nil
    have hts' := hts.of_cons (hn ▸ by decide)
    exact rejectsOnly_advance (fun _ => hts') ((rejectsOnly_expect (by decide) hts'.ne_nil).bind
      fun _ _ _ => rejectsOnly_pure _)

/-- The base of a type leaves the cursor on its last token, or where it was. -/
theorem getVarType_eofLast {base : VarBase} {hasExplicitType : Bool} {rest : List Token}
    (h : EofLast ts) (hr : getVarType ts.head? ts = .ok ((base, hasExplicitType), rest)) :
    EofLast rest ∧ (hasExplicitType = true → EofLast rest.tail) := by
  cases ts with
  | nil => exact absurd rfl h.ne_nil
  | cons t ts =>
    by_cases ht : t.type = .tAnd
    · have hts := h.of_cons (ht ▸ by decide)
      cases ts with
      | nil => exact absurd rfl hts.ne_nil
      | cons p ts =>
        cases ha : litAdrOf p.type with
        | none => simp [getVarType, ht, ha] at hr
        | some a =>
          simp [getVarType, ht, ha] at hr
          obtain ⟨_, rfl⟩ := hr
          exact ⟨hts, fun _ => hts.of_cons (isExprToken_of_litAdrOf ha).ne_eof⟩
    · cases hl : litOf t.type with
      | none =>
        simp [getVarType, ht, hl] at hr
        obtain ⟨⟨_, rfl⟩, rfl⟩ := hr
        exact ⟨h, by simp⟩
      | some l =>
        simp [getVarType, ht, hl] at hr
        obtain ⟨_, rfl⟩ := hr
        exact ⟨h, fun _ => h.of_cons (isExprToken_of_litOf hl).ne_eof⟩

theorem rejectsOnly_parseVarType (h : EofLast ts) : RejectsOnly parseVarType ts := by
  refine rejectsOnly_peek (RejectsOnly.bind ?_ fun r rest hr => ?_)
  · cases ts with
    | nil => exact absurd rfl h.ne_nil
    | cons t ts =>
      refine rejectsOnly_ite (fun ht => ?_) fun _ => ?_
      · have hts := h.of_pMatch ht (by decide)
        refine rejectsOnly_advance (fun _ => hts) (rejectsOnly_peek ?_)
        show RejectsOnly _ ts
        cases ts with
        | nil => exact absurd rfl hts.ne_nil
        | cons p ts =>
          cases ha : litAdrOf p.type with
          | none =>
            simp only [List.tail_cons, List.head?_cons, ha]
            exact @rejectsOnly_compileError _ _ (t :: p :: ts) _ (by simp)
          | some a =>
            simp only [List.tail_cons, List.head?_cons, ha]
            exact rejectsOnly_pure _
      · cases hl : litOf t.type with
        | none =>
          simp only [List.head?_cons, hl]
          exact rejectsOnly_pure _
        | some l =>
          simp only [List.head?_cons, hl]
          exact rejectsOnly_pure _
  · obtain ⟨base, hasExplicitType⟩ := r
    refine rejectsOnly_ite (fun hexp => ?_) fun _ => ?_
    · have htail := (getVarType_eofLast h hr).2 hexp
      exact rejectsOnly_advance (fun _ => htail) (rejectsOnly_parseArrayLen base htail)
    · exact rejectsOnly_parseArrayLen base (getVarType_eofLast h hr).1

end tokens

/-! ## Expressions -/

/-- `x` rejects only, on tokens that need no more fuel than there is. -/
def RejectsWithin {α : Type} (x : Parse α) (rank fuel : Nat) : Prop :=
  ∀ ts, EofLast ts → 12 * ts.length + rank ≤ fuel → RejectsOnly x ts

theorem binaryLoop_rejects {l : Level} {sub : Parse Expr}
    (hsound : ∀ {ts rest e}, sub ts = .ok (e, rest) → Derives l.operand ts rest (.expr e)) :
    ∀ (fuel : Nat) (ts : List Token) (left : Expr), EofLast ts → ts.length < fuel →
      (∀ ts', EofLast ts' → ts'.length < ts.length → RejectsOnly sub ts') →
        RejectsOnly (binaryLoop l.op sub fuel left) ts := by
  intro fuel
  induction fuel with
  | zero => intro ts left _ hfuel; omega
  | succ fuel ih =>
    intro ts left heof hfuel hsub
    refine rejectsOnly_peek ?_
    cases hop : ts.head?.bind fun t => l.op t.type with
    | none => exact rejectsOnly_pure _
    | some b =>
      cases ts with
      | nil => simp at hop
      | cons t ts =>
        simp only [List.head?_cons, Option.bind_some] at hop
        have htail := heof.of_cons (isExprToken_of_op hop).ne_eof
        refine rejectsOnly_advance (fun _ => htail) ((hsub ts htail (by simp)).bind fun right rest hright => ?_)
        have hderives := hsound hright
        have hlen : rest.length < ts.length :=
          hderives.length_lt (by cases l <;> simp [Level.operand])
        rw [List.length_cons] at hfuel
        refine ih rest _ (htail.of_consumes hderives.consumes_ne_eof) (by omega) ?_
        intro ts' heof' hlen'
        refine hsub ts' heof' ?_
        rw [List.length_cons]
        omega

/-- What each expression function needs to reject only. -/
structure ExprRejects (fuel : Nat) : Prop where
  cast : RejectsWithin (parseCastExpr fuel) 1 fuel
  argsLoop : RejectsWithin (parseArgsLoop fuel) 10 fuel
  args : RejectsWithin (parseArgs fuel) 1 fuel
  call : ∀ ts, EofLast ts → pMatch ts.head? .tCall = true → 12 * ts.length + 1 ≤ fuel →
    RejectsOnly (parseCallExpr fuel) ts
  primary : RejectsWithin (parsePrimary fuel) 2 fuel
  postfixLoop : ∀ node, RejectsWithin (parsePostfixLoop fuel node) 1 fuel
  postExpr : RejectsWithin (parsePostfix fuel) 3 fuel
  unary : RejectsWithin (parseUnaryExpr fuel) 4 fuel
  factor : RejectsWithin (parseFactor fuel) 5 fuel
  term : RejectsWithin (parseTerm fuel) 6 fuel
  compare : RejectsWithin (parseCompare fuel) 7 fuel
  equal : RejectsWithin (parseEqual fuel) 8 fuel
  binary : RejectsWithin (parseBinaryExpr fuel) 9 fuel
  assign : RejectsWithin (parseAssignExpr fuel) 10 fuel

section step
variable {fuel : Nat} (ih : ExprRejects fuel)
include ih

theorem parseCastExpr_rejects : RejectsWithin (parseCastExpr (fuel + 1)) 1 (fuel + 1) := by
  intro ts heof hfuel
  refine rejectsOnly_peek ((rejectsOnly_assertType heof.ne_nil).bind fun _ rest hl => ?_)
  cases ts with
  | nil => exact absurd rfl heof.ne_nil
  | cons l ts =>
    by_cases hlt : l.type = .tLeftParen
    · simp [assertType, hlt] at hl
      subst hl
      have htail := heof.of_cons (hlt ▸ by decide)
      refine rejectsOnly_advance (fun _ => htail) ((rejectsOnly_parseVarType htail).bind
        fun v mid hv => ?_)
      have htype := parseVarType_sound hv
      have hmid := htail.of_consumes htype.consumes_ne_eof
      refine rejectsOnly_peek ((rejectsOnly_assertType hmid.ne_nil).bind fun _ rest hr => ?_)
      cases mid with
      | nil => exact absurd rfl hmid.ne_nil
      | cons r mid =>
        by_cases hrt : r.type = .tRightParen
        · simp [assertType, hrt] at hr
          subst hr
          have hrest := hmid.of_cons (hrt ▸ by decide)
          refine rejectsOnly_advance (fun _ => hrest) ((ih.primary _ hrest ?_).bind
            fun _ _ _ => rejectsOnly_pure _)
          have hlen := htype.consumes.length_le
          simp only [List.length_cons] at *
          omega
        · simp [assertType, hrt] at hr
    · simp [assertType, hlt] at hl

theorem parseArgsLoop_rejects : RejectsWithin (parseArgsLoop (fuel + 1)) 10 (fuel + 1) := by
  intro ts heof hfuel
  refine rejectsOnly_peek (rejectsOnly_ite (fun _ => rejectsOnly_pure _) fun _ => ?_)
  refine (ih.binary ts heof (by omega)).bind fun arg mid harg => rejectsOnly_peek ?_
  have hderives := (exprSound fuel).binary harg
  have hmid := heof.of_consumes hderives.consumes_ne_eof
  have hlen := hderives.length_lt (by simp)
  refine rejectsOnly_ite (fun hc => ?_) fun _ => rejectsOnly_pure _
  have hlen' := length_tail_of_pMatch hc
  have hrest := hmid.of_pMatch hc (by decide)
  exact rejectsOnly_advance (fun _ => hrest) ((ih.argsLoop _ hrest (by omega)).bind
    fun _ _ _ => rejectsOnly_pure _)

theorem parseArgs_rejects : RejectsWithin (parseArgs (fuel + 1)) 1 (fuel + 1) := by
  intro ts heof hfuel
  refine (rejectsOnly_expect (by decide) heof.ne_nil).bind fun _ mid hl => ?_
  obtain ⟨l, rfl, hlt⟩ := expect_eq_ok hl
  have hmid := heof.of_cons (hlt ▸ by decide)
  rw [List.length_cons] at hfuel
  refine (ih.argsLoop mid hmid (by omega)).bind fun args rest hargs => ?_
  have hrest := hmid.of_consumes ((exprSound fuel).argsLoop hargs).consumes_ne_eof
  exact (rejectsOnly_expect (by decide) hrest.ne_nil).bind fun _ _ _ => rejectsOnly_pure _

theorem parseCallExpr_rejects (ts : List Token) (heof : EofLast ts)
    (hc : pMatch ts.head? .tCall = true) (hfuel : 12 * ts.length + 1 ≤ fuel + 1) :
    RejectsOnly (parseCallExpr (fuel + 1)) ts := by
  refine rejectsOnly_peek (rejectsOnly_ite (fun _ => ?_) fun h => absurd hc h)
  have htail := heof.of_pMatch hc (by decide)
  have hlen := length_tail_of_pMatch hc
  refine rejectsOnly_advance (fun _ => htail) (rejectsOnly_peek (rejectsOnly_ite (fun hi => ?_)
    fun _ => ?_))
  · refine (rejectsOnly_parseIdentifierExpr htail.ne_nil).bind fun callee rest hcallee => ?_
    obtain ⟨i, hts, hit, _⟩ := parseIdentifierExpr_sound hcallee
    rw [hts] at htail hlen
    have hrest := htail.of_cons (hit ▸ by decide)
    rw [List.length_cons] at hlen
    refine rejectsOnly_peek (rejectsOnly_ite (fun _ => ?_) fun _ =>
      rejectsOnly_compileError hrest.ne_nil)
    exact (ih.args rest hrest (by omega)).bind fun _ _ _ => rejectsOnly_pure _
  · exact rejectsOnly_compileError htail.ne_nil

theorem parsePrimary_rejects : RejectsWithin (parsePrimary (fuel + 1)) 2 (fuel + 1) := by
  intro ts heof hfuel
  refine rejectsOnly_peek (rejectsOnly_peekNext ?_)
  refine rejectsOnly_ite (fun _ => ih.cast ts heof (by omega)) fun _ => ?_
  refine rejectsOnly_ite (fun hc => ih.call ts heof hc (by omega)) fun _ => ?_
  refine rejectsOnly_ite (fun _ => ?_) fun _ => ?_
  · exact (rejectsOnly_parseIdentifierExpr heof.ne_nil).bind fun _ _ _ => rejectsOnly_pure _
  · refine rejectsOnly_ite (fun _ => rejectsOnly_parseLiteralExpr heof.ne_nil) fun _ => ?_
    refine rejectsOnly_ite (fun hl => ?_) fun _ => rejectsOnly_compileError heof.ne_nil
    have htail := heof.of_pMatch hl (by decide)
    have hlen := length_tail_of_pMatch hl
    refine rejectsOnly_advance (fun _ => htail) ((ih.assign _ htail (by omega)).bind
      fun inner rest hinner => ?_)
    have hrest := htail.of_consumes ((exprSound fuel).assign hinner).consumes_ne_eof
    exact (rejectsOnly_expect (by decide) hrest.ne_nil).bind fun _ _ _ => rejectsOnly_pure _

theorem parsePostfixLoop_rejects (node : Expr) :
    RejectsWithin (parsePostfixLoop (fuel + 1) node) 1 (fuel + 1) := by
  intro ts heof hfuel
  refine rejectsOnly_peek (rejectsOnly_ite (fun hl => ?_) fun _ => rejectsOnly_pure _)
  have htail := heof.of_pMatch hl (by decide)
  have hlen := length_tail_of_pMatch hl
  refine rejectsOnly_advance (fun _ => htail) ((ih.binary _ htail (by omega)).bind
    fun idx mid hidx => ?_)
  have hderives := (exprSound fuel).binary hidx
  have hmid := htail.of_consumes hderives.consumes_ne_eof
  have hlen' := hderives.length_lt (by simp)
  refine (rejectsOnly_expect (by decide) hmid.ne_nil).bind fun _ rest hr => ?_
  obtain ⟨r, rfl, hrt⟩ := expect_eq_ok hr
  rw [List.length_cons] at hlen'
  exact ih.postfixLoop _ rest (hmid.of_cons (hrt ▸ by decide)) (by omega)

theorem parseUnaryExpr_rejects : RejectsWithin (parseUnaryExpr (fuel + 1)) 4 (fuel + 1) := by
  intro ts heof hfuel
  refine rejectsOnly_peek ?_
  cases hop : ts.head?.bind fun t => unaryOpOf t.type with
  | none => exact ih.postExpr ts heof (by omega)
  | some op =>
    cases ts with
    | nil => simp at hop
    | cons t ts =>
      simp only [List.head?_cons, Option.bind_some] at hop
      rw [List.length_cons] at hfuel
      have htail := heof.of_cons (isExprToken_of_unaryOpOf hop).ne_eof
      exact rejectsOnly_advance (fun _ => htail) ((ih.unary ts htail (by omega)).bind
        fun _ _ _ => rejectsOnly_pure _)

theorem parseAssignExpr_rejects : RejectsWithin (parseAssignExpr (fuel + 1)) 10 (fuel + 1) := by
  intro ts heof hfuel
  refine (ih.binary ts heof (by omega)).bind fun left mid hleft => rejectsOnly_peek ?_
  have hderives := (exprSound fuel).binary hleft
  have hmid := heof.of_consumes hderives.consumes_ne_eof
  have hlen := hderives.length_lt (by simp)
  refine rejectsOnly_ite (fun hq => ?_) fun _ => rejectsOnly_pure _
  have htail := hmid.of_pMatch hq (by decide)
  have hlen' := length_tail_of_pMatch hq
  refine rejectsOnly_advance (fun _ => htail) (rejectsOnly_peek (rejectsOnly_ite (fun _ => ?_)
    fun _ => rejectsOnly_compileError htail.ne_nil))
  exact (ih.assign _ htail (by omega)).bind fun _ _ _ => rejectsOnly_pure _

end step

/-- A level that parses an operand and then loops rejects only when its operand does. -/
theorem level_rejects {l : Level} {sub : Parse Expr} {rank fuel : Nat}
    (hsound : ∀ {ts rest e}, sub ts = .ok (e, rest) → Derives l.operand ts rest (.expr e))
    (hsub : RejectsWithin sub rank fuel) (hrank : rank ≤ 12) :
    RejectsWithin (do let left ← sub; binaryLoop l.op sub fuel left) (rank + 1) (fuel + 1) := by
  intro ts heof hfuel
  refine (hsub ts heof (by omega)).bind fun left mid hleft => ?_
  have hderives := hsound hleft
  have hlen : mid.length < ts.length := hderives.length_lt (by cases l <;> simp [Level.operand])
  refine binaryLoop_rejects hsound fuel mid left (heof.of_consumes hderives.consumes_ne_eof)
    (by omega) ?_
  intro ts' heof' hlen'
  exact hsub ts' heof' (by omega)

/-- **The expression functions reject only**, with enough fuel. -/
theorem exprRejects : ∀ fuel : Nat, ExprRejects fuel := by
  intro fuel
  induction fuel with
  | zero => constructor <;> intros <;> intro <;> intros <;> omega
  | succ fuel ih =>
    exact {
      cast := parseCastExpr_rejects ih
      argsLoop := parseArgsLoop_rejects ih
      args := parseArgs_rejects ih
      call := parseCallExpr_rejects ih
      primary := parsePrimary_rejects ih
      postfixLoop := parsePostfixLoop_rejects ih
      postExpr := by
        intro ts heof hfuel
        refine (ih.primary ts heof (by omega)).bind fun node mid hnode => ?_
        have hderives := (exprSound fuel).primary hnode
        have hlen := hderives.length_lt (by simp)
        exact ih.postfixLoop node mid (heof.of_consumes hderives.consumes_ne_eof) (by omega)
      unary := parseUnaryExpr_rejects ih
      factor := level_rejects (l := .factor) (exprSound fuel).unary ih.unary (by omega)
      term := level_rejects (l := .term) (exprSound fuel).factor ih.factor (by omega)
      compare := level_rejects (l := .compare) (exprSound fuel).term ih.term (by omega)
      equal := level_rejects (l := .equal) (exprSound fuel).compare ih.compare (by omega)
      binary := fun ts heof hfuel => ih.equal ts heof (by omega)
      assign := parseAssignExpr_rejects ih }

/-! ## Statements -/

theorem parseVarDecl_rejects {fuel : Nat} {ts : List Token} (heof : EofLast ts)
    (hlet : pMatch ts.head? .tLet = true) (hfuel : 12 * ts.length ≤ fuel + 3) :
    RejectsOnly (parseVarDecl fuel) ts := by
  refine rejectsOnly_peek (rejectsOnly_ite (fun _ => ?_) fun h => absurd hlet h)
  have htail := heof.of_pMatch hlet (by decide)
  have hlen := length_tail_of_pMatch hlet
  refine rejectsOnly_advance (fun _ => htail) ((rejectsOnly_parseVarType htail).bind
    fun v mid hv => ?_)
  have htype := parseVarType_sound hv
  have hmid := htail.of_consumes htype.consumes_ne_eof
  have hlen' := htype.consumes.length_le
  refine (rejectsOnly_parseIdentifierExpr hmid.ne_nil).bind fun ident rest hident => ?_
  obtain ⟨i, rfl, hit, _⟩ := parseIdentifierExpr_sound hident
  have hrest := hmid.of_cons (hit ▸ by decide)
  rw [List.length_cons] at hlen'
  refine rejectsOnly_peek (rejectsOnly_ite (fun hq => ?_) fun _ => ?_)
  · have htail' := hrest.of_pMatch hq (by decide)
    have hlen'' := length_tail_of_pMatch hq
    refine rejectsOnly_advance (fun _ => htail') (((exprRejects fuel).binary _ htail'
      (by omega)).bind fun e rest' he => ?_)
    have hrest' := htail'.of_consumes ((exprSound fuel).binary he).consumes_ne_eof
    exact (rejectsOnly_expect (by decide) hrest'.ne_nil).bind fun _ _ _ => rejectsOnly_pure _
  · exact (rejectsOnly_expect (by decide) hrest.ne_nil).bind fun _ _ _ => rejectsOnly_pure _

theorem rejectsOnly_parseCommentStmt {ts : List Token} (h : ts ≠ []) :
    RejectsOnly parseCommentStmt ts := by
  cases ts with
  | nil => exact absurd rfl h
  | cons t ts =>
    refine rejectsOnly_peek (rejectsOnly_ite (fun ht => ?_) fun _ => rejectsOnly_fail trivial)
    exact rejectsOnly_advance (fun heof => heof.of_cons (ht ▸ by decide)) (rejectsOnly_pure _)

/-- What each statement function needs to reject only. -/
structure StmtRejects (fuel : Nat) : Prop where
  ifStmt : RejectsWithin (parseIfStmt fuel) 1 fuel
  expr : RejectsWithin (parseExpr fuel) 11 fuel
  statment : RejectsWithin (parseStatment fuel) 12 fuel
  blockLoop : RejectsWithin (parseBlockLoop fuel) 13 fuel
  blockStmt : RejectsWithin (parseBlockStmt fuel) 2 fuel

section step
variable {fuel : Nat} (ih : StmtRejects fuel)
include ih

theorem parseIfStmt_rejects : RejectsWithin (parseIfStmt (fuel + 1)) 1 (fuel + 1) := by
  intro ts heof hfuel
  refine rejectsOnly_peek (rejectsOnly_assertMatch.bind fun _ ts₁ hif => ?_)
  obtain ⟨i, ts₂, rfl, hi, rfl⟩ := assertMatch_eq_ok hif
  have h₂ := heof.of_cons (hi ▸ by decide)
  refine rejectsOnly_advance (fun _ => h₂) ((rejectsOnly_expect (by decide) h₂.ne_nil).bind
    fun _ ts₃ hl => ?_)
  obtain ⟨l, rfl, hlt⟩ := expect_eq_ok hl
  have h₃ := h₂.of_cons (hlt ▸ by decide)
  simp only [List.length_cons] at hfuel
  refine ((exprRejects fuel).binary ts₃ h₃ (by omega)).bind fun cond ts₄ hcond => ?_
  have hc := (exprSound fuel).binary hcond
  have h₄ := h₃.of_consumes hc.consumes_ne_eof
  have hlen := hc.consumes.length_le
  refine (rejectsOnly_expect (by decide) h₄.ne_nil).bind fun _ ts₅ hr => ?_
  obtain ⟨r, rfl, hrt⟩ := expect_eq_ok hr
  have h₅ := h₄.of_cons (hrt ▸ by decide)
  rw [List.length_cons] at hlen
  refine (ih.blockStmt ts₅ h₅ (by omega)).bind fun thenBranch ts₆ hthen => ?_
  have hb := (stmtSound fuel).blockStmt hthen
  have h₆ := h₅.of_consumes hb.consumes
  have hlen' := hb.consumes.length_le
  refine rejectsOnly_peek (rejectsOnly_ite (fun he => ?_) fun _ => rejectsOnly_pure _)
  have hlen'' := length_tail_of_pMatch he
  have h₇ := h₆.of_pMatch he (by decide)
  exact rejectsOnly_advance (fun _ => h₇) ((ih.blockStmt _ h₇ (by omega)).bind
    fun _ _ _ => rejectsOnly_pure _)

theorem parseExpr_rejects : RejectsWithin (parseExpr (fuel + 1)) 11 (fuel + 1) := by
  intro ts heof hfuel
  refine rejectsOnly_peek (rejectsOnly_ite (fun _ => rejectsOnly_fail trivial) fun _ => ?_)
  refine rejectsOnly_ite (fun hc => ?_) fun _ => rejectsOnly_ite (fun _ => ?_) fun _ => ?_
  · exact ((exprRejects fuel).call ts heof hc (by omega)).bind fun _ _ _ => rejectsOnly_pure _
  · exact (ih.blockStmt ts heof (by omega)).bind fun _ _ _ => rejectsOnly_pure _
  · exact ((exprRejects fuel).assign ts heof (by omega)).bind fun _ _ _ => rejectsOnly_pure _

/-- What `parse_expr` leaves still ends in the `T_EOF`. -/
theorem parseExpr_eofLast {ts rest : List Token} {s : Stmt} (heof : EofLast ts)
    (h : parseExpr fuel ts = .ok (s, rest)) : EofLast rest := by
  cases fuel with
  | zero => simp [parseExpr] at h
  | succ fuel =>
    rw [parseExpr, Lib.TokenParser.peek_bind] at h
    split_ifs at h
    · simp at h
    · rw [bind_eq_ok] at h
      obtain ⟨call, mid, hc, h⟩ := h
      simp at h
      obtain ⟨rfl, rfl⟩ := h
      exact heof.of_consumes ((exprSound fuel).call hc).consumes_ne_eof
    · rw [bind_eq_ok] at h
      obtain ⟨nodes, mid, hb, h⟩ := h
      simp at h
      obtain ⟨rfl, rfl⟩ := h
      exact heof.of_consumes ((stmtSound fuel).blockStmt hb).consumes
    · rw [bind_eq_ok] at h
      obtain ⟨expr, mid, he, h⟩ := h
      simp at h
      obtain ⟨rfl, rfl⟩ := h
      exact heof.of_consumes ((exprSound fuel).assign he).consumes_ne_eof

theorem parseStatment_rejects : RejectsWithin (parseStatment (fuel + 1)) 12 (fuel + 1) := by
  intro ts heof hfuel
  refine rejectsOnly_peek (rejectsOnly_ite (fun _ => ih.ifStmt ts heof (by omega)) fun _ => ?_)
  refine rejectsOnly_ite (fun _ => ?_) fun _ => rejectsOnly_ite (fun hret => ?_) fun _ => ?_
  · exact (rejectsOnly_parseCommentStmt heof.ne_nil).bind fun _ _ _ => rejectsOnly_pure _
  · have htail := heof.of_pMatch hret (by decide)
    have hlen := length_tail_of_pMatch hret
    have hrun : parseReturnStmt fuel ts =
        (do let retVal ← parseAssignExpr fuel; pure (Stmt.returnStmt retVal) : Parse Stmt)
          ts.tail := by
      rw [parseReturnStmt, Lib.TokenParser.peek_bind, if_pos hret, Lib.TokenParser.advance_bind]
    have hval := (exprRejects fuel).assign _ htail (by omega)
    refine RejectsOnly.bind ?_ fun s rest hs => ?_
    · refine rejectsOnly_peek (rejectsOnly_ite (fun _ => ?_) fun h => absurd hret h)
      exact rejectsOnly_advance (fun _ => htail) (hval.bind fun _ _ _ => rejectsOnly_pure _)
    · rw [hrun] at hs
      rw [bind_eq_ok] at hs
      obtain ⟨retVal, mid, hretVal, hs⟩ := hs
      simp at hs
      obtain ⟨rfl, rfl⟩ := hs
      have hmid := htail.of_consumes ((exprSound fuel).assign hretVal).consumes_ne_eof
      exact (rejectsOnly_expect (by decide) hmid.ne_nil).bind fun _ _ _ => rejectsOnly_pure _
  · refine (ih.expr ts heof (by omega)).bind fun s rest hs => ?_
    exact (rejectsOnly_expect (by decide) (parseExpr_eofLast ih heof hs).ne_nil).bind
      fun _ _ _ => rejectsOnly_pure _

theorem parseBlockLoop_rejects : RejectsWithin (parseBlockLoop (fuel + 1)) 13 (fuel + 1) := by
  intro ts heof hfuel
  refine rejectsOnly_peek (rejectsOnly_ite (fun _ => rejectsOnly_pure _) fun _ => ?_)
  refine rejectsOnly_ite (fun hlet => ?_) fun _ => rejectsOnly_ite (fun hc => ?_) fun _ => ?_
  · refine (parseVarDecl_rejects heof hlet (by omega)).bind fun decl mid hd => ?_
    have hdecl := parseVarDecl_sound hd
    have hlen := hdecl.length_lt
    exact (ih.blockLoop mid (heof.of_consumes hdecl.consumes) (by omega)).bind
      fun _ _ _ => rejectsOnly_pure _
  · refine (rejectsOnly_parseCommentStmt heof.ne_nil).bind fun text mid htext => ?_
    obtain ⟨t, rfl, ht, _⟩ := parseCommentStmt_sound htext
    rw [List.length_cons] at hfuel
    exact (ih.blockLoop mid (heof.of_cons (ht ▸ by decide)) (by omega)).bind
      fun _ _ _ => rejectsOnly_pure _
  · refine (ih.statment ts heof (by omega)).bind fun s mid hs => ?_
    have hstmt := (stmtSound fuel).statment hs
    have hlen := hstmt.length_lt (by simp)
    exact (ih.blockLoop mid (heof.of_consumes hstmt.consumes) (by omega)).bind
      fun _ _ _ => rejectsOnly_pure _

theorem parseBlockStmt_rejects : RejectsWithin (parseBlockStmt (fuel + 1)) 2 (fuel + 1) := by
  intro ts heof hfuel
  refine rejectsOnly_peek (rejectsOnly_assertMatch.bind fun _ ts₁ hl => ?_)
  obtain ⟨l, ts₂, rfl, hlt, rfl⟩ := assertMatch_eq_ok hl
  simp only [List.length_cons] at hfuel
  have htail := heof.of_cons (hlt ▸ by decide)
  refine rejectsOnly_advance (fun _ => htail) ((ih.blockLoop ts₂ htail (by omega)).bind
    fun nodes rest hnodes => ?_)
  have hbrace := ((stmtSound fuel).blockLoop hnodes).2
  exact rejectsOnly_advance (fun h => h.of_pMatch hbrace (by decide)) (rejectsOnly_pure _)

end step

/-- **The statement functions reject only**, with enough fuel. -/
theorem stmtRejects : ∀ fuel : Nat, StmtRejects fuel := by
  intro fuel
  induction fuel with
  | zero => constructor <;> intro ts _ hfuel <;> omega
  | succ fuel ih =>
    exact {
      ifStmt := parseIfStmt_rejects ih
      expr := parseExpr_rejects ih
      statment := parseStatment_rejects ih
      blockLoop := parseBlockLoop_rejects ih
      blockStmt := parseBlockStmt_rejects ih }

/-! ## Functions and programs -/

theorem parseFuncParam_rejects {ts : List Token} (heof : EofLast ts) :
    RejectsOnly parseFuncParam ts := by
  refine (rejectsOnly_parseVarType heof).bind fun v mid hv => ?_
  have hmid := heof.of_consumes (parseVarType_sound hv).consumes_ne_eof
  refine (rejectsOnly_parseIdentifierExpr hmid.ne_nil).bind fun ident rest hident => ?_
  obtain ⟨i, rfl, hit, _⟩ := parseIdentifierExpr_sound hident
  have hrest := hmid.of_cons (hit ▸ by decide)
  refine rejectsOnly_peek (rejectsOnly_ite (fun hc => ?_) fun _ => ?_)
  · exact rejectsOnly_advance (fun _ => hrest.of_pMatch hc (by decide)) (rejectsOnly_pure _)
  · exact rejectsOnly_ite (fun _ => rejectsOnly_pure _) fun _ =>
      rejectsOnly_compileError hrest.ne_nil

theorem parseParamsLoop_rejects : ∀ (fuel : Nat) (ts : List Token), EofLast ts →
    ts.length < fuel → RejectsOnly (parseParamsLoop fuel) ts := by
  intro fuel
  induction fuel with
  | zero => intro ts _ hfuel; omega
  | succ fuel ih =>
    intro ts heof hfuel
    refine rejectsOnly_peek (rejectsOnly_ite (fun _ => rejectsOnly_pure _) fun _ => ?_)
    refine rejectsOnly_ite (fun hf => ?_) fun _ => rejectsOnly_compileError heof.ne_nil
    refine (parseFuncParam_rejects heof).bind fun p mid hp => ?_
    have hparam := parseFuncParam_sound hf hp
    have hlen := hparam.length_lt
    exact (ih mid (heof.of_consumes hparam.consumes) (by omega)).bind
      fun _ _ _ => rejectsOnly_pure _

theorem rejectsOnly_parseFuncType {fuel : Nat} {ts : List Token} (heof : EofLast ts)
    (hfuel : 12 * ts.length ≤ fuel) : RejectsOnly (parseFuncType fuel) ts := by
  refine (rejectsOnly_parseVarType heof).bind fun v mid hv => ?_
  have htype := parseVarType_sound hv
  have hmid := heof.of_consumes htype.consumes_ne_eof
  have hlen := htype.consumes.length_le
  refine rejectsOnly_peek (rejectsOnly_ite (fun _ => ?_) fun _ =>
    rejectsOnly_compileError hmid.ne_nil)
  refine (rejectsOnly_parseIdentifierExpr hmid.ne_nil).bind fun ident rest hident => ?_
  obtain ⟨i, rfl, hit, _⟩ := parseIdentifierExpr_sound hident
  have hrest := hmid.of_cons (hit ▸ by decide)
  rw [List.length_cons] at hlen
  refine RejectsOnly.bind ?_ fun _ _ _ => rejectsOnly_pure _
  refine rejectsOnly_peek (rejectsOnly_ite (fun hl => ?_) fun _ =>
    rejectsOnly_compileError hrest.ne_nil)
  have hlen' := length_tail_of_pMatch hl
  have hparams := hrest.of_pMatch hl (by decide)
  refine rejectsOnly_advance (fun _ => hparams) ((parseParamsLoop_rejects fuel _ hparams
    (by omega)).bind fun ps rest' hps => ?_)
  have hparen := (parseParamsLoop_sound fuel hps).2
  exact rejectsOnly_advance (fun h => h.of_pMatch hparen (by decide)) (rejectsOnly_pure _)

/-- A function type leaves tokens that end in the `T_EOF`, and no more than it was given. -/
theorem parseFuncType_eofLast {fuel : Nat} {ts rest : List Token} {r : VarT × CString × List FuncParam}
    (heof : EofLast ts) (h : parseFuncType fuel ts = .ok (r, rest)) :
    EofLast rest ∧ rest.length ≤ ts.length := by
  obtain ⟨retT, ident, params⟩ := r
  obtain ⟨i, l, mid, r, htype, hi, hl, hps, hr, _⟩ := parseFuncType_sound h
  have hcons := ((htype.consumes_ne_eof.snoc (ne_eof_of_eq hi (by decide))).snoc
    (ne_eof_of_eq hl (by decide))).trans (hps.consumes.snoc (ne_eof_of_eq hr (by decide)))
  exact ⟨heof.of_consumes hcons, hcons.length_le⟩

theorem parseFuncDecl_rejects {fuel : Nat} {ts : List Token} (heof : EofLast ts)
    (hfn : pMatch ts.head? .tFunc = true) (hfuel : 12 * ts.length ≤ fuel + 1) :
    RejectsOnly (parseFuncDecl fuel) ts := by
  refine rejectsOnly_peek (rejectsOnly_ite (fun _ => ?_) fun h => absurd hfn h)
  have htail := heof.of_pMatch hfn (by decide)
  have hlen := length_tail_of_pMatch hfn
  have htype := @rejectsOnly_parseFuncType fuel _ htail (by omega)
  refine rejectsOnly_advance (fun _ => htail) (htype.bind fun r rest hr => ?_)
  obtain ⟨hrest, hle⟩ := parseFuncType_eofLast htail hr
  refine ((stmtRejects fuel).blockStmt rest hrest (by omega)).bind fun block _ _ => ?_
  exact rejectsOnly_ite (fun _ => rejectsOnly_pure _) fun _ => rejectsOnly_fail trivial

theorem parseProgramLoop_rejects : ∀ fuel : Nat,
    RejectsWithin (parseProgramLoop fuel) 12 fuel := by
  intro fuel
  induction fuel with
  | zero => intro ts _ hfuel; omega
  | succ fuel ih =>
    intro ts heof hfuel
    refine rejectsOnly_peek (rejectsOnly_ite (fun _ => rejectsOnly_pure _) fun _ => ?_)
    refine rejectsOnly_ite (fun hfn => ?_) fun _ => rejectsOnly_ite (fun hlet => ?_) fun _ =>
      rejectsOnly_ite (fun hc => ?_) fun _ => rejectsOnly_compileError heof.ne_nil
    · refine (parseFuncDecl_rejects heof hfn (by omega)).bind fun f mid hf => ?_
      have hfunc := parseFuncDecl_sound hf
      have hlen := hfunc.length_lt
      exact (ih mid (heof.of_consumes hfunc.consumes) (by omega)).bind
        fun _ _ _ => rejectsOnly_pure _
    · refine (parseVarDecl_rejects heof hlet (by omega)).bind fun d mid hd => ?_
      have hdecl := parseVarDecl_sound hd
      have hlen := hdecl.length_lt
      exact (ih mid (heof.of_consumes hdecl.consumes) (by omega)).bind
        fun _ _ _ => rejectsOnly_pure _
    · refine (rejectsOnly_parseCommentStmt heof.ne_nil).bind fun text mid htext => ?_
      obtain ⟨t, rfl, ht, _⟩ := parseCommentStmt_sound htext
      rw [List.length_cons] at hfuel
      exact (ih mid (heof.of_cons (ht ▸ by decide)) (by omega)).bind fun _ _ _ => rejectsOnly_pure _

end ACompiler
