import ACompiler.Parser.Longest

/-!
# Parentheses

An expression is the same phrase whatever follows it (`Derives.follow`), so it can be put into
parentheses, unless it starts with `&`: behind a `(`, the token class of `is_var_type` makes it a cast
(`parens_transparent_iff`).
-/

namespace ACompiler

/-! ## What follows a phrase -/

theorem DerivesBase.follow {ts rest : List Token} {b : VarBase} (h : DerivesBase ts rest b) :
    ∃ used, ts = used ++ rest ∧ ∀ rest', DerivesBase (used ++ rest') rest' b := by
  cases h with
  | @adr t p _ _ ht hp => exact ⟨[t, p], rfl, fun _ => .adr ht hp⟩
  | @lit p _ _ hp => exact ⟨[p], rfl, fun _ => .lit hp⟩
  | empty => exact ⟨[], rfl, fun _ => .empty⟩

theorem DerivesType.follow {ts rest : List Token} {v : VarT} (h : DerivesType ts rest v) :
    ∃ used, ts = used ++ rest ∧ ∀ rest', DerivesType (used ++ rest') rest' v := by
  cases h with
  | scalar hb =>
    obtain ⟨used, hts, hused⟩ := hb.follow
    exact ⟨used, hts, fun rest' => .scalar (hused rest')⟩
  | @array _ l n r hb hl hn hr =>
    obtain ⟨used, rfl, hused⟩ := hb.follow
    refine ⟨used ++ [l, n, r], by simp, fun rest' => ?_⟩
    have h := hused (l :: n :: r :: rest')
    rw [List.append_assoc]
    exact .array h hl hn hr

theorem head?_append_of_ne_nil {α : Type} {l : List α} (h : l ≠ []) (a b : List α) :
    (l ++ a).head? = (l ++ b).head? := by
  cases l with
  | nil => exact absurd rfl h
  | cons x l => rfl

/-- A phrase is the same whatever follows it. -/
theorem Derives.follow {c : Cat} {ts rest : List Token} {p : Phrase} (h : Derives c ts rest p) :
    ∃ used, ts = used ++ rest ∧ ∀ rest', Derives c (used ++ rest') rest' p := by
  induction h with
  | equal _ ih =>
    obtain ⟨used, hts, h⟩ := ih
    exact ⟨used, hts, fun rest' => .equal (h rest')⟩
  | @assign _ _ _ t _ _ _ ht ha _ ihl ihr =>
    obtain ⟨used, rfl, h⟩ := ihl
    obtain ⟨used', rfl, h'⟩ := ihr
    refine ⟨used ++ t :: used', by simp, fun rest' => ?_⟩
    rw [List.append_assoc]
    exact .assign (h _) ht ha (h' rest')
  | operand _ ih =>
    obtain ⟨used, hts, h⟩ := ih
    exact ⟨used, hts, fun rest' => .operand (h rest')⟩
  | @operator _ _ _ _ t _ _ _ _ ht _ ihl ihr =>
    obtain ⟨used, rfl, h⟩ := ihl
    obtain ⟨used', rfl, h'⟩ := ihr
    refine ⟨used ++ t :: used', by simp, fun rest' => ?_⟩
    rw [List.append_assoc]
    exact .operator (h _) ht (h' rest')
  | @unary t _ _ _ _ ht _ ih =>
    obtain ⟨used, rfl, h⟩ := ih
    exact ⟨t :: used, rfl, fun rest' => .unary ht (h rest')⟩
  | ofPost _ ih =>
    obtain ⟨used, hts, h⟩ := ih
    exact ⟨used, hts, fun rest' => .ofPost (h rest')⟩
  | primary _ ih =>
    obtain ⟨used, hts, h⟩ := ih
    exact ⟨used, hts, fun rest' => .primary (h rest')⟩
  | @index _ _ _ l r _ _ _ hl _ hr ih ihi =>
    obtain ⟨used, rfl, h⟩ := ih
    obtain ⟨used', rfl, h'⟩ := ihi
    refine ⟨used ++ l :: (used' ++ [r]), by simp, fun rest' => ?_⟩
    have h := h (l :: (used' ++ r :: rest'))
    rw [List.append_assoc, List.cons_append, List.append_assoc]
    exact .index h hl (h' _) hr
  | @cast l r _ _ _ _ _ hl hv ht hr _ ih =>
    obtain ⟨used, rfl, h⟩ := ht.follow
    obtain ⟨used', rfl, h'⟩ := ih
    have hne : used ≠ [] := by
      rintro rfl
      simp [isVarType, hr] at hv
    refine ⟨l :: (used ++ r :: used'), by simp, fun rest' => ?_⟩
    rw [List.cons_append, List.append_assoc]
    rw [head?_append_of_ne_nil hne _ (r :: used' ++ rest')] at hv
    exact .cast hl hv (h _) hr (h' rest')
  | callExpr _ ih =>
    obtain ⟨used, hts, h⟩ := ih
    exact ⟨used, hts, fun rest' => .callExpr (h rest')⟩
  | @identifier t _ ht => exact ⟨[t], rfl, fun _ => .identifier ht⟩
  | @number t _ ht => exact ⟨[t], rfl, fun _ => .number ht⟩
  | @string t _ ht => exact ⟨[t], rfl, fun _ => .string ht⟩
  | @paren l r _ _ _ hl hv he hr ih =>
    obtain ⟨used, rfl, h⟩ := ih
    have hne : used ≠ [] := by
      rintro rfl
      exact absurd (he.length_lt (by simp)) (by simp)
    refine ⟨l :: (used ++ [r]), by simp, fun rest' => ?_⟩
    rw [List.cons_append, List.append_assoc]
    rw [head?_append_of_ne_nil hne _ ([r] ++ rest')] at hv
    exact .paren hl hv (h _) hr
  | @call c i l r _ _ _ hc hi hl _ hr ih =>
    obtain ⟨used, rfl, h⟩ := ih
    refine ⟨c :: i :: l :: (used ++ [r]), by simp, fun rest' => ?_⟩
    simp only [List.cons_append, List.append_assoc]
    exact .call hc hi hl (h _) hr
  | argsNil => exact ⟨[], rfl, fun _ => .argsNil⟩
  | argsLast _ ih =>
    obtain ⟨used, hts, h⟩ := ih
    exact ⟨used, hts, fun rest' => .argsLast (h rest')⟩
  | @argsCons _ _ _ t _ _ _ ht _ ih ihs =>
    obtain ⟨used, rfl, h⟩ := ih
    obtain ⟨used', rfl, h'⟩ := ihs
    refine ⟨used ++ t :: used', by simp, fun rest' => ?_⟩
    rw [List.append_assoc]
    exact .argsCons (h _) ht (h' rest')

/-- The tokens of a phrase, before any others. -/
theorem Derives.before {c : Cat} {ts rest : List Token} {p : Phrase}
    (h : Derives c (ts ++ rest) rest p) (rest' : List Token) : Derives c (ts ++ rest') rest' p := by
  obtain ⟨used, hused, h⟩ := h.follow
  rw [List.append_cancel_right hused]
  exact h rest'

/-! ## How a phrase starts -/

/-- A phrase whose first token starts a primary expression starts with a primary expression. -/
theorem Derives.leftmost {c : Cat} {ts rest : List Token} {p : Phrase} (h : Derives c ts rest p)
    (hcat : c ≠ .args) : ∀ t, ts.head? = some t → startsPrimary t.type = true →
      ∃ mid e, Derives .primary ts mid (.expr e) := by
  induction h with
  | equal _ ih => exact ih (by simp)
  | assign _ _ _ _ ihl _ => exact ihl (by simp)
  | @operand l _ _ _ _ ih => exact ih (by cases l <;> simp [Level.operand])
  | operator _ _ _ ihl _ => exact ihl (by simp)
  | unary ht _ _ =>
    intro t htoken hstart
    obtain rfl := Option.some.inj htoken
    rw [unaryOpOf_of_startsPrimary hstart] at ht
    exact absurd ht (by simp)
  | ofPost _ ih => exact ih (by simp)
  | primary h _ => exact fun _ _ _ => ⟨_, _, h⟩
  | index _ _ _ _ ih _ => exact ih (by simp)
  | cast hl hv ht hr h _ => exact fun _ _ _ => ⟨_, _, .cast hl hv ht hr h⟩
  | callExpr h _ => exact fun _ _ _ => ⟨_, _, .callExpr h⟩
  | identifier ht => exact fun _ _ _ => ⟨_, _, .identifier ht⟩
  | number ht => exact fun _ _ _ => ⟨_, _, .number ht⟩
  | string ht => exact fun _ _ _ => ⟨_, _, .string ht⟩
  | paren hl hv h hr _ => exact fun _ _ _ => ⟨_, _, .paren hl hv h hr⟩
  | call hc hi hl h hr _ => exact fun _ _ _ => ⟨_, _, .callExpr (.call hc hi hl h hr)⟩
  | argsNil => exact absurd rfl hcat
  | argsLast _ _ => exact absurd rfl hcat
  | argsCons _ _ _ _ _ => exact absurd rfl hcat

/-- Behind a leading `&` an expression starts. -/
theorem Derives.behind_and {c : Cat} {ts rest : List Token} {p : Phrase} (h : Derives c ts rest p)
    (hcat : c ≠ .args) : pMatch ts.head? .tAnd = true →
      ∃ t t' ts', ts = t :: t' :: ts' ∧ startsExpr t'.type = true := by
  induction h with
  | equal _ ih => exact ih (by simp)
  | assign _ _ _ _ ihl _ => exact ihl (by simp)
  | @operand l _ _ _ _ ih => exact ih (by cases l <;> simp [Level.operand])
  | operator _ _ _ ihl _ => exact ihl (by simp)
  | unary _ h _ =>
    obtain ⟨t', ts', rfl, ht'⟩ := h.starts (by simp)
    exact fun _ => ⟨_, t', ts', rfl, ht'⟩
  | ofPost _ ih => exact ih (by simp)
  | primary _ ih => exact ih (by simp)
  | index _ _ _ _ ih _ => exact ih (by simp)
  | cast hl _ _ _ _ _ => exact fun hand => absurd hand (by simp [hl])
  | callExpr _ ih => exact ih (by simp)
  | identifier ht => exact fun hand => absurd hand (by simp [ht])
  | number ht => exact fun hand => absurd hand (by simp [ht])
  | string ht => exact fun hand => absurd hand (by simp [ht])
  | paren hl _ _ _ _ => exact fun hand => absurd hand (by simp [hl])
  | call hc _ _ _ _ _ => exact fun hand => absurd hand (by simp [hc])
  | argsNil => exact absurd rfl hcat
  | argsLast _ _ => exact absurd rfl hcat
  | argsCons _ _ _ _ _ => exact absurd rfl hcat

/-- A primary expression is an expression. -/
theorem Derives.assign_of_primary {ts rest : List Token} {e : Expr}
    (h : Derives .primary ts rest (.expr e)) : Derives .assign ts rest (.expr e) :=
  .equal (.operand (l := .equal) (.operand (l := .compare) (.operand (l := .term)
    (.operand (l := .factor) (.ofPost (.primary h))))))

/-- Of the tokens that start an expression, `is_var_type` takes `&` only. -/
theorem isVarType_of_startsExpr {t : Token} (h : startsExpr t.type = true) :
    isVarType (some t) = pMatch (some t) .tAnd := by
  cases ht : t.type <;> simp_all [startsExpr, startsPrimary, unaryOpOf, isVarType]

/-- `(&` followed by an expression starts no primary expression. -/
theorem not_primary_and {l t t' : Token} {ts rest : List Token} {e : Expr}
    (hl : l.type = .tLeftParen) (ht : t.type = .tAnd) (ht' : startsExpr t'.type = true) :
    ¬ Derives .primary (l :: t :: t' :: ts) rest (.expr e) := by
  intro h
  have hadr : litAdrOf t'.type = none := by
    cases h : t'.type <;> simp_all [startsExpr, startsPrimary, unaryOpOf, litAdrOf]
  have hbase : ∀ {mid b}, DerivesBase (t :: t' :: ts) mid b → mid = t :: t' :: ts := by
    intro mid b hb
    cases hb with
    | adr _ hp => exact absurd hp (by simp [hadr])
    | lit hp => exact absurd hp (by simp [ht, litOf])
    | empty => rfl
  cases h with
  | cast _ _ htype hr _ =>
    cases htype with
    | scalar hb =>
      obtain ⟨rfl, _⟩ := List.cons.inj (hbase hb)
      exact absurd hr (by simp [ht])
    | array hb hlb _ _ =>
      obtain ⟨rfl, _⟩ := List.cons.inj (hbase hb)
      exact absurd hlb (by simp [ht])
  | callExpr hcall =>
    cases hcall with
    | call hc _ _ _ _ => exact absurd hc (by simp [hl])
  | identifier hi => exact absurd hi (by simp [hl])
  | number hn => exact absurd hn (by simp [hl])
  | string hs => exact absurd hs (by simp [hl])
  | paren _ hv _ _ => exact absurd hv (by simp [isVarType, ht])

/-- A semicolon stops every category of expressions but the arguments of a call. -/
theorem stops_semicolon {s : Token} {rest : List Token} (hs : s.type = .tSemicolon) :
    Stops .assign (s :: rest) :=
  .head (by simp [Cat.continues, hs, factorOp, termOp, compareOp, equalOp])

/-- **Parentheses are transparent exactly for what does not start with `&`.** -/
theorem parens_transparent_iff (ts rest : List Token) (l r s : Token) (e : Expr) (fuel fuel' : Nat)
    (hl : l.type = .tLeftParen) (hr : r.type = .tRightParen) (hs : s.type = .tSemicolon)
    (h : parseAssignExpr fuel (ts ++ s :: rest) = .ok (e, s :: rest))
    (hfuel : 12 * (l :: ts ++ r :: s :: rest).length + 10 ≤ fuel') :
    parseAssignExpr fuel' (l :: ts ++ r :: s :: rest) = .ok (e, s :: rest) ↔
      pMatch ts.head? .tAnd = false := by
  have hexpr := (exprSound fuel).assign h
  have hinner := hexpr.before (r :: s :: rest)
  rw [parseAssignExpr_iff (by simp) hfuel]
  obtain ⟨t, ts', hts, ht⟩ := hinner.starts (by simp)
  -- the expression has a token of its own
  cases ts with
  | nil => exact absurd (hinner.length_lt (by simp)) (by simp)
  | cons t₁ ts =>
    obtain ⟨rfl, rfl⟩ := List.cons.inj hts
    constructor
    · rintro ⟨houter, _⟩
      rw [← Bool.not_eq_true]
      intro hand
      obtain ⟨a, t₂, ts₂, hts₂, ht₂⟩ := hinner.behind_and (by simp) hand
      obtain ⟨mid, e', hprim⟩ := houter.leftmost (by simp) l rfl (by simp [startsPrimary, hl])
      rw [List.cons_append, hts₂] at hprim
      obtain ⟨rfl, _⟩ := List.cons.inj hts₂
      exact not_primary_and hl (by simpa using hand) ht₂ hprim
    · intro hand
      have hv : isVarType (t₁ :: ts ++ r :: s :: rest).head? = false :=
        (isVarType_of_startsExpr ht).trans hand
      exact ⟨(Derives.paren hl hv hinner hr).assign_of_primary, stops_semicolon hs⟩

/-- `(x)`. -/
theorem parens_transparent_iff_identifier : parseAssignExpr 100
    [⟨.tLeftParen, ascii "(", 1, 1, 1⟩, ⟨.tIdentifier, ascii "x", 1, 1, 2⟩,
      ⟨.tRightParen, ascii ")", 1, 1, 3⟩, ⟨.tSemicolon, ascii ";", 1, 1, 4⟩] =
      .ok (.identifier (ascii "x"), [⟨.tSemicolon, ascii ";", 1, 1, 4⟩]) :=
  (parens_transparent_iff [⟨.tIdentifier, ascii "x", 1, 1, 2⟩] [] _ _ _ _ 20 100 rfl rfl rfl rfl
    (by decide)).mpr rfl

/-- `&x` is an expression, and `(&x)` is none. -/
theorem parens_address : parseAssignExpr 100
      [⟨.tAnd, ascii "&", 1, 1, 1⟩, ⟨.tIdentifier, ascii "x", 1, 1, 2⟩,
        ⟨.tSemicolon, ascii ";", 1, 1, 3⟩] =
      .ok (.unary .uAddr (.identifier (ascii "x")), [⟨.tSemicolon, ascii ";", 1, 1, 3⟩]) ∧
    parseAssignExpr 100
      [⟨.tLeftParen, ascii "(", 1, 1, 1⟩, ⟨.tAnd, ascii "&", 1, 1, 2⟩,
        ⟨.tIdentifier, ascii "x", 1, 1, 3⟩, ⟨.tRightParen, ascii ")", 1, 1, 4⟩,
        ⟨.tSemicolon, ascii ";", 1, 1, 5⟩] =
      .error (.compileError ⟨.tAnd, ascii "&", 1, 1, 2⟩ "& requires a type") :=
  ⟨rfl, rfl⟩

end ACompiler
