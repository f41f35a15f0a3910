import ACompiler.Parser.Grammar

/-!
# The tokens of a phrase

A phrase is a run of tokens in front of what is left (`Consumes`), and the kinds of tokens in it are
known: an expression holds no comment, no brace, no semicolon and no keyword of a statement
(`Derives.consumes`), and nothing holds the end of the file. So every phrase but an empty list makes
the token list shorter, and never eats the last `T_EOF`.
-/

namespace ACompiler

/-- `rest` is what is left of `ts` after a run of tokens whose types satisfy `P`. -/
def Consumes (P : TokenType → Prop) (ts rest : List Token) : Prop :=
  ∃ used, ts = used ++ rest ∧ ∀ t ∈ used, P t.type

section consumes
variable {P Q : TokenType → Prop} {ts mid rest : List Token} {t : Token}

theorem Consumes.refl : Consumes P ts ts := ⟨[], rfl, by simp⟩

theorem Consumes.cons (ht : P t.type) (h : Consumes P ts rest) : Consumes P (t :: ts) rest := by
  obtain ⟨used, rfl, hused⟩ := h
  exact ⟨t :: used, rfl, by simpa [ht] using hused⟩

theorem Consumes.trans (h : Consumes P ts mid) (h' : Consumes P mid rest) :
    Consumes P ts rest := by
  obtain ⟨used, rfl, hused⟩ := h
  obtain ⟨used', rfl, hused'⟩ := h'
  refine ⟨used ++ used', by rw [List.append_assoc], ?_⟩
  intro t ht
  rcases List.mem_append.mp ht with h | h
  · exact hused t h
  · exact hused' t h

/-- The token in front of what is left may be counted in. -/
theorem Consumes.snoc (h : Consumes P ts (t :: rest)) (ht : P t.type) : Consumes P ts rest :=
  h.trans (.cons ht .refl)

theorem Consumes.mono (hPQ : ∀ t, P t → Q t) (h : Consumes P ts rest) : Consumes Q ts rest := by
  obtain ⟨used, rfl, hused⟩ := h
  exact ⟨used, rfl, fun t ht => hPQ _ (hused t ht)⟩

theorem Consumes.length_le (h : Consumes P ts rest) : rest.length ≤ ts.length := by
  obtain ⟨used, rfl, _⟩ := h
  simp

end consumes

/-- The token types an expression or a type is made of. -/
def isExprToken : TokenType → Prop
  | .tEof | .tComment | .tIf | .tElse | .tLet | .tFunc | .tReturn | .tSemicolon | .tLeftBrace
  | .tRightBrace => False
  | _ => True

/-! ## Types -/

theorem isExprToken_of_litOf {t : TokenType} {l : LitT} (h : litOf t = some l) :
    isExprToken t := by
  cases t <;> simp [litOf, isExprToken] at *

theorem isExprToken_of_litAdrOf {t : TokenType} {a : LitAdrT} (h : litAdrOf t = some a) :
    isExprToken t := by
  cases t <;> simp [litAdrOf, isExprToken] at *

theorem isExprToken_of_unaryOpOf {t : TokenType} {op : UnaryOp} (h : unaryOpOf t = some op) :
    isExprToken t := by
  cases t <;> simp [unaryOpOf, isExprToken] at *

theorem isExprToken_of_op {l : Level} {t : TokenType} {b : BinaryOp} (h : l.op t = some b) :
    isExprToken t := by
  cases l <;> cases t <;>
    simp [Level.op, factorOp, termOp, compareOp, equalOp, isExprToken] at *

theorem isExprToken_of_eq {t t' : TokenType} (h : t = t') (h' : isExprToken t') :
    isExprToken t := h ▸ h'

theorem DerivesBase.consumes {ts rest : List Token} {b : VarBase} (h : DerivesBase ts rest b) :
    Consumes isExprToken ts rest := by
  cases h with
  | adr ht hp =>
    exact .cons (isExprToken_of_eq ht trivial) (.cons (isExprToken_of_litAdrOf hp) .refl)
  | lit hp => exact .cons (isExprToken_of_litOf hp) .refl
  | empty => exact .refl

theorem DerivesType.consumes {ts rest : List Token} {v : VarT} (h : DerivesType ts rest v) :
    Consumes isExprToken ts rest := by
  cases h with
  | scalar hb => exact hb.consumes
  | array hb hl hn hr =>
    exact ((hb.consumes.snoc (isExprToken_of_eq hl trivial)).snoc
      (isExprToken_of_eq hn trivial)).snoc (isExprToken_of_eq hr trivial)

/-! ## Expressions -/

theorem Derives.consumes {c : Cat} {ts rest : List Token} {p : Phrase} (h : Derives c ts rest p) :
    Consumes isExprToken ts rest := by
  induction h with
  | equal _ ih => exact ih
  | assign _ ht _ _ ihl ihr => exact (ihl.snoc (isExprToken_of_eq ht trivial)).trans ihr
  | operand _ ih => exact ih
  | operator _ ht _ ihl ihr => exact (ihl.snoc (isExprToken_of_op ht)).trans ihr
  | unary ht _ ih => exact .cons (isExprToken_of_unaryOpOf ht) ih
  | ofPost _ ih => exact ih
  | primary _ ih => exact ih
  | index _ hl _ hr ih ihi =>
    exact ((ih.snoc (isExprToken_of_eq hl trivial)).trans ihi).snoc (isExprToken_of_eq hr trivial)
  | cast hl _ ht hr _ ih =>
    exact .cons (isExprToken_of_eq hl trivial)
      ((ht.consumes.snoc (isExprToken_of_eq hr trivial)).trans ih)
  | callExpr _ ih => exact ih
  | identifier ht => exact .cons (isExprToken_of_eq ht trivial) .refl
  | number ht => exact .cons (isExprToken_of_eq ht trivial) .refl
  | string ht => exact .cons (isExprToken_of_eq ht trivial) .refl
  | paren hl _ _ hr ih =>
    exact .cons (isExprToken_of_eq hl trivial) (ih.snoc (isExprToken_of_eq hr trivial))
  | call hc hi hl _ hr ih =>
    exact .cons (isExprToken_of_eq hc trivial) (.cons (isExprToken_of_eq hi trivial)
      (.cons (isExprToken_of_eq hl trivial) (ih.snoc (isExprToken_of_eq hr trivial))))
  | argsNil => exact .refl
  | argsLast _ ih => exact ih
  | argsCons _ ht _ ih ihs => exact (ih.snoc (isExprToken_of_eq ht trivial)).trans ihs

/-- Every expression takes at least one token. -/
theorem Derives.length_lt {c : Cat} {ts rest : List Token} {p : Phrase} (h : Derives c ts rest p)
    (hc : c ≠ .args) : rest.length < ts.length := by
  induction h with
  | equal _ ih => exact ih (by simp)
  | assign _ _ _ _ ihl ihr =>
    have hl := ihl (by simp)
    have hr := ihr (by simp)
    rw [List.length_cons] at hl
    omega
  | @operand l _ _ _ _ ih => exact ih (by cases l <;> simp [Level.operand])
  | @operator l _ _ _ _ _ _ _ _ _ _ ihl ihr =>
    have hl := ihl (by simp)
    have hr := ihr (by cases l <;> simp [Level.operand])
    rw [List.length_cons] at hl
    omega
  | unary _ _ ih =>
    have h := ih (by simp)
    rw [List.length_cons]
    omega
  | ofPost _ ih => exact ih (by simp)
  | primary _ ih => exact ih (by simp)
  | index _ _ _ _ ih ihi =>
    have h := ih (by simp)
    have hi := ihi (by simp)
    rw [List.length_cons] at h hi
    omega
  | cast _ _ ht _ _ ih =>
    have h := ih (by simp)
    have ht := ht.consumes.length_le
    rw [List.length_cons] at ht ⊢
    omega
  | callExpr _ ih => exact ih (by simp)
  | identifier _ => simp
  | number _ => simp
  | string _ => simp
  | paren _ _ _ _ ih =>
    have h := ih (by simp)
    rw [List.length_cons] at h ⊢
    omega
  | call _ _ _ h _ _ =>
    have h := h.consumes.length_le
    rw [List.length_cons] at h
    rw [List.length_cons, List.length_cons, List.length_cons]
    omega
  | argsNil => exact absurd rfl hc
  | argsLast _ _ => exact absurd rfl hc
  | argsCons _ _ _ _ _ => exact absurd rfl hc

/-! ## Statements and declarations -/

theorem isExprToken.ne_eof {t : TokenType} (h : isExprToken t) : t ≠ .tEof := by
  rintro rfl
  exact h

theorem ne_eof_of_eq {t t' : TokenType} (h : t = t') (h' : t' ≠ .tEof) : t ≠ .tEof := h ▸ h'

theorem Derives.consumes_ne_eof {c : Cat} {ts rest : List Token} {p : Phrase}
    (h : Derives c ts rest p) : Consumes (· ≠ .tEof) ts rest :=
  h.consumes.mono fun _ => isExprToken.ne_eof

theorem DerivesType.consumes_ne_eof {ts rest : List Token} {v : VarT} (h : DerivesType ts rest v) :
    Consumes (· ≠ .tEof) ts rest :=
  h.consumes.mono fun _ => isExprToken.ne_eof

theorem DerivesVarDecl.consumes {ts rest : List Token} {d : VarDecl}
    (h : DerivesVarDecl ts rest d) : Consumes (· ≠ .tEof) ts rest := by
  cases h with
  | uninit ht hv hi hs =>
    exact .cons (ne_eof_of_eq ht (by decide)) ((hv.consumes_ne_eof.snoc (ne_eof_of_eq hi (by decide))).snoc
      (ne_eof_of_eq hs (by decide)))
  | init ht hv hi hq he hs =>
    exact .cons (ne_eof_of_eq ht (by decide)) ((((hv.consumes_ne_eof.snoc (ne_eof_of_eq hi (by decide))).snoc
      (ne_eof_of_eq hq (by decide))).trans he.consumes_ne_eof).snoc (ne_eof_of_eq hs (by decide)))

theorem DerivesStmt.consumes {c : StmtCat} {ts rest : List Token} {p : StmtPhrase}
    (h : DerivesStmt c ts rest p) : Consumes (· ≠ .tEof) ts rest := by
  induction h with
  | comment ht => exact .cons (ne_eof_of_eq ht (by decide)) .refl
  | ifThen hi hl hc hr _ ih =>
    exact .cons (ne_eof_of_eq hi (by decide)) (.cons (ne_eof_of_eq hl (by decide))
      ((hc.consumes_ne_eof.snoc (ne_eof_of_eq hr (by decide))).trans ih))
  | ifElse hi hl hc hr _ he _ ih ih' =>
    exact .cons (ne_eof_of_eq hi (by decide)) (.cons (ne_eof_of_eq hl (by decide))
      (((hc.consumes_ne_eof.snoc (ne_eof_of_eq hr (by decide))).trans
        (ih.snoc (ne_eof_of_eq he (by decide)))).trans ih'))
  | ret ht h hs =>
    exact .cons (ne_eof_of_eq ht (by decide)) (h.consumes_ne_eof.snoc (ne_eof_of_eq hs (by decide)))
  | call h hs => exact h.consumes_ne_eof.snoc (ne_eof_of_eq hs (by decide))
  | blockStmt _ hs ih => exact ih.snoc (ne_eof_of_eq hs (by decide))
  | expr _ h hs => exact h.consumes_ne_eof.snoc (ne_eof_of_eq hs (by decide))
  | nil => exact .refl
  | varDecl h _ ih => exact h.consumes.trans ih
  | cons _ _ ih ihs => exact ih.trans ihs
  | block hl _ hr ih =>
    exact .cons (ne_eof_of_eq hl (by decide)) (ih.snoc (ne_eof_of_eq hr (by decide)))

theorem DerivesParam.consumes {ts rest : List Token} {p : FuncParam} (h : DerivesParam ts rest p) :
    Consumes (· ≠ .tEof) ts rest := by
  cases h with
  | comma _ hv hi hc =>
    exact (hv.consumes_ne_eof.snoc (ne_eof_of_eq hi (by decide))).snoc (ne_eof_of_eq hc (by decide))
  | last _ hv hi hr => exact hv.consumes_ne_eof.snoc (ne_eof_of_eq hi (by decide))

theorem DerivesParams.consumes {ts rest : List Token} {ps : List FuncParam}
    (h : DerivesParams ts rest ps) : Consumes (· ≠ .tEof) ts rest := by
  induction h with
  | nil => exact .refl
  | cons h _ ih => exact h.consumes.trans ih

theorem DerivesFunc.consumes {ts rest : List Token} {f : FuncDecl} (h : DerivesFunc ts rest f) :
    Consumes (· ≠ .tEof) ts rest := by
  cases h with
  | func hf hv hi hl hp hr hb _ =>
    exact .cons (ne_eof_of_eq hf (by decide)) ((((hv.consumes_ne_eof.snoc (ne_eof_of_eq hi (by decide))).snoc
      (ne_eof_of_eq hl (by decide))).trans hp.consumes).trans
        ((Consumes.cons (ne_eof_of_eq hr (by decide)) .refl).trans hb.consumes))

/-! ## Progress -/

theorem DerivesVarDecl.length_lt {ts rest : List Token} {d : VarDecl}
    (h : DerivesVarDecl ts rest d) : rest.length < ts.length := by
  cases h with
  | uninit _ hv _ _ =>
    have h := hv.consumes.length_le
    simp only [List.length_cons] at h ⊢
    omega
  | init _ hv _ _ he _ =>
    have h := hv.consumes.length_le
    have h' := he.consumes.length_le
    simp only [List.length_cons] at h h' ⊢
    omega

theorem DerivesStmt.length_lt {c : StmtCat} {ts rest : List Token} {p : StmtPhrase}
    (h : DerivesStmt c ts rest p) (hcat : c ≠ .items) : rest.length < ts.length := by
  cases h with
  | comment _ => simp
  | ifThen _ _ hc _ hb =>
    have h := hc.consumes.length_le
    have h' := hb.consumes.length_le
    simp only [List.length_cons] at h ⊢
    omega
  | ifElse _ _ hc _ hb _ hb' =>
    have h := hc.consumes.length_le
    have h' := hb.consumes.length_le
    have h'' := hb'.consumes.length_le
    simp only [List.length_cons] at h h' ⊢
    omega
  | ret _ h _ =>
    have h := h.consumes.length_le
    simp only [List.length_cons] at h ⊢
    omega
  | call h _ =>
    have h := h.consumes.length_le
    simp only [List.length_cons] at h
    omega
  | blockStmt h _ =>
    have h := h.consumes.length_le
    simp only [List.length_cons] at h
    omega
  | expr _ h _ =>
    have h := h.consumes.length_le
    simp only [List.length_cons] at h
    omega
  | nil => exact absurd rfl hcat
  | varDecl _ _ => exact absurd rfl hcat
  | cons _ _ => exact absurd rfl hcat
  | block _ h _ =>
    have h := h.consumes.length_le
    simp only [List.length_cons] at h ⊢
    omega

theorem DerivesParam.length_lt {ts rest : List Token} {p : FuncParam} (h : DerivesParam ts rest p) :
    rest.length < ts.length := by
  cases h with
  | comma _ hv _ _ =>
    have h := hv.consumes.length_le
    simp only [List.length_cons] at h
    omega
  | last _ hv _ _ =>
    have h := hv.consumes.length_le
    simp only [List.length_cons] at h ⊢
    omega

theorem DerivesFunc.length_lt {ts rest : List Token} {f : FuncDecl} (h : DerivesFunc ts rest f) :
    rest.length < ts.length := by
  cases h with
  | func _ hv _ _ hp _ hb _ =>
    have h := hv.consumes.length_le
    have h' := hp.consumes.length_le
    have h'' := hb.consumes.length_le
    simp only [List.length_cons] at h h' ⊢
    omega

/-! ## The end of the file -/

/-- `T_EOF` is the last token, and no other. -/
def EofLast (ts : List Token) : Prop :=
  ∃ body eof, ts = body ++ [eof] ∧ eof.type = .tEof ∧ ∀ t ∈ body, t.type ≠ .tEof

theorem EofLast.ne_nil {ts : List Token} (h : EofLast ts) : ts ≠ [] := by
  obtain ⟨body, eof, rfl, _⟩ := h
  simp

/-- Only the last token is `T_EOF`. -/
theorem EofLast.of_cons {t : Token} {ts : List Token} (h : EofLast (t :: ts))
    (ht : t.type ≠ .tEof) : EofLast ts := by
  obtain ⟨body, eof, hts, heof, hbody⟩ := h
  cases body with
  | nil =>
    simp at hts
    exact absurd (hts.1 ▸ heof) ht
  | cons b body =>
    simp at hts
    exact ⟨body, eof, hts.2, heof, fun t ht => hbody t (List.mem_cons_of_mem _ ht)⟩

theorem EofLast.eq_singleton {t : Token} {ts : List Token} (h : EofLast (t :: ts))
    (ht : t.type = .tEof) : ts = [] := by
  obtain ⟨body, eof, hts, heof, hbody⟩ := h
  cases body with
  | nil =>
    simp at hts
    exact hts.2
  | cons b body =>
    simp at hts
    exact absurd (hts.1 ▸ ht) (hbody b (by simp))

theorem EofLast.of_consumes {ts rest : List Token} (h : EofLast ts)
    (hc : Consumes (· ≠ .tEof) ts rest) : EofLast rest := by
  obtain ⟨used, rfl, hused⟩ := hc
  induction used with
  | nil => exact h
  | cons t used ih =>
    have ht := EofLast.of_cons h (hused t (by simp))
    exact ih (fun t ht => hused t (List.mem_cons_of_mem _ ht)) ht

end ACompiler
