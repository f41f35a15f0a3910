import ACompiler.Parser.Parens

/-!
# Comments

The parser takes a comment where a statement or a declaration may begin, and nowhere else: behind a
`;` or a brace, but not in front of the `;` of a block or of an `else`, which go on with the
statement before them (`commentsPlaced`). A token list is a program exactly when its comments are
placed so and the list without them is a program, and the two programs differ in comments only
(`DerivesProgram.strip`, `DerivesProgram.lift`).
-/

namespace ACompiler

/-! ## Where comments may stand -/

/-- A statement or a declaration ends with this token, or a block begins with it. -/
def endsItem : TokenType → Bool
  | .tSemicolon | .tLeftBrace | .tRightBrace => true
  | _ => false

/-- The token goes on with the statement in front of it. -/
def resumesItem (t : Option Token) : Bool := pMatch t .tSemicolon || pMatch t .tElse

/-- The tokens without the comments. -/
def stripTokens (ts : List Token) : List Token := ts.filter fun t => t.type ≠ .tComment

/-- Every comment stands in front of a statement or a declaration, or of the end of a block or of the
file; `atItem` says whether the list starts at such a place. -/
def commentsPlaced : Bool → List Token → Bool
  | _, [] => true
  | atItem, t :: ts =>
    if t.type = .tComment then
      atItem && !resumesItem (stripTokens ts).head? && commentsPlaced atItem ts
    else commentsPlaced (endsItem t.type) ts

section tokens
variable {b : Bool} {t : Token} {ts rest : List Token}

theorem stripTokens_comment (ht : t.type = .tComment) : stripTokens (t :: ts) = stripTokens ts :=
  List.filter_cons_of_neg (by simp [ht])

theorem stripTokens_cons (ht : t.type ≠ .tComment) :
    stripTokens (t :: ts) = t :: stripTokens ts :=
  List.filter_cons_of_pos (by simp [ht])

theorem mem_stripTokens : t ∈ stripTokens ts ↔ t ∈ ts ∧ t.type ≠ .tComment := by
  simp [stripTokens]

theorem commentsPlaced_comment (ht : t.type = .tComment) : commentsPlaced b (t :: ts) = true ↔
    b = true ∧ resumesItem (stripTokens ts).head? = false ∧ commentsPlaced b ts = true := by
  rw [commentsPlaced, if_pos ht, Bool.and_eq_true, Bool.and_eq_true, Bool.not_eq_true',
    and_assoc]

theorem commentsPlaced_cons (ht : t.type ≠ .tComment) :
    commentsPlaced b (t :: ts) = commentsPlaced (endsItem t.type) ts := by
  rw [commentsPlaced, if_neg ht]

end tokens

/-- A token inside a statement. -/
def isInner (t : TokenType) : Prop := t ≠ .tComment ∧ t ≠ .tElse ∧ endsItem t = false

instance : DecidablePred isInner := fun _ => inferInstanceAs (Decidable (_ ∧ _ ∧ _))

theorem isInner_of_isExprToken {t : TokenType} (h : isExprToken t) : isInner t := by
  cases t <;> simp_all [isInner, isExprToken, endsItem]

theorem isInner_of_eq {t t' : TokenType} (h : t = t') (h' : isInner t') : isInner t := h ▸ h'

section inner
variable {b : Bool} {s : Token} {used ts rest : List Token}

theorem stripTokens_inner (hused : ∀ t ∈ used, isInner t.type) (rest : List Token) :
    stripTokens (used ++ rest) = used ++ stripTokens rest := by
  induction used with
  | nil => rfl
  | cons t used ih =>
    obtain ⟨ht, hused⟩ := List.forall_mem_cons.mp hused
    rw [List.cons_append, stripTokens_cons ht.1, ih hused, List.cons_append]

/-- Behind a token inside a statement no comment may stand. -/
theorem commentsPlaced_inner (hne : used ≠ []) (hused : ∀ t ∈ used, isInner t.type) :
    commentsPlaced b (used ++ rest) = commentsPlaced false rest := by
  induction used generalizing b with
  | nil => exact absurd rfl hne
  | cons t used ih =>
    obtain ⟨ht, hused⟩ := List.forall_mem_cons.mp hused
    rw [List.cons_append, commentsPlaced_cons ht.1, ht.2.2]
    by_cases hnil : used = []
    · rw [hnil, List.nil_append]
    · exact ih hnil hused

end inner

/-- `ts` is `us` with comments where they may stand. -/
structure Commented (atItem : Bool) (ts us : List Token) : Prop where
  strip : stripTokens ts = us
  placed : commentsPlaced atItem ts = true

section commented
variable {b : Bool} {t : Token} {ts us used rest : List Token}

/-- The next token, where no comment may stand in front of it. -/
theorem Commented.token_of (h : Commented b ts (t :: rest))
    (hb : b = false ∨ resumesItem (some t) = true) :
    ∃ mid, ts = t :: mid ∧ Commented (endsItem t.type) mid rest := by
  obtain ⟨hstrip, hplaced⟩ := h
  cases ts with
  | nil => exact absurd hstrip (by simp [stripTokens])
  | cons u ts =>
    by_cases hu : u.type = .tComment
    · obtain ⟨hitem, hnext, _⟩ := (commentsPlaced_comment hu).mp hplaced
      rw [stripTokens_comment hu] at hstrip
      rw [hstrip] at hnext
      rcases hb with rfl | hb
      · exact absurd hitem (by decide)
      · exact absurd hnext (by simp [hb])
    · rw [stripTokens_cons hu] at hstrip
      obtain ⟨rfl, hrest⟩ := List.cons.inj hstrip
      rw [commentsPlaced_cons hu] at hplaced
      exact ⟨ts, rfl, hrest, hplaced⟩

theorem Commented.token (h : Commented false ts (t :: rest)) :
    ∃ mid, ts = t :: mid ∧ Commented (endsItem t.type) mid rest :=
  h.token_of (.inl rfl)

theorem Commented.tokens (h : Commented false ts (used ++ rest))
    (hused : ∀ t ∈ used, isInner t.type) :
    ∃ mid, ts = used ++ mid ∧ Commented false mid rest := by
  induction used generalizing ts with
  | nil => exact ⟨ts, rfl, h⟩
  | cons t used ih =>
    obtain ⟨ht, hused⟩ := List.forall_mem_cons.mp hused
    obtain ⟨mid, rfl, hmid⟩ := h.token
    rw [ht.2.2] at hmid
    obtain ⟨mid', rfl, hmid'⟩ := ih hmid hused
    exact ⟨mid', rfl, hmid'⟩

/-- Where no comment may stand, nothing but the end is the end. -/
theorem Commented.nil (h : Commented false ts []) : ts = [] := by
  obtain ⟨hstrip, hplaced⟩ := h
  cases ts with
  | nil => rfl
  | cons t ts =>
    by_cases ht : t.type = .tComment
    · exact absurd ((commentsPlaced_comment ht).mp hplaced).1 (by decide)
    · rw [stripTokens_cons ht] at hstrip
      exact absurd hstrip (by simp)

theorem Commented.ne_comment (h : Commented b ts (t :: rest)) : t.type ≠ .tComment := by
  have hmem : t ∈ stripTokens ts := by
    rw [h.strip]
    exact List.mem_cons_self
  exact (mem_stripTokens.mp hmem).2

end commented

/-! ## Trees without comments -/

mutual

/-- The statement without the comments in it; nothing is left of a comment. -/
def Stmt.strip : Stmt → List Stmt
  | .block nodes => [.block (stripNodes nodes)]
  | .ifStmt cond thenBranch none => [.ifStmt cond (stripNodes thenBranch) none]
  | .ifStmt cond thenBranch (some elseBranch) =>
    [.ifStmt cond (stripNodes thenBranch) (some (stripNodes elseBranch))]
  | .returnStmt returnVal => [.returnStmt returnVal]
  | .comment _ => []
  | .varDecl decl => [.varDecl decl]
  | .expr e => [.expr e]

def stripNodes : List Stmt → List Stmt
  | [] => []
  | node :: nodes => node.strip ++ stripNodes nodes

end

def FuncDecl.strip (decl : FuncDecl) : FuncDecl := { decl with block := stripNodes decl.block }

def Program.strip : Program → Program
  | [] => []
  | .varDecl decl :: nodes => .varDecl decl :: Program.strip nodes
  | .funcDecl decl :: nodes => .funcDecl decl.strip :: Program.strip nodes
  | .comment _ :: nodes => Program.strip nodes

theorem blockHasRet_append (nodes nodes' : List Stmt) :
    blockHasRet (nodes ++ nodes') = (blockHasRet nodes || blockHasRet nodes') := by
  induction nodes with
  | nil => rfl
  | cons node nodes ih => rw [List.cons_append, blockHasRet, blockHasRet, ih, Bool.or_assoc]

mutual

/-- Comments return nothing. -/
theorem blockHasRet_strip : (s : Stmt) → blockHasRet s.strip = stmtHasRet s
  | .block nodes => by
    rw [Stmt.strip, blockHasRet, stmtHasRet, blockHasRet_stripNodes nodes, blockHasRet,
      Bool.or_false, stmtHasRet]
  | .ifStmt _ thenBranch none => by
    rw [Stmt.strip, blockHasRet, stmtHasRet, blockHasRet_stripNodes thenBranch, blockHasRet,
      Bool.or_false, stmtHasRet]
  | .ifStmt _ thenBranch (some elseBranch) => by
    rw [Stmt.strip, blockHasRet, stmtHasRet, blockHasRet_stripNodes thenBranch,
      blockHasRet_stripNodes elseBranch, blockHasRet, Bool.or_false, stmtHasRet]
  | .returnStmt _ => rfl
  | .comment _ => rfl
  | .varDecl _ => rfl
  | .expr _ => rfl

theorem blockHasRet_stripNodes : (nodes : List Stmt) →
    blockHasRet (stripNodes nodes) = blockHasRet nodes
  | [] => rfl
  | node :: nodes => by
    rw [stripNodes, blockHasRet_append, blockHasRet_strip node, blockHasRet_stripNodes nodes,
      blockHasRet]

end

/-! ## Phrases inside a statement -/

/-- A phrase `D` of tokens inside a statement, the same whatever follows it. -/
def InnerPhrase (D : List Token → List Token → Prop) (ts rest : List Token) : Prop :=
  ∃ used, ts = used ++ rest ∧ (∀ t ∈ used, isInner t.type) ∧ ∀ rest', D (used ++ rest') rest'

/-- A phrase `D` that goes up to the first semicolon, the same whatever follows it. -/
def UpToSemicolon (D : List Token → List Token → Prop) (ts rest : List Token) : Prop :=
  ∃ used s, used ≠ [] ∧ s.type = .tSemicolon ∧ ts = used ++ s :: rest ∧
    (∀ t ∈ used, isInner t.type) ∧ ∀ rest', D (used ++ s :: rest') rest'

section phrases
variable {D : List Token → List Token → Prop} {ts rest : List Token}

theorem InnerPhrase.of_follow (hc : Consumes isExprToken ts rest)
    (hf : ∃ used, ts = used ++ rest ∧ ∀ rest', D (used ++ rest') rest') : InnerPhrase D ts rest := by
  obtain ⟨used, rfl, hused⟩ := hc
  obtain ⟨used', hts, hf⟩ := hf
  obtain rfl := List.append_cancel_right hts
  exact ⟨used, rfl, fun t ht => isInner_of_isExprToken (hused t ht), hf⟩

theorem DerivesType.inside {v : VarT} (h : DerivesType ts rest v) :
    InnerPhrase (fun ts rest => DerivesType ts rest v) ts rest :=
  .of_follow h.consumes h.follow

theorem Derives.inside {c : Cat} {p : Phrase} (h : Derives c ts rest p) :
    InnerPhrase (fun ts rest => Derives c ts rest p) ts rest :=
  .of_follow h.consumes h.follow

/-- A declaration goes up to its semicolon. -/
theorem DerivesVarDecl.upToSemicolon {d : VarDecl} (h : DerivesVarDecl ts rest d) :
    UpToSemicolon (fun ts rest => DerivesVarDecl ts rest d) ts rest := by
  cases h with
  | @uninit t i s _ _ v ht hv hi hs =>
    obtain ⟨used, rfl, hused, hfollow⟩ := hv.inside
    refine ⟨t :: (used ++ [i]), s, by simp, hs, by simp, ?_, fun rest' => ?_⟩
    · simp only [List.forall_mem_cons, List.forall_mem_append]
      exact ⟨isInner_of_eq ht (by decide), hused, isInner_of_eq hi (by decide), by simp⟩
    · rw [List.cons_append, List.append_assoc]
      exact .uninit ht (hfollow _) hi hs
  | @init t i q s _ _ _ v e ht hv hi hq he hs =>
    obtain ⟨used, rfl, hused, hfollow⟩ := hv.inside
    obtain ⟨used', rfl, hused', hfollow'⟩ := he.inside
    refine ⟨t :: (used ++ i :: q :: used'), s, by simp, hs, by simp, ?_, fun rest' => ?_⟩
    · simp only [List.forall_mem_cons, List.forall_mem_append]
      exact ⟨isInner_of_eq ht (by decide), hused, isInner_of_eq hi (by decide),
        isInner_of_eq hq (by decide), hused'⟩
    · rw [List.cons_append, List.append_assoc]
      exact .init ht (hfollow _) hi hq (hfollow' _) hs

/-- An expression before a token, and before the same token with something else behind it. -/
theorem Derives.beforeToken {c : Cat} {e : Expr} {s : Token} (hcat : c ≠ .args)
    (h : Derives c ts (s :: rest) (.expr e)) :
    ∃ used, used ≠ [] ∧ ts = used ++ s :: rest ∧ (∀ t ∈ used, isInner t.type) ∧
      ∀ rest', Derives c (used ++ s :: rest') (s :: rest') (.expr e) := by
  obtain ⟨used, rfl, hused, hfollow⟩ := h.inside
  have hne : used ≠ [] := by
    rintro rfl
    exact absurd (h.length_lt hcat) (by simp)
  exact ⟨used, hne, rfl, hused, fun rest' => hfollow (s :: rest')⟩

theorem upToSemicolon_ret {t s : Token} {e : Expr} (ht : t.type = .tReturn)
    (h : Derives .assign ts (s :: rest) (.expr e)) (hs : s.type = .tSemicolon) :
    UpToSemicolon (fun ts rest => DerivesStmt .stmt ts rest (.stmt (.returnStmt e))) (t :: ts)
      rest := by
  obtain ⟨used, _, rfl, hused, hfollow⟩ := h.beforeToken (by simp)
  refine ⟨t :: used, s, by simp, hs, rfl, ?_, fun rest' => .ret ht (hfollow rest') hs⟩
  exact List.forall_mem_cons.mpr ⟨isInner_of_eq ht (by decide), hused⟩

theorem upToSemicolon_call {s : Token} {e : Expr} (h : Derives .call ts (s :: rest) (.expr e))
    (hs : s.type = .tSemicolon) :
    UpToSemicolon (fun ts rest => DerivesStmt .stmt ts rest (.stmt (.expr e))) ts rest := by
  obtain ⟨used, hne, rfl, hused, hfollow⟩ := h.beforeToken (by simp)
  exact ⟨used, s, hne, hs, rfl, hused, fun rest' => .call (hfollow rest') hs⟩

theorem upToSemicolon_expr {s : Token} {e : Expr} (hc : pMatch ts.head? .tCall = false)
    (h : Derives .assign ts (s :: rest) (.expr e)) (hs : s.type = .tSemicolon) :
    UpToSemicolon (fun ts rest => DerivesStmt .stmt ts rest (.stmt (.expr e))) ts rest := by
  obtain ⟨used, hne, rfl, hused, hfollow⟩ := h.beforeToken (by simp)
  refine ⟨used, s, hne, hs, rfl, hused, fun rest' => .expr ?_ (hfollow rest') hs⟩
  rwa [head?_append_of_ne_nil hne _ (s :: rest)]

/-- The parameters before the parenthesis that closes their list. -/
theorem DerivesParams.inside {r : Token} {ps : List FuncParam} (hr : r.type = .tRightParen)
    (h : DerivesParams ts (r :: rest) ps) :
    ∃ used, ts = used ++ r :: rest ∧ (∀ t ∈ used, isInner t.type) ∧
      ∀ rest', DerivesParams (used ++ r :: rest') (r :: rest') ps := by
  generalize hend : r :: rest = us at h
  induction h with
  | nil =>
    subst hend
    exact ⟨[], rfl, by simp, fun rest' => .nil⟩
  | cons hp _ ih =>
    obtain ⟨used, hmid, hused, hfollow⟩ := ih hend
    subst hend
    cases hp with
    | @comma i c _ _ v hf hv hi hc =>
      obtain ⟨used', rfl, hused', hfollow'⟩ := hv.inside
      subst hmid
      refine ⟨used' ++ i :: c :: used, by simp, ?_, fun rest' => ?_⟩
      · simp only [List.forall_mem_append, List.forall_mem_cons]
        exact ⟨hused', isInner_of_eq hi (by decide), isInner_of_eq hc (by decide), hused⟩
      · rw [List.append_assoc]
        refine .cons (.comma ?_ (hfollow' _) hi hc) (hfollow rest')
        cases used' with
        | nil => exact hf
        | cons t used' => exact hf
    | @last i r' _ _ v hf hv hi hr' =>
      obtain ⟨used', rfl, hused', hfollow'⟩ := hv.inside
      refine ⟨used' ++ i :: used, by simp [hmid], ?_, fun rest' => ?_⟩
      · simp only [List.forall_mem_append, List.forall_mem_cons]
        exact ⟨hused', isInner_of_eq hi (by decide), hused⟩
      · rw [List.append_assoc]
        have hparam : ∀ us, DerivesParam (used' ++ i :: r' :: us) (r' :: us) ⟨i.lexeme, v⟩ := by
          refine fun us => .last ?_ (hfollow' _) hi hr'
          cases used' with
          | nil => exact hf
          | cons t used' => exact hf
        -- the list stops here, at `r`, or goes on with the parenthesis
        cases used with
        | nil =>
          obtain ⟨rfl, -⟩ := List.cons.inj hmid
          exact .cons (hparam rest') (hfollow rest')
        | cons t used =>
          obtain ⟨rfl, -⟩ := List.cons.inj hmid
          exact .cons (hparam (used ++ r :: rest')) (hfollow rest')

end phrases

end ACompiler
