import ACompiler.Parser.Comments

/-!
# Derivations with and without comments

A derivation over a token list gives one over the list without the comments, and the comments were
where they may stand (`DerivesProgram.strip`); and comments that are put where they may stand leave a
derivation (`DerivesProgram.lift`). Both go by the statements: what a statement holds besides other
statements is a run of tokens in which no comment may stand.
-/

namespace ACompiler

section semicolon
variable {D : List Token → List Token → Prop} {ts us rest : List Token}

/-- What `ts` starts with does not go on with a statement in front of it. -/
def FreshItem (ts : List Token) : Prop := resumesItem (stripTokens ts).head? = false

theorem freshItem_cons {t : Token} (ht : isInner t.type ∨ t.type = .tLeftBrace) :
    FreshItem (t :: ts) := by
  have hcomment : t.type ≠ .tComment := by
    rcases ht with ht | ht
    · exact ht.1
    · simp [ht]
  unfold FreshItem
  rw [stripTokens_cons hcomment]
  rcases ht with ⟨_, helse, hends⟩ | ht
  · simp only [List.head?_cons, resumesItem, pMatch, decide_eq_false helse, Bool.or_false,
      decide_eq_false_iff_not]
    intro hs
    rw [hs] at hends
    exact absurd hends (by decide)
  · simp [resumesItem, pMatch, ht]

theorem UpToSemicolon.strip (h : UpToSemicolon D ts rest) :
    D (stripTokens ts) (stripTokens rest) ∧ FreshItem ts ∧
      ∀ b, commentsPlaced b ts = commentsPlaced true rest := by
  obtain ⟨used, s, hne, hs, rfl, hused, hfollow⟩ := h
  have hcomment : s.type ≠ .tComment := by simp [hs]
  refine ⟨?_, ?_, fun b => ?_⟩
  · rw [stripTokens_inner hused, stripTokens_cons hcomment]
    exact hfollow (stripTokens rest)
  · cases used with
    | nil => exact absurd rfl hne
    | cons t used => exact freshItem_cons (.inl (hused t List.mem_cons_self))
  · rw [commentsPlaced_inner hne hused, commentsPlaced_cons hcomment, hs]
    rfl

theorem UpToSemicolon.lift (h : UpToSemicolon D us rest) (hc : Commented false ts us) :
    ∃ mid, D ts mid ∧ Commented true mid rest := by
  obtain ⟨used, s, _, hs, rfl, hused, hfollow⟩ := h
  obtain ⟨mid, rfl, hmid⟩ := hc.tokens hused
  obtain ⟨mid', rfl, hmid'⟩ := hmid.token
  rw [hs] at hmid'
  exact ⟨mid', hfollow mid', hmid'⟩

end semicolon

/-! ## Heads of statements and functions -/

/-- The tokens from `if` to the parenthesis behind the condition, before any branches. -/
structure IfHead (cond : Expr) (head : List Token) : Prop where
  ne_nil : head ≠ []
  inner : ∀ t ∈ head, isInner t.type
  ifThen : ∀ {mid rest : List Token} {nodes : List Stmt},
    DerivesStmt .block mid rest (.nodes nodes) →
      DerivesStmt .stmt (head ++ mid) rest (.stmt (.ifStmt cond nodes none))
  ifElse : ∀ {mid mid' rest : List Token} {e : Token} {nodes nodes' : List Stmt},
    DerivesStmt .block mid (e :: mid') (.nodes nodes) → e.type = .tElse →
      DerivesStmt .block mid' rest (.nodes nodes') →
        DerivesStmt .stmt (head ++ mid) rest (.stmt (.ifStmt cond nodes (some nodes')))

theorem exists_ifHead {i l r : Token} {ts mid : List Token} {cond : Expr} (hi : i.type = .tIf)
    (hl : l.type = .tLeftParen) (hc : Derives (.binary .equal) ts (r :: mid) (.expr cond))
    (hr : r.type = .tRightParen) : ∃ head, i :: l :: ts = head ++ mid ∧ IfHead cond head := by
  obtain ⟨used, _, rfl, hused, hfollow⟩ := hc.beforeToken (by simp)
  have happend : ∀ us, (i :: l :: (used ++ [r])) ++ us = i :: l :: (used ++ r :: us) := by simp
  refine ⟨i :: l :: (used ++ [r]), (happend mid).symm, ⟨by simp, ?_, ?_, ?_⟩⟩
  · simp only [List.forall_mem_cons, List.forall_mem_append]
    exact ⟨isInner_of_eq hi (by decide), isInner_of_eq hl (by decide), hused,
      isInner_of_eq hr (by decide), by simp⟩
  · intro mid' rest nodes hblock
    rw [happend]
    exact .ifThen hi hl (hfollow mid') hr hblock
  · intro mid' mid'' rest e nodes nodes' hblock he hblock'
    rw [happend]
    exact .ifElse hi hl (hfollow mid') hr hblock he hblock'

/-- The tokens of a function up to its block, before any block that returns. -/
structure FuncHead (f : FuncDecl) (head : List Token) : Prop where
  ne_nil : head ≠ []
  inner : ∀ t ∈ head, isInner t.type
  func : ∀ {mid rest : List Token} {nodes : List Stmt},
    DerivesStmt .block mid rest (.nodes nodes) → blockHasRet nodes = true →
      DerivesFunc (head ++ mid) rest { f with block := nodes }

theorem exists_funcHead {ts rest : List Token} {f : FuncDecl} (h : DerivesFunc ts rest f) :
    ∃ head mid, ts = head ++ mid ∧ DerivesStmt .block mid rest (.nodes f.block) ∧
      blockHasRet f.block = true ∧ FuncHead f head := by
  obtain ⟨hf, hv, hi, hl, hp, hr, hb, hret⟩ := h
  rename_i t i l r _ _ mid' v ps nodes
  obtain ⟨used, rfl, hused, hfollow⟩ := hv.inside
  obtain ⟨used', rfl, hused', hfollow'⟩ := hp.inside hr
  have happend : ∀ us, (t :: (used ++ i :: l :: (used' ++ [r]))) ++ us =
      t :: (used ++ i :: l :: (used' ++ r :: us)) := by simp
  refine ⟨t :: (used ++ i :: l :: (used' ++ [r])), mid', (happend mid').symm, hb, hret,
    ⟨by simp, ?_, ?_⟩⟩
  · simp only [List.forall_mem_cons, List.forall_mem_append]
    exact ⟨isInner_of_eq hf (by decide), hused, isInner_of_eq hi (by decide),
      isInner_of_eq hl (by decide), hused', isInner_of_eq hr (by decide), by simp⟩
  · intro mid rest nodes hblock hret
    rw [happend]
    exact .func hf (hfollow _) hi hl (hfollow' mid) hr hblock hret

/-! ## Leaving comments out -/

/-- The phrase is one without its comments, which are where they may stand as far as the phrase
goes. -/
def StmtStrips : StmtCat → List Token → List Token → StmtPhrase → Prop
  | .stmt, ts, rest, .stmt s =>
    (s.strip = [] ∧ ∃ t : Token, t.type = .tComment ∧ ts = t :: rest) ∨
      ∃ s', s.strip = [s'] ∧ DerivesStmt .stmt (stripTokens ts) (stripTokens rest) (.stmt s') ∧
        FreshItem ts ∧ ∀ b, commentsPlaced true rest = true → commentsPlaced b ts = true
  | .items, ts, rest, .nodes nodes =>
    DerivesStmt .items (stripTokens ts) (stripTokens rest) (.nodes (stripNodes nodes)) ∧
      (FreshItem rest → commentsPlaced true rest = true →
        FreshItem ts ∧ commentsPlaced true ts = true)
  | .block, ts, rest, .nodes nodes =>
    DerivesStmt .block (stripTokens ts) (stripTokens rest) (.nodes (stripNodes nodes)) ∧
      FreshItem ts ∧ ∀ b, commentsPlaced true rest = true → commentsPlaced b ts = true
  | _, _, _, _ => True

section strip
variable {ts mid mid' rest : List Token} {nodes nodes' : List Stmt} {s : Stmt}

theorem strips_of_upToSemicolon (h : UpToSemicolon (fun ts rest => DerivesStmt .stmt ts rest (.stmt s))
    ts rest) (hs : s.strip = [s]) : StmtStrips .stmt ts rest (.stmt s) := by
  obtain ⟨hstrip, hfresh, hplaced⟩ := h.strip
  exact .inr ⟨s, hs, hstrip, hfresh, fun b hrest => by rw [hplaced, hrest]⟩

/-- A head says nothing about the comments behind it. -/
theorem freshItem_inner {head : List Token} (hne : head ≠ [])
    (hhead : ∀ t ∈ head, isInner t.type) (mid : List Token) : FreshItem (head ++ mid) := by
  cases head with
  | nil => exact absurd rfl hne
  | cons t head => exact freshItem_cons (.inl (hhead t List.mem_cons_self))

theorem strips_ifThen {head : List Token} {cond : Expr} (hhead : IfHead cond head)
    (ih : StmtStrips .block mid rest (.nodes nodes)) :
    StmtStrips .stmt (head ++ mid) rest (.stmt (.ifStmt cond nodes none)) := by
  obtain ⟨hblock, _, hplaced⟩ := ih
  refine .inr ⟨_, rfl, ?_, freshItem_inner hhead.ne_nil hhead.inner mid, fun b hrest => ?_⟩
  · rw [stripTokens_inner hhead.inner]
    exact hhead.ifThen hblock
  · rw [commentsPlaced_inner hhead.ne_nil hhead.inner]
    exact hplaced _ hrest

theorem strips_ifElse {head : List Token} {e : Token} {cond : Expr} (hhead : IfHead cond head)
    (he : e.type = .tElse) (ih : StmtStrips .block mid (e :: mid') (.nodes nodes))
    (ih' : StmtStrips .block mid' rest (.nodes nodes')) :
    StmtStrips .stmt (head ++ mid) rest (.stmt (.ifStmt cond nodes (some nodes'))) := by
  obtain ⟨hblock, _, hplaced⟩ := ih
  obtain ⟨hblock', _, hplaced'⟩ := ih'
  have hcomment : e.type ≠ .tComment := by simp [he]
  rw [stripTokens_cons hcomment] at hblock
  refine .inr ⟨_, rfl, ?_, freshItem_inner hhead.ne_nil hhead.inner mid, fun b hrest => ?_⟩
  · rw [stripTokens_inner hhead.inner]
    exact hhead.ifElse hblock he hblock'
  · rw [commentsPlaced_inner hhead.ne_nil hhead.inner]
    refine hplaced _ ?_
    rw [commentsPlaced_cons hcomment]
    exact hplaced' _ hrest

theorem strips_blockStmt {t : Token} (ht : t.type = .tSemicolon)
    (ih : StmtStrips .block ts (t :: rest) (.nodes nodes)) :
    StmtStrips .stmt ts rest (.stmt (.block nodes)) := by
  obtain ⟨hblock, hfresh, hplaced⟩ := ih
  have hcomment : t.type ≠ .tComment := by simp [ht]
  rw [stripTokens_cons hcomment] at hblock
  refine .inr ⟨_, rfl, .blockStmt hblock ht, hfresh, fun b hrest => hplaced b ?_⟩
  rw [commentsPlaced_cons hcomment, ht]
  exact hrest

theorem strips_varDecl {d : VarDecl} (hd : DerivesVarDecl ts mid d)
    (ih : StmtStrips .items mid rest (.nodes nodes)) :
    StmtStrips .items ts rest (.nodes (.varDecl d :: nodes)) := by
  obtain ⟨hstrip, hfresh, hplaced⟩ := hd.upToSemicolon.strip
  refine ⟨.varDecl hstrip ih.1, fun hrest hrest' => ⟨hfresh, ?_⟩⟩
  rw [hplaced]
  exact (ih.2 hrest hrest').2

theorem strips_cons (ih : StmtStrips .stmt ts mid (.stmt s))
    (ihs : StmtStrips .items mid rest (.nodes nodes)) :
    StmtStrips .items ts rest (.nodes (s :: nodes)) := by
  obtain ⟨hitems, hmid⟩ := ihs
  have hnodes : stripNodes (s :: nodes) = s.strip ++ stripNodes nodes := by rw [stripNodes]
  rcases ih with ⟨hs, t, ht, rfl⟩ | ⟨s', hs, hstmt, hfresh, hplaced⟩
  · refine ⟨?_, fun hrest hrest' => ?_⟩
    · rw [hnodes, hs, List.nil_append, stripTokens_comment ht]
      exact hitems
    · obtain ⟨hfresh, hplaced⟩ := hmid hrest hrest'
      rw [FreshItem, stripTokens_comment ht]
      exact ⟨hfresh, (commentsPlaced_comment ht).mpr ⟨rfl, hfresh, hplaced⟩⟩
  · refine ⟨?_, fun hrest hrest' => ⟨hfresh, hplaced true (hmid hrest hrest').2⟩⟩
    rw [hnodes, hs, List.singleton_append]
    exact .cons hstmt hitems

theorem strips_block {l r : Token} (hl : l.type = .tLeftBrace) (hr : r.type = .tRightBrace)
    (ih : StmtStrips .items ts (r :: rest) (.nodes nodes)) :
    StmtStrips .block (l :: ts) rest (.nodes nodes) := by
  obtain ⟨hitems, hplaced⟩ := ih
  have hleft : l.type ≠ .tComment := by simp [hl]
  have hright : r.type ≠ .tComment := by simp [hr]
  rw [stripTokens_cons hright] at hitems
  refine ⟨?_, freshItem_cons (.inr hl), fun b hrest => ?_⟩
  · rw [stripTokens_cons hleft]
    exact .block hl hitems hr
  · rw [commentsPlaced_cons hleft, hl]
    refine (hplaced ?_ ?_).2
    · rw [FreshItem, stripTokens_cons hright]
      simp [resumesItem, pMatch, hr]
    · rw [commentsPlaced_cons hright, hr]
      exact hrest

theorem DerivesStmt.strip {c : StmtCat} {p : StmtPhrase} (h : DerivesStmt c ts rest p) :
    StmtStrips c ts rest p := by
  induction h with
  | comment ht => exact .inl ⟨rfl, _, ht, rfl⟩
  | ifThen hi hl hc hr _ ih =>
    obtain ⟨head, hts, hhead⟩ := exists_ifHead hi hl hc hr
    rw [hts]
    exact strips_ifThen hhead ih
  | ifElse hi hl hc hr _ he _ ih ih' =>
    obtain ⟨head, hts, hhead⟩ := exists_ifHead hi hl hc hr
    rw [hts]
    exact strips_ifElse hhead he ih ih'
  | ret ht h hs => exact strips_of_upToSemicolon (upToSemicolon_ret ht h hs) rfl
  | call h hs => exact strips_of_upToSemicolon (upToSemicolon_call h hs) rfl
  | blockStmt _ hs ih => exact strips_blockStmt hs ih
  | expr hc h hs => exact strips_of_upToSemicolon (upToSemicolon_expr hc h hs) rfl
  | nil => exact ⟨.nil, fun hrest hrest' => ⟨hrest, hrest'⟩⟩
  | varDecl hd _ ih => exact strips_varDecl hd ih
  | cons _ _ ih ihs => exact strips_cons ih ihs
  | block hl _ hr ih => exact strips_block hl hr ih

end strip

/-- **The comments of a program are where they may stand**, and without them it is the same program
but for them. -/
theorem DerivesProgram.strip {ts : List Token} {p : Program} (h : DerivesProgram ts p) :
    DerivesProgram (stripTokens ts) p.strip ∧ FreshItem ts ∧ commentsPlaced true ts = true := by
  induction h with
  | @eof t ht =>
    have hcomment : t.type ≠ .tComment := by simp [ht]
    refine ⟨?_, ?_, ?_⟩
    · rw [stripTokens_cons hcomment]
      exact .eof ht
    · rw [FreshItem, stripTokens_cons hcomment]
      simp [resumesItem, pMatch, ht]
    · rw [commentsPlaced_cons hcomment, commentsPlaced]
  | comment ht _ ih =>
    obtain ⟨hstrip, hfresh, hplaced⟩ := ih
    rw [FreshItem, stripTokens_comment ht]
    exact ⟨hstrip, hfresh, (commentsPlaced_comment ht).mpr ⟨rfl, hfresh, hplaced⟩⟩
  | varDecl hd _ ih =>
    obtain ⟨hstrip, hfresh, hplaced⟩ := hd.upToSemicolon.strip
    exact ⟨.varDecl hstrip ih.1, hfresh, by rw [hplaced, ih.2.2]⟩
  | func hf _ ih =>
    obtain ⟨head, mid, rfl, hblock, hret, hhead⟩ := exists_funcHead hf
    obtain ⟨hstrip, _, hplaced⟩ := hblock.strip
    refine ⟨.func ?_ ih.1, freshItem_inner hhead.ne_nil hhead.inner mid, ?_⟩
    · rw [stripTokens_inner hhead.inner]
      exact hhead.func hstrip (by rw [blockHasRet_stripNodes, hret])
    · rw [commentsPlaced_inner hhead.ne_nil hhead.inner]
      exact hplaced _ ih.2.2

/-! ## Putting comments in -/

/-- The phrase is there with comments where they may stand, too. -/
def StmtLifts : StmtCat → List Token → List Token → StmtPhrase → Prop
  | .stmt, us, rest, .stmt s => ∀ ts, Commented false ts us →
    ∃ mid s', DerivesStmt .stmt ts mid (.stmt s') ∧ Commented true mid rest ∧ s'.strip = s.strip
  | .items, us, rest, .nodes nodes => ∀ ts, Commented true ts us →
    ∃ mid nodes', DerivesStmt .items ts mid (.nodes nodes') ∧ Commented false mid rest ∧
      stripNodes nodes' = stripNodes nodes
  | .block, us, rest, .nodes nodes => ∀ ts, Commented false ts us →
    ∃ mid nodes', DerivesStmt .block ts mid (.nodes nodes') ∧ Commented true mid rest ∧
      stripNodes nodes' = stripNodes nodes
  | _, _, _, _ => True

/-- The comments in front of an item are items themselves. -/
theorem Commented.skip {ts us : List Token} (h : Commented true ts us) :
    ∃ mid, Commented false mid us ∧
      (∀ {rest : List Token} {nodes : List Stmt}, DerivesStmt .items mid rest (.nodes nodes) →
        ∃ nodes', DerivesStmt .items ts rest (.nodes nodes') ∧
          stripNodes nodes' = stripNodes nodes) ∧
      ∀ {p : Program}, DerivesProgram mid p → ∃ p', DerivesProgram ts p' ∧ p'.strip = p.strip := by
  induction ts with
  | nil => exact ⟨[], ⟨h.strip, rfl⟩, fun h => ⟨_, h, rfl⟩, fun h => ⟨_, h, rfl⟩⟩
  | cons t ts ih =>
    obtain ⟨hstrip, hplaced⟩ := h
    by_cases ht : t.type = .tComment
    · rw [stripTokens_comment ht] at hstrip
      obtain ⟨mid, hmid, hitems, hprogram⟩ :=
        ih ⟨hstrip, ((commentsPlaced_comment ht).mp hplaced).2.2⟩
      refine ⟨mid, hmid, fun h => ?_, fun h => ?_⟩
      · obtain ⟨nodes', h', hnodes⟩ := hitems h
        exact ⟨.comment t.lexeme :: nodes', .cons (.comment ht) h', hnodes⟩
      · obtain ⟨p', h', hp⟩ := hprogram h
        exact ⟨.comment t.lexeme :: p', .comment ht h', hp⟩
    · rw [commentsPlaced_cons ht] at hplaced
      refine ⟨t :: ts, ⟨hstrip, ?_⟩, fun h => ⟨_, h, rfl⟩, fun h => ⟨_, h, rfl⟩⟩
      rw [commentsPlaced_cons ht]
      exact hplaced

section lift
variable {us mid mid' rest : List Token} {nodes nodes' : List Stmt} {s : Stmt}

theorem lifts_of_upToSemicolon (h : UpToSemicolon (fun us rest => DerivesStmt .stmt us rest (.stmt s))
    us rest) : StmtLifts .stmt us rest (.stmt s) := by
  intro ts hts
  obtain ⟨mid, hstmt, hmid⟩ := h.lift hts
  exact ⟨mid, s, hstmt, hmid, rfl⟩

theorem lifts_ifThen {head : List Token} {cond : Expr} (hhead : IfHead cond head)
    (ih : StmtLifts .block mid rest (.nodes nodes)) :
    StmtLifts .stmt (head ++ mid) rest (.stmt (.ifStmt cond nodes none)) := by
  intro ts hts
  obtain ⟨ts₁, rfl, hts₁⟩ := hts.tokens hhead.inner
  obtain ⟨ts₂, nodes₂, hblock, hts₂, hnodes⟩ := ih ts₁ hts₁
  exact ⟨ts₂, _, hhead.ifThen hblock, hts₂, by rw [Stmt.strip, Stmt.strip, hnodes]⟩

theorem lifts_ifElse {head : List Token} {e : Token} {cond : Expr} (hhead : IfHead cond head)
    (he : e.type = .tElse) (ih : StmtLifts .block mid (e :: mid') (.nodes nodes))
    (ih' : StmtLifts .block mid' rest (.nodes nodes')) :
    StmtLifts .stmt (head ++ mid) rest (.stmt (.ifStmt cond nodes (some nodes'))) := by
  intro ts hts
  obtain ⟨ts₁, rfl, hts₁⟩ := hts.tokens hhead.inner
  obtain ⟨ts₂, nodes₂, hblock, hts₂, hnodes⟩ := ih ts₁ hts₁
  -- no comment stands in front of the `else`
  obtain ⟨ts₃, rfl, hts₃⟩ := hts₂.token_of (.inr (by simp [resumesItem, pMatch, he]))
  rw [he] at hts₃
  obtain ⟨ts₄, nodes₄, hblock', hts₄, hnodes'⟩ := ih' ts₃ hts₃
  exact ⟨ts₄, _, hhead.ifElse hblock he hblock', hts₄,
    by rw [Stmt.strip, Stmt.strip, hnodes, hnodes']⟩

theorem lifts_blockStmt {t : Token} (ht : t.type = .tSemicolon)
    (ih : StmtLifts .block us (t :: rest) (.nodes nodes)) :
    StmtLifts .stmt us rest (.stmt (.block nodes)) := by
  intro ts hts
  obtain ⟨ts₁, nodes₁, hblock, hts₁, hnodes⟩ := ih ts hts
  obtain ⟨ts₂, rfl, hts₂⟩ := hts₁.token_of (.inr (by simp [resumesItem, pMatch, ht]))
  rw [ht] at hts₂
  exact ⟨ts₂, _, .blockStmt hblock ht, hts₂, by rw [Stmt.strip, Stmt.strip, hnodes]⟩

theorem lifts_nil : StmtLifts .items us us (.nodes []) := by
  intro ts hts
  obtain ⟨ts₁, hts₁, hitems, _⟩ := hts.skip
  obtain ⟨nodes', h, hnodes⟩ := hitems .nil
  exact ⟨ts₁, nodes', h, hts₁, hnodes⟩

theorem lifts_varDecl {d : VarDecl} (hd : DerivesVarDecl us mid d)
    (ih : StmtLifts .items mid rest (.nodes nodes)) :
    StmtLifts .items us rest (.nodes (.varDecl d :: nodes)) := by
  intro ts hts
  obtain ⟨ts₁, hts₁, hitems, _⟩ := hts.skip
  obtain ⟨ts₂, hdecl, hts₂⟩ := hd.upToSemicolon.lift hts₁
  obtain ⟨ts₃, nodes₃, hrest, hts₃, hnodes₃⟩ := ih ts₂ hts₂
  obtain ⟨nodes', h, hnodes'⟩ := hitems (.varDecl hdecl hrest)
  refine ⟨ts₃, nodes', h, hts₃, ?_⟩
  rw [hnodes', stripNodes, stripNodes, hnodes₃]

theorem lifts_cons (ih : StmtLifts .stmt us mid (.stmt s))
    (ihs : StmtLifts .items mid rest (.nodes nodes)) :
    StmtLifts .items us rest (.nodes (s :: nodes)) := by
  intro ts hts
  obtain ⟨ts₁, hts₁, hitems, _⟩ := hts.skip
  obtain ⟨ts₂, s₂, hstmt, hts₂, hs⟩ := ih ts₁ hts₁
  obtain ⟨ts₃, nodes₃, hrest, hts₃, hnodes₃⟩ := ihs ts₂ hts₂
  obtain ⟨nodes', h, hnodes'⟩ := hitems (.cons hstmt hrest)
  refine ⟨ts₃, nodes', h, hts₃, ?_⟩
  rw [hnodes', stripNodes, stripNodes, hnodes₃, hs]

theorem lifts_block {l r : Token} (hl : l.type = .tLeftBrace) (hr : r.type = .tRightBrace)
    (ih : StmtLifts .items us (r :: rest) (.nodes nodes)) :
    StmtLifts .block (l :: us) rest (.nodes nodes) := by
  intro ts hts
  obtain ⟨ts₁, rfl, hts₁⟩ := hts.token
  rw [hl] at hts₁
  obtain ⟨ts₂, nodes₂, hitems, hts₂, hnodes⟩ := ih ts₁ hts₁
  obtain ⟨ts₃, rfl, hts₃⟩ := hts₂.token
  rw [hr] at hts₃
  exact ⟨ts₃, nodes₂, .block hl hitems hr, hts₃, hnodes⟩

theorem DerivesStmt.lift {c : StmtCat} {p : StmtPhrase} (h : DerivesStmt c us rest p) :
    StmtLifts c us rest p := by
  induction h with
  | comment ht => exact fun ts hts => absurd ht hts.ne_comment
  | ifThen hi hl hc hr _ ih =>
    obtain ⟨head, hus, hhead⟩ := exists_ifHead hi hl hc hr
    rw [hus]
    exact lifts_ifThen hhead ih
  | ifElse hi hl hc hr _ he _ ih ih' =>
    obtain ⟨head, hus, hhead⟩ := exists_ifHead hi hl hc hr
    rw [hus]
    exact lifts_ifElse hhead he ih ih'
  | ret ht h hs => exact lifts_of_upToSemicolon (upToSemicolon_ret ht h hs)
  | call h hs => exact lifts_of_upToSemicolon (upToSemicolon_call h hs)
  | blockStmt _ hs ih => exact lifts_blockStmt hs ih
  | expr hc h hs => exact lifts_of_upToSemicolon (upToSemicolon_expr hc h hs)
  | nil => exact lifts_nil
  | varDecl hd _ ih => exact lifts_varDecl hd ih
  | cons _ _ ih ihs => exact lifts_cons ih ihs
  | block hl _ hr ih => exact lifts_block hl hr ih

end lift

/-- **Comments may be put in where they may stand**: the list stays the same program but for them. -/
theorem DerivesProgram.lift {us : List Token} {p : Program} (h : DerivesProgram us p) :
    ∀ ts, Commented true ts us → ∃ p', DerivesProgram ts p' ∧ p'.strip = p.strip := by
  induction h with
  | @eof t ht =>
    intro ts hts
    obtain ⟨ts₁, hts₁, _, hprogram⟩ := hts.skip
    obtain ⟨ts₂, rfl, hts₂⟩ := hts₁.token
    rw [ht] at hts₂
    obtain rfl := hts₂.nil
    exact hprogram (.eof ht)
  | comment ht _ _ => exact fun ts hts => absurd ht hts.ne_comment
  | varDecl hd _ ih =>
    intro ts hts
    obtain ⟨ts₁, hts₁, _, hprogram⟩ := hts.skip
    obtain ⟨ts₂, hdecl, hts₂⟩ := hd.upToSemicolon.lift hts₁
    obtain ⟨p₂, hp₂, heq⟩ := ih ts₂ hts₂
    obtain ⟨p', hp', heq'⟩ := hprogram (.varDecl hdecl hp₂)
    refine ⟨p', hp', ?_⟩
    rw [heq', Program.strip, Program.strip, heq]
  | func hf _ ih =>
    intro ts hts
    obtain ⟨ts₁, hts₁, _, hprogram⟩ := hts.skip
    obtain ⟨head, mid, rfl, hblock, hret, hhead⟩ := exists_funcHead hf
    obtain ⟨ts₂, rfl, hts₂⟩ := hts₁.tokens hhead.inner
    obtain ⟨ts₃, nodes₃, hblock₃, hts₃, hnodes⟩ := hblock.lift ts₂ hts₂
    obtain ⟨p₂, hp₂, heq⟩ := ih ts₃ hts₃
    have hret₃ : blockHasRet nodes₃ = true := by
      rw [← blockHasRet_stripNodes, hnodes, blockHasRet_stripNodes, hret]
    obtain ⟨p', hp', heq'⟩ := hprogram (.func (hhead.func hblock₃ hret₃) hp₂)
    refine ⟨p', hp', ?_⟩
    rw [heq', Program.strip, Program.strip, heq, FuncDecl.strip, FuncDecl.strip, hnodes]

end ACompiler
