import ACompiler.Parser.Print

/-!
# Programs as tokens

`renderProgram` writes a whole program: statements, declarations and functions around the
expressions of `render`. What it writes is a program of the grammar, so the parser reads it back
(`parseProgram_render`). The one place where a statement asks for parentheses of its own is an
expression that starts with a call and goes on after it, which behind `call` is no statement.
-/

namespace ACompiler

/-! ## Rendering -/

def semicolon : Token := spelled .tSemicolon (ascii ";")

/-- Between braces. -/
def braces (ts : List Token) : List Token :=
  spelled .tLeftBrace (ascii "\x7b") :: (ts ++ [spelled .tRightBrace (ascii "\x7d")])

/-- An expression where `Equal` is asked for. -/
def renderEqual (e : Expr) : List Token := wrap 1 e (renderBody e)

def renderInit : Option Expr → List Token
  | none => []
  | some e => spelled .tEqual (ascii "=") :: renderEqual e

def renderVarDecl (decl : VarDecl) : List Token :=
  spelled .tLet (ascii "let") :: (decl.type.tokens ++
    spelled .tIdentifier decl.ident :: (renderInit decl.assign ++ [semicolon]))

/-- Is the expression a call, and nothing more? -/
def Expr.isCall : Expr → Bool
  | .call _ _ => true
  | _ => false

def renderStmtExpr (e : Expr) : List Token :=
  if e.isCall then renderBody e
  else if pMatch (render e).head? .tCall then lparen :: (render e ++ [rparen])
  else render e

mutual

def renderStmt : Stmt → List Token
  | .block nodes => braces (renderNodes nodes) ++ [semicolon]
  | .ifStmt cond thenBranch none =>
    spelled .tIf (ascii "if") :: lparen :: (renderEqual cond ++
      rparen :: braces (renderNodes thenBranch))
  | .ifStmt cond thenBranch (some elseBranch) =>
    spelled .tIf (ascii "if") :: lparen :: (renderEqual cond ++
      rparen :: (braces (renderNodes thenBranch) ++
        spelled .tElse (ascii "else") :: braces (renderNodes elseBranch)))
  | .returnStmt returnVal => spelled .tReturn (ascii "return") :: (render returnVal ++ [semicolon])
  | .varDecl decl => renderVarDecl decl
  | .comment text => [spelled .tComment text]
  | .expr e => renderStmtExpr e ++ [semicolon]

def renderNodes : List Stmt → List Token
  | [] => []
  | node :: nodes => renderStmt node ++ renderNodes nodes

end

def renderParam (p : FuncParam) : List Token := p.type.tokens ++ [spelled .tIdentifier p.ident]

/-- Parameters, with commas between them. -/
def renderParams : List FuncParam → List Token
  | [] => []
  | [p] => renderParam p
  | p :: params => renderParam p ++ spelled .tComma (ascii ",") :: renderParams params

def renderFunc (decl : FuncDecl) : List Token :=
  spelled .tFunc (ascii "fn") :: (decl.retT.tokens ++ spelled .tIdentifier decl.ident ::
    lparen :: (renderParams decl.params ++ rparen :: braces (renderNodes decl.block)))

def renderTopDecl : TopDecl → List Token
  | .varDecl decl => renderVarDecl decl
  | .funcDecl decl => renderFunc decl
  | .comment text => [spelled .tComment text]

/-- The tokens of a program, with the `T_EOF` behind them. -/
def renderProgram : Program → List Token
  | [] => [spelled .tEof (ascii "eof")]
  | node :: nodes => renderTopDecl node ++ renderProgram nodes

/-! ## What can be rendered -/

def VarDecl.Printable (decl : VarDecl) : Prop :=
  decl.type.Built ∧ ∀ e, decl.assign = some e → ACompiler.Printable e

mutual

def PrintableStmt : Stmt → Prop
  | .block nodes => PrintableNodes nodes
  | .ifStmt cond thenBranch none => Printable cond ∧ PrintableNodes thenBranch
  | .ifStmt cond thenBranch (some elseBranch) =>
    Printable cond ∧ PrintableNodes thenBranch ∧ PrintableNodes elseBranch
  | .returnStmt returnVal => Printable returnVal
  | .varDecl decl => decl.Printable
  | .comment _ => True
  | .expr e => Printable e

def PrintableNodes : List Stmt → Prop
  | [] => True
  | node :: nodes => PrintableStmt node ∧ PrintableNodes nodes

end

/-- The parser only returns functions with a return statement. -/
structure FuncDecl.Printable (decl : FuncDecl) : Prop where
  retT : decl.retT.Built
  params : ∀ p ∈ decl.params, p.type.Built
  block : PrintableNodes decl.block
  hasRet : blockHasRet decl.block = true

def TopDecl.Printable : TopDecl → Prop
  | .varDecl decl => decl.Printable
  | .funcDecl decl => decl.Printable
  | .comment _ => True

def Program.Printable (p : Program) : Prop := ∀ node ∈ p, node.Printable

/-! ## A rendering is a program -/

theorem derives_render {e : Expr} (h : Printable e) {p : Nat} (hp : p ≤ 7) (rest : List Token) :
    Derives (catAt p) (wrap p e (renderBody e) ++ rest) rest (.expr e) :=
  derives_wrap (derives_body e h) (renderBody_starts e h) hp rest

theorem derives_varDecl {decl : VarDecl} (h : decl.Printable) (rest : List Token) :
    DerivesVarDecl (renderVarDecl decl ++ rest) rest decl := by
  obtain ⟨ident, type, assign⟩ := decl
  obtain ⟨htype, hassign⟩ := h
  cases assign with
  | none =>
    have hv := derives_type htype (spelled .tIdentifier ident :: semicolon :: rest)
    have hdecl := DerivesVarDecl.uninit (t := spelled .tLet (ascii "let")) rfl hv rfl rfl
    simp only [renderVarDecl, renderInit, List.cons_append, List.append_assoc, List.nil_append]
    exact hdecl
  | some e =>
    have hv := derives_type htype (spelled .tIdentifier ident :: spelled .tEqual (ascii "=") ::
      (renderEqual e ++ semicolon :: rest))
    have he := derives_render (hassign e rfl) (by decide : 1 ≤ 7) (semicolon :: rest)
    have hdecl := DerivesVarDecl.init (t := spelled .tLet (ascii "let")) rfl hv rfl rfl he rfl
    simp only [renderVarDecl, renderInit, List.cons_append, List.append_assoc, List.nil_append]
    exact hdecl

theorem derives_stmtExpr {e : Expr} (h : Printable e) (rest : List Token) :
    DerivesStmt .stmt (renderStmtExpr e ++ semicolon :: rest) rest (.stmt (.expr e)) := by
  unfold renderStmtExpr
  by_cases hcall : e.isCall = true
  · rw [if_pos hcall]
    cases e with
    | call callee args =>
      have hargs := derives_args args h (semicolon :: rest)
      have hc := Derives.call (c := spelled .tCall (ascii "call"))
        (i := spelled .tIdentifier callee) (l := lparen) rfl rfl rfl hargs rfl
      rw [renderBody]
      simp only [List.cons_append, List.append_assoc]
      exact .call hc rfl
    | _ => exact absurd hcall (by simp [Expr.isCall])
  · rw [if_neg hcall]
    by_cases hhead : pMatch (render e).head? .tCall = true
    · rw [if_pos hhead]
      have hinner := derives_render h (Nat.zero_le 7) (rparen :: semicolon :: rest)
      obtain ⟨t, ts, hstart, ht⟩ := wrap_starts (p := 0) (e := e) (renderBody_starts e h)
        (rparen :: semicolon :: rest)
      have hparen : Derives (catAt 7) (lparen :: (render e ++ rparen :: semicolon :: rest))
          (semicolon :: rest) (.expr e) := by
        refine .paren rfl ?_ hinner rfl
        rw [render, hstart]
        exact ht
      rw [List.cons_append, List.append_assoc]
      exact .expr rfl (derives_catAt_le (Nat.zero_le 7) (Nat.le_refl 7) hparen) rfl
    · rw [if_neg hhead]
      obtain ⟨t, ts, hstart, _⟩ := wrap_starts (p := 0) (e := e) (renderBody_starts e h) []
      have hne : render e ≠ [] := by
        rw [List.append_nil] at hstart
        rw [render, hstart]
        simp
      refine .expr ?_ (derives_render h (Nat.zero_le 7) (semicolon :: rest)) rfl
      rw [head?_append_of_ne_nil hne (semicolon :: rest) [], List.append_nil]
      simpa using hhead

theorem derives_braces {nodes : List Stmt} {body : List Token} (rest : List Token)
    (h : ∀ rest', DerivesStmt .items (body ++ spelled .tRightBrace (ascii "\x7d") :: rest')
      (spelled .tRightBrace (ascii "\x7d") :: rest') (.nodes nodes)) :
    DerivesStmt .block (braces body ++ rest) rest (.nodes nodes) := by
  have hblock := DerivesStmt.block (l := spelled .tLeftBrace (ascii "\x7b")) rfl (h rest) rfl
  simp only [braces, List.cons_append, List.append_assoc, List.nil_append]
  exact hblock

mutual

/-- A statement that is no declaration is rendered as one. -/
theorem derives_stmt (s : Stmt) (h : PrintableStmt s) (hs : ∀ d, s ≠ .varDecl d)
    (rest : List Token) : DerivesStmt .stmt (renderStmt s ++ rest) rest (.stmt s) := by
  match s, h with
  | .block nodes, h =>
    have hblock := derives_braces (semicolon :: rest) (derives_nodes nodes h)
    rw [renderStmt, List.append_assoc]
    exact .blockStmt hblock rfl
  | .ifStmt cond thenBranch none, h =>
    have hthen := derives_braces rest (derives_nodes thenBranch h.2)
    have hcond := derives_render h.1 (by decide : 1 ≤ 7)
      (rparen :: (braces (renderNodes thenBranch) ++ rest))
    simp only [renderStmt, List.cons_append, List.append_assoc]
    exact .ifThen rfl rfl hcond rfl hthen
  | .ifStmt cond thenBranch (some elseBranch), h =>
    have helse := derives_braces rest (derives_nodes elseBranch h.2.2)
    have hthen := derives_braces (spelled .tElse (ascii "else") ::
      (braces (renderNodes elseBranch) ++ rest)) (derives_nodes thenBranch h.2.1)
    have hcond := derives_render h.1 (by decide : 1 ≤ 7)
      (rparen :: (braces (renderNodes thenBranch) ++ spelled .tElse (ascii "else") ::
        (braces (renderNodes elseBranch) ++ rest)))
    simp only [renderStmt, List.cons_append, List.append_assoc]
    exact .ifElse rfl rfl hcond rfl hthen rfl helse
  | .returnStmt returnVal, h =>
    have hval := derives_render h (Nat.zero_le 7) (semicolon :: rest)
    simp only [renderStmt, List.cons_append, List.append_assoc, List.nil_append]
    exact .ret rfl hval rfl
  | .varDecl decl, _ => exact absurd rfl (hs decl)
  | .comment text, _ => exact .comment rfl
  | .expr e, h =>
    simp only [renderStmt, List.append_assoc, List.cons_append, List.nil_append]
    exact derives_stmtExpr h rest

theorem derives_nodes (nodes : List Stmt) (h : PrintableNodes nodes) (rest : List Token) :
    DerivesStmt .items (renderNodes nodes ++ spelled .tRightBrace (ascii "\x7d") :: rest)
      (spelled .tRightBrace (ascii "\x7d") :: rest) (.nodes nodes) := by
  match nodes, h with
  | [], _ => exact .nil
  | .varDecl decl :: nodes, h =>
    rw [renderNodes, renderStmt, List.append_assoc]
    exact .varDecl (derives_varDecl h.1 _) (derives_nodes nodes h.2 rest)
  | .block body :: nodes, h =>
    rw [renderNodes, List.append_assoc]
    exact .cons (derives_stmt (.block body) h.1 (by simp) _) (derives_nodes nodes h.2 rest)
  | .ifStmt cond body other :: nodes, h =>
    rw [renderNodes, List.append_assoc]
    exact .cons (derives_stmt (.ifStmt cond body other) h.1 (by simp) _)
      (derives_nodes nodes h.2 rest)
  | .returnStmt e :: nodes, h =>
    rw [renderNodes, List.append_assoc]
    exact .cons (derives_stmt (.returnStmt e) h.1 (by simp) _) (derives_nodes nodes h.2 rest)
  | .comment text :: nodes, h =>
    rw [renderNodes, List.append_assoc]
    exact .cons (derives_stmt (.comment text) h.1 (by simp) _) (derives_nodes nodes h.2 rest)
  | .expr e :: nodes, h =>
    rw [renderNodes, List.append_assoc]
    exact .cons (derives_stmt (.expr e) h.1 (by simp) _) (derives_nodes nodes h.2 rest)

end

/-- Parameters up to the parenthesis that closes them. -/
theorem derives_params (params : List FuncParam) (h : ∀ p ∈ params, p.type.Built)
    (rest : List Token) :
    DerivesParams (renderParams params ++ rparen :: rest) (rparen :: rest) params := by
  induction params with
  | nil => exact .nil
  | cons p params ih =>
    obtain ⟨hp, hparams⟩ := List.forall_mem_cons.mp h
    obtain ⟨ident, type⟩ := p
    have hfirst : ∀ rest', (isVarType (type.tokens ++ rest').head? ||
        pMatch (type.tokens ++ rest').head? .tIdentifier) = true := by
      intro rest'
      rw [isVarType_tokens, Bool.true_or]
    cases params with
    | nil =>
      have hv := derives_type hp (spelled .tIdentifier ident :: rparen :: rest)
      have hlast := DerivesParam.last (hfirst _) hv rfl rfl
      simp only [renderParams, renderParam, List.append_assoc, List.cons_append, List.nil_append]
      exact .cons hlast .nil
    | cons p' params =>
      have hrest := ih hparams
      have hv := derives_type hp (spelled .tIdentifier ident :: spelled .tComma (ascii ",") ::
        (renderParams (p' :: params) ++ rparen :: rest))
      have hcomma := DerivesParam.comma (hfirst _) hv rfl rfl
      rw [renderParams]
      simp only [renderParam, List.append_assoc, List.cons_append, List.nil_append]
      exact .cons hcomma hrest
      simp

theorem derives_func {decl : FuncDecl} (h : decl.Printable) (rest : List Token) :
    DerivesFunc (renderFunc decl ++ rest) rest decl := by
  obtain ⟨ident, retT, params, block⟩ := decl
  have hblock := derives_braces rest (derives_nodes block h.block)
  have hparams := derives_params params h.params (braces (renderNodes block) ++ rest)
  have hv := derives_type h.retT (spelled .tIdentifier ident :: lparen ::
    (renderParams params ++ rparen :: (braces (renderNodes block) ++ rest)))
  have hfunc := DerivesFunc.func (f := spelled .tFunc (ascii "fn")) rfl hv rfl rfl hparams rfl
    hblock h.hasRet
  simp only [renderFunc, List.append_assoc, List.cons_append]
  exact hfunc

theorem derives_renderProgram (p : Program) (h : p.Printable) :
    DerivesProgram (renderProgram p) p := by
  induction p with
  | nil => exact .eof rfl
  | cons node p ih =>
    obtain ⟨hnode, hp⟩ := List.forall_mem_cons.mp h
    cases node with
    | varDecl decl => exact .varDecl (derives_varDecl hnode _) (ih hp)
    | funcDecl decl => exact .func (derives_func hnode _) (ih hp)
    | comment text => exact .comment rfl (ih hp)

/-- **Every program that can be rendered is read back from its rendering.** -/
theorem parseProgram_render (p : Program) (h : p.Printable) :
    parseProgram (renderProgram p) = .ok p :=
  parseProgram_of_derives (derives_renderProgram p h)

def qwordT : VarT := ⟨.lit .litQword, false, 0⟩

/-- A function with two parameters and a statement that starts with a call and goes on:
`(call f(x) + a);`. -/
def renderedFunc : FuncDecl where
  ident := ascii "f"
  retT := qwordT
  params := [⟨ascii "a", qwordT⟩, ⟨ascii "p", ⟨.adr .adrByte, false, 0⟩⟩]
  block := [.varDecl ⟨ascii "x", qwordT, some (.literal ⟨1, none⟩)⟩,
    .expr (.binary .bAdd (.call (ascii "f") [.identifier (ascii "x")]) (.identifier (ascii "a"))),
    .ifStmt (.identifier (ascii "a")) [.returnStmt (.identifier (ascii "x"))]
      (some [.block [.expr (.call (ascii "f") [])], .returnStmt (.literal ⟨0, none⟩)])]

def renderedProgram : Program :=
  [.varDecl ⟨ascii "g", ⟨.lit .litByte, true, 4⟩, none⟩, .comment (ascii "f"),
    .funcDecl renderedFunc]

theorem printable_renderedFunc : renderedFunc.Printable where
  retT := by simp [renderedFunc, qwordT, VarT.Built]
  params := by simp [renderedFunc, qwordT, VarT.Built]
  block := by
    simp [renderedFunc, PrintableNodes, PrintableStmt, VarDecl.Printable, Printable,
      PrintableArgs, LiteralExpr.Built, qwordT, VarT.Built]
  hasRet := by decide

theorem parseProgram_render_renderedProgram :
    parseProgram (renderProgram renderedProgram) = .ok renderedProgram := by
  apply parseProgram_render
  intro node hnode
  simp only [renderedProgram, List.mem_cons, List.not_mem_nil, or_false] at hnode
  rcases hnode with rfl | rfl | rfl
  · exact ⟨by simp [VarT.Built], by simp⟩
  · trivial
  · exact printable_renderedFunc

end ACompiler
