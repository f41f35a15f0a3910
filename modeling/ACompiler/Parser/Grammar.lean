import ACompiler.Parser.Parse

/-!
# The grammar

What a program of the A language is, as derivations over token lists: `Derives c ts rest p` says that
`ts` is a phrase of category `c` with tree `p`, followed by `rest`. The grammar says nothing about
the order in which a parser looks at tokens, and the left-associative levels are left recursive.

* `Program = {COMMENT | VarDecl | Func} EOF`
* `Func = 'fn' Type IDENT '(' {Param} ')' Block`, with a return statement in the block
* `Param = Type IDENT (',' | lookahead ')')`, starting with a type token or an identifier
* `Type = ([ '&' ] Prim | empty) [ '[' NUMBER ']' ]`
* `VarDecl = 'let' Type IDENT [ '=' Equal ] ';'`
* `Block = '{' {VarDecl | Stmt} '}'`
* `Stmt = COMMENT | 'if' '(' Equal ')' Block [ 'else' Block ] | 'return' Assign ';' | Call ';'
  | Block ';' | Assign ';'`, the last only without a leading `call`
* `Assign = Equal [ '=' Assign ]`, with an identifier or an index on the left
* `Equal`, `Compare`, `Term`, `Factor`: left associative, each over the next
* `Unary = UnaryOp Unary | Postfix`, `Postfix = Primary { '[' Equal ']' }`
* `Primary = '(' Type ')' Primary | Call | IDENT | NUMBER | STRING | '(' Assign ')'`, a type token
  after the parenthesis deciding for the cast
* `Call = 'call' IDENT '(' [ Equal { ',' Equal } [ ',' ] ] ')'`
-/

namespace ACompiler

/-! ## Types and variable declarations -/

/-- The base of a type; nothing stands for `QWORD`. -/
inductive DerivesBase : List Token → List Token → VarBase → Prop
  | adr {t p : Token} {rest : List Token} {a : LitAdrT} (ht : t.type = .tAnd)
      (hp : litAdrOf p.type = some a) : DerivesBase (t :: p :: rest) rest (.adr a)
  | lit {p : Token} {rest : List Token} {l : LitT} (hp : litOf p.type = some l) :
      DerivesBase (p :: rest) rest (.lit l)
  | empty {ts : List Token} : DerivesBase ts ts (.lit .litQword)

inductive DerivesType : List Token → List Token → VarT → Prop
  | scalar {ts rest : List Token} {b : VarBase} (hb : DerivesBase ts rest b) :
      DerivesType ts rest ⟨b, false, 0⟩
  | array {ts rest : List Token} {b : VarBase} {l n r : Token}
      (hb : DerivesBase ts (l :: n :: r :: rest) b) (hl : l.type = .tLeftBracket)
      (hn : n.type = .tNumberLit) (hr : r.type = .tRightBracket) :
      DerivesType ts rest ⟨b, true, strtoul n.lexeme % 2 ^ 32⟩

/-! ## Expressions -/

/-- The four binary levels, loosest last. -/
inductive Level
  | factor | term | compare | equal
  deriving DecidableEq

/-- The syntactic categories of expressions. -/
inductive Cat
  | assign | binary (l : Level) | unary | postExpr | primary | call | args
  deriving DecidableEq

/-- The operators of a level. -/
def Level.op : Level → TokenType → Option BinaryOp
  | .factor => factorOp
  | .term => termOp
  | .compare => compareOp
  | .equal => equalOp

/-- The category of a level's operands. -/
def Level.operand : Level → Cat
  | .factor => .unary
  | .term => .binary .factor
  | .compare => .binary .term
  | .equal => .binary .compare

inductive Derives : Cat → List Token → List Token → Phrase → Prop
  | equal {ts rest : List Token} {e : Expr} (h : Derives (.binary .equal) ts rest (.expr e)) :
      Derives .assign ts rest (.expr e)
  | assign {ts mid rest : List Token} {t : Token} {target val : Expr}
      (hl : Derives (.binary .equal) ts (t :: mid) (.expr target)) (ht : t.type = .tEqual)
      (ha : isAssignable target = true) (hr : Derives .assign mid rest (.expr val)) :
      Derives .assign ts rest (.expr (.assign target val))
  | operand {l : Level} {ts rest : List Token} {e : Expr}
      (h : Derives l.operand ts rest (.expr e)) : Derives (.binary l) ts rest (.expr e)
  | operator {l : Level} {ts mid rest : List Token} {t : Token} {b : BinaryOp} {left right : Expr}
      (hl : Derives (.binary l) ts (t :: mid) (.expr left)) (ht : l.op t.type = some b)
      (hr : Derives l.operand mid rest (.expr right)) :
      Derives (.binary l) ts rest (.expr (.binary b left right))
  | unary {t : Token} {ts rest : List Token} {op : UnaryOp} {e : Expr}
      (ht : unaryOpOf t.type = some op) (h : Derives .unary ts rest (.expr e)) :
      Derives .unary (t :: ts) rest (.expr (.unary op e))
  | ofPost {ts rest : List Token} {e : Expr} (h : Derives .postExpr ts rest (.expr e)) :
      Derives .unary ts rest (.expr e)
  | primary {ts rest : List Token} {e : Expr} (h : Derives .primary ts rest (.expr e)) :
      Derives .postExpr ts rest (.expr e)
  | index {ts mid rest : List Token} {l r : Token} {node idx : Expr}
      (h : Derives .postExpr ts (l :: mid) (.expr node)) (hl : l.type = .tLeftBracket)
      (hi : Derives (.binary .equal) mid (r :: rest) (.expr idx)) (hr : r.type = .tRightBracket) :
      Derives .postExpr ts rest (.expr (.index node idx))
  | cast {l r : Token} {ts mid rest : List Token} {v : VarT} {inner : Expr}
      (hl : l.type = .tLeftParen) (hv : isVarType ts.head? = true)
      (ht : DerivesType ts (r :: mid) v) (hr : r.type = .tRightParen)
      (h : Derives .primary mid rest (.expr inner)) :
      Derives .primary (l :: ts) rest (.expr (.cast v inner))
  | callExpr {ts rest : List Token} {e : Expr} (h : Derives .call ts rest (.expr e)) :
      Derives .primary ts rest (.expr e)
  | identifier {t : Token} {rest : List Token} (ht : t.type = .tIdentifier) :
      Derives .primary (t :: rest) rest (.expr (.identifier t.lexeme))
  | number {t : Token} {rest : List Token} (ht : t.type = .tNumberLit) :
      Derives .primary (t :: rest) rest (.expr (mkLiteralExpr (some t.lexeme) none))
  | string {t : Token} {rest : List Token} (ht : t.type = .tStringLit) :
      Derives .primary (t :: rest) rest (.expr (mkLiteralExpr none (some t.lexeme)))
  | paren {l r : Token} {ts rest : List Token} {e : Expr} (hl : l.type = .tLeftParen)
      (hv : isVarType ts.head? = false) (h : Derives .assign ts (r :: rest) (.expr e))
      (hr : r.type = .tRightParen) : Derives .primary (l :: ts) rest (.expr e)
  | call {c i l r : Token} {ts rest : List Token} {es : List Expr} (hc : c.type = .tCall)
      (hi : i.type = .tIdentifier) (hl : l.type = .tLeftParen)
      (h : Derives .args ts (r :: rest) (.exprs es)) (hr : r.type = .tRightParen) :
      Derives .call (c :: i :: l :: ts) rest (.expr (.call i.lexeme es))
  | argsNil {ts : List Token} : Derives .args ts ts (.exprs [])
  | argsLast {ts rest : List Token} {e : Expr} (h : Derives (.binary .equal) ts rest (.expr e)) :
      Derives .args ts rest (.exprs [e])
  | argsCons {ts mid rest : List Token} {t : Token} {e : Expr} {es : List Expr}
      (h : Derives (.binary .equal) ts (t :: mid) (.expr e)) (ht : t.type = .tComma)
      (hs : Derives .args mid rest (.exprs es)) : Derives .args ts rest (.exprs (e :: es))

inductive DerivesVarDecl : List Token → List Token → VarDecl → Prop
  | uninit {t i s : Token} {ts rest : List Token} {v : VarT} (ht : t.type = .tLet)
      (hv : DerivesType ts (i :: s :: rest) v) (hi : i.type = .tIdentifier)
      (hs : s.type = .tSemicolon) : DerivesVarDecl (t :: ts) rest ⟨i.lexeme, v, none⟩
  | init {t i q s : Token} {ts mid rest : List Token} {v : VarT} {e : Expr} (ht : t.type = .tLet)
      (hv : DerivesType ts (i :: q :: mid) v) (hi : i.type = .tIdentifier) (hq : q.type = .tEqual)
      (he : Derives (.binary .equal) mid (s :: rest) (.expr e)) (hs : s.type = .tSemicolon) :
      DerivesVarDecl (t :: ts) rest ⟨i.lexeme, v, some e⟩

/-! ## Statements -/

/-- The syntactic categories of statements: one statement, the items of a block, a block. -/
inductive StmtCat
  | stmt | items | block
  deriving DecidableEq

inductive DerivesStmt : StmtCat → List Token → List Token → StmtPhrase → Prop
  | comment {t : Token} {rest : List Token} (ht : t.type = .tComment) :
      DerivesStmt .stmt (t :: rest) rest (.stmt (.comment t.lexeme))
  | ifThen {i l r : Token} {ts mid rest : List Token} {cond : Expr} {nodes : List Stmt}
      (hi : i.type = .tIf) (hl : l.type = .tLeftParen)
      (hc : Derives (.binary .equal) ts (r :: mid) (.expr cond)) (hr : r.type = .tRightParen)
      (hb : DerivesStmt .block mid rest (.nodes nodes)) :
      DerivesStmt .stmt (i :: l :: ts) rest (.stmt (.ifStmt cond nodes none))
  | ifElse {i l r e : Token} {ts mid mid' rest : List Token} {cond : Expr}
      {nodes nodes' : List Stmt} (hi : i.type = .tIf) (hl : l.type = .tLeftParen)
      (hc : Derives (.binary .equal) ts (r :: mid) (.expr cond)) (hr : r.type = .tRightParen)
      (hb : DerivesStmt .block mid (e :: mid') (.nodes nodes)) (he : e.type = .tElse)
      (hb' : DerivesStmt .block mid' rest (.nodes nodes')) :
      DerivesStmt .stmt (i :: l :: ts) rest (.stmt (.ifStmt cond nodes (some nodes')))
  | ret {t s : Token} {ts rest : List Token} {e : Expr} (ht : t.type = .tReturn)
      (h : Derives .assign ts (s :: rest) (.expr e)) (hs : s.type = .tSemicolon) :
      DerivesStmt .stmt (t :: ts) rest (.stmt (.returnStmt e))
  | call {s : Token} {ts rest : List Token} {e : Expr}
      (h : Derives .call ts (s :: rest) (.expr e)) (hs : s.type = .tSemicolon) :
      DerivesStmt .stmt ts rest (.stmt (.expr e))
  | blockStmt {s : Token} {ts rest : List Token} {nodes : List Stmt}
      (h : DerivesStmt .block ts (s :: rest) (.nodes nodes)) (hs : s.type = .tSemicolon) :
      DerivesStmt .stmt ts rest (.stmt (.block nodes))
  | expr {s : Token} {ts rest : List Token} {e : Expr} (hc : pMatch ts.head? .tCall = false)
      (h : Derives .assign ts (s :: rest) (.expr e)) (hs : s.type = .tSemicolon) :
      DerivesStmt .stmt ts rest (.stmt (.expr e))
  | nil {ts : List Token} : DerivesStmt .items ts ts (.nodes [])
  | varDecl {ts mid rest : List Token} {d : VarDecl} {nodes : List Stmt}
      (h : DerivesVarDecl ts mid d) (hs : DerivesStmt .items mid rest (.nodes nodes)) :
      DerivesStmt .items ts rest (.nodes (.varDecl d :: nodes))
  | cons {ts mid rest : List Token} {s : Stmt} {nodes : List Stmt}
      (h : DerivesStmt .stmt ts mid (.stmt s)) (hs : DerivesStmt .items mid rest (.nodes nodes)) :
      DerivesStmt .items ts rest (.nodes (s :: nodes))
  | block {l r : Token} {ts rest : List Token} {nodes : List Stmt} (hl : l.type = .tLeftBrace)
      (h : DerivesStmt .items ts (r :: rest) (.nodes nodes)) (hr : r.type = .tRightBrace) :
      DerivesStmt .block (l :: ts) rest (.nodes nodes)

/-! ## Functions and programs -/

inductive DerivesParam : List Token → List Token → FuncParam → Prop
  | comma {i c : Token} {ts rest : List Token} {v : VarT}
      (hf : (isVarType ts.head? || pMatch ts.head? .tIdentifier) = true)
      (hv : DerivesType ts (i :: c :: rest) v) (hi : i.type = .tIdentifier)
      (hc : c.type = .tComma) : DerivesParam ts rest ⟨i.lexeme, v⟩
  | last {i r : Token} {ts rest : List Token} {v : VarT}
      (hf : (isVarType ts.head? || pMatch ts.head? .tIdentifier) = true)
      (hv : DerivesType ts (i :: r :: rest) v) (hi : i.type = .tIdentifier)
      (hr : r.type = .tRightParen) : DerivesParam ts (r :: rest) ⟨i.lexeme, v⟩

inductive DerivesParams : List Token → List Token → List FuncParam → Prop
  | nil {ts : List Token} : DerivesParams ts ts []
  | cons {ts mid rest : List Token} {p : FuncParam} {ps : List FuncParam}
      (h : DerivesParam ts mid p) (hs : DerivesParams mid rest ps) :
      DerivesParams ts rest (p :: ps)

inductive DerivesFunc : List Token → List Token → FuncDecl → Prop
  | func {f i l r : Token} {ts mid mid' rest : List Token} {v : VarT} {ps : List FuncParam}
      {nodes : List Stmt} (hf : f.type = .tFunc) (hv : DerivesType ts (i :: l :: mid) v)
      (hi : i.type = .tIdentifier) (hl : l.type = .tLeftParen)
      (hp : DerivesParams mid (r :: mid') ps) (hr : r.type = .tRightParen)
      (hb : DerivesStmt .block mid' rest (.nodes nodes)) (hret : blockHasRet nodes = true) :
      DerivesFunc (f :: ts) rest ⟨i.lexeme, v, ps, nodes⟩

inductive DerivesProgram : List Token → Program → Prop
  | eof {t : Token} (ht : t.type = .tEof) : DerivesProgram [t] []
  | comment {t : Token} {rest : List Token} {p : Program} (ht : t.type = .tComment)
      (h : DerivesProgram rest p) : DerivesProgram (t :: rest) (.comment t.lexeme :: p)
  | varDecl {ts rest : List Token} {d : VarDecl} {p : Program} (hd : DerivesVarDecl ts rest d)
      (h : DerivesProgram rest p) : DerivesProgram ts (.varDecl d :: p)
  | func {ts rest : List Token} {f : FuncDecl} {p : Program} (hf : DerivesFunc ts rest f)
      (h : DerivesProgram rest p) : DerivesProgram ts (.funcDecl f :: p)

end ACompiler
