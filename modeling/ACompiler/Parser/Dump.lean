import ACompiler.Assembler.Emitter
import ACompiler.Parser.Parse
import ACompiler.Utils.Stdio

/-!
# The dump of the syntax tree

`print_ast` prints every program before code is generated for it. Its functions walk the tree on
their own, with assertions about its shape: `get_unary_op` knows four of the six unary operators,
`print_assign_expr` wants an identifier on the left, and an assignment that is not a statement is not
looked at. So the dump of a program comes to its end iff it meets no `++` and no `--`, and no
statement that assigns to an element of an array (`printAst_iff`).
-/

namespace ACompiler

/-- The ways the dump ends the compiler. -/
inductive DumpError
  | assertFailed
  /-- `std_compile_error`, which exits. -/
  | compileError (message : String)
  deriving DecidableEq, Repr

/-- What a print function prints. -/
abbrev Dump : Type := Except DumpError CString

/-- One thing is printed after the other. -/
instance : Append Dump where
  append first second := do
    let text ← first
    let rest ← second
    pure (text ++ rest)

/-! ## Lines -/

/-- `NULL` entries are left out. -/
def printWithIndentArr (toPrint : List (Option CString)) (depth : Nat) : CString :=
  let spacing := 4
  padChar (spacing * depth : Nat) 123 ++
    toPrint.flatMap (fun entry => (entry.map (· ++ ascii " ")).getD []) ++ [125, 10]

def printWithIndentS (toPrint : CString) (depth : Nat) : CString :=
  let spacing := 4
  padChar (spacing * depth : Nat) 32 ++ toPrint ++ [10]

/-- A line of a tag and what one of the functions below returns. -/
def printTagged (tag : String) (word : Dump) (depth : Nat) : Dump :=
  word.map fun word => printWithIndentArr [some (ascii tag), some word] depth

/-- The names of declarations, parameters and calls are identifiers already. -/
def getIdent : Expr → Dump
  | .identifier name => .ok name
  | _ => .error .assertFailed

def getVarT (type : VarT) : CString :=
  let base :=
    match type.base with
    | .adr .adrByte => ascii "&BYTE"
    | .adr .adrWord => ascii "&WORD"
    | .adr .adrDword => ascii "&DWORD"
    | .adr .adrQword => ascii "&QWORD"
    | .lit .litByte => ascii "BYTE"
    | .lit .litWord => ascii "WORD"
    | .lit .litDword => ascii "DWORD"
    | .lit .litQword => ascii "QWORD"
  if type.isArray then base ++ ascii "[" ++ decimal type.arrayLen ++ ascii "]" else base

def getUnaryOp : UnaryOp → Dump
  | .uPos => .ok (ascii "+")
  | .uNeg => .ok (ascii "-")
  | .uNot => .ok (ascii "!")
  | .uAddr => .ok (ascii "&")
  | _ => .error (.compileError "obtained an unusable unary expression")

/-- All the operators are there, so the default branch of the source is never taken. -/
def getBinaryOp : BinaryOp → Dump
  | .bAdd => .ok (ascii "+")
  | .bSub => .ok (ascii "-")
  | .bMul => .ok (ascii "*")
  | .bDiv => .ok (ascii "/")
  | .bLess => .ok (ascii "<")
  | .bGreater => .ok (ascii ">")
  | .bEqualEqual => .ok (ascii "==")
  | .bNotEqual => .ok (ascii "!=")
  | .bGeq => .ok (ascii ">=")
  | .bLeq => .ok (ascii "<=")

/-! ## Expressions -/

mutual

/-- `print_binary_expr`, which hands every other node on to `print_unary_expr`, and that to
`print_primary_types`. -/
def printBinaryExpr : Expr → Nat → Dump
  | .binary op left right, depth =>
    printTagged "BINARY:" (getBinaryOp op) depth ++ printBinaryExpr left (1 + depth) ++
      printBinaryExpr right (1 + depth)
  | .unary op expr, depth =>
    printTagged "UNARY:" (getUnaryOp op) depth ++ printBinaryExpr expr (1 + depth)
  | .cast varT inner, depth =>
    printTagged "CAST:" (.ok (getVarT varT)) depth ++ printBinaryExpr inner (1 + depth)
  | .call callee args, depth =>
    printTagged "FUNC CALL:" (.ok callee) depth ++ printArgs args depth
  | .index target idx, depth =>
    .ok (printWithIndentS (ascii "INDEX:") depth) ++ printBinaryExpr target (1 + depth) ++
      printBinaryExpr idx (1 + depth)
  | .identifier name, depth => printTagged "IDENT:" (.ok name) depth
  | .literal lit, depth =>
    printTagged "LITERAL:" (.ok (lit.strValue.getD (ascii "number value"))) depth
  -- `print_primary_types` has no case for an assignment
  | .assign _ _, _ => .ok []

/-- The loop of `print_call_expr`. -/
def printArgs : List Expr → Nat → Dump
  | [], _ => .ok []
  | arg :: args, depth => printBinaryExpr arg (1 + depth) ++ printArgs args depth

end

def printAssignExpr (target val : Expr) (depth : Nat) : Dump :=
  (getIdent target).map (fun name =>
    printWithIndentArr [some (ascii "ASSIGN:"), some name, some (ascii "<--")] depth) ++
  printBinaryExpr val (1 + depth)

/-- `print_expr` on an expression; a call goes to `print_call_expr` on either way. -/
def printExpr : Expr → Nat → Dump
  | .assign target val, depth =>
    -- without a `break`, the assignment is handed on too
    printAssignExpr target val depth ++ printBinaryExpr (.assign target val) depth
  | node, depth => printBinaryExpr node depth

def printVarDecl (decl : VarDecl) (depth : Nat) : Dump :=
  .ok (printWithIndentArr [some (ascii "VAR DECL:"), some decl.ident, some (ascii "TYPE:"),
    some (getVarT decl.type)] depth) ++
  match decl.assign with
  | none => .ok []
  | some assign => printBinaryExpr assign (1 + depth)

/-! ## Statements -/

def printReturnStmt (returnVal : Expr) (depth : Nat) : Dump :=
  .ok (printWithIndentS (ascii "RETURN:") depth) ++ printBinaryExpr returnVal (1 + depth)

def printCommentStmt (comment : CString) (depth : Nat) : Dump :=
  printTagged "COMMENT:" (.ok comment) depth

/-- `nodes` is what the loop over the nodes prints. -/
def printBlockStmt (nodes : Dump) (depth : Nat) : Dump :=
  .ok (printWithIndentS (ascii "BlOCK:") depth) ++ nodes

def printElse (elseBranch : Dump) (depth : Nat) : Dump :=
  .ok (printWithIndentS (ascii "ELSESTMT:") depth) ++ printBlockStmt elseBranch (depth + 1)

def printIfStmt (cond : Expr) (thenBranch elseBranch : Dump) (depth : Nat) : Dump :=
  .ok (printWithIndentS (ascii "IFSTMT:") depth) ++ printBinaryExpr cond (depth + 1) ++
    printBlockStmt thenBranch (depth + 1) ++ elseBranch

mutual

def printStmt : Stmt → Nat → Dump
  | .ifStmt cond thenBranch none, depth =>
    printIfStmt cond (printNodes thenBranch (1 + depth + 1)) (.ok []) (1 + depth)
  | .ifStmt cond thenBranch (some elseBranch), depth =>
    printIfStmt cond (printNodes thenBranch (1 + depth + 1))
      (printElse (printNodes elseBranch (1 + depth + 1)) (1 + depth)) (1 + depth)
  | .returnStmt returnVal, depth => printReturnStmt returnVal (1 + depth)
  -- without a `break`, the comment is handed on to `print_expr`, which prints nothing for it
  | .comment text, depth => printCommentStmt text (1 + depth)
  -- through `print_expr`
  | .block nodes, depth => printBlockStmt (printNodes nodes (1 + (1 + depth))) (1 + (1 + depth))
  | .expr e, depth => printExpr e (1 + depth)
  -- the loop below takes the declarations
  | .varDecl _, _ => .ok []

/-- The loop of `print_block_stmt`. -/
def printNodes : List Stmt → Nat → Dump
  | [], _ => .ok []
  | .varDecl decl :: nodes, depth => printVarDecl decl (1 + depth) ++ printNodes nodes depth
  | node :: nodes, depth => printStmt node depth ++ printNodes nodes depth

end

/-! ## Programs -/

/-- `NULL` for no parameters. -/
def getFuncParams (params : List FuncParam) : Option CString :=
  if params.isEmpty then none
  else some (params.flatMap fun param =>
    ascii "Param: " ++ getVarT param.type ++ ascii " " ++ param.ident ++ ascii ", ")

/-- The bytes that `get_func_params` allocates. -/
def funcParamsAlloc (params : List FuncParam) : Nat :=
  (params.map fun param => param.ident.length + (getVarT param.type).length + 7 + 4).sum

def printFuncType (decl : FuncDecl) (depth : Nat) : Dump :=
  .ok (printWithIndentArr [some (ascii "FUNCTION:"), some decl.ident, some (ascii "RETURN TYPE:"),
    some (getVarT decl.retT)] depth) ++
  .ok (printWithIndentArr [some (ascii "PARAMS:"), getFuncParams decl.params] depth)

def printFuncDecl (decl : FuncDecl) (depth : Nat) : Dump :=
  printFuncType decl depth ++ printBlockStmt (printNodes decl.block (1 + depth)) (1 + depth)

def printTopDecl : TopDecl → Dump
  | .varDecl decl => printVarDecl decl 0
  | .funcDecl decl => printFuncDecl decl 0
  | .comment _ => .ok []

def printAst : Program → Dump
  | [] => .ok []
  | node :: nodes => printTopDecl node ++ printAst nodes

/-- What is printed for the parameters fits into what is allocated for them. -/
theorem getFuncParams_fits {params : List FuncParam} {text : CString}
    (h : getFuncParams params = some text) : text.length + 1 ≤ funcParamsAlloc params := by
  have hlen : ∀ params : List FuncParam, (params.flatMap fun param =>
      ascii "Param: " ++ getVarT param.type ++ ascii " " ++ param.ident ++ ascii ", ").length +
        params.length = funcParamsAlloc params := by
    intro params
    induction params with
    | nil => rfl
    | cons param params ih =>
      rw [funcParamsAlloc] at ih ⊢
      simp only [List.flatMap_cons, List.length_append, List.length_cons, List.map_cons,
        List.sum_cons, show (ascii "Param: ").length = 7 from rfl,
        show (ascii " ").length = 1 from rfl, show (ascii ", ").length = 2 from rfl] at ih ⊢
      omega
  cases params with
  | nil => exact absurd h (by simp [getFuncParams])
  | cons param params =>
    obtain rfl := Option.some.inj h
    rw [← hlen, List.length_cons]
    omega

/-! ## What the dump looks at -/

/-- `++` or `--`. -/
def Expr.isStep : Expr → Bool
  | .unary .uPlusPlus _ => true
  | .unary .uMinusMinus _ => true
  | _ => false

def Expr.isIdentifier : Expr → Bool
  | .identifier _ => true
  | _ => false

mutual

/-- The subexpressions that are not inside of an assignment. -/
def Expr.dumped : Expr → List Expr
  | .binary op left right => .binary op left right :: (left.dumped ++ right.dumped)
  | .unary op expr => .unary op expr :: expr.dumped
  | .cast varT inner => .cast varT inner :: inner.dumped
  | .call callee args => .call callee args :: dumpedArgs args
  | .index target idx => .index target idx :: (target.dumped ++ idx.dumped)
  | .identifier name => [.identifier name]
  | .literal lit => [.literal lit]
  | .assign target val => [.assign target val]

def dumpedArgs : List Expr → List Expr
  | [] => []
  | arg :: args => arg.dumped ++ dumpedArgs args

end

def VarDecl.dumped (decl : VarDecl) : List Expr := (decl.assign.map Expr.dumped).getD []

mutual

/-- The subexpressions of a statement that are not inside of an assignment, other than the statement
itself. -/
def Stmt.dumped : Stmt → List Expr
  | .ifStmt cond thenBranch none => cond.dumped ++ dumpedNodes thenBranch
  | .ifStmt cond thenBranch (some elseBranch) =>
    cond.dumped ++ dumpedNodes thenBranch ++ dumpedNodes elseBranch
  | .returnStmt returnVal => returnVal.dumped
  | .comment _ => []
  | .block nodes => dumpedNodes nodes
  | .expr (.assign _ val) => val.dumped
  | .expr e => e.dumped
  | .varDecl decl => decl.dumped

def dumpedNodes : List Stmt → List Expr
  | [] => []
  | node :: nodes => node.dumped ++ dumpedNodes nodes

end

mutual

/-- The left sides of the assignments that are statements. -/
def Stmt.targets : Stmt → List Expr
  | .ifStmt _ thenBranch none => targetsOfNodes thenBranch
  | .ifStmt _ thenBranch (some elseBranch) =>
    targetsOfNodes thenBranch ++ targetsOfNodes elseBranch
  | .block nodes => targetsOfNodes nodes
  | .expr (.assign target _) => [target]
  | .returnStmt _ | .comment _ | .expr _ | .varDecl _ => []

def targetsOfNodes : List Stmt → List Expr
  | [] => []
  | node :: nodes => node.targets ++ targetsOfNodes nodes

end

def TopDecl.dumped : TopDecl → List Expr
  | .varDecl decl => decl.dumped
  | .funcDecl decl => dumpedNodes decl.block
  | .comment _ => []

def TopDecl.targets : TopDecl → List Expr
  | .funcDecl decl => targetsOfNodes decl.block
  | .varDecl _ | .comment _ => []

/-- No `++` and no `--` is met, and no element of an array is assigned to. -/
def Dumpable (dumped targets : List Expr) : Prop :=
  (∀ e ∈ dumped, e.isStep = false) ∧ ∀ target ∈ targets, target.isIdentifier = true

/-! ## When the dump comes to its end -/

def Succeeds (x : Dump) : Prop := ∃ text, x = .ok text

@[simp] theorem succeeds_ok (text : CString) : Succeeds (.ok text) := ⟨text, rfl⟩

theorem not_succeeds_error (e : DumpError) : ¬ Succeeds (.error e) := by
  rintro ⟨text, h⟩
  exact absurd h (by simp)

@[simp] theorem succeeds_append (x y : Dump) : Succeeds (x ++ y) ↔ Succeeds x ∧ Succeeds y := by
  cases x with
  | error e => exact iff_of_false (not_succeeds_error e) fun h => not_succeeds_error e h.1
  | ok text =>
    cases y with
    | error e => exact iff_of_false (not_succeeds_error e) fun h => not_succeeds_error e h.2
    | ok rest => exact iff_of_true ⟨text ++ rest, rfl⟩ ⟨⟨text, rfl⟩, rest, rfl⟩

theorem succeeds_map (f : CString → CString) (x : Dump) : Succeeds (x.map f) ↔ Succeeds x := by
  cases x with
  | error e => exact iff_of_false (not_succeeds_error e) (not_succeeds_error e)
  | ok text => exact iff_of_true ⟨f text, rfl⟩ ⟨text, rfl⟩

@[simp] theorem succeeds_printTagged (tag : String) (word : Dump) (depth : Nat) :
    Succeeds (printTagged tag word depth) ↔ Succeeds word := succeeds_map _ word

@[simp] theorem succeeds_getBinaryOp (op : BinaryOp) : Succeeds (getBinaryOp op) := by
  cases op <;> exact succeeds_ok _

theorem succeeds_getUnaryOp (op : UnaryOp) (expr : Expr) :
    Succeeds (getUnaryOp op) ↔ (Expr.unary op expr).isStep = false := by
  cases op with
  | uPlusPlus => exact iff_of_false (not_succeeds_error _) (by simp [Expr.isStep])
  | uMinusMinus => exact iff_of_false (not_succeeds_error _) (by simp [Expr.isStep])
  | uPos => exact iff_of_true (succeeds_ok _) rfl
  | uNeg => exact iff_of_true (succeeds_ok _) rfl
  | uNot => exact iff_of_true (succeeds_ok _) rfl
  | uAddr => exact iff_of_true (succeeds_ok _) rfl

theorem succeeds_getIdent (target : Expr) :
    Succeeds (getIdent target) ↔ target.isIdentifier = true := by
  cases target with
  | identifier name => exact iff_of_true (succeeds_ok _) rfl
  | _ => exact iff_of_false (not_succeeds_error _) Bool.false_ne_true

mutual

/-- An expression is dumped iff no `++` and no `--` is met in it. -/
theorem printBinaryExpr_iff : ∀ (e : Expr) (depth : Nat),
    Succeeds (printBinaryExpr e depth) ↔ ∀ x ∈ e.dumped, x.isStep = false
  | .binary op left right, depth => by
    rw [printBinaryExpr, Expr.dumped, succeeds_append, succeeds_append, succeeds_printTagged,
      printBinaryExpr_iff left, printBinaryExpr_iff right, List.forall_mem_cons,
      List.forall_mem_append]
    simp [Expr.isStep]
  | .unary op expr, depth => by
    rw [printBinaryExpr, Expr.dumped, succeeds_append, succeeds_printTagged,
      succeeds_getUnaryOp op expr, printBinaryExpr_iff expr, List.forall_mem_cons]
  | .cast varT inner, depth => by
    rw [printBinaryExpr, Expr.dumped, succeeds_append, succeeds_printTagged,
      printBinaryExpr_iff inner, List.forall_mem_cons]
    simp [Expr.isStep]
  | .call callee args, depth => by
    rw [printBinaryExpr, Expr.dumped, succeeds_append, succeeds_printTagged, printArgs_iff args,
      List.forall_mem_cons]
    simp [Expr.isStep]
  | .index target idx, depth => by
    rw [printBinaryExpr, Expr.dumped, succeeds_append, succeeds_append,
      printBinaryExpr_iff target, printBinaryExpr_iff idx, List.forall_mem_cons,
      List.forall_mem_append]
    simp [Expr.isStep]
  | .identifier name, depth => by
    rw [printBinaryExpr, Expr.dumped, succeeds_printTagged]
    simp [Expr.isStep]
  | .literal lit, depth => by
    rw [printBinaryExpr, Expr.dumped, succeeds_printTagged]
    simp [Expr.isStep]
  | .assign target val, depth => by
    rw [printBinaryExpr, Expr.dumped]
    simp [Expr.isStep]

theorem printArgs_iff : ∀ (args : List Expr) (depth : Nat),
    Succeeds (printArgs args depth) ↔ ∀ x ∈ dumpedArgs args, x.isStep = false
  | [], depth => by
    rw [printArgs, dumpedArgs]
    simp
  | arg :: args, depth => by
    rw [printArgs, dumpedArgs, succeeds_append, printBinaryExpr_iff arg, printArgs_iff args,
      List.forall_mem_append]

end

theorem printVarDecl_iff (decl : VarDecl) (depth : Nat) :
    Succeeds (printVarDecl decl depth) ↔ ∀ x ∈ decl.dumped, x.isStep = false := by
  rw [printVarDecl, VarDecl.dumped, succeeds_append]
  cases decl.assign with
  | none => simp
  | some assign => simp [printBinaryExpr_iff]

theorem dumpable_append (d d' ts ts' : List Expr) :
    Dumpable (d ++ d') (ts ++ ts') ↔ Dumpable d ts ∧ Dumpable d' ts' := by
  rw [Dumpable, Dumpable, Dumpable, List.forall_mem_append, List.forall_mem_append]
  exact and_and_and_comm

theorem dumpable_nil_right (d : List Expr) :
    Dumpable d [] ↔ ∀ x ∈ d, x.isStep = false :=
  and_iff_left fun _ h => absurd h List.not_mem_nil

/-- An expression as a statement. -/
theorem printExpr_iff (e : Expr) (depth : Nat) :
    Succeeds (printExpr e depth) ↔ Dumpable (Stmt.expr e).dumped (Stmt.expr e).targets := by
  cases e with
  | assign target val =>
    rw [printExpr, printAssignExpr, succeeds_append, succeeds_append, succeeds_map,
      succeeds_getIdent, printBinaryExpr_iff, printBinaryExpr]
    simp [Dumpable, Stmt.dumped, Stmt.targets, and_comm]
  | _ => exact (printBinaryExpr_iff _ depth).trans (dumpable_nil_right _).symm

mutual

/-- A statement is dumped iff no `++` and no `--` is met in it, and it assigns to identifiers. -/
theorem printStmt_iff : ∀ (s : Stmt) (depth : Nat), (∀ decl, s ≠ .varDecl decl) →
    (Succeeds (printStmt s depth) ↔ Dumpable s.dumped s.targets)
  | .ifStmt cond thenBranch none, depth, _ => by
    rw [printStmt, printIfStmt, printBlockStmt, Stmt.dumped, Stmt.targets,
      ← List.nil_append (targetsOfNodes thenBranch), dumpable_append, dumpable_nil_right,
      ← printBinaryExpr_iff cond (1 + depth + 1), ← printNodes_iff thenBranch (1 + depth + 1)]
    simp
  | .ifStmt cond thenBranch (some elseBranch), depth, _ => by
    rw [printStmt, printIfStmt, printElse, printBlockStmt, printBlockStmt, Stmt.dumped,
      Stmt.targets, dumpable_append, ← List.nil_append (targetsOfNodes thenBranch),
      dumpable_append, dumpable_nil_right, ← printBinaryExpr_iff cond (1 + depth + 1),
      ← printNodes_iff thenBranch (1 + depth + 1), ← printNodes_iff elseBranch (1 + depth + 1)]
    simp
  | .returnStmt returnVal, depth, _ => by
    rw [printStmt, printReturnStmt, Stmt.dumped, Stmt.targets, dumpable_nil_right,
      ← printBinaryExpr_iff returnVal (1 + (1 + depth))]
    simp
  | .comment text, depth, _ => by
    rw [printStmt, printCommentStmt, Stmt.dumped, Stmt.targets, dumpable_nil_right]
    simp
  | .block nodes, depth, _ => by
    rw [printStmt, printBlockStmt, Stmt.dumped, Stmt.targets,
      ← printNodes_iff nodes (1 + (1 + depth))]
    simp
  | .expr e, depth, _ => by
    rw [printStmt]
    exact printExpr_iff e (1 + depth)
  | .varDecl decl, _, h => absurd rfl (h decl)

theorem printNodes_iff : ∀ (nodes : List Stmt) (depth : Nat),
    Succeeds (printNodes nodes depth) ↔ Dumpable (dumpedNodes nodes) (targetsOfNodes nodes)
  | [], depth => by
    rw [printNodes, dumpedNodes, targetsOfNodes, dumpable_nil_right]
    simp
  | node :: nodes, depth => by
    have hrest := printNodes_iff nodes depth
    rw [dumpedNodes, targetsOfNodes, dumpable_append, ← hrest]
    by_cases hdecl : ∃ decl, node = .varDecl decl
    · obtain ⟨decl, rfl⟩ := hdecl
      rw [printNodes, succeeds_append, printVarDecl_iff, Stmt.dumped, Stmt.targets,
        dumpable_nil_right]
    · have hne : ∀ decl, node ≠ .varDecl decl := fun decl heq => hdecl ⟨decl, heq⟩
      rw [printNodes, succeeds_append, printStmt_iff node depth hne]
      exact fun decl => hne decl

end

theorem printTopDecl_iff (node : TopDecl) :
    Succeeds (printTopDecl node) ↔ Dumpable node.dumped node.targets := by
  cases node with
  | varDecl decl => exact (printVarDecl_iff decl 0).trans (dumpable_nil_right _).symm
  | funcDecl decl =>
    rw [printTopDecl, printFuncDecl, printFuncType, printBlockStmt, TopDecl.dumped,
      TopDecl.targets, ← printNodes_iff decl.block (1 + 0)]
    simp
  | comment text =>
    rw [printTopDecl, TopDecl.dumped, TopDecl.targets, dumpable_nil_right]
    simp

/-- **A program is dumped iff no `++` and no `--` is met in it, and no statement of it assigns to an
element of an array.** -/
theorem printAst_iff (p : Program) : (∃ text, printAst p = .ok text) ↔
    Dumpable (p.flatMap TopDecl.dumped) (p.flatMap TopDecl.targets) := by
  show Succeeds (printAst p) ↔ _
  induction p with
  | nil => exact iff_of_true (succeeds_ok _) (by simp [Dumpable])
  | cons node nodes ih =>
    rw [printAst, succeeds_append, List.flatMap_cons, List.flatMap_cons, dumpable_append,
      printTopDecl_iff, ih]

/-- `fn f() { a[0] = 1; return 0; }` as tokens. -/
def assignElementTokens : List Token :=
  [⟨.tFunc, ascii "fn", 2, 1, 2⟩, ⟨.tIdentifier, ascii "f", 1, 1, 4⟩,
    ⟨.tLeftParen, ascii "(", 1, 1, 5⟩, ⟨.tRightParen, ascii ")", 1, 1, 6⟩,
    ⟨.tLeftBrace, ascii "\x7b", 1, 1, 8⟩, ⟨.tIdentifier, ascii "a", 1, 1, 10⟩,
    ⟨.tLeftBracket, ascii "[", 1, 1, 11⟩, ⟨.tNumberLit, ascii "0", 1, 1, 12⟩,
    ⟨.tRightBracket, ascii "]", 1, 1, 13⟩, ⟨.tEqual, ascii "=", 1, 1, 15⟩,
    ⟨.tNumberLit, ascii "1", 1, 1, 17⟩, ⟨.tSemicolon, ascii ";", 1, 1, 18⟩,
    ⟨.tReturn, ascii "return", 6, 1, 25⟩, ⟨.tNumberLit, ascii "0", 1, 1, 27⟩,
    ⟨.tSemicolon, ascii ";", 1, 1, 28⟩, ⟨.tRightBrace, ascii "\x7d", 1, 1, 30⟩,
    ⟨.tEof, ascii "eof", 3, 0, 0⟩]

/-- `let QWORD g = ++1;` as tokens. -/
def incrementTokens : List Token :=
  [⟨.tLet, ascii "let", 3, 1, 3⟩, ⟨.tQword, ascii "QWORD", 5, 1, 9⟩,
    ⟨.tIdentifier, ascii "g", 1, 1, 11⟩, ⟨.tEqual, ascii "=", 1, 1, 13⟩,
    ⟨.tPlusPlus, ascii "++", 2, 1, 16⟩, ⟨.tNumberLit, ascii "1", 1, 1, 17⟩,
    ⟨.tSemicolon, ascii ";", 1, 1, 18⟩, ⟨.tEof, ascii "eof", 3, 0, 0⟩]

/-- The parser accepts both programs, and neither is dumped. -/
theorem printAst_fails :
    (∃ p, parseProgram assignElementTokens = .ok p ∧ printAst p = .error .assertFailed) ∧
      ∃ p, parseProgram incrementTokens = .ok p ∧
        printAst p = .error (.compileError "obtained an unusable unary expression") :=
  ⟨⟨[.funcDecl ⟨ascii "f", ⟨.lit .litQword, false, 0⟩, [],
      [.expr (.assign (.index (.identifier (ascii "a")) (.literal ⟨0, none⟩)) (.literal ⟨1, none⟩)),
        .returnStmt (.literal ⟨0, none⟩)]⟩], rfl, rfl⟩,
    [.varDecl ⟨ascii "g", ⟨.lit .litQword, false, 0⟩,
      some (.unary .uPlusPlus (.literal ⟨1, none⟩))⟩], rfl, rfl⟩

end ACompiler
