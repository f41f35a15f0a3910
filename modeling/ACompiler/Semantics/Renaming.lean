import ACompiler.Semantics.Interp

/-!
# Renaming

The parameters and variables of a function under other names: the declarations are renamed, and the
uses that resolve to them. `locals` are the declared names in scope; a name that is not among them is
a global's, or nobody's, and stays.
-/

namespace ACompiler

/-- What a use of the name becomes. -/
def newName (ρ : CString → CString) (locals : List CString) (x : CString) : CString :=
  if locals.contains x then ρ x else x

theorem newName_of_mem {ρ : CString → CString} {locals : List CString} {x : CString}
    (h : x ∈ locals) : newName ρ locals x = ρ x := if_pos (List.contains_iff_mem.mpr h)

theorem newName_of_not_mem {ρ : CString → CString} {locals : List CString} {x : CString}
    (h : x ∉ locals) : newName ρ locals x = x := if_neg fun hin => h (List.contains_iff_mem.mp hin)

mutual

def Expr.rename (ρ : CString → CString) (locals : List CString) : Expr → Expr
  | .identifier x => .identifier (newName ρ locals x)
  | .literal lit => .literal lit
  | .unary op expr => .unary op (expr.rename ρ locals)
  | .binary op left right => .binary op (left.rename ρ locals) (right.rename ρ locals)
  | .assign target val => .assign (target.rename ρ locals) (val.rename ρ locals)
  | .call callee args => .call callee (renameArgs ρ locals args)
  | .cast t inner => .cast t (inner.rename ρ locals)
  | .index target idx => .index (target.rename ρ locals) (idx.rename ρ locals)

def renameArgs (ρ : CString → CString) (locals : List CString) : List Expr → List Expr
  | [] => []
  | arg :: args => arg.rename ρ locals :: renameArgs ρ locals args

end

mutual

def Stmt.rename (ρ : CString → CString) (locals : List CString) : Stmt → Stmt
  | .block nodes => .block (renameNodes ρ locals nodes)
  | .ifStmt cond thenBranch none =>
    .ifStmt (cond.rename ρ locals) (renameNodes ρ locals thenBranch) none
  | .ifStmt cond thenBranch (some elseBranch) =>
    .ifStmt (cond.rename ρ locals) (renameNodes ρ locals thenBranch)
      (some (renameNodes ρ locals elseBranch))
  | .returnStmt returnVal => .returnStmt (returnVal.rename ρ locals)
  | .comment text => .comment text
  | .varDecl decl =>
    .varDecl ⟨ρ decl.ident, decl.type, decl.assign.map fun e => e.rename ρ (decl.ident :: locals)⟩
  | .expr e => .expr (e.rename ρ locals)

/-- The nodes of a block: each declaration counts for the nodes behind it. -/
def renameNodes (ρ : CString → CString) (locals : List CString) : List Stmt → List Stmt
  | [] => []
  | node :: nodes => node.rename ρ locals :: renameNodes ρ (node.declares ++ locals) nodes

end

/-- The function with its parameters and variables renamed. -/
def FuncDecl.rename (ρ : CString → CString) (decl : FuncDecl) : FuncDecl :=
  { decl with
    params := decl.params.map fun p => { p with ident := ρ p.ident }
    block := renameNodes ρ (decl.params.map FuncParam.ident) decl.block }

/-! ## The names of a function -/

mutual

/-- The names that an expression reads, assigns or takes the address of. -/
def Expr.uses : Expr → List CString
  | .identifier x => [x]
  | .literal _ => []
  | .unary _ expr => expr.uses
  | .binary _ left right => left.uses ++ right.uses
  | .assign target val => target.uses ++ val.uses
  | .call _ args => usesOfArgs args
  | .cast _ inner => inner.uses
  | .index target idx => target.uses ++ idx.uses

def usesOfArgs : List Expr → List CString
  | [] => []
  | arg :: args => arg.uses ++ usesOfArgs args

end

mutual

/-- The names that a statement uses. -/
def Stmt.uses : Stmt → List CString
  | .block nodes => usesOfNodes nodes
  | .ifStmt cond thenBranch none => cond.uses ++ usesOfNodes thenBranch
  | .ifStmt cond thenBranch (some elseBranch) =>
    cond.uses ++ usesOfNodes thenBranch ++ usesOfNodes elseBranch
  | .returnStmt returnVal => returnVal.uses
  | .comment _ => []
  | .varDecl decl => (decl.assign.map Expr.uses).getD []
  | .expr e => e.uses

def usesOfNodes : List Stmt → List CString
  | [] => []
  | node :: nodes => node.uses ++ usesOfNodes nodes

end

mutual

/-- The names that a statement declares, in its blocks too. -/
def Stmt.locals : Stmt → List CString
  | .block nodes => localsOfNodes nodes
  | .ifStmt _ thenBranch none => localsOfNodes thenBranch
  | .ifStmt _ thenBranch (some elseBranch) => localsOfNodes thenBranch ++ localsOfNodes elseBranch
  | .varDecl decl => [decl.ident]
  | .returnStmt _ | .comment _ | .expr _ => []

def localsOfNodes : List Stmt → List CString
  | [] => []
  | node :: nodes => node.locals ++ localsOfNodes nodes

end

/-- The names of the parameters and the variables of a function. -/
def FuncDecl.locals (decl : FuncDecl) : List CString :=
  decl.params.map FuncParam.ident ++ localsOfNodes decl.block

/-- A renaming of the locals of a function: injective, to names that the function does not use. -/
structure Renames (ρ : CString → CString) (decl : FuncDecl) : Prop where
  injective : ∀ x ∈ decl.locals, ∀ y ∈ decl.locals, ρ x = ρ y → x = y
  fresh : ∀ x ∈ decl.locals, ρ x ∉ usesOfNodes decl.block

end ACompiler
