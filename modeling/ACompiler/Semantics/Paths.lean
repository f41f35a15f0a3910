import ACompiler.Parser.Parse
import ACompiler.Semantics.Interp

/-!
# Paths through statements

A path through the body of a function takes one outcome for every condition it meets, and ends at a
`return` or behind the last statement. There is a path that ends behind the last statement exactly
when the statements need not return (`path_fellThrough_iff`); the check of the parser is weaker, as it
takes an `if` without `else` for its branch.
-/

namespace ACompiler

/-- How a path through statements ends. -/
inductive Ending
  | returned | fellThrough
  deriving DecidableEq, Repr

/-- A path through statements, with any outcome for each condition. -/
inductive Path : StmtPhrase → Ending → Prop
  | comment {text : CString} : Path (.stmt (.comment text)) .fellThrough
  | expr {e : Expr} : Path (.stmt (.expr e)) .fellThrough
  | varDecl {decl : VarDecl} : Path (.stmt (.varDecl decl)) .fellThrough
  | returnStmt {e : Expr} : Path (.stmt (.returnStmt e)) .returned
  | block {nodes : List Stmt} {o : Ending} (h : Path (.nodes nodes) o) :
      Path (.stmt (.block nodes)) o
  | ifTaken {cond : Expr} {thenBranch : List Stmt} {elseBranch : Option (List Stmt)} {o : Ending}
      (h : Path (.nodes thenBranch) o) : Path (.stmt (.ifStmt cond thenBranch elseBranch)) o
  | ifPassed {cond : Expr} {thenBranch : List Stmt} :
      Path (.stmt (.ifStmt cond thenBranch none)) .fellThrough
  | ifElse {cond : Expr} {thenBranch elseBranch : List Stmt} {o : Ending}
      (h : Path (.nodes elseBranch) o) :
      Path (.stmt (.ifStmt cond thenBranch (some elseBranch))) o
  | nil : Path (.nodes []) .fellThrough
  | stop {s : Stmt} {nodes : List Stmt} (h : Path (.stmt s) .returned) :
      Path (.nodes (s :: nodes)) .returned
  | next {s : Stmt} {nodes : List Stmt} {o : Ending} (h : Path (.stmt s) .fellThrough)
      (h' : Path (.nodes nodes) o) : Path (.nodes (s :: nodes)) o

/-! ## Statements that must return -/

mutual

/-- Like `stmtHasRet`, but an `if` without `else` need not return. -/
def stmtMustRet : Stmt → Bool
  | .returnStmt _ => true
  | .block nodes => blockMustRet nodes
  | .ifStmt _ _ none => false
  | .ifStmt _ thenBranch (some elseBranch) => blockMustRet thenBranch && blockMustRet elseBranch
  | .comment _ | .varDecl _ | .expr _ => false

def blockMustRet : List Stmt → Bool
  | [] => false
  | cur :: nodes => stmtMustRet cur || blockMustRet nodes

end

def StmtPhrase.mustRet : StmtPhrase → Bool
  | .stmt s => stmtMustRet s
  | .nodes ss => blockMustRet ss

/-- A path that falls through meets nothing that must return. -/
theorem Path.mustRet {p : StmtPhrase} {o : Ending} (h : Path p o) :
    o = .fellThrough → p.mustRet = false := by
  induction h with
  | comment => exact fun _ => rfl
  | expr => exact fun _ => rfl
  | varDecl => exact fun _ => rfl
  | returnStmt => exact fun ho => absurd ho (by decide)
  | block _ ih => exact ih
  | @ifTaken cond thenBranch elseBranch o _ ih =>
    intro ho
    have ih : blockMustRet thenBranch = false := ih ho
    cases elseBranch with
    | none => rfl
    | some elseBranch => simp [StmtPhrase.mustRet, stmtMustRet, ih]
  | ifPassed => exact fun _ => rfl
  | ifElse _ ih =>
    intro ho
    have ih : blockMustRet _ = false := ih ho
    simp [StmtPhrase.mustRet, stmtMustRet, ih]
  | nil => exact fun _ => rfl
  | stop _ _ => exact fun ho => absurd ho (by decide)
  | next _ _ ih ih' =>
    intro ho
    have ih : stmtMustRet _ = false := ih rfl
    have ih' : blockMustRet _ = false := ih' ho
    simp [StmtPhrase.mustRet, blockMustRet, ih, ih']

mutual

theorem path_of_stmt (s : Stmt) (h : stmtMustRet s = false) : Path (.stmt s) .fellThrough := by
  match s, h with
  | .comment text, _ => exact .comment
  | .expr e, _ => exact .expr
  | .varDecl decl, _ => exact .varDecl
  | .returnStmt e, h => exact absurd h (by simp [stmtMustRet])
  | .block nodes, h => exact .block (path_of_block nodes h)
  | .ifStmt cond thenBranch none, _ => exact .ifPassed
  | .ifStmt cond thenBranch (some elseBranch), h =>
    rw [stmtMustRet, Bool.and_eq_false_iff] at h
    rcases h with h | h
    · exact .ifTaken (path_of_block thenBranch h)
    · exact .ifElse (path_of_block elseBranch h)

theorem path_of_block (ss : List Stmt) (h : blockMustRet ss = false) :
    Path (.nodes ss) .fellThrough := by
  match ss, h with
  | [], _ => exact .nil
  | s :: ss, h =>
    rw [blockMustRet, Bool.or_eq_false_iff] at h
    exact .next (path_of_stmt s h.1) (path_of_block ss h.2)

end

/-- **Some path falls through exactly when the statements need not return.** -/
theorem path_fellThrough_iff (ss : List Stmt) :
    Path (.nodes ss) .fellThrough ↔ blockMustRet ss = false :=
  ⟨fun h => h.mustRet rfl, path_of_block ss⟩

/-! ## The check of the parser -/

mutual

/-- What must return has a `return`. -/
theorem stmtHasRet_of_mustRet (s : Stmt) (h : stmtMustRet s = true) : stmtHasRet s = true := by
  match s, h with
  | .returnStmt e, _ => rfl
  | .block nodes, h => exact blockHasRet_of_mustRet nodes h
  | .ifStmt cond thenBranch none, h => exact absurd h (by simp [stmtMustRet])
  | .ifStmt cond thenBranch (some elseBranch), h =>
    rw [stmtMustRet, Bool.and_eq_true] at h
    rw [stmtHasRet, Bool.and_eq_true]
    exact ⟨blockHasRet_of_mustRet thenBranch h.1, blockHasRet_of_mustRet elseBranch h.2⟩
  | .comment text, h => exact absurd h (by simp [stmtMustRet])
  | .varDecl decl, h => exact absurd h (by simp [stmtMustRet])
  | .expr e, h => exact absurd h (by simp [stmtMustRet])

theorem blockHasRet_of_mustRet (ss : List Stmt) (h : blockMustRet ss = true) :
    blockHasRet ss = true := by
  match ss, h with
  | [], h => exact absurd h (by simp [blockMustRet])
  | s :: ss, h =>
    rw [blockMustRet, Bool.or_eq_true] at h
    rw [blockHasRet, Bool.or_eq_true]
    exact h.imp (stmtHasRet_of_mustRet s) (blockHasRet_of_mustRet ss)

end

/-! ## Runs of the interpreter -/

def Outcome.ending : Outcome → Ending
  | .normal => .fellThrough
  | .returned _ => .returned

mutual

/-- A run of the interpreter takes a path. -/
theorem path_of_execStmt (s : Stmt) {σ σ' : Store} {o : Outcome}
    (h : execStmt s σ = some (o, σ')) : Path (.stmt s) o.ending := by
  match s, h with
  | .block nodes, h =>
    simp only [execStmt, Option.bind_eq_bind, Option.bind_eq_some_iff] at h
    obtain ⟨⟨o', σ₁⟩, hrun, h⟩ := h
    obtain ⟨rfl, _⟩ := Prod.mk.inj (Option.some.inj h)
    exact .block (path_of_execStmts nodes hrun)
  | .ifStmt cond thenBranch none, h =>
    simp only [execStmt, Option.bind_eq_bind, Option.bind_eq_some_iff] at h
    obtain ⟨⟨v, σ₁⟩, _, h⟩ := h
    by_cases hv : v ≠ 0
    · simp only [if_pos hv, Option.bind_eq_some_iff] at h
      obtain ⟨⟨o', σ₂⟩, hrun, h⟩ := h
      obtain ⟨rfl, _⟩ := Prod.mk.inj (Option.some.inj h)
      exact .ifTaken (path_of_execStmts thenBranch hrun)
    · simp only [if_neg hv] at h
      obtain ⟨rfl, _⟩ := Prod.mk.inj (Option.some.inj h)
      exact .ifPassed
  | .ifStmt cond thenBranch (some elseBranch), h =>
    simp only [execStmt, Option.bind_eq_bind, Option.bind_eq_some_iff] at h
    obtain ⟨⟨v, σ₁⟩, _, h⟩ := h
    by_cases hv : v ≠ 0
    · simp only [if_pos hv, Option.bind_eq_some_iff] at h
      obtain ⟨⟨o', σ₂⟩, hrun, h⟩ := h
      obtain ⟨rfl, _⟩ := Prod.mk.inj (Option.some.inj h)
      exact .ifTaken (path_of_execStmts thenBranch hrun)
    · simp only [if_neg hv, Option.bind_eq_some_iff] at h
      obtain ⟨⟨o', σ₂⟩, hrun, h⟩ := h
      obtain ⟨rfl, _⟩ := Prod.mk.inj (Option.some.inj h)
      exact .ifElse (path_of_execStmts elseBranch hrun)
  | .returnStmt e, h =>
    simp only [execStmt, Option.bind_eq_bind, Option.bind_eq_some_iff] at h
    obtain ⟨⟨v, σ₁⟩, _, h⟩ := h
    obtain ⟨rfl, _⟩ := Prod.mk.inj (Option.some.inj h)
    exact .returnStmt
  | .comment text, h =>
    obtain ⟨rfl, _⟩ := Prod.mk.inj (Option.some.inj h)
    exact .comment
  | .varDecl ⟨x, type, none⟩, h =>
    obtain ⟨rfl, _⟩ := Prod.mk.inj (Option.some.inj h)
    exact .varDecl
  | .varDecl ⟨x, type, some e⟩, h =>
    simp only [execStmt, Option.bind_eq_bind, Option.bind_eq_some_iff] at h
    obtain ⟨⟨v, σ₁⟩, _, σ₂, _, h⟩ := h
    obtain ⟨rfl, _⟩ := Prod.mk.inj (Option.some.inj h)
    exact .varDecl
  | .expr e, h =>
    simp only [execStmt, Option.bind_eq_bind, Option.bind_eq_some_iff] at h
    obtain ⟨⟨v, σ₁⟩, _, h⟩ := h
    obtain ⟨rfl, _⟩ := Prod.mk.inj (Option.some.inj h)
    exact .expr

theorem path_of_execStmts (ss : List Stmt) {σ σ' : Store} {o : Outcome}
    (h : execStmts ss σ = some (o, σ')) : Path (.nodes ss) o.ending := by
  match ss, h with
  | [], h =>
    obtain ⟨rfl, _⟩ := Prod.mk.inj (Option.some.inj h)
    exact .nil
  | s :: ss, h =>
    simp only [execStmts, Option.bind_eq_bind, Option.bind_eq_some_iff] at h
    obtain ⟨⟨o', σ₁⟩, hs, h⟩ := h
    have hpath := path_of_execStmt s hs
    cases o' with
    | normal => exact .next hpath (path_of_execStmts ss h)
    | returned v =>
      obtain ⟨rfl, _⟩ := Prod.mk.inj (Option.some.inj h)
      exact .stop hpath

end

/-- A body that must return does return wherever the interpreter runs it to its end. -/
theorem execStmts_returns {ss : List Stmt} {σ σ' : Store} {o : Outcome}
    (hret : blockMustRet ss = true) (h : execStmts ss σ = some (o, σ')) : ∃ v, o = .returned v := by
  cases o with
  | normal =>
    have hfall := (path_fellThrough_iff ss).mp (path_of_execStmts ss h)
    rw [hret] at hfall
    exact absurd hfall (by decide)
  | returned v => exact ⟨v, rfl⟩

end ACompiler
