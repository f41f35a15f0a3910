import ACompiler.Correct.LocalLabels
import ACompiler.Parser.Names

/-!
# How many labels

The counter of the labels goes up by two at an `if` and by one at a function. Both are written with
more tokens than that, and a token has a byte of its own, so a program has fewer labels than its
source has bytes (`source_labelCount`).
-/

namespace ACompiler

open Tokenizer
open Lib (Emitted)
open Lib.Emit (bind_eq_ok)

/-! ## The counter -/

mutual

/-- The labels that a statement takes. -/
def stmtLabels : Stmt → Nat
  | .block nodes => stmtsLabels nodes
  | .ifStmt _ thenBranch none => 2 + stmtsLabels thenBranch
  | .ifStmt _ thenBranch (some elseBranch) => 2 + stmtsLabels thenBranch + stmtsLabels elseBranch
  | .returnStmt _ | .comment _ | .varDecl _ | .expr _ => 0

def stmtsLabels : List Stmt → Nat
  | [] => 0
  | node :: nodes => stmtLabels node + stmtsLabels nodes

end

def StmtPhrase.labels : StmtPhrase → Nat
  | .stmt s => stmtLabels s
  | .nodes ss => stmtsLabels ss

/-- The labels that a program takes. -/
def Program.labels (p : Program) : Nat :=
  ((funcsOf p).map fun decl => 1 + stmtsLabels decl.block).sum

theorem StmtCode.labelCount {c c' : AsmCtx} {p : StmtPhrase} {items : List Item}
    {marks : List AsmCtx} (h : StmtCode c p c' items marks) :
    c'.labelCount = c.labelCount + p.labels := by
  induction h with
  | comment => rfl
  | expr _ => rfl
  | returnStmt _ _ => rfl
  | uninit _ => rw [declare_labelCount]; rfl
  | init _ _ => rw [declare_labelCount]; rfl
  | @ifThen c _ _ _ _ _ _ _ _ ih =>
    have hcount : (c.withLabels (c.labelCount + 2)).labelCount = c.labelCount + 2 := rfl
    rw [ih, hcount]
    simp only [StmtPhrase.labels, stmtLabels]
    omega
  | @ifElse c _ _ _ _ _ _ _ _ _ _ _ _ _ ih ih' =>
    have hcount : (c.withLabels (c.labelCount + 2)).labelCount = c.labelCount + 2 := rfl
    rw [ih', ih, hcount]
    simp only [StmtPhrase.labels, stmtLabels]
    omega
  | block _ ih => exact ih
  | nil => rfl
  | cons _ _ ih ih' =>
    rw [ih', ih]
    simp only [StmtPhrase.labels, stmtsLabels]
    omega

theorem genFuncDecl_labelCount {decl : FuncDecl} {c : AsmCtx} {r : Emitted AsmCtx Item Unit}
    (h : genFuncDecl decl c = .ok r) :
    r.ctx.labelCount = c.labelCount + (1 + stmtsLabels decl.block) := by
  obtain ⟨_, c', body, hbody, hr⟩ := genFuncDecl_eq_ok h
  have hcount := hbody.labelCount
  rw [AsmCtx.bodyCtx, declareParams_labelCount] at hcount
  rw [hr]
  show c'.labelCount = _
  rw [hcount]
  exact Nat.add_assoc c.labelCount 1 _

theorem genFuncs_labelCount : ∀ (p : Program) {c : AsmCtx} {r : Emitted AsmCtx Item Unit},
    genFuncs p c = .ok r → r.ctx.labelCount = c.labelCount + p.labels := by
  intro p
  induction p with
  | nil =>
    intro c r h
    obtain rfl := Except.ok.inj h
    rfl
  | cons node p ih =>
    intro c r h
    cases node with
    | varDecl _ => exact ih h
    | comment _ => exact ih h
    | funcDecl decl =>
      rw [genFuncs, bind_eq_ok] at h
      obtain ⟨r₁, r₂, h₁, h₂, rfl⟩ := h
      show r₂.ctx.labelCount = _
      rw [ih h₂, genFuncDecl_labelCount h₁, Nat.add_assoc]
      rfl

/-- **The counter at the end is the number of labels.** -/
theorem genProgram_labelCount {p : Program} {r : Emitted AsmCtx Item Unit}
    (h : genProgram p asmInit = .ok r) : r.ctx.labelCount = p.labels := by
  obtain ⟨r₀, hfuncs, _, hcount⟩ := genProgram_parts h
  have hstart : ∀ (decls : List VarDecl) {c : AsmCtx}, c.labelCount = 0 →
      (c.declareGlobals decls).labelCount = 0 := by
    intro decls
    induction decls with
    | nil => exact id
    | cons decl decls ih =>
      intro c hc
      refine ih ?_
      unfold AsmCtx.declareGlobal
      split <;> exact hc
  rw [hcount, genFuncs_labelCount p hfuncs]
  have hzero : (dataCtx.declareGlobals (globalsOf p)).labelCount = 0 := hstart _ rfl
  simp only [hzero, Nat.zero_add]

/-! ## Tokens -/

theorem DerivesStmt.labels_le {c : StmtCat} {ts rest : List Token} {p : StmtPhrase}
    (h : DerivesStmt c ts rest p) : p.labels + rest.length ≤ ts.length := by
  induction h with
  | comment _ => simp [StmtPhrase.labels, stmtLabels]
  | ifThen _ _ hc _ _ ih =>
    have hlen := hc.consumes.length_le
    simp only [StmtPhrase.labels, stmtLabels, List.length_cons] at ih hlen ⊢
    omega
  | ifElse _ _ hc _ _ _ _ ih ih' =>
    have hlen := hc.consumes.length_le
    simp only [StmtPhrase.labels, stmtLabels, List.length_cons] at ih ih' hlen ⊢
    omega
  | ret _ h _ =>
    have hlen := h.consumes.length_le
    simp only [StmtPhrase.labels, stmtLabels, List.length_cons] at hlen ⊢
    omega
  | call h _ =>
    have hlen := h.consumes.length_le
    simp only [StmtPhrase.labels, stmtLabels, List.length_cons] at hlen ⊢
    omega
  | blockStmt _ _ ih =>
    simp only [StmtPhrase.labels, stmtLabels, List.length_cons] at ih ⊢
    omega
  | expr _ h _ =>
    have hlen := h.consumes.length_le
    simp only [StmtPhrase.labels, stmtLabels, List.length_cons] at hlen ⊢
    omega
  | nil => simp [StmtPhrase.labels, stmtsLabels]
  | varDecl h _ ih =>
    have hlen := h.consumes.length_le
    simp only [StmtPhrase.labels, stmtsLabels, stmtLabels] at ih ⊢
    omega
  | cons _ _ ih ih' =>
    simp only [StmtPhrase.labels, stmtsLabels] at ih ih' ⊢
    omega
  | block _ _ _ ih =>
    simp only [StmtPhrase.labels, List.length_cons] at ih ⊢
    omega

theorem DerivesFunc.labels_le {ts rest : List Token} {decl : FuncDecl}
    (h : DerivesFunc ts rest decl) : 1 + stmtsLabels decl.block + rest.length ≤ ts.length := by
  cases h with
  | func _ hv _ _ hp _ hb _ =>
    have htype := hv.consumes.length_le
    have hparams := hp.consumes.length_le
    have hbody := hb.labels_le
    simp only [StmtPhrase.labels, List.length_cons] at htype hparams hbody ⊢
    omega

theorem DerivesProgram.labels_lt {ts : List Token} {p : Program} (h : DerivesProgram ts p) :
    p.labels < ts.length := by
  induction h with
  | eof _ => exact Nat.one_pos
  | comment _ _ ih => exact Nat.lt_succ_of_lt ih
  | varDecl hd _ ih => exact Nat.lt_of_lt_of_le ih hd.consumes.length_le
  | func hf _ ih =>
    have hlen := hf.labels_le
    rw [Program.labels] at ih ⊢
    rw [funcsOf, List.map_cons, List.sum_cons]
    omega

/-! ## Bytes -/

section source
variable {bytes : CString} {fuel : Nat} (h255 : (255 : UInt8) ∉ bytes)
include h255

theorem Turns.tokens_le {t t' : Tokenizer} {turns : List Turn} (h : Turns fuel t turns t') :
    ∀ start line, t = window bytes start t.curIdx line → t.curIdx ≤ bytes.length →
      t.curIdx + (turns.filterMap Turn.token).length ≤ bytes.length := by
  induction h with
  | done _ => exact fun _ _ _ hle => hle
  | @turn t t' t'' temp turns h hscan _ ih =>
    intro start line ht _
    rw [turn_of_window ht] at hscan
    have hmoved := scanToken_moves h255 (lt_of_window ht h) temp t' hscan
    obtain ⟨start', line', ht'⟩ := hmoved.window
    have hrest := ih start' line' ht' hmoved.le
    have hlt := hmoved.lt
    rw [List.filterMap_cons]
    cases temp with
    | none =>
      simp only
      omega
    | some token =>
      simp only [List.length_cons]
      omega

/-- A token has a byte of its own. -/
theorem tokenize_length_le {tokens : List Token}
    (h : tokenize fuel (.fopen bytes) bytes.length = .ok tokens) :
    tokens.length ≤ bytes.length + 1 := by
  rw [tokenize, tokenizerInit_eq] at h
  obtain ⟨turns, t, hturns, rfl⟩ := tokenizeLoop_eq_ok h
  have hle := hturns.tokens_le h255 0 1 rfl (Nat.zero_le _)
  rw [List.length_append, List.length_singleton]
  omega

/-- **A program has no more labels than its source has bytes.** -/
theorem source_labelCount {tokens : List Token} {p : Program} {r : Emitted AsmCtx Item Unit}
    (htokens : tokenize fuel (.fopen bytes) bytes.length = .ok tokens)
    (hparse : parseProgram tokens = .ok p) (hgen : genProgram p asmInit = .ok r) :
    r.ctx.labelCount ≤ bytes.length := by
  have hlabels := (parseProgram_derives (tokenize_eofLast htokens) hparse).labels_lt
  have hlen := tokenize_length_le h255 htokens
  rw [genProgram_labelCount hgen]
  omega

end source

end ACompiler
