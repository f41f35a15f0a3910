import ACompiler.Correct.Data
import ACompiler.Lib.Hoare
import ACompiler.Parser.Complete
import ACompiler.Parser.Stripped

/-!
# Comments and the assembly

A comment generates no code, so a program and the program without its comments become the same
assembly (`genProgram_strip`). What a comment put into the source changes is therefore only whether
the parser takes it (`compiles_insertsComments_iff`).
-/

namespace ACompiler

open Lib (Emitted)
open Lib.Emit (Coupled)

/-- The two computations print the same and leave the same context, or fail together. -/
def SamePrint (x y : Gen Unit) : Prop := Coupled Eq x y fun _ _ => Eq

section same
variable {x y f g : Gen Unit}

theorem SamePrint.refl (x : Gen Unit) : SamePrint x x :=
  (Coupled.refl x).conseq (fun _ _ h => h) fun _ _ _ _ h => h.2

theorem SamePrint.bind (hx : SamePrint x y) (hf : SamePrint f g) :
    SamePrint (x >>= fun _ => f) (y >>= fun _ => g) :=
  Coupled.bind hx fun _ _ => hf

/-- The same step in front of both. -/
theorem SamePrint.after {α : Type} {f g : α → Gen Unit} (z : Gen α)
    (h : ∀ a, SamePrint (f a) (g a)) : SamePrint (z >>= f) (z >>= g) := by
  refine Coupled.bind_of (p := fun a b => a = b) (Coupled.refl z) fun a b hab => ?_
  rw [hab]
  exact h b

theorem SamePrint.genBlock (h : SamePrint x y) : SamePrint (genBlock x) (genBlock y) :=
  .after _ fun _ => h.bind (.refl _)

theorem SamePrint.genIf {cond : Expr} (hthen : SamePrint x y) (helse : SamePrint f g) :
    SamePrint (genIf cond x f) (genIf cond y g) :=
  .after _ fun _ => .after _ fun _ => .after _ fun _ => .after _ fun _ => .after _ fun _ =>
    hthen.bind (.after _ fun _ => .after _ fun _ => helse.bind (.refl _))

theorem SamePrint.of_left (h : SamePrint x y) {c : AsmCtx} {r : Emitted AsmCtx Item Unit}
    (hx : x c = .ok r) : ∃ r', y c = .ok r' ∧ r'.items = r.items := by
  obtain ⟨r₀, r', hr₀, hr', hitems, _⟩ | ⟨e, he, _⟩ := h c c rfl
  · obtain rfl := Except.ok.inj (hr₀.symm.trans hx)
    exact ⟨r', hr', hitems.symm⟩
  · exact absurd (hx.symm.trans he) (by simp)

theorem SamePrint.of_right (h : SamePrint x y) {c : AsmCtx} {r : Emitted AsmCtx Item Unit}
    (hy : y c = .ok r) : ∃ r', x c = .ok r' ∧ r'.items = r.items := by
  obtain ⟨r', r₀, hr', hr₀, hitems, _⟩ | ⟨e, _, he⟩ := h c c rfl
  · obtain rfl := Except.ok.inj (hr₀.symm.trans hy)
    exact ⟨r', hr', hitems⟩
  · exact absurd (hy.symm.trans he) (by simp)

/-- The nodes behind a statement, and the statement. -/
theorem samePrint_cons {s s' : Stmt} {nodes nodes' : List Stmt}
    (hs : SamePrint (genStmt s') (genStmt s)) (h : SamePrint (genStmts nodes') (genStmts nodes)) :
    SamePrint (genStmts (s' :: nodes')) (genStmts (s :: nodes)) := by
  rw [genStmts, genStmts]
  exact .after _ fun _ => hs.bind h

end same

mutual

theorem genStmt_strip : (s : Stmt) → ∀ {nodes nodes' : List Stmt},
    SamePrint (genStmts nodes') (genStmts nodes) →
      SamePrint (genStmts (s.strip ++ nodes')) (genStmts (s :: nodes))
  | .block nodes₀, _, _, h => by
    refine samePrint_cons ?_ h
    rw [genStmt, genStmt]
    exact (genStmts_stripNodes nodes₀).genBlock
  | .ifStmt cond nodes₀ none, _, _, h => by
    refine samePrint_cons ?_ h
    rw [genStmt, genStmt]
    exact (genStmts_stripNodes nodes₀).genBlock.genIf (.refl _)
  | .ifStmt cond nodes₀ (some nodes₁), _, _, h => by
    refine samePrint_cons ?_ h
    rw [genStmt, genStmt]
    exact (genStmts_stripNodes nodes₀).genBlock.genIf (genStmts_stripNodes nodes₁).genBlock
  | .returnStmt _, _, _, h => samePrint_cons (.refl _) h
  | .comment _, _, _, h => by
    rw [genStmts, genStmt]
    exact Coupled.silent_right (fun c => ⟨(), [c], rfl⟩)
      (Coupled.silent_right (fun c => ⟨(), [], rfl⟩) h)
  | .varDecl _, _, _, h => samePrint_cons (.refl _) h
  | .expr _, _, _, h => samePrint_cons (.refl _) h

theorem genStmts_stripNodes : (nodes : List Stmt) →
    SamePrint (genStmts (stripNodes nodes)) (genStmts nodes)
  | [] => .refl _
  | node :: nodes => by
    rw [stripNodes]
    exact genStmt_strip node (genStmts_stripNodes nodes)

end

/-! ## Functions and programs -/

theorem countLocalsList_append (nodes nodes' : List Stmt) :
    countLocalsList (nodes ++ nodes') = countLocalsList nodes + countLocalsList nodes' := by
  induction nodes with
  | nil => simp [countLocalsList]
  | cons node nodes ih =>
    rw [List.cons_append, countLocalsList, countLocalsList, ih]
    omega

mutual

/-- Comments declare nothing. -/
theorem countLocalsList_strip : (s : Stmt) → countLocalsList s.strip = countLocals s
  | .block nodes => by
    rw [Stmt.strip, countLocalsList, countLocals, countLocalsList_stripNodes nodes, countLocals,
      countLocalsList, Nat.add_zero]
  | .ifStmt _ thenBranch none => by
    rw [Stmt.strip, countLocalsList, countLocals, countLocalsList_stripNodes thenBranch,
      countLocals, countLocalsList, Nat.add_zero]
  | .ifStmt _ thenBranch (some elseBranch) => by
    rw [Stmt.strip, countLocalsList, countLocals, countLocalsList_stripNodes thenBranch,
      countLocalsList_stripNodes elseBranch, countLocals, countLocalsList, Nat.add_zero]
  | .returnStmt _ => rfl
  | .comment _ => rfl
  | .varDecl _ => rfl
  | .expr _ => rfl

theorem countLocalsList_stripNodes : (nodes : List Stmt) →
    countLocalsList (stripNodes nodes) = countLocalsList nodes
  | [] => rfl
  | node :: nodes => by
    rw [stripNodes, countLocalsList_append, countLocalsList_strip node,
      countLocalsList_stripNodes nodes, countLocalsList]

end

theorem computeFrameSize_strip (decl : FuncDecl) :
    computeFrameSize decl.strip = computeFrameSize decl := by
  unfold computeFrameSize FuncDecl.strip
  rw [countLocalsList_stripNodes]

theorem genFuncDecl_strip (decl : FuncDecl) :
    SamePrint (genFuncDecl decl.strip) (genFuncDecl decl) := by
  have hprologue : genPrologue decl.strip = genPrologue decl := by
    unfold genPrologue
    rw [computeFrameSize_strip]
    rfl
  unfold genFuncDecl
  rw [hprologue]
  exact .after _ fun _ => .after _ fun _ => .after _ fun _ => .after _ fun _ => .after _ fun _ =>
    (genStmts_stripNodes decl.block).bind (.refl _)

theorem genFuncs_strip (p : Program) : SamePrint (genFuncs p.strip) (genFuncs p) := by
  induction p with
  | nil => exact .refl _
  | cons node p ih =>
    cases node with
    | varDecl decl => exact ih
    | funcDecl decl => exact (genFuncDecl_strip decl).bind ih
    | comment text => exact ih

theorem genGlobals_strip (p : Program) : genGlobals p.strip = genGlobals p := by
  induction p with
  | nil => rfl
  | cons node p ih =>
    cases node with
    | varDecl decl =>
      show (do genGlobal decl; genGlobals (Program.strip p)) = (do genGlobal decl; genGlobals p)
      rw [ih]
    | funcDecl decl => exact ih
    | comment text => exact ih

theorem hasData_strip (p : Program) : hasData p.strip = hasData p := by
  induction p with
  | nil => rfl
  | cons node p ih =>
    cases node with
    | varDecl decl => rfl
    | funcDecl decl => exact ih
    | comment text => exact ih

/-- **Comments generate nothing.** -/
theorem genProgram_strip (p : Program) : SamePrint (genProgram p.strip) (genProgram p) := by
  unfold genProgram
  rw [hasData_strip, genGlobals_strip]
  refine .after _ fun _ => ?_
  have htext : SamePrint
      (do setIndent 0; asmEmit .textSection; genFuncs p.strip; popScope)
      (do setIndent 0; asmEmit .textSection; genFuncs p; popScope) :=
    .after _ fun _ => .after _ fun _ => (genFuncs_strip p).bind (.refl _)
  split
  · exact .after _ fun _ => .after _ fun _ => .after _ fun _ => htext
  · exact htext

/-! ## Token lists -/

/-- `ts'` is `ts` with comments put in anywhere before the last token. -/
inductive InsertsComments : List Token → List Token → Prop
  | nil : InsertsComments [] []
  | keep {t : Token} {ts ts' : List Token} (h : InsertsComments ts ts') :
      InsertsComments (t :: ts) (t :: ts')
  | insert {t : Token} {ts ts' : List Token} (ht : t.type = .tComment) (hne : ts ≠ [])
      (h : InsertsComments ts ts') : InsertsComments ts (t :: ts')

/-- `parse_program` and `gen_program` accept the tokens and print these items. -/
def Compiles (ts : List Token) (items : List Item) : Prop :=
  ∃ p r, parseProgram ts = .ok p ∧ genProgram p asmInit = .ok r ∧ r.items = items

section insert
variable {ts ts' : List Token}

theorem EofLast.cons {t : Token} (ht : t.type ≠ .tEof) (h : EofLast ts) : EofLast (t :: ts) := by
  obtain ⟨body, eof, rfl, heof, hbody⟩ := h
  exact ⟨t :: body, eof, rfl, heof, List.forall_mem_cons.mpr ⟨ht, hbody⟩⟩

theorem eofLast_stripTokens (h : EofLast ts) : EofLast (stripTokens ts) := by
  obtain ⟨body, eof, rfl, heof, hbody⟩ := h
  refine ⟨stripTokens body, eof, ?_, heof, fun t ht => hbody t (mem_stripTokens.mp ht).1⟩
  have hlast : stripTokens [eof] = [eof] := stripTokens_cons (by simp [heof])
  show List.filter _ (body ++ [eof]) = _
  rw [List.filter_append]
  exact congrArg (stripTokens body ++ ·) hlast

theorem InsertsComments.eofLast (h : InsertsComments ts ts') (heof : EofLast ts) : EofLast ts' := by
  induction h with
  | nil => exact heof
  | @keep t ts ts' h ih =>
    by_cases ht : t.type = .tEof
    · obtain rfl := heof.eq_singleton ht
      cases h with
      | nil => exact heof
      | insert _ hne _ => exact absurd rfl hne
    · exact (ih (heof.of_cons ht)).cons ht
  | insert ht _ _ ih => exact (ih heof).cons (by simp [ht])

theorem InsertsComments.strip (h : InsertsComments ts ts') : stripTokens ts' = stripTokens ts := by
  induction h with
  | nil => rfl
  | @keep t ts ts' _ ih =>
    by_cases ht : t.type = .tComment
    · rw [stripTokens_comment ht, stripTokens_comment ht, ih]
    · rw [stripTokens_cons ht, stripTokens_cons ht, ih]
  | insert ht _ _ ih => rw [stripTokens_comment ht, ih]

/-- Where all comments may stand, some of them may. -/
theorem InsertsComments.placed (h : InsertsComments ts ts') : ∀ {b : Bool},
    commentsPlaced b ts' = true → commentsPlaced b ts = true := by
  induction h with
  | nil => exact fun h => h
  | @keep t ts ts' h ih =>
    intro b hplaced
    by_cases ht : t.type = .tComment
    · obtain ⟨hb, hnext, hrest⟩ := (commentsPlaced_comment ht).mp hplaced
      rw [h.strip] at hnext
      exact (commentsPlaced_comment ht).mpr ⟨hb, hnext, ih hrest⟩
    · rw [commentsPlaced_cons ht] at hplaced ⊢
      exact ih hplaced
  | insert ht _ _ ih => exact fun hplaced => ih ((commentsPlaced_comment ht).mp hplaced).2.2

/-- A list compiles when its comments may stand where they are and the rest compiles. -/
theorem compiles_iff_strip (heof : EofLast ts) (items : List Item) :
    Compiles ts items ↔ commentsPlaced true ts = true ∧ Compiles (stripTokens ts) items := by
  constructor
  · rintro ⟨p, r, hparse, hgen, hitems⟩
    obtain ⟨hstrip, _, hplaced⟩ := (parseProgram_derives heof hparse).strip
    obtain ⟨r', hgen', hitems'⟩ := (genProgram_strip p).of_right hgen
    exact ⟨hplaced, _, r', parseProgram_of_derives hstrip, hgen', hitems'.trans hitems⟩
  · rintro ⟨hplaced, q, r, hparse, hgen, hitems⟩
    have hderives := parseProgram_derives (eofLast_stripTokens heof) hparse
    obtain ⟨p, hp, hstrip⟩ := hderives.lift ts ⟨rfl, hplaced⟩
    -- `q` has no comments, and `p` is `q` with some
    obtain ⟨r₁, hgen₁, hitems₁⟩ := (genProgram_strip q).of_right hgen
    rw [← hstrip] at hgen₁
    obtain ⟨r₂, hgen₂, hitems₂⟩ := (genProgram_strip p).of_left hgen₁
    exact ⟨p, r₂, parseProgram_of_derives hp, hgen₂, hitems₂.trans (hitems₁.trans hitems)⟩

/-- **Comments are insignificant where they may stand, and nowhere else**: with comments put in
anywhere, the tokens become the same assembly if all comments are where they may stand, and are
rejected otherwise. -/
theorem compiles_insertsComments_iff (heof : EofLast ts) (hins : InsertsComments ts ts')
    (items : List Item) :
    Compiles ts' items ↔ Compiles ts items ∧ commentsPlaced true ts' = true := by
  rw [compiles_iff_strip (hins.eofLast heof), compiles_iff_strip heof, hins.strip]
  constructor
  · rintro ⟨hplaced, h⟩
    exact ⟨⟨hins.placed hplaced, h⟩, hplaced⟩
  · rintro ⟨⟨_, h⟩, hplaced⟩
    exact ⟨hplaced, h⟩

end insert

/-- The tokens of `let QWORD g = 1;`, with `before` in front of them and `inside` in front of the
number. -/
def oneTokens (before inside : List Token) : List Token :=
  before ++ [⟨.tLet, ascii "let", 3, 1, 4⟩, ⟨.tQword, ascii "QWORD", 5, 1, 10⟩,
    ⟨.tIdentifier, ascii "g", 1, 1, 12⟩, ⟨.tEqual, ascii "=", 1, 1, 14⟩] ++ inside ++
    [⟨.tNumberLit, ascii "1", 1, 1, 16⟩, ⟨.tSemicolon, ascii ";", 1, 1, 17⟩,
      ⟨.tEof, ascii "eof", 3, 1, 18⟩]

/-- `// one`. -/
def oneComment : Token := ⟨.tComment, ascii " one", 4, 1, 7⟩

theorem compiles_oneTokens : ∃ items, Compiles (oneTokens [] []) items := by
  have hparse : parseProgram (oneTokens [] []) = .ok [.varDecl ⟨ascii "g",
      ⟨.lit .litQword, false, 0⟩, some (.literal ⟨1, none⟩)⟩] := rfl
  obtain ⟨r, hgen⟩ := genProgram_of_no_funcs (p := [.varDecl ⟨ascii "g",
    ⟨.lit .litQword, false, 0⟩, some (.literal ⟨1, none⟩)⟩]) rfl
  exact ⟨r.items, _, r, hparse, hgen, rfl⟩

theorem compiles_insertsComments_iff_one :
    ∃ items, Compiles (oneTokens [] []) items ∧ Compiles (oneTokens [oneComment] []) items := by
  obtain ⟨items, h⟩ := compiles_oneTokens
  refine ⟨items, h, (compiles_insertsComments_iff ⟨(oneTokens [] []).dropLast,
    ⟨.tEof, ascii "eof", 3, 1, 18⟩, rfl, rfl, by decide⟩ ?_ items).mpr ⟨h, by decide⟩⟩
  exact .insert rfl (by decide) (.keep (.keep (.keep (.keep (.keep (.keep (.keep .nil)))))))

/-- A comment in front of the number is a syntax error. -/
theorem compiles_commentInside :
    EofLast (oneTokens [] []) ∧ InsertsComments (oneTokens [] []) (oneTokens [] [oneComment]) ∧
      (∃ items, Compiles (oneTokens [] []) items) ∧
        ¬ ∃ items, Compiles (oneTokens [] [oneComment]) items := by
  refine ⟨⟨(oneTokens [] []).dropLast, ⟨.tEof, ascii "eof", 3, 1, 18⟩, rfl, rfl, by decide⟩,
    .keep (.keep (.keep (.keep (.insert rfl (by decide) (.keep (.keep (.keep .nil))))))), ?_, ?_⟩
  · exact compiles_oneTokens
  · rintro ⟨items, p, r, hparse, _⟩
    have hfail : ∃ e, parseProgram (oneTokens [] [oneComment]) = .error e := ⟨_, rfl⟩
    obtain ⟨e, he⟩ := hfail
    exact absurd (hparse.symm.trans he) (by simp)

end ACompiler
