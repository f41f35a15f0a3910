import ACompiler.Assembler.EmitPrint
import ACompiler.Correct.Data

/-!
# How a program is printed

Every line of a program has the indent 0 or 4 (`genProgram_indent`), so the lines that go through
`emit_print` are written as their texts (`genProgram_printed`).
-/

namespace ACompiler

open Lib (Emitted)
open Lib.Emit (bind_eq_ok)

/-! ## Indents -/

section expr
variable {c : AsmCtx} {item : Item}

theorem mem_itemsOf_indent {is : List Instr} (h : item ∈ c.itemsOf is) : item.indent = c.indent := by
  obtain ⟨i, _, rfl⟩ := List.mem_map.mp h
  rfl

theorem mem_popItems_indent (ids : List RegId) :
    ∀ c : AsmCtx, item ∈ c.popItems ids → item.indent = c.indent := by
  induction ids with
  | nil => exact fun c h => absurd h List.not_mem_nil
  | cons id ids ih =>
    intro c h
    rcases List.mem_cons.mp h with rfl | h
    · rfl
    · exact ih (c.withDepth (c.pushDepth - 1)) h

/-- The code of an expression is indented as its context says. -/
theorem ExprCode.indent {p : Phrase} {items : List Item} (h : ExprCode c p items) :
    ∀ item ∈ items, item.indent = c.indent := by
  induction h with
  | literal => simp [AsmCtx.item]
  | identifier _ => simp [AsmCtx.item]
  | addr _ => simp [AsmCtx.item]
  | unary _ _ ih =>
    simp only [List.forall_mem_append]
    exact ⟨ih, fun item => mem_itemsOf_indent⟩
  | binary _ _ ih ih' =>
    simp only [List.forall_mem_append, List.forall_mem_cons]
    exact ⟨⟨⟨ih, rfl, ih'⟩, fun item => mem_itemsOf_indent⟩, fun item => mem_itemsOf_indent⟩
  | call _ _ _ ih =>
    simp only [List.forall_mem_append, List.forall_mem_singleton]
    exact ⟨⟨ih, fun item => mem_popItems_indent _ _⟩, rfl⟩
  | callPad _ _ _ ih =>
    simp only [List.forall_mem_append, List.forall_mem_cons]
    exact ⟨⟨⟨rfl, ih⟩, fun item => mem_popItems_indent _ _⟩, fun item => mem_itemsOf_indent⟩
  | assign _ _ ih =>
    simp only [List.forall_mem_append, List.forall_mem_singleton]
    exact ⟨ih, rfl⟩
  | cast _ ih => exact ih
  | argsNil => simp
  | argsCons _ _ ih ih' =>
    simp only [List.forall_mem_append, List.forall_mem_cons]
    exact ⟨ih, rfl, ih'⟩

end expr

/-- An indent that the compiler sets. -/
def IndentSet (item : Item) : Prop := item.indent = 0 ∨ item.indent = 4

/-- The code of a statement has the indent of its context, and its labels have none. -/
theorem StmtCode.indent {c c' : AsmCtx} {p : StmtPhrase} {items : List Item} {marks : List AsmCtx}
    (h : StmtCode c p c' items marks) : c.indent = 4 → ∀ item ∈ items, IndentSet item := by
  have hset : ∀ {c : AsmCtx} {items : List Item}, c.indent = 4 →
      (∀ item ∈ items, item.indent = c.indent) → ∀ item ∈ items, IndentSet item :=
    fun hc h item hitem => .inr ((h item hitem).trans hc)
  induction h with
  | comment => exact fun _ => by simp
  | expr he => exact fun hc => hset hc he.indent
  | returnStmt he _ =>
    intro hc
    simp only [List.forall_mem_append, List.forall_mem_singleton]
    exact ⟨hset hc he.indent, .inr hc⟩
  | uninit _ => exact fun _ => by simp
  | @init c name type e items hstk he =>
    intro hc
    have hdecl := (AsmCtx.extends_declare c name type).indent.trans hc
    simp only [List.forall_mem_append, List.forall_mem_singleton]
    exact ⟨hset hdecl he.indent, .inr hc⟩
  | ifThen hcond _ ih =>
    intro hc
    simp only [List.forall_mem_append, List.forall_mem_cons]
    exact ⟨⟨⟨hset hc hcond.indent, hset hc fun item => mem_itemsOf_indent⟩, ih hc⟩,
      .inr hc, .inl rfl, .inl rfl, by simp⟩
  | ifElse hcond hb _ ih ih' =>
    intro hc
    have hc' := hb.extends.indent.trans hc
    simp only [List.forall_mem_append, List.forall_mem_cons]
    exact ⟨⟨⟨⟨⟨hset hc hcond.indent, hset hc fun item => mem_itemsOf_indent⟩, ih hc⟩,
      .inr hc, .inl rfl, by simp⟩, ih' hc'⟩, .inl rfl, by simp⟩
  | block _ ih => exact ih
  | nil => exact fun _ => by simp
  | cons hs _ ih ih' =>
    intro hc
    simp only [List.forall_mem_append]
    exact ⟨ih hc, ih' (hs.extends.indent.trans hc)⟩

theorem paramItems_indent (params : List FuncParam) : ∀ (ids : List RegId) (c : AsmCtx),
    ∀ item ∈ c.paramItems ids params, item.indent = c.indent := by
  induction params with
  | nil => intro ids c; cases ids <;> simp [AsmCtx.paramItems]
  | cons p params ih =>
    intro ids c
    cases ids with
    | nil => simp [AsmCtx.paramItems]
    | cons id ids =>
      simp only [AsmCtx.paramItems, List.forall_mem_cons]
      refine ⟨rfl, fun item hitem => ?_⟩
      rw [ih ids _ item hitem, (AsmCtx.extends_declare c p.ident p.type).indent]

theorem genFuncDecl_indent {decl : FuncDecl} {c : AsmCtx} {r : Emitted AsmCtx Item Unit}
    (h : genFuncDecl decl c = .ok r) : ∀ item ∈ r.items, IndentSet item := by
  obtain ⟨_, c', body, hbody, hr⟩ := genFuncDecl_eq_ok h
  rw [hr]
  simp only [List.forall_mem_append]
  refine ⟨⟨⟨?_, ?_⟩, ?_⟩, ?_⟩
  · unfold prologueItems
    split <;> simp [IndentSet]
  · exact fun item hitem => .inr (paramItems_indent decl.params argRegs _ item hitem)
  · exact hbody.indent (declareParams_extends decl.params _).indent
  · simp [epilogueItems, IndentSet]

theorem genFuncs_indent : ∀ (p : Program) {c : AsmCtx} {r : Emitted AsmCtx Item Unit},
    genFuncs p c = .ok r → ∀ item ∈ r.items, IndentSet item := by
  intro p
  induction p with
  | nil =>
    intro c r h
    obtain rfl := Except.ok.inj h
    simp
  | cons node p ih =>
    intro c r h
    cases node with
    | varDecl decl => exact ih h
    | comment text => exact ih h
    | funcDecl decl =>
      rw [genFuncs] at h
      rw [bind_eq_ok] at h
      obtain ⟨r₁, r₂, h₁, h₂, rfl⟩ := h
      simp only [List.forall_mem_append]
      exact ⟨genFuncDecl_indent h₁, ih h₂⟩

/-- **The indents of a program** are 0 and 4. -/
theorem genProgram_indent {p : Program} {r : Emitted AsmCtx Item Unit}
    (h : genProgram p asmInit = .ok r) : ∀ item ∈ r.items, item.indent = 0 ∨ item.indent = 4 := by
  obtain ⟨r₀, hfuncs, hitems, _⟩ := genProgram_parts h
  have hdata : ∀ item ∈ dataItems p, IndentSet item := by
    unfold dataItems
    split
    · simp only [List.forall_mem_cons]
      refine ⟨.inl rfl, fun item hitem => ?_⟩
      obtain ⟨decl, _, hitem⟩ := List.mem_flatMap.mp hitem
      rcases List.mem_pair.mp hitem with rfl | rfl
      · exact .inl rfl
      · exact .inr rfl
    · simp
  show ∀ item ∈ r.items, IndentSet item
  rw [hitems]
  simp only [List.forall_mem_append, List.forall_mem_cons]
  exact ⟨hdata, .inl rfl, genFuncs_indent p hfuncs⟩

/-- **Every line of a program that goes through `emit_print` is written as its text.** -/
theorem genProgram_printed {p : Program} {r : Emitted AsmCtx Item Unit}
    (h : genProgram p asmInit = .ok r) {item : Item} (hitem : item ∈ r.items) {fmt : CString}
    {args : List PrintArg} (hcall : item.line.printCall = some (fmt, args))
    (junk : Nat → UInt8) (file : CString) :
    emitPrint junk ⟨file, item.indent⟩ fmt args = .ok ⟨file ++ item.text, item.indent⟩ := by
  apply emitPrint_line junk ⟨file, item.indent⟩ _ hcall item.depth
  show item.indent < 2 ^ 31
  rcases genProgram_indent h item hitem with h0 | h4
  · rw [h0]
    exact Nat.two_pow_pos 31
  · rw [h4]
    decide

end ACompiler
