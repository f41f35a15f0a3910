import ACompiler.Correct.Data
import ACompiler.Correct.Flow
import ACompiler.Parser.Names

/-!
# Jump targets

Every label of the output is placed once, and every jump goes forward, to a label of its own
function (`genProgram_labels`). Within the code of a statement the jumps are `Forward`: each target
stands behind the jump, or is the label of the epilogue.
-/

namespace ACompiler

open Lib (Emitted)
open Lib.Emit (bind_run bind_eq_ok)

/-! ## Forward jumps -/

/-- Where a line jumps to. -/
def Line.target : Line → Option Nat
  | .instr (.je n) | .instr (.jmp n) => some n
  | _ => none

/-- The jumps of the lines go to labels behind them, or leave by `exit`. -/
def Forward (exit : Nat → Prop) : List Line → Prop
  | [] => True
  | l :: k => (∀ n, l.target = some n → exit n ∨ .label n ∈ k) ∧ Forward exit k

theorem forward_append {exit : Nat → Prop} {code code' : List Line} :
    Forward exit (code ++ code') ↔
      Forward (fun n => exit n ∨ .label n ∈ code') code ∧ Forward exit code' := by
  induction code with
  | nil => simp [Forward]
  | cons l code ih =>
    rw [List.cons_append, Forward, Forward, ih, and_assoc]
    refine and_congr_left fun _ => forall_congr' fun n => imp_congr_right fun _ => ?_
    rw [List.mem_append, or_assoc, or_comm (a := Line.label n ∈ code)]

theorem Forward.mono {exit exit' : Nat → Prop} (hexit : ∀ n, exit n → exit' n) {code : List Line}
    (h : Forward exit code) : Forward exit' code := by
  induction code with
  | nil => trivial
  | cons l code ih => exact ⟨fun n hn => (h.1 n hn).imp_left (hexit n), ih h.2⟩

theorem forward_of_no_target {exit : Nat → Prop} {code : List Line}
    (h : ∀ l ∈ code, l.target = none) : Forward exit code := by
  induction code with
  | nil => trivial
  | cons l code ih =>
    refine ⟨fun n hn => ?_, ih fun l hl => h l (List.mem_cons_of_mem _ hl)⟩
    rw [h l List.mem_cons_self] at hn
    exact absurd hn (by simp)

/-- The label of a jump stands behind it. -/
theorem Forward.target {exit : Nat → Prop} {pre post : List Line} {l : Line} {n : Nat}
    (h : Forward exit (pre ++ l :: post)) (hl : l.target = some n) : exit n ∨ .label n ∈ post :=
  (forward_append.mp h).2.1 n hl

/-- A line between the label and the `ret` of a function. -/
def Line.isInner : Line → Bool
  | .label _ => true
  | .instr i => i ≠ .ret
  | _ => false

theorem Line.isStep.target {l : Line} (h : l.isStep) : l.target = none := by
  obtain ⟨i, rfl, hi⟩ := h
  cases i <;> simp [Line.target, Line.isJoint] at hi ⊢

theorem ExprCode.forward {c : AsmCtx} {p : Phrase} {items : List Item} (h : ExprCode c p items)
    {exit : Nat → Prop} : Forward exit (codeOf items) := by
  refine forward_of_no_target fun l hl => ?_
  obtain ⟨item, hitem, rfl⟩ := List.mem_map.mp hl
  exact (h.isStep item hitem).target

/-- **The jumps of a statement go forward**, or to the label of the epilogue. -/
theorem StmtCode.forward {c c' : AsmCtx} {p : StmtPhrase} {items : List Item}
    {marks : List AsmCtx} (h : StmtCode c p c' items marks) :
    ∀ {exit : Nat → Prop}, (∀ n, c.epilogueLabel = some n → exit n) →
      Forward exit (codeOf items) := by
  induction h with
  | comment => exact fun _ => trivial
  | expr he => exact fun _ => he.forward
  | returnStmt he hn =>
    intro exit hexit
    rw [codeOf_append, forward_append]
    refine ⟨he.forward, fun n hjmp => ?_, trivial⟩
    obtain rfl := Option.some.inj hjmp
    exact .inl (hexit _ hn)
  | uninit _ => exact fun _ => trivial
  | init _ he =>
    intro exit hexit
    rw [codeOf_append, forward_append]
    exact ⟨he.forward, fun n hmov => absurd hmov (by simp [Line.target]), trivial⟩
  | ifThen hc _ ih =>
    intro exit hexit
    simp only [codeOf_append, codeOf_itemsOf, codeOf_cons, codeOf_nil, item_line, forward_append]
    refine ⟨⟨⟨hc.forward, ?_⟩, ih fun n hn => .inl (hexit n hn)⟩, ?_⟩
    · simp [Forward, Line.target]
    · simp [Forward, Line.target]
  | ifElse hc hb hb' ih ih' =>
    intro exit hexit
    have hlabel := hb.extends.epilogueLabel
    simp only [codeOf_append, codeOf_itemsOf, codeOf_cons, codeOf_nil, item_line, forward_append]
    refine ⟨⟨⟨⟨⟨hc.forward, ?_⟩, ih fun n hn => ?_⟩, ?_⟩, ih' fun n hn => ?_⟩, ?_⟩
    · simp [Forward, Line.target]
    · exact .inl (.inl (.inl (hexit n hn)))
    · simp [Forward, Line.target]
    · exact .inl (hexit n (hlabel ▸ hn))
    · simp [Forward, Line.target]
  | block _ ih => exact ih
  | nil => exact fun _ => trivial
  | cons hs _ ih ih' =>
    intro exit hexit
    rw [codeOf_append, forward_append]
    exact ⟨ih fun n hn => .inl (hexit n hn), ih' fun n hn => hexit n (hs.extends.epilogueLabel ▸ hn)⟩

/-! ## The lines of a function -/

/-- The lines of a statement are instructions and labels. -/
theorem StmtCode.instr_or_label {c c' : AsmCtx} {p : StmtPhrase} {items : List Item}
    {marks : List AsmCtx} (h : StmtCode c p c' items marks) :
    ∀ item ∈ items, (∃ i, item.line = .instr i) ∨ ∃ n, item.line = .label n := by
  have hexpr : ∀ {c : AsmCtx} {e : Expr} {items : List Item}, ExprCode c (.expr e) items →
      ∀ item ∈ items, (∃ i, item.line = .instr i) ∨ ∃ n, item.line = .label n := by
    intro c e items he item hitem
    obtain ⟨i, hi, _⟩ := he.isStep item hitem
    exact .inl ⟨i, hi⟩
  induction h with
  | comment => simp
  | expr he => exact hexpr he
  | returnStmt he _ => simpa [or_imp, forall_and] using hexpr he
  | uninit _ => simp
  | init _ he => simpa [or_imp, forall_and] using hexpr he
  | ifThen hc _ ih => simpa [or_imp, forall_and, AsmCtx.itemsOf] using ⟨hexpr hc, ih⟩
  | ifElse hc _ _ ih ih' =>
    simpa [or_imp, forall_and, AsmCtx.itemsOf] using ⟨hexpr hc, ih, ih'⟩
  | block _ ih => exact ih
  | nil => simp
  | cons _ _ ih ih' => simpa [or_imp, forall_and] using ⟨ih, ih'⟩

theorem Chain.shift {d d' : Int} {items : List Item} (h : Chain d items d') :
    ∀ item ∈ items, ∃ n, item.line.shift = some n := by
  induction h with
  | nil => simp
  | cons _ hshift _ _ ih => exact List.forall_mem_cons.mpr ⟨⟨_, hshift⟩, ih⟩

theorem StmtCode.isInner {c c' : AsmCtx} {p : StmtPhrase} {items : List Item}
    {marks : List AsmCtx} (h : StmtCode c p c' items marks) (hc : c.pushDepth = 0) :
    ∀ l ∈ codeOf items, l.isInner = true := by
  intro l hl
  obtain ⟨item, hitem, rfl⟩ := List.mem_map.mp hl
  rcases h.instr_or_label item hitem with ⟨i, hi⟩ | ⟨n, hn⟩
  · obtain ⟨n, hshift⟩ := (h.chain hc).shift item hitem
    rw [hi] at hshift ⊢
    have hne : i ≠ .ret := by
      rintro rfl
      exact absurd hshift (by simp [Line.shift, Instr.shift])
    simpa [Line.isInner] using hne
  · rw [hn]
    rfl

/-- The labels placed by lines. -/
def labelsIn (code : List Line) : List Nat :=
  code.filterMap fun l =>
    match l with
    | .label n => some n
    | _ => none

theorem labelsIn_append (code code' : List Line) :
    labelsIn (code ++ code') = labelsIn code ++ labelsIn code' := List.filterMap_append

theorem labelsIn_codeOf (items : List Item) : labelsIn (codeOf items) = labelsOf items := by
  rw [labelsIn, codeOf, List.filterMap_map]
  rfl

theorem labelsIn_of_no_label {code : List Line} (h : ∀ l ∈ code, ∀ n, l ≠ .label n) :
    labelsIn code = [] := by
  unfold labelsIn
  rw [List.filterMap_eq_nil_iff]
  intro l hl
  cases l with
  | label n => exact absurd rfl (h _ hl n)
  | _ => rfl

theorem mem_labelsIn {code : List Line} {n : Nat} : n ∈ labelsIn code ↔ .label n ∈ code := by
  unfold labelsIn
  rw [List.mem_filterMap]
  constructor
  · rintro ⟨l, hl, hn⟩
    cases l with
    | label m => rwa [← Option.some.inj hn]
    | _ => exact absurd hn (by simp)
  · exact fun h => ⟨_, h, rfl⟩

theorem count_label (code : List Line) (n : Nat) :
    code.count (.label n) = (labelsIn code).count n := by
  induction code with
  | nil => rfl
  | cons l code ih =>
    cases l with
    | label m =>
      show (Line.label m :: code).count (.label n) = (m :: labelsIn code).count n
      rw [List.count_cons, List.count_cons, ih]
      simp
    | _ =>
      show (_ :: code).count (.label n) = (labelsIn code).count n
      rw [List.count_cons, ih]
      simp

/-- A function with its label, and the lines from there to its `ret`. -/
structure FuncLines where
  name : CString
  inner : List Line
  isInner : ∀ l ∈ inner, l.isInner = true
  forward : Forward (fun _ => False) inner

def FuncLines.lines (f : FuncLines) : List Line :=
  .globl f.name :: .symbol f.name :: (f.inner ++ [.instr .ret])

/-- An instruction that neither jumps nor returns. -/
def Line.isLead (l : Line) : Prop := ∃ i, l = .instr i ∧ i ≠ .ret ∧ l.target = none

theorem Line.isLead.isInner {l : Line} (h : l.isLead) : l.isInner = true := by
  obtain ⟨i, rfl, hret, _⟩ := h
  simpa [Line.isInner] using hret

theorem prologue_lines (decl : FuncDecl) (c : AsmCtx) : ∃ code : List Line,
    codeOf (prologueItems decl c ++ spillItems decl) = .globl decl.ident :: .symbol decl.ident :: code ∧
      ∀ l ∈ code, l.isLead := by
  have hspill : ∀ l ∈ codeOf (spillItems decl), l.isLead := by
    intro l hl
    obtain ⟨item, hitem, rfl⟩ := List.mem_map.mp hl
    obtain ⟨id, off, hline⟩ := paramItems_line decl.params argRegs _ item hitem
    exact ⟨_, hline, by simp, by rw [hline]; rfl⟩
  have hlead : ∀ i : Instr, i ≠ .ret → (Line.instr i).target = none → (Line.instr i).isLead :=
    fun i hret htarget => ⟨i, rfl, hret, htarget⟩
  refine ⟨codeOf ((prologueItems decl c).drop 2 ++ spillItems decl), ?_, fun l hl => ?_⟩
  · rw [codeOf_append, codeOf_append]
    rfl
  · rw [codeOf_append, List.mem_append] at hl
    rcases hl with hl | hl
    · unfold prologueItems at hl
      split at hl
      · simp only [List.cons_append, List.nil_append, List.drop_succ_cons, List.drop_zero, codeOf_cons,
          codeOf_nil, List.mem_cons, List.not_mem_nil, or_false] at hl
        rcases hl with rfl | rfl | rfl
        · exact hlead _ (by simp) rfl
        · exact hlead _ (by simp) rfl
        · exact hlead _ (by simp) rfl
      · simp only [List.cons_append, List.nil_append, List.drop_succ_cons, List.drop_zero, codeOf_cons,
          codeOf_nil, List.mem_cons, List.not_mem_nil, or_false] at hl
        rcases hl with rfl | rfl
        · exact hlead _ (by simp) rfl
        · exact hlead _ (by simp) rfl
    · exact hspill l hl

/-- **The lines of a function**, and the labels it places. -/
theorem genFuncDecl_lines {decl : FuncDecl} {c : AsmCtx} {r : Emitted AsmCtx Item Unit}
    (h : genFuncDecl decl c = .ok r) : ∃ f : FuncLines, f.name = decl.ident ∧
      codeOf r.items = f.lines ∧ c.labelCount ≤ r.ctx.labelCount ∧ (labelsIn f.inner).Nodup ∧
        ∀ n ∈ labelsIn f.inner, c.labelCount ≤ n ∧ n < r.ctx.labelCount := by
  obtain ⟨_, c', body, hbody, hr⟩ := genFuncDecl_eq_ok h
  obtain ⟨code, hpro, hlead⟩ := prologue_lines decl c
  have hext := declareParams_extends decl.params c.funcCtx.enter
  have hdepth : (c.bodyCtx decl).pushDepth = 0 := hext.pushDepth
  have hlabel : (c.bodyCtx decl).epilogueLabel = some c.labelCount := hext.epilogueLabel
  have hcount : (c.bodyCtx decl).labelCount = c.labelCount + 1 := declareParams_labelCount _ _
  obtain ⟨hle, hnodup, hrange⟩ := hbody.labels
  rw [hcount] at hle hrange
  have hctx : r.ctx.labelCount = c'.labelCount := by rw [hr, AsmCtx.afterFunc]
  let tail : List Line := [.label c.labelCount, .instr (.mov (.reg .rbp) (.reg .rsp)),
    .instr (.pop (.reg .rbp))]
  have hlabels : labelsIn (code ++ codeOf body ++ tail) = labelsOf body ++ [c.labelCount] := by
    have hcode : labelsIn code = [] := labelsIn_of_no_label fun l hl n heq => by
      obtain ⟨i, hi, _⟩ := hlead l hl
      exact absurd (hi.symm.trans heq) (by simp)
    rw [labelsIn_append, labelsIn_append, hcode, labelsIn_codeOf, List.nil_append]
    rfl
  have hitems : codeOf r.items = .globl decl.ident :: .symbol decl.ident ::
      ((code ++ codeOf body ++ tail) ++ [.instr .ret]) := by
    rw [hr]
    simp only [codeOf_append] at hpro ⊢
    rw [hpro]
    simp [tail, epilogueItems]
  refine ⟨⟨decl.ident, code ++ codeOf body ++ tail, fun l hl => ?_, ?_⟩, rfl, hitems, ?_, ?_, ?_⟩
  · rw [List.mem_append, List.mem_append] at hl
    rcases hl with (hl | hl) | hl
    · exact (hlead l hl).isInner
    · exact hbody.isInner hdepth l hl
    · simp only [tail, List.mem_cons, List.not_mem_nil, or_false] at hl
      rcases hl with rfl | rfl | rfl <;> rfl
  · rw [forward_append, forward_append]
    refine ⟨⟨forward_of_no_target fun l hl => ?_, hbody.forward fun n hn => ?_⟩, ?_⟩
    · obtain ⟨_, _, _, htarget⟩ := hlead l hl
      exact htarget
    · obtain rfl := Option.some.inj (hlabel.symm.trans hn)
      exact .inr List.mem_cons_self
    · simp [tail, Forward, Line.target]
  · omega
  · show (labelsIn (code ++ codeOf body ++ tail)).Nodup
    rw [hlabels, List.nodup_append]
    refine ⟨hnodup, by simp, fun n hn m hm => ?_⟩
    have hn := (hrange n hn).1
    rw [List.mem_singleton.mp hm]
    omega
  · show ∀ n ∈ labelsIn (code ++ codeOf body ++ tail), _
    intro n hn
    rw [hlabels, List.mem_append, List.mem_singleton] at hn
    rcases hn with hn | rfl
    · have hn := hrange n hn
      omega
    · omega

end ACompiler
