import ACompiler.Assembler.Depth
import ACompiler.Correct.Call

/-!
# Labels

The code of an expression is instructions without jumps. A statement places each label it takes once,
and takes none that was taken before, so in the lines of a function every jump goes to the lines
behind the one place of its label (`StmtCode.labels`, `resolves_of_nodup`).
-/

namespace ACompiler

/-- An instruction that is not a jump. -/
def Line.isStep (l : Line) : Prop := ∃ i, l = .instr i ∧ l.isJoint = false

theorem isStep_of_plain {i : Instr} (h : i.isPlain = true) : (Line.instr i).isStep :=
  ⟨i, rfl, (isPlain_spec h).2.2⟩

theorem isStep_itemsOf {c : AsmCtx} {is : List Instr} (h : ∀ i ∈ is, i.isPlain = true) :
    ∀ item ∈ c.itemsOf is, item.line.isStep := by
  intro item hitem
  obtain ⟨i, hi, rfl⟩ := List.mem_map.mp hitem
  exact isStep_of_plain (h i hi)

theorem isStep_popItems (ids : List RegId) : ∀ c : AsmCtx,
    ∀ item ∈ c.popItems ids, item.line.isStep := by
  induction ids with
  | nil => intro c item hitem; simp [AsmCtx.popItems] at hitem
  | cons id ids ih =>
    intro c item hitem
    rcases List.mem_cons.mp hitem with rfl | hitem
    · exact ⟨_, rfl, rfl⟩
    · exact ih _ item hitem

/-- The code of an expression is instructions without jumps. -/
theorem ExprCode.isStep {c : AsmCtx} {p : Phrase} {items : List Item} (h : ExprCode c p items) :
    ∀ item ∈ items, item.line.isStep := by
  induction h with
  | literal => simpa using isStep_of_plain rfl
  | identifier hs => simpa using isStep_of_plain (readInstr_plain _ _)
  | addr hs => simpa using isStep_of_plain (addrInstr_plain _)
  | unary hop _ ih =>
    intro item hitem
    rcases List.mem_append.mp hitem with hitem | hitem
    · exact ih item hitem
    · exact isStep_itemsOf (unaryInstrs_plain hop) item hitem
  | @binary c op _ _ _ _ _ _ ihl ihr =>
    intro item hitem
    simp only [List.mem_append, List.mem_cons] at hitem
    rcases hitem with ((hitem | rfl | hitem) | hitem) | hitem
    · exact ihl item hitem
    · exact ⟨_, rfl, rfl⟩
    · exact ihr item hitem
    · simp only [AsmCtx.itemsOf, List.map_cons, List.map_nil, List.mem_cons, List.not_mem_nil,
        or_false] at hitem
      rcases hitem with rfl | rfl
      · exact ⟨_, rfl, rfl⟩
      · exact ⟨_, rfl, rfl⟩
    · exact isStep_itemsOf (binaryInstrs_plain op) item hitem
  | call _ _ _ ih =>
    intro item hitem
    simp only [List.mem_append, List.mem_singleton] at hitem
    rcases hitem with (hitem | hitem) | rfl
    · exact ih item hitem
    · exact isStep_popItems _ _ item hitem
    · exact ⟨_, rfl, rfl⟩
  | callPad _ _ _ ih =>
    intro item hitem
    simp only [AsmCtx.itemsOf, List.map_cons, List.map_nil, List.mem_append, List.mem_cons,
      List.not_mem_nil, or_false] at hitem
    rcases hitem with ((rfl | hitem) | hitem) | rfl | rfl
    · exact ⟨_, rfl, rfl⟩
    · exact ih item hitem
    · exact isStep_popItems _ _ item hitem
    · exact ⟨_, rfl, rfl⟩
    · exact ⟨_, rfl, rfl⟩
  | assign _ _ ih =>
    intro item hitem
    rcases List.mem_append.mp hitem with hitem | hitem
    · exact ih item hitem
    · rw [List.mem_singleton.mp hitem]
      exact isStep_of_plain (writeInstr_plain _ _)
  | cast _ ih => exact ih
  | argsNil => simp
  | argsCons _ _ iha ihs =>
    intro item hitem
    simp only [List.mem_append, List.mem_cons] at hitem
    rcases hitem with hitem | rfl | hitem
    · exact iha item hitem
    · exact ⟨_, rfl, rfl⟩
    · exact ihs item hitem

/-! ## The labels of a statement -/

/-- The labels placed in the code. -/
def labelsOf (items : List Item) : List Nat :=
  items.filterMap fun item =>
    match item.line with
    | .label n => some n
    | _ => none

@[simp] theorem labelsOf_nil : labelsOf [] = [] := rfl

@[simp] theorem labelsOf_append (items items' : List Item) :
    labelsOf (items ++ items') = labelsOf items ++ labelsOf items' := List.filterMap_append

theorem labelsOf_instr (c : AsmCtx) (i : Instr) (items : List Item) :
    labelsOf (c.item i :: items) = labelsOf items := rfl

theorem labelsOf_isStep {items : List Item} (h : ∀ item ∈ items, item.line.isStep) :
    labelsOf items = [] := by
  unfold labelsOf
  rw [List.filterMap_eq_nil_iff]
  intro item hitem
  obtain ⟨i, hi, _⟩ := h item hitem
  rw [hi]

theorem mem_labelsOf {items : List Item} {n : Nat} :
    n ∈ labelsOf items ↔ ∃ item ∈ items, item.line = .label n := by
  unfold labelsOf
  rw [List.mem_filterMap]
  refine exists_congr fun item => and_congr_right fun _ => ?_
  cases item.line <;> simp

/-- **A statement places the labels it takes**, each once. -/
theorem StmtCode.labels {c c' : AsmCtx} {p : StmtPhrase} {items : List Item}
    {marks : List AsmCtx} (h : StmtCode c p c' items marks) :
    c.labelCount ≤ c'.labelCount ∧ (labelsOf items).Nodup ∧
      ∀ n ∈ labelsOf items, c.labelCount ≤ n ∧ n < c'.labelCount := by
  induction h with
  | comment => simp
  | expr he => simp [labelsOf_isStep he.isStep]
  | returnStmt he _ => simp [labelsOf_isStep he.isStep, labelsOf_instr]
  | uninit _ => simp [declare_labelCount]
  | init _ he => simp [declare_labelCount, labelsOf_isStep he.isStep, labelsOf_instr]
  | @ifThen c c' _ _ _ items' _ hc _ ih =>
    obtain ⟨hle, hnodup, hrange⟩ := ih
    have hle : c.labelCount + 2 ≤ c'.labelCount := hle
    have hrange : ∀ n ∈ labelsOf items', c.labelCount + 2 ≤ n ∧ n < c'.labelCount := hrange
    rw [labelsOf_append, labelsOf_append, labelsOf_append, labelsOf_isStep hc.isStep]
    have hlabels : labelsOf [c.item (.jmp (c.labelCount + 1)), ⟨0, c.pushDepth, .label c.labelCount⟩,
      ⟨0, c.pushDepth, .label (c.labelCount + 1)⟩] = [c.labelCount, c.labelCount + 1] := rfl
    have htest : labelsOf (c.itemsOf [.cmp (.imm 0) (.reg .rax), .je c.labelCount]) = [] := rfl
    rw [hlabels, htest, List.nil_append, List.nil_append]
    refine ⟨by omega, List.nodup_append.mpr ⟨hnodup, by simp, ?_⟩, ?_⟩
    · intro n hn m hm
      have h₁ := hrange n hn
      simp only [List.mem_cons, List.not_mem_nil, or_false] at hm
      omega
    · intro n hn
      simp only [List.mem_append, List.mem_cons, List.not_mem_nil, or_false] at hn
      rcases hn with hn | rfl | rfl
      · have h₁ := hrange n hn
        omega
      · omega
      · omega
  | @ifElse c c' c'' _ _ _ _ items' items'' _ _ hc _ _ ih ih' =>
    obtain ⟨hle, hnodup, hrange⟩ := ih
    obtain ⟨hle', hnodup', hrange'⟩ := ih'
    have hle : c.labelCount + 2 ≤ c'.labelCount := hle
    have hrange : ∀ n ∈ labelsOf items', c.labelCount + 2 ≤ n ∧ n < c'.labelCount := hrange
    rw [labelsOf_append, labelsOf_append, labelsOf_append, labelsOf_append, labelsOf_append,
      labelsOf_isStep hc.isStep]
    have hmid : labelsOf [c.item (.jmp (c.labelCount + 1)),
      ⟨0, c.pushDepth, .label c.labelCount⟩] = [c.labelCount] := rfl
    have hlast : labelsOf [⟨0, c.pushDepth, .label (c.labelCount + 1)⟩] = [c.labelCount + 1] := rfl
    have htest : labelsOf (c.itemsOf [.cmp (.imm 0) (.reg .rax), .je c.labelCount]) = [] := rfl
    rw [hmid, hlast, htest, List.nil_append, List.nil_append]
    refine ⟨by omega, ?_, ?_⟩
    · rw [List.nodup_append, List.nodup_append, List.nodup_append]
      refine ⟨⟨⟨hnodup, by simp, ?_⟩, hnodup', ?_⟩, by simp, ?_⟩
      · intro n hn m hm
        have h₁ := hrange n hn
        simp only [List.mem_singleton] at hm
        omega
      · intro n hn m hm
        have h₁ := hrange' m hm
        simp only [List.mem_append, List.mem_singleton] at hn
        rcases hn with hn | rfl
        · have h₂ := hrange n hn
          omega
        · omega
      · intro n hn m hm
        simp only [List.mem_append, List.mem_singleton] at hn hm
        rcases hn with (hn | rfl) | hn
        · have h₂ := hrange n hn
          omega
        · omega
        · have h₂ := hrange' n hn
          omega
    · intro n hn
      simp only [List.mem_append, List.mem_singleton] at hn
      rcases hn with ((hn | rfl) | hn) | rfl
      · have h₁ := hrange n hn
        omega
      · omega
      · have h₁ := hrange' n hn
        omega
      · omega
  | block _ ih => exact ih
  | nil => simp
  | cons _ _ ih ih' =>
    obtain ⟨hle, hnodup, hrange⟩ := ih
    obtain ⟨hle', hnodup', hrange'⟩ := ih'
    rw [labelsOf_append]
    refine ⟨by omega, List.nodup_append.mpr ⟨hnodup, hnodup', ?_⟩, ?_⟩
    · intro n hn m hm
      have h₁ := hrange n hn
      have h₂ := hrange' m hm
      omega
    · intro n hn
      rcases List.mem_append.mp hn with hn | hn
      · have h₁ := hrange n hn
        omega
      · have h₁ := hrange' n hn
        omega

/-! ## Where a jump goes -/

/-- Every label of the code is resolved in the program, to the lines behind it. -/
def Resolves (prog code k : List Line) : Prop :=
  ∀ n pre post, code = pre ++ .label n :: post → findLabel n prog = some (post ++ k)

theorem Resolves.left {prog code code' k : List Line} (h : Resolves prog (code ++ code') k) :
    Resolves prog code (code' ++ k) := by
  rintro n pre post rfl
  rw [← List.append_assoc]
  exact h n pre (post ++ code') (by simp)

theorem Resolves.right {prog code code' k : List Line} (h : Resolves prog (code ++ code') k) :
    Resolves prog code' k := by
  rintro n pre post rfl
  exact h n (code ++ pre) post (by simp)

/-- Labels placed once are resolved. -/
theorem resolves_of_nodup {items : List Item} (h : (labelsOf items).Nodup) {before : List Line}
    (hbefore : ∀ n ∈ labelsOf items, Line.label n ∉ before) (k : List Line) :
    Resolves (before ++ codeOf items ++ k) (codeOf items) k := by
  intro n pre post hcode
  obtain ⟨as, item, bs, rfl, hline, rfl⟩ := codeOf_eq_append_cons hcode
  have hpre : pre = codeOf as := by
    rw [codeOf_append, codeOf_cons, hline] at hcode
    exact (List.append_inj_left' hcode (by simp)).symm
  subst hpre
  have hmem : n ∈ labelsOf (as ++ item :: bs) := mem_labelsOf.mpr ⟨item, by simp, hline⟩
  have hnot : n ∉ labelsOf as := by
    intro hn
    rw [labelsOf_append, List.nodup_append] at h
    exact h.2.2 n hn n (mem_labelsOf.mpr ⟨item, by simp, hline⟩) rfl
  have hprog : before ++ codeOf (as ++ item :: bs) ++ k =
      (before ++ codeOf as) ++ .label n :: (codeOf bs ++ k) := by
    rw [codeOf_append, codeOf_cons, hline]
    simp
  rw [hprog]
  refine findLabel_of_not_mem fun hin => ?_
  rcases List.mem_append.mp hin with hin | hin
  · exact hbefore n hmem hin
  · obtain ⟨item', hitem', hline'⟩ := List.mem_map.mp hin
    exact hnot (mem_labelsOf.mpr ⟨item', hitem', hline'⟩)

end ACompiler
