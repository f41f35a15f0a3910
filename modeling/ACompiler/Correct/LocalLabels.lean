import ACompiler.Assembler.LabelText
import ACompiler.Correct.JumpTargets

/-!
# Local labels

A program is its data, and then its functions, each from its label to its `ret`. The counter of the
labels goes on from one function to the next, so a label is placed once in the whole output; and
since every function jumps forward within itself, control goes through the lines but never back
(`genProgram_labels`).
-/

namespace ACompiler

open Lib (Emitted)
open Lib.Emit (bind_run bind_eq_ok)

/-! ## The lines of a program -/

/-- Labels of two stretches of the counter. -/
theorem labels_join {code code' : List Line} {a b c : Nat}
    (h : a ≤ b ∧ (labelsIn code).Nodup ∧ ∀ n ∈ labelsIn code, a ≤ n ∧ n < b)
    (h' : b ≤ c ∧ (labelsIn code').Nodup ∧ ∀ n ∈ labelsIn code', b ≤ n ∧ n < c) :
    a ≤ c ∧ (labelsIn (code ++ code')).Nodup ∧
      ∀ n ∈ labelsIn (code ++ code'), a ≤ n ∧ n < c := by
  obtain ⟨hle, hnodup, hrange⟩ := h
  obtain ⟨hle', hnodup', hrange'⟩ := h'
  rw [labelsIn_append]
  refine ⟨hle.trans hle', List.nodup_append.mpr ⟨hnodup, hnodup', fun n hn m hm => ?_⟩,
    fun n hn => ?_⟩
  · have h₁ := hrange n hn
    have h₂ := hrange' m hm
    omega
  · rcases List.mem_append.mp hn with hn | hn
    · have h₁ := hrange n hn
      omega
    · have h₂ := hrange' n hn
      omega

theorem FuncLines.labelsIn_lines (f : FuncLines) : labelsIn f.lines = labelsIn f.inner := by
  show labelsIn (f.inner ++ [.instr .ret]) = labelsIn f.inner
  rw [labelsIn_append]
  exact List.append_nil _

theorem FuncLines.symbol_mem (f : FuncLines) {name : CString} (h : .symbol name ∈ f.lines) :
    name = f.name := by
  unfold FuncLines.lines at h
  rw [List.mem_cons, List.mem_cons, List.mem_append] at h
  rcases h with h | h | h | h
  · exact absurd h (by simp)
  · exact Line.symbol.inj h
  · exact absurd (f.isInner _ h) (by simp [Line.isInner])
  · exact absurd (List.mem_singleton.mp h) (by simp)

/-- The functions of a program, one behind the other. -/
theorem genFuncs_lines : ∀ (p : Program) {c : AsmCtx} {r : Emitted AsmCtx Item Unit},
    genFuncs p c = .ok r → ∃ fs : List FuncLines,
      fs.map FuncLines.name = (funcsOf p).map FuncDecl.ident ∧
        codeOf r.items = fs.flatMap FuncLines.lines ∧
          c.labelCount ≤ r.ctx.labelCount ∧ (labelsIn (codeOf r.items)).Nodup ∧
            ∀ n ∈ labelsIn (codeOf r.items), c.labelCount ≤ n ∧ n < r.ctx.labelCount := by
  intro p
  induction p with
  | nil =>
    intro c r h
    obtain rfl := Except.ok.inj h
    exact ⟨[], rfl, rfl, Nat.le_refl _, .nil, fun n hn => absurd hn (by simp [labelsIn])⟩
  | cons node p ih =>
    intro c r h
    cases node with
    | varDecl decl => exact ih h
    | comment text => exact ih h
    | funcDecl decl =>
      rw [genFuncs] at h
      rw [bind_eq_ok] at h
      obtain ⟨r₁, r₂, h₁, h₂, rfl⟩ := h
      obtain ⟨f, hname, hlines, hfunc⟩ := genFuncDecl_lines h₁
      obtain ⟨fs, hnames, hrest, hfuncs⟩ := ih h₂
      rw [← f.labelsIn_lines, ← hlines] at hfunc
      refine ⟨f :: fs, ?_, ?_, ?_⟩
      · rw [List.map_cons, hname, hnames]
        rfl
      · rw [codeOf_append, hlines, hrest, List.flatMap_cons]
      · rw [codeOf_append]
        exact labels_join hfunc hfuncs

/-- The lines of a program: data without labels of the counter, and functions. -/
structure ProgramLines (p : Program) (lines : List Line) where
  data : List Line
  funcs : List FuncLines
  split : lines = data ++ funcs.flatMap FuncLines.lines
  plain : ∀ l ∈ data, l.target = none ∧ ∀ n, l ≠ .label n
  globals : ∀ name, .symbol name ∈ data → ∃ decl ∈ globalsOf p, decl.ident = name
  names : funcs.map FuncLines.name = (funcsOf p).map FuncDecl.ident

theorem dataItems_lines (p : Program) : ∀ l ∈ codeOf (dataItems p), l = .dataSection ∨
    ∃ decl ∈ globalsOf p, l = .symbol decl.ident ∨ ∃ d val, l = .directive d val := by
  intro l hl
  unfold dataItems at hl
  split at hl
  · rw [codeOf_cons] at hl
    rcases List.mem_cons.mp hl with rfl | hl
    · exact .inl rfl
    · obtain ⟨item, hitem, rfl⟩ := List.mem_map.mp hl
      obtain ⟨decl, hdecl, hitem⟩ := List.mem_flatMap.mp hitem
      refine .inr ⟨decl, hdecl, ?_⟩
      rcases List.mem_pair.mp hitem with rfl | rfl
      · exact .inl rfl
      · exact .inr ⟨_, _, rfl⟩
  · exact absurd hl (by simp)

/-- **The lines of a program**, and its labels. -/
theorem genProgram_lines {p : Program} {r : Emitted AsmCtx Item Unit}
    (h : genProgram p asmInit = .ok r) : Nonempty (ProgramLines p (codeOf r.items)) ∧
      (labelsIn (codeOf r.items)).Nodup ∧
        ∀ n ∈ labelsIn (codeOf r.items), n < r.ctx.labelCount := by
  obtain ⟨r₀, hfuncs, hitems, hcount⟩ := genProgram_parts h
  obtain ⟨fs, hnames, hlines, _, hnodup, hrange⟩ := genFuncs_lines p hfuncs
  have hdata : ∀ l ∈ codeOf (dataItems p) ++ [.textSection],
      l.target = none ∧ ∀ n, l ≠ .label n := by
    intro l hl
    rcases List.mem_append.mp hl with hl | hl
    · rcases dataItems_lines p l hl with rfl | ⟨decl, _, rfl | ⟨d, val, rfl⟩⟩
      · exact ⟨rfl, by simp⟩
      · exact ⟨rfl, by simp⟩
      · exact ⟨rfl, by simp⟩
    · rw [List.mem_singleton.mp hl]
      exact ⟨rfl, by simp⟩
  have hsplit : codeOf r.items =
      (codeOf (dataItems p) ++ [.textSection]) ++ fs.flatMap FuncLines.lines := by
    rw [hitems, codeOf_append, codeOf_cons, hlines, List.append_assoc]
    rfl
  have hlabels : labelsIn (codeOf r.items) = labelsIn (codeOf r₀.items) := by
    rw [hsplit, labelsIn_append, labelsIn_of_no_label fun l hl => (hdata l hl).2, hlines]
    rfl
  refine ⟨⟨codeOf (dataItems p) ++ [.textSection], fs, hsplit, hdata, fun name hname => ?_, hnames⟩,
    hlabels ▸ hnodup, fun n hn => ?_⟩
  · rcases List.mem_append.mp hname with hname | hname
    · rcases dataItems_lines p _ hname with heq | ⟨decl, hdecl, heq | ⟨d, val, heq⟩⟩
      · exact absurd heq (by simp)
      · exact ⟨decl, hdecl, (Line.symbol.inj heq).symm⟩
      · exact absurd heq (by simp)
    · exact absurd (List.mem_singleton.mp hname) (by simp)
  · rw [hlabels] at hn
    rw [hcount]
    exact (hrange n hn).2

/-! ## Jumps -/

/-- Between the two parts of the lines stands a jump: the part before has the label of its function,
and the part behind has the target and, behind it, the `ret` of the function. -/
structure JumpsWithin (pre : List Line) (k : Nat) (post : List Line) : Prop where
  entry : ∃ before name inner, pre = before ++ .symbol name :: inner ∧ ∀ l ∈ inner, l.isInner = true
  target : ∃ mid rest after, post = mid ++ .label k :: (rest ++ .instr .ret :: after) ∧
    ∀ l ∈ mid ++ rest, l.isInner = true

theorem FuncLines.jumps (f : FuncLines) {pre post : List Line} {l : Line} {k : Nat}
    (hl : l.target = some k) (h : f.lines = pre ++ l :: post) (before after : List Line) :
    JumpsWithin (before ++ pre) k (post ++ after) := by
  have hne : ∀ l' : Line, l'.target = none → l ≠ l' := by
    rintro l' hl' rfl
    exact absurd (hl.symm.trans hl') (by simp)
  -- the jump is neither the label of the function nor its `ret`
  have hsplit : [.globl f.name, .symbol f.name] ++ (f.inner ++ [.instr .ret]) = pre ++ l :: post := h
  rcases append_eq_append_cons hsplit with ⟨post', hhead, _⟩ | ⟨pre', rfl, hbehind⟩
  · have hmem : l ∈ [Line.globl f.name, .symbol f.name] := by rw [hhead]; simp
    rcases List.mem_pair.mp hmem with heq | heq
    · exact absurd heq (hne _ rfl)
    · exact absurd heq (hne _ rfl)
  rcases append_eq_append_cons hbehind with ⟨post', hinner, rfl⟩ | ⟨pre'', _, hret⟩
  · have hforward := f.forward
    have hisInner := f.isInner
    rw [hinner] at hforward hisInner
    have hlabel := (hforward.target hl).resolve_left id
    obtain ⟨mid, rest, rfl⟩ := List.append_of_mem hlabel
    refine ⟨⟨before ++ [.globl f.name], f.name, pre', by simp, fun l hl => ?_⟩,
      ⟨mid, rest, after, by simp, fun l hl => ?_⟩⟩
    · exact hisInner l (List.mem_append_left _ hl)
    · refine hisInner l (List.mem_append_right _ (List.mem_cons_of_mem _ ?_))
      rw [List.mem_append] at hl ⊢
      exact hl.imp_right (List.mem_cons_of_mem _)
  · have hmem : l ∈ [Line.instr .ret] := by rw [hret]; simp
    exact absurd (List.mem_singleton.mp hmem) (hne _ rfl)

theorem jumps_of_funcs {l : Line} {k : Nat} (hl : l.target = some k) (fs : List FuncLines) :
    ∀ before pre post : List Line, fs.flatMap FuncLines.lines = pre ++ l :: post →
      JumpsWithin (before ++ pre) k post := by
  induction fs with
  | nil => exact fun _ _ _ h => absurd (congrArg List.length h) (by simp)
  | cons f fs ih =>
    intro before pre post h
    rw [List.flatMap_cons] at h
    rcases append_eq_append_cons h with ⟨post', hlines, rfl⟩ | ⟨pre', rfl, hrest⟩
    · exact f.jumps hl hlines before _
    · rw [← List.append_assoc]
      exact ih (before ++ f.lines) pre' post hrest

/-- **A jump stays in its function**, and goes forward. -/
theorem ProgramLines.jumps {p : Program} {lines : List Line} (hp : ProgramLines p lines)
    {pre post : List Line} {l : Line} {k : Nat} (hl : l.target = some k)
    (h : lines = pre ++ l :: post) : JumpsWithin pre k post := by
  rw [hp.split] at h
  rcases append_eq_append_cons h with ⟨post', hdata, _⟩ | ⟨pre', rfl, hfuncs⟩
  · have hnone := (hp.plain l (by rw [hdata]; simp)).1
    exact absurd (hl.symm.trans hnone) (by simp)
  · exact jumps_of_funcs hl hp.funcs hp.data pre' post hfuncs

/-- Where jumps go forward and labels stand once, control goes forward. -/
theorem flow_forward {lines : List Line} (hnodup : (labelsIn lines).Nodup)
    (hjumps : ∀ pre post l k, l.target = some k → lines = pre ++ l :: post → JumpsWithin pre k post)
    {k k' : List Line} (hk : k <:+ lines) (h : Flow lines k k') :
    k' <:+ lines ∧ k'.length < k.length := by
  have hjump : ∀ (l : Line) (n : Nat) (rest k' : List Line), l.target = some n →
      l :: rest <:+ lines → findLabel n lines = some k' →
        k' <:+ lines ∧ k'.length < (l :: rest).length := by
    rintro l n rest k' hl ⟨pre, hpre⟩ hfind
    obtain ⟨mid, rest', after, rfl, _⟩ := (hjumps pre rest l n hl hpre.symm).target
    -- the label is the one behind the jump
    have hsplit : lines = (pre ++ l :: mid) ++ .label n :: (rest' ++ .instr .ret :: after) := by
      rw [← hpre]
      simp
    have hnot : Line.label n ∉ pre ++ l :: mid := by
      intro hmem
      rw [hsplit, labelsIn_append, List.nodup_append] at hnodup
      exact hnodup.2.2 n (mem_labelsIn.mpr hmem) n (mem_labelsIn.mpr List.mem_cons_self) rfl
    rw [hsplit, findLabel_of_not_mem hnot] at hfind
    obtain rfl := Option.some.inj hfind
    refine ⟨⟨pre ++ l :: mid ++ [.label n], by rw [hsplit]; simp⟩, ?_⟩
    simp only [List.length_append, List.length_cons]
    omega
  cases h with
  | next _ => exact ⟨(List.suffix_cons _ _).trans hk, Nat.lt_succ_self _⟩
  | jump hfind => exact hjump _ _ _ _ rfl hk hfind
  | branch hfind => exact hjump _ _ _ _ rfl hk hfind

/-! ## Labels of a program -/

/-- **The local labels of an output are well formed**: each is defined once in the text, every jump
goes to a label of its function that stands behind it, so no way through the lines leads back, and no
local label is the label of a function or a global. -/
structure LabelsWellFormed (lines : List Line) : Prop where
  once : ∀ k, Line.label k ∈ lines → (lines.map Line.text).count (labelText k ++ ascii ":") = 1
  jumps : ∀ pre post l k, l.target = some k → lines = pre ++ l :: post → JumpsWithin pre k post
  loopFree : ∀ k k', k <:+ lines → Relation.TransGen (Flow lines) k k' → k'.length < k.length
  names : ∀ name k, Line.symbol name ∈ lines → labelText k ≠ name

/-- A line that only its equals share the text with is as often in the text. -/
theorem count_text {l : Line} : ∀ {lines : List Line}, (∀ l' ∈ lines, l'.text = l.text → l' = l) →
    (lines.map Line.text).count l.text = lines.count l := by
  intro lines
  induction lines with
  | nil => exact fun _ => rfl
  | cons l' lines ih =>
    intro h
    have hsame : l'.text = l.text ↔ l' = l := ⟨h l' List.mem_cons_self, congrArg Line.text⟩
    rw [List.map_cons, List.count_cons, List.count_cons,
      ih fun l'' hl => h l'' (List.mem_cons_of_mem _ hl)]
    simp only [beq_iff_eq, hsame]

section program
variable {p : Program} {lines : List Line} (hlines : ProgramLines p lines) (hp : p.Named)
include hlines hp

/-- The labels of functions and globals are names. -/
theorem ProgramLines.named : ∀ l ∈ lines, l.Named := by
  intro l hl
  cases l with
  | symbol name =>
    show isName name = true
    rw [hlines.split, List.mem_append] at hl
    rcases hl with hl | hl
    · obtain ⟨decl, hdecl, rfl⟩ := hlines.globals name hl
      exact hp.1 decl (mem_globalsOf.mp hdecl)
    · obtain ⟨f, hf, hl⟩ := List.mem_flatMap.mp hl
      have hname : name = f.name := f.symbol_mem hl
      have hmem : f.name ∈ (funcsOf p).map FuncDecl.ident := by
        rw [← hlines.names]
        exact List.mem_map_of_mem hf
      obtain ⟨decl, hdecl, heq⟩ := List.mem_map.mp hmem
      rw [hname, ← heq]
      exact hp.2 decl (mem_funcsOf.mp hdecl)
  | _ => trivial

end program

/-- **The local labels of a program are well formed.** -/
theorem genProgram_labels (p : Program) (r : Emitted AsmCtx Item Unit) (hp : p.Named)
    (h : genProgram p asmInit = .ok r) (hcount : r.ctx.labelCount ≤ 2 ^ 32) :
    LabelsWellFormed (codeOf r.items) := by
  obtain ⟨⟨hlines⟩, hnodup, hrange⟩ := genProgram_lines h
  have hjumps : ∀ pre post l k, l.target = some k → codeOf r.items = pre ++ l :: post →
      JumpsWithin pre k post := fun _ _ _ _ hl => hlines.jumps hl
  have hflow : ∀ k k', k <:+ codeOf r.items → Relation.TransGen (Flow (codeOf r.items)) k k' →
      k' <:+ codeOf r.items ∧ k'.length < k.length := by
    intro k k' hk hflows
    induction hflows with
    | single hstep => exact flow_forward hnodup hjumps hk hstep
    | tail _ hstep ih =>
      obtain ⟨hsuffix, hlt⟩ := flow_forward hnodup hjumps ih.1 hstep
      exact ⟨hsuffix, hlt.trans ih.2⟩
  refine ⟨fun k hk => ?_, hjumps, fun k k' hk hflows => (hflow k k' hk hflows).2,
    fun name k hname heq => ?_⟩
  · have hbound : ∀ n, .label n ∈ codeOf r.items → n < 2 ^ 32 := fun n hn =>
      (hrange n (mem_labelsIn.mpr hn)).trans_le hcount
    have honce : (codeOf r.items).count (.label k) = 1 := by
      rw [count_label]
      exact List.count_eq_one_of_mem hnodup (mem_labelsIn.mpr hk)
    show ((codeOf r.items).map Line.text).count (Line.label k).text = 1
    rw [← honce]
    refine count_text fun l hl htext => ?_
    obtain ⟨m, rfl, hm⟩ := Line.text_eq_label (hlines.named hp l hl) htext
    rw [labelText_injective (hbound m hl) (hbound k hk) hm]
  · have hisName : isName name = true := hlines.named hp _ hname
    rw [← heq, labelText_not_name] at hisName
    exact absurd hisName (by decide)

/-- `fn f() { if (0) { return 1; } }` has three labels. -/
theorem genProgram_labels_returnsInBranch : ∃ r, genProgram [.funcDecl returnsInBranch] asmInit = .ok r ∧
    r.ctx.labelCount = 3 ∧ LabelsWellFormed (codeOf r.items) := by
  have hcode : StmtCode (dataCtx.bodyCtx returnsInBranch) (.nodes returnsInBranch.block) _ _ _ :=
    .cons (.ifThen .literal (.block (.cons (.returnStmt .literal rfl) .nil))) .nil
  have hfunc := @genFuncDecl_run returnsInBranch dataCtx _ _ _ (by decide) hcode
  obtain ⟨r₁, hfuncs, hthree⟩ : ∃ r₁, genFuncs [.funcDecl returnsInBranch] dataCtx = .ok r₁ ∧
      r₁.ctx.labelCount = 3 := by
    rw [genFuncs, bind_run, hfunc]
    exact ⟨_, rfl, rfl⟩
  obtain ⟨r, hr⟩ := genProgram_of_genFuncs hfuncs
  obtain ⟨r₀, hfuncs', _, hcount⟩ := genProgram_parts hr
  obtain rfl := Except.ok.inj (hfuncs.symm.trans hfuncs')
  rw [hthree] at hcount
  refine ⟨r, hr, hcount, genProgram_labels _ r ⟨by simp, ?_⟩ hr (by omega)⟩
  intro decl hdecl
  obtain rfl : decl = returnsInBranch := by simpa using hdecl
  decide

end ACompiler
