import ACompiler.Correct.Function
import ACompiler.Correct.Stores
import ACompiler.Semantics.Program

/-!
# Every line can run

What the lines of a function need from the state: an instruction can be stuck at a division and
nowhere else, for no operand is written that cannot be, and flags are read and divisions made
directly behind the line that prepares them (`execInstr_runs`, `StmtCode.ready`).
-/

namespace ACompiler

open Lib (Word Mem)

/-- What an instruction can need of the one in front of it: known flags, or in `%rdx` the sign of
`%rax`. -/
inductive Setup
  | flags
  | sign

/-- What the instruction needs. -/
def Instr.needs : Instr → Option Setup
  | .setcc _ | .je _ => some .flags
  | .idiv _ => some .sign
  | _ => none

/-- What the line needs. -/
def Line.needs : Line → Option Setup
  | .instr i => i.needs
  | _ => none

/-- What the line leaves for the next one. -/
def Line.gives : Line → Option Setup
  | .instr (.cmp _ _) => some .flags
  | .instr .cqto => some .sign
  | _ => none

/-- What was left for the next line is there. -/
def State.Has (s : State) : Option Setup → Prop
  | some .flags => s.flags.isSome = true
  | some .sign => s.regs .rdx = if (s.regs .rax).msb then -1 else 0
  | none => True

/-- The operands can be read and written. -/
def Instr.isSafe : Instr → Bool
  | .mov _ (.imm _) | .lea _ (.imm _) | .pop (.imm _) | .add _ (.imm _) | .sub _ (.imm _)
  | .imul _ (.imm _) | .neg (.imm _) | .ret => false
  | .lea src _ => src.isMemory
  | _ => true

/-- The instruction leaves its place, or divides. -/
def Instr.isSpecial : Instr → Bool
  | .idiv _ | .call _ | .je _ | .jmp _ => true
  | _ => false

theorem write_some {sym : CString → Word} (s : State) (v : Word) {dest : Operand}
    (h : ∀ n, dest ≠ .imm n) : ∃ s', dest.write sym s v = some s' := by
  cases dest with
  | imm n => exact absurd rfl (h n)
  | _ => exact ⟨_, rfl⟩

/-- The line behind finds what the line leaves. -/
theorem has_gives {sym : CString → Word} {s s' : State} {i : Instr}
    (h : execInstr sym s i = some s') : s'.Has (Line.instr i).gives := by
  cases i with
  | cmp src dest =>
    obtain rfl := Option.some.inj h
    rfl
  | cqto =>
    obtain rfl := Option.some.inj h
    rfl
  | _ => trivial

/-- **A safe instruction runs**, with known flags where it reads them. -/
theorem execInstr_runs {sym : CString → Word} {s : State} {i : Instr} (hsafe : i.isSafe = true)
    (hspecial : i.isSpecial = false) (hhas : s.Has i.needs) :
    ∃ s', execInstr sym s i = some s' := by
  have hdest : ∀ {dest : Operand} {s : State} {v : Word}, (∀ n, dest ≠ .imm n) →
      ∃ s', dest.write sym s v = some s' := fun h => write_some _ _ h
  cases i with
  | mov src dest => exact hdest fun n hn => absurd hsafe (by simp [hn, Instr.isSafe])
  | lea src dest =>
    cases src with
    | mem base disp =>
      obtain ⟨s', hs'⟩ := @hdest dest s (s.regs base + BitVec.ofInt 64 disp)
        fun n hn => absurd hsafe (by simp [hn, Instr.isSafe])
      exact ⟨s', by simpa [execInstr, Operand.addr] using hs'⟩
    | sym name =>
      obtain ⟨s', hs'⟩ := @hdest dest s (sym name)
        fun n hn => absurd hsafe (by simp [hn, Instr.isSafe])
      exact ⟨s', by simpa [execInstr, Operand.addr] using hs'⟩
    | _ => cases dest <;> exact absurd hsafe (by simp [Instr.isSafe, Operand.isMemory])
  | push op => exact ⟨_, rfl⟩
  | pop dest => exact hdest fun n hn => absurd hsafe (by simp [hn, Instr.isSafe])
  | add src dest => exact hdest fun n hn => absurd hsafe (by simp [hn, Instr.isSafe])
  | sub src dest => exact hdest fun n hn => absurd hsafe (by simp [hn, Instr.isSafe])
  | imul src dest => exact hdest fun n hn => absurd hsafe (by simp [hn, Instr.isSafe])
  | idiv d => exact absurd hspecial (by simp [Instr.isSpecial])
  | neg dest => exact hdest fun n hn => absurd hsafe (by simp [hn, Instr.isSafe])
  | cmp src dest => exact ⟨_, rfl⟩
  | setcc cond =>
    obtain ⟨⟨a, b⟩, hab⟩ := Option.isSome_iff_exists.mp hhas
    exact ⟨_, by simp only [execInstr, hab]; rfl⟩
  | movzbq => exact ⟨_, rfl⟩
  | cqto => exact ⟨_, rfl⟩
  | call f => exact absurd hspecial (by simp [Instr.isSpecial])
  | je n => exact absurd hspecial (by simp [Instr.isSpecial])
  | jmp n => exact absurd hspecial (by simp [Instr.isSpecial])
  | ret => exact absurd hsafe (by simp [Instr.isSafe])

/-- Behind `cqto`, a division faults by zero, and of the least number by -1. -/
theorem execInstr_idiv {sym : CString → Word} {s : State} {d : Operand} (h : s.Has (some .sign)) :
    execInstr sym s (.idiv d) = none ↔
      d.read sym s = 0 ∨ (s.regs .rax = int64Min ∧ d.read sym s = -1) := by
  have hval := idivide_cqto (s.regs .rax) (d.read sym s)
  rw [← show s.regs .rdx = _ from h] at hval
  have hnone : execInstr sym s (.idiv d) = none ↔
      binaryVal .bDiv (s.regs .rax) (d.read sym s) = none := by
    rw [← hval, Option.map_eq_none_iff]
    simp only [execInstr]
    cases idivide (s.regs .rdx) (s.regs .rax) (d.read sym s) <;> simp
  rw [hnone]
  rw [binaryVal]
  split_ifs with hc
  · exact ⟨fun _ => hc, fun _ => rfl⟩
  · exact ⟨fun hsome => absurd hsome (by simp), fun h => absurd h hc⟩

/-! ## What the lines need -/

/-- Every line finds what it needs, if the first one does with `known`. -/
def Ready : Option Setup → List Line → Prop
  | _, [] => True
  | known, l :: k => (l.needs = none ∨ l.needs = known) ∧ Ready l.gives k

theorem Ready.mono {known : Option Setup} {k : List Line} (h : Ready none k) : Ready known k := by
  cases k with
  | nil => trivial
  | cons l k => exact ⟨.inl (h.1.elim id id), h.2⟩

theorem Ready.append {k k' : List Line} : ∀ {known : Option Setup}, Ready known k → Ready none k' →
    Ready known (k ++ k') := by
  induction k with
  | nil => exact fun _ h => h.mono
  | cons l k ih => exact fun h h' => ⟨h.1, ih h.2 h'⟩

theorem ready_of_no_need {k : List Line} (h : ∀ l ∈ k, l.needs = none) : Ready none k := by
  induction k with
  | nil => trivial
  | cons l k ih =>
    exact ⟨.inl (h l List.mem_cons_self), (ih fun l hl => h l (List.mem_cons_of_mem _ hl)).mono⟩

/-- Behind any of its lines the code is ready, too. -/
theorem Ready.suffix {k' : List Line} : ∀ {k : List Line} {known : Option Setup},
    Ready known (k ++ k') → ∃ known', Ready known' k' := by
  intro k
  induction k with
  | nil => exact fun h => ⟨_, h⟩
  | cons l k ih => exact fun h => ih h.2

theorem ready_instrs {is : List Instr} (c : AsmCtx) (h : Ready none (is.map .instr)) :
    Ready none (codeOf (c.itemsOf is)) := by
  rw [codeOf_itemsOf]
  exact h

theorem ready_instr (c : AsmCtx) {i : Instr} (h : i.needs = none) :
    Ready none (codeOf [c.item i]) :=
  ready_of_no_need fun l hl => by
    obtain rfl := List.mem_singleton.mp hl
    exact h

theorem ready_unary {op : UnaryOp} {is : List Instr} (h : unaryInstrs op = some is) :
    Ready none (is.map .instr) := by
  cases op <;> simp [unaryInstrs] at h <;> subst h <;>
    simp [Ready, Line.needs, Instr.needs, Line.gives]

theorem ready_binary (op : BinaryOp) : Ready none ((binaryInstrs op).map .instr) := by
  cases op <;> simp [binaryInstrs, Ready, Line.needs, Instr.needs, Line.gives]

/-- The instructions that read and write symbols. -/
theorem symbolInstrs_safe (v : Symbol) (name : CString) :
    ∀ i ∈ [readInstr v name, writeInstr v name, addrInstr v],
      i.isSafe = true ∧ i.needs = none := by
  unfold readInstr writeInstr addrInstr
  cases v.isGlobal <;> simp [Instr.isSafe, Instr.needs, Operand.isMemory]

theorem ExprCode.ready {c : AsmCtx} {p : Phrase} {items : List Item} (h : ExprCode c p items) :
    Ready none (codeOf items) := by
  have hpops : ∀ (d : AsmCtx) (ids : List RegId), Ready none (codeOf (d.popItems ids)) := by
    intro d ids
    rw [codeOf_popItems]
    refine ready_of_no_need fun l hl => ?_
    obtain ⟨id, _, rfl⟩ := List.mem_map.mp hl
    rfl
  induction h with
  | literal => exact ready_instr _ rfl
  | @identifier c name v hs => exact ready_instr _ (symbolInstrs_safe v name _ (by simp)).2
  | @addr c name v hs => exact ready_instr _ (symbolInstrs_safe v name _ (by simp)).2
  | unary hop _ ih =>
    rw [codeOf_append]
    exact ih.append (ready_instrs _ (ready_unary hop))
  | @binary c op _ _ _ _ _ _ ihl ihr =>
    rw [codeOf_append, codeOf_append, codeOf_append, codeOf_cons, List.append_assoc,
      List.append_assoc]
    refine ihl.append (Ready.append (k := [_]) (ready_instr c rfl) (ihr.append ?_))
    exact (ready_instrs _ (by simp [Ready, Line.needs, Instr.needs])).append
      (ready_instrs _ (ready_binary op))
  | call _ _ _ ih =>
    rw [codeOf_append, codeOf_append]
    exact (ih.append (hpops _ _)).append (ready_instr _ rfl)
  | @callPad c _ _ _ _ _ _ ih =>
    rw [codeOf_append, codeOf_append, codeOf_cons]
    refine Ready.append (Ready.append (Ready.append (k := [_]) (ready_instr c rfl) ih)
      (hpops _ _)) (ready_instrs _ (by simp [Ready, Line.needs, Instr.needs]))
  | @assign c name val v items _ hs ih =>
    rw [codeOf_append]
    exact ih.append (ready_instr _ (symbolInstrs_safe v name _ (by simp)).2)
  | cast _ ih => exact ih
  | argsNil => trivial
  | @argsCons c _ _ _ _ _ _ iha ihs =>
    rw [codeOf_append, codeOf_cons]
    exact iha.append (Ready.append (k := [_]) (ready_instr c rfl) ihs)

/-- **Flags are read directly behind a `cmp`**, and a division stands directly behind `cqto`. -/
theorem StmtCode.ready {c c' : AsmCtx} {p : StmtPhrase} {items : List Item}
    {marks : List AsmCtx} (h : StmtCode c p c' items marks) : Ready none (codeOf items) := by
  have hmarks : ∀ {k : List Line}, (∀ l ∈ k, l.isMark = true ∨ ∃ n, l = .instr (.jmp n)) →
      Ready none k := by
    refine fun hk => ready_of_no_need fun l hl => ?_
    rcases hk l hl with hl | ⟨n, rfl⟩
    · cases l with
      | instr i => exact absurd hl (by simp [Line.isMark])
      | _ => rfl
    · rfl
  have htest : ∀ (c : AsmCtx) (n : Nat),
      Ready none (codeOf (c.itemsOf [.cmp (.imm 0) (.reg .rax), .je n])) := by
    intro c n
    exact ready_instrs _ (by simp [Ready, Line.needs, Instr.needs, Line.gives])
  induction h with
  | comment => trivial
  | expr he => exact he.ready
  | returnStmt he _ =>
    rw [codeOf_append]
    exact he.ready.append (ready_instr _ rfl)
  | uninit _ => trivial
  | init _ he =>
    rw [codeOf_append]
    exact he.ready.append (ready_instr _ rfl)
  | ifThen hc _ ih =>
    rw [codeOf_append, codeOf_append, codeOf_append]
    exact ((hc.ready.append (htest _ _)).append ih).append (hmarks (by simp [Line.isMark]))
  | ifElse hc _ _ ih ih' =>
    rw [codeOf_append, codeOf_append, codeOf_append, codeOf_append, codeOf_append]
    exact ((((hc.ready.append (htest _ _)).append ih).append
      (hmarks (by simp [Line.isMark]))).append ih').append (hmarks (by simp [Line.isMark]))
  | block _ ih => exact ih
  | nil => trivial
  | cons _ _ ih ih' =>
    rw [codeOf_append]
    exact ih.append ih'

/-! ## Operands -/

/-- The line is a mark or an instruction with safe operands, and it assigns no data but the globals
`gs`. -/
def Line.Fine (gs : List CString) (l : Line) : Prop :=
  ∀ i, l = .instr i → i.isSafe = true ∧ ∀ name, i = .mov (.reg .rax) (.sym name) → name ∈ gs

theorem fine_mark {gs : List CString} {l : Line} (h : l.isMark = true) : l.Fine gs := by
  rintro i rfl
  exact absurd h (by simp [Line.isMark])

theorem fine_itemsOf {gs : List CString} (c : AsmCtx) {is : List Instr}
    (h : ∀ i ∈ is, i.isSafe = true ∧ i.isQuiet = true) :
    ∀ item ∈ c.itemsOf is, item.line.Fine gs := by
  intro item hitem i hi
  obtain ⟨i', hi', rfl⟩ := List.mem_map.mp hitem
  obtain rfl := Line.instr.inj hi
  refine ⟨(h i' hi').1, ?_⟩
  rintro name rfl
  exact absurd (h _ hi').2 (by simp [Instr.isQuiet, Operand.isMemory])

theorem fine_item {gs : List CString} (c : AsmCtx) {i : Instr}
    (h : i.isSafe = true ∧ ∀ name, i = .mov (.reg .rax) (.sym name) → name ∈ gs) :
    (c.item i).line.Fine gs := by
  rintro i' hi'
  rw [← Line.instr.inj hi']
  exact h

theorem fine_popItems (gs : List CString) (ids : List RegId) : ∀ c : AsmCtx,
    ∀ item ∈ c.popItems ids, item.line.Fine gs := by
  induction ids with
  | nil => intro c item hitem; simp [AsmCtx.popItems] at hitem
  | cons id ids ih =>
    intro c item hitem
    rcases List.mem_cons.mp hitem with rfl | hitem
    · exact fine_item c ⟨rfl, by simp⟩
    · exact ih _ item hitem

theorem writeInstr_fine {gs : List CString} {c : AsmCtx} (hc : c.Over gs) {name : CString}
    {v : Symbol} (hv : findSymbol c name = some v) :
    ∀ x, writeInstr v name = .mov (.reg .rax) (.sym x) → x ∈ gs := by
  intro x hx
  unfold writeInstr at hx
  by_cases hg : v.isGlobal = true
  · rw [if_pos hg] at hx
    obtain rfl : name = x := by simpa using hx
    exact hc.others name v hv hg
  · rw [if_neg hg] at hx
    exact absurd hx (by simp)

theorem ExprCode.fine {gs : List CString} {c : AsmCtx} {p : Phrase} {items : List Item}
    (h : ExprCode c p items) : c.Over gs → ∀ item ∈ items, item.line.Fine gs := by
  induction h with
  | literal =>
    exact fun _ => List.forall_mem_singleton.mpr (fine_item _ ⟨rfl, by simp⟩)
  | @identifier c name v hs =>
    refine fun _ => List.forall_mem_singleton.mpr (fine_item _ ⟨?_, ?_⟩)
    · exact (symbolInstrs_safe v name _ (by simp)).1
    · unfold readInstr
      split <;> simp
  | @addr c name v hs =>
    refine fun _ => List.forall_mem_singleton.mpr (fine_item _ ⟨?_, ?_⟩)
    · exact (symbolInstrs_safe v name _ (by simp)).1
    · unfold addrInstr
      split <;> simp
  | @unary c op e is items hop _ ih =>
    refine fun hc => List.forall_mem_append.mpr ⟨ih hc, fine_itemsOf _ fun i hi => ⟨?_, ?_⟩⟩
    · revert i
      cases op <;> simp [unaryInstrs] at hop <;> subst hop <;> decide
    · exact unaryInstrs_quiet hop i hi
  | @binary c op _ _ _ _ _ _ ihl ihr =>
    intro hc
    have hdeep : (c.withDepth (c.pushDepth + 1)).Over gs := ⟨hc.locals, hc.globals, hc.others⟩
    simp only [List.forall_mem_append, List.forall_mem_cons]
    refine ⟨⟨⟨ihl hc, fine_item c ⟨rfl, by simp⟩, ihr hdeep⟩, fine_itemsOf _ (by decide)⟩,
      fine_itemsOf _ fun i hi => ⟨?_, binaryInstrs_quiet op i hi⟩⟩
    revert i
    cases op <;> decide
  | call _ _ _ ih =>
    intro hc
    simp only [List.forall_mem_append, List.forall_mem_singleton]
    exact ⟨⟨ih hc, fine_popItems gs _ _⟩, fine_item _ ⟨rfl, by simp⟩⟩
  | @callPad c _ _ _ _ _ _ ih =>
    intro hc
    have hdeep : (c.withDepth (c.pushDepth + 1)).Over gs := ⟨hc.locals, hc.globals, hc.others⟩
    simp only [List.forall_mem_append, List.forall_mem_cons]
    refine ⟨⟨⟨fine_item c ⟨rfl, by simp⟩, ih hdeep⟩, fine_popItems gs _ _⟩, ?_⟩
    exact fine_itemsOf _ (by simp [Instr.isSafe, Instr.isQuiet, Operand.isMemory])
  | @assign c name val v items _ hs ih =>
    intro hc
    rw [List.forall_mem_append, List.forall_mem_singleton]
    exact ⟨ih hc, fine_item c ⟨(symbolInstrs_safe v name _ (by simp)).1, writeInstr_fine hc hs⟩⟩
  | cast _ ih => exact ih
  | argsNil => simp
  | @argsCons c _ _ _ _ _ _ iha ihs =>
    intro hc
    have hdeep : (c.withDepth (c.pushDepth + 1)).Over gs := ⟨hc.locals, hc.globals, hc.others⟩
    simp only [List.forall_mem_append, List.forall_mem_cons]
    exact ⟨iha hc, fine_item c ⟨rfl, by simp⟩, ihs hdeep⟩

theorem StmtCode.fine {gs : List CString} {c c' : AsmCtx} {p : StmtPhrase} {items : List Item}
    {marks : List AsmCtx} (h : StmtCode c p c' items marks) :
    c.Over gs → ∀ item ∈ items, item.line.Fine gs := by
  have htest : ∀ (c : AsmCtx) (n : Nat),
      ∀ item ∈ c.itemsOf [.cmp (.imm 0) (.reg .rax), .je n], item.line.Fine gs := by
    intro c n
    exact fine_itemsOf _ (by simp [Instr.isSafe, Instr.isQuiet])
  induction h with
  | comment => simp
  | expr he => exact he.fine
  | returnStmt he _ =>
    intro hc
    rw [List.forall_mem_append, List.forall_mem_singleton]
    exact ⟨he.fine hc, fine_item _ ⟨rfl, by simp⟩⟩
  | uninit _ => simp
  | init hstk he =>
    intro hc
    rw [List.forall_mem_append, List.forall_mem_singleton]
    exact ⟨he.fine (hc.declare hstk _ _), fine_item _ ⟨rfl, by simp⟩⟩
  | @ifThen c _ _ _ _ _ _ he _ ih =>
    intro hc
    have hc' : (c.withLabels (c.labelCount + 2)).Over gs := ⟨hc.locals, hc.globals, hc.others⟩
    simp only [List.forall_mem_append, List.forall_mem_cons]
    exact ⟨⟨⟨he.fine hc', htest _ _⟩, ih hc'⟩, fine_item _ ⟨rfl, by simp⟩, fine_mark rfl,
      fine_mark rfl, by simp⟩
  | @ifElse c _ _ _ _ _ _ _ _ _ _ he hb _ ih ih' =>
    intro hc
    have hc' : (c.withLabels (c.labelCount + 2)).Over gs := ⟨hc.locals, hc.globals, hc.others⟩
    simp only [List.forall_mem_append, List.forall_mem_cons]
    exact ⟨⟨⟨⟨⟨he.fine hc', htest _ _⟩, ih hc'⟩, fine_item _ ⟨rfl, by simp⟩, fine_mark rfl,
      by simp⟩, ih' (hb.overGlobals hc')⟩, fine_mark rfl, by simp⟩
  | block _ ih => exact fun hc => ih hc.enter
  | nil => simp
  | cons hs _ ih ih' =>
    intro hc
    rw [List.forall_mem_append]
    exact ⟨ih hc, ih' (hs.overGlobals hc)⟩

/-! ## Depth -/

@[simp] theorem item_depth (c : AsmCtx) (i : Instr) : (c.item i).depth = c.pushDepth := rfl

theorem forall_itemsOf {c : AsmCtx} {is : List Instr} {P : Item → Prop} (h : ∀ i ∈ is, P (c.item i)) :
    ∀ item ∈ c.itemsOf is, P item := by
  intro item hitem
  obtain ⟨i, hi, rfl⟩ := List.mem_map.mp hitem
  exact h i hi

theorem popItems_depth_le (ids : List RegId) : ∀ c : AsmCtx,
    ∀ item ∈ c.popItems ids, item.depth ≤ c.pushDepth := by
  induction ids with
  | nil => intro c item hitem; simp [AsmCtx.popItems] at hitem
  | cons id ids ih =>
    intro c item hitem
    rcases List.mem_cons.mp hitem with rfl | hitem
    · exact Int.le_refl _
    · have hle := ih _ item hitem
      rw [withDepth_pushDepth] at hle
      omega

theorem paramItems_depth (params : List FuncParam) : ∀ (ids : List RegId) (c : AsmCtx),
    ∀ item ∈ c.paramItems ids params, item.depth = c.pushDepth := by
  induction params with
  | nil => intro ids c; cases ids <;> simp [AsmCtx.paramItems]
  | cons p params ih =>
    intro ids c
    cases ids with
    | nil => simp [AsmCtx.paramItems]
    | cons id ids =>
      simp only [AsmCtx.paramItems, List.forall_mem_cons]
      refine ⟨rfl, fun item hitem => ?_⟩
      rw [ih ids _ item hitem, (AsmCtx.extends_declare c p.ident p.type).pushDepth]

theorem length_le_argsNeed (args : List Expr) : args.length ≤ argsNeed args := by
  induction args with
  | nil => exact Nat.le_refl 0
  | cons arg args ih =>
    rw [argsNeed, List.length_cons]
    omega

/-- An expression never has more words on the stack than it needs. -/
theorem ExprCode.depth_le {c : AsmCtx} {p : Phrase} {items : List Item} (h : ExprCode c p items) :
    ∀ item ∈ items, item.depth ≤ c.pushDepth + p.need := by
  have hplain : ∀ (c : AsmCtx) (is : List Instr) (n : Int), c.pushDepth ≤ n →
      ∀ item ∈ c.itemsOf is, item.depth ≤ n := fun c is n hn => forall_itemsOf fun _ _ => hn
  induction h with
  | literal => simp
  | identifier _ => simp
  | addr _ => simp
  | @unary c op e is items _ _ ih =>
    exact List.forall_mem_append.mpr ⟨ih, hplain c is _ (by omega)⟩
  | @binary c op left right items items' _ _ ihl ihr =>
    simp only [List.forall_mem_append, List.forall_mem_cons]
    simp only [Phrase.need, exprNeed, withDepth_pushDepth] at ihl ihr ⊢
    refine ⟨⟨⟨fun item hitem => ?_, ?_, fun item hitem => ?_⟩, hplain _ _ _ ?_⟩, hplain _ _ _ ?_⟩
    · have hle := ihl item hitem
      omega
    · rw [item_depth]
      omega
    · have hle := ihr item hitem
      omega
    · rw [withDepth_pushDepth]
      omega
    · omega
  | @call c callee args items _ _ _ ih =>
    have hlen := length_le_argsNeed args
    simp only [List.forall_mem_append, List.forall_mem_singleton]
    simp only [Phrase.need, exprNeed] at ih ⊢
    refine ⟨⟨fun item hitem => ?_, fun item hitem => ?_⟩, ?_⟩
    · have hle := ih item hitem
      omega
    · have hle := popItems_depth_le _ _ item hitem
      rw [withDepth_pushDepth] at hle
      omega
    · rw [item_depth]
      omega
  | @callPad c callee args items _ _ _ ih =>
    have hlen := length_le_argsNeed args
    simp only [List.forall_mem_append, List.forall_mem_cons]
    simp only [Phrase.need, exprNeed, withDepth_pushDepth] at ih ⊢
    refine ⟨⟨⟨?_, fun item hitem => ?_⟩, fun item hitem => ?_⟩, hplain _ _ _ ?_⟩
    · rw [item_depth]
      omega
    · have hle := ih item hitem
      omega
    · have hle := popItems_depth_le _ _ item hitem
      rw [withDepth_pushDepth] at hle
      omega
    · rw [withDepth_pushDepth]
      omega
  | @assign c name val sym items _ _ ih =>
    simp only [List.forall_mem_append, List.forall_mem_singleton]
    exact ⟨ih, by rw [item_depth]; omega⟩
  | cast _ ih => exact ih
  | argsNil => simp
  | @argsCons c arg args items items' _ _ iha ihs =>
    simp only [List.forall_mem_append, List.forall_mem_cons]
    simp only [Phrase.need, argsNeed, withDepth_pushDepth] at iha ihs ⊢
    refine ⟨fun item hitem => ?_, ?_, fun item hitem => ?_⟩
    · have hle := iha item hitem
      omega
    · rw [item_depth]
      omega
    · have hle := ihs item hitem
      omega

/-- A function never has more words on the stack than its body needs. -/
theorem StmtCode.depth_le {c c' : AsmCtx} {p : StmtPhrase} {items : List Item}
    {marks : List AsmCtx} (h : StmtCode c p c' items marks) :
    c.pushDepth = 0 → ∀ item ∈ items, item.depth ≤ p.need := by
  have hexpr : ∀ {c : AsmCtx} {e : Expr} {items : List Item} {n : Nat},
      ExprCode c (.expr e) items → c.pushDepth = 0 → exprNeed e ≤ n →
        ∀ item ∈ items, item.depth ≤ n := by
    intro c e items n he hc hn item hitem
    have hle := he.depth_le item hitem
    rw [hc, Phrase.need] at hle
    omega
  have hstmts : ∀ {n m : Nat} {items : List Item}, n ≤ m → (∀ item ∈ items, item.depth ≤ n) →
      ∀ item ∈ items, item.depth ≤ m := by
    intro n m items hle h item hitem
    have hle := h item hitem
    omega
  induction h with
  | comment => simp
  | expr he => exact fun hc => hexpr he hc (Nat.le_refl _)
  | returnStmt he _ =>
    intro hc
    simp only [List.forall_mem_append, List.forall_mem_singleton, item_depth, hc]
    exact ⟨hexpr he hc (Nat.le_refl _), Int.natCast_nonneg _⟩
  | uninit _ => simp
  | @init c name type e items _ he =>
    intro hc
    have hdecl : (c.declare name type).pushDepth = 0 :=
      (AsmCtx.extends_declare c name type).pushDepth.trans hc
    simp only [List.forall_mem_append, List.forall_mem_singleton, item_depth, hc]
    exact ⟨hexpr he hdecl (Nat.le_refl _), Int.natCast_nonneg _⟩
  | ifThen hc _ ih =>
    intro hd
    simp only [List.forall_mem_append, List.forall_mem_cons, AsmCtx.itemsOf, List.map_cons,
      List.map_nil, List.not_mem_nil, false_imp_iff, implies_true, and_true, item_depth, hd,
      StmtPhrase.need, stmtNeed] at ih ⊢
    exact ⟨⟨⟨hexpr hc hd (le_max_left _ _), Int.natCast_nonneg _, Int.natCast_nonneg _⟩,
      hstmts (le_max_right _ _) (ih hd)⟩, Int.natCast_nonneg _, Int.natCast_nonneg _,
        Int.natCast_nonneg _⟩
  | ifElse hc hb _ ih ih' =>
    intro hd
    have hd' := hb.extends.pushDepth.trans hd
    simp only [List.forall_mem_append, List.forall_mem_cons, AsmCtx.itemsOf, List.map_cons,
      List.map_nil, List.not_mem_nil, false_imp_iff, implies_true, and_true, item_depth, hd,
      StmtPhrase.need, stmtNeed] at ih ih' ⊢
    exact ⟨⟨⟨⟨⟨hexpr hc hd (le_max_left _ _), Int.natCast_nonneg _, Int.natCast_nonneg _⟩,
      hstmts ((le_max_left _ _).trans (le_max_right _ _)) (ih hd)⟩, Int.natCast_nonneg _,
        Int.natCast_nonneg _⟩, hstmts ((le_max_right _ _).trans (le_max_right _ _)) (ih' hd')⟩,
          Int.natCast_nonneg _⟩
  | block _ ih => exact ih
  | nil => simp
  | cons hs _ ih ih' =>
    intro hc
    have hc' := hs.extends.pushDepth.trans hc
    simp only [List.forall_mem_append, StmtPhrase.need, stmtsNeed] at ih ih' ⊢
    exact ⟨hstmts (le_max_left _ _) (ih hc), hstmts (le_max_right _ _) (ih' hc')⟩

/-! ## Callees -/

def Phrase.callees : Phrase → List CString
  | .expr e => exprCallees e
  | .exprs es => argsCallees es

def StmtPhrase.callees : StmtPhrase → List CString
  | .stmt s => stmtCallees s
  | .nodes ss => stmtsCallees ss

/-- The line calls nothing but names in `fs`. -/
def Line.CallsIn (fs : List CString) (l : Line) : Prop := ∀ f, l = .instr (.call f) → f ∈ fs

theorem CallsIn.mono {fs fs' : List CString} {items : List Item} (hsub : fs ⊆ fs')
    (h : ∀ item ∈ items, item.line.CallsIn fs) : ∀ item ∈ items, item.line.CallsIn fs' :=
  fun item hitem f hf => hsub (h item hitem f hf)

theorem callsIn_itemsOf {fs : List CString} (c : AsmCtx) {is : List Instr}
    (h : ∀ i ∈ is, i.isCall = false) : ∀ item ∈ c.itemsOf is, item.line.CallsIn fs := by
  refine forall_itemsOf fun i hi f hf => ?_
  rw [item_line] at hf
  obtain rfl := Line.instr.inj hf
  exact absurd (h _ hi) (by simp [Instr.isCall])

theorem callsIn_item {fs : List CString} (c : AsmCtx) {i : Instr} (h : i.isCall = false) :
    (c.item i).line.CallsIn fs :=
  @callsIn_itemsOf fs c [i] (by simpa using h) _ List.mem_cons_self

theorem callsIn_popItems {fs : List CString} (ids : List RegId) : ∀ c : AsmCtx,
    ∀ item ∈ c.popItems ids, item.line.CallsIn fs := by
  induction ids with
  | nil => intro c item hitem; simp [AsmCtx.popItems] at hitem
  | cons id ids ih =>
    intro c item hitem
    rcases List.mem_cons.mp hitem with rfl | hitem
    · exact callsIn_item c rfl
    · exact ih _ item hitem

theorem symbolInstrs_isCall (v : Symbol) (name : CString) :
    ∀ i ∈ [readInstr v name, writeInstr v name, addrInstr v], i.isCall = false := by
  unfold readInstr writeInstr addrInstr
  cases v.isGlobal <;> simp [Instr.isCall]

/-- The lines of an expression call what the expression calls. -/
theorem ExprCode.callsIn {c : AsmCtx} {p : Phrase} {items : List Item} (h : ExprCode c p items) :
    ∀ item ∈ items, item.line.CallsIn p.callees := by
  induction h with
  | literal => exact List.forall_mem_singleton.mpr (callsIn_item _ rfl)
  | @identifier c name v _ =>
    exact List.forall_mem_singleton.mpr (callsIn_item _ (symbolInstrs_isCall v name _ (by simp)))
  | @addr c name v _ =>
    exact List.forall_mem_singleton.mpr (callsIn_item _ (symbolInstrs_isCall v name _ (by simp)))
  | @unary c op _ is _ hop _ ih =>
    refine List.forall_mem_append.mpr ⟨ih, callsIn_itemsOf _ fun i hi => ?_⟩
    revert i
    cases op <;> simp [unaryInstrs] at hop <;> subst hop <;> decide
  | @binary c op _ _ _ _ _ _ ihl ihr =>
    simp only [List.forall_mem_append, List.forall_mem_cons]
    refine ⟨⟨⟨CallsIn.mono (List.subset_append_left _ _) ihl, callsIn_item _ rfl,
      CallsIn.mono (List.subset_append_right _ _) ihr⟩, callsIn_itemsOf _ (by decide)⟩,
        callsIn_itemsOf _ ?_⟩
    cases op <;> decide
  | call _ _ _ ih =>
    simp only [List.forall_mem_append, List.forall_mem_singleton]
    refine ⟨⟨CallsIn.mono (List.subset_cons_self _ _) ih, callsIn_popItems _ _⟩, fun f hf => ?_⟩
    rw [item_line] at hf
    obtain rfl := Instr.call.inj (Line.instr.inj hf)
    exact List.mem_cons_self
  | callPad _ _ _ ih =>
    simp only [List.forall_mem_append, List.forall_mem_cons]
    refine ⟨⟨⟨callsIn_item _ rfl, CallsIn.mono (List.subset_cons_self _ _) ih⟩,
      callsIn_popItems _ _⟩, forall_itemsOf fun i hi f hf => ?_⟩
    rw [item_line] at hf
    obtain rfl := Line.instr.inj hf
    obtain rfl : f = _ := by simpa using hi
    exact List.mem_cons_self
  | @assign _ name _ v _ _ _ ih =>
    simp only [List.forall_mem_append, List.forall_mem_singleton]
    exact ⟨ih, callsIn_item _ (symbolInstrs_isCall v name _ (by simp))⟩
  | cast _ ih => exact ih
  | argsNil => simp
  | argsCons _ _ iha ihs =>
    simp only [List.forall_mem_append, List.forall_mem_cons]
    exact ⟨CallsIn.mono (List.subset_append_left _ _) iha, callsIn_item _ rfl,
      CallsIn.mono (List.subset_append_right _ _) ihs⟩

/-- **The lines of a body call what the body calls.** -/
theorem StmtCode.callsIn {c c' : AsmCtx} {p : StmtPhrase} {items : List Item}
    {marks : List AsmCtx} (h : StmtCode c p c' items marks) :
    ∀ item ∈ items, item.line.CallsIn p.callees := by
  have hlabel : ∀ {fs : List CString} {n : Nat}, (Line.label n).CallsIn fs :=
    fun f hf => absurd hf (by simp)
  induction h with
  | comment => simp
  | expr he => exact he.callsIn
  | returnStmt he _ =>
    simp only [List.forall_mem_append, List.forall_mem_singleton]
    exact ⟨he.callsIn, callsIn_item _ rfl⟩
  | uninit _ => simp
  | init _ he =>
    simp only [List.forall_mem_append, List.forall_mem_singleton]
    exact ⟨he.callsIn, callsIn_item _ rfl⟩
  | ifThen hc _ ih =>
    simp only [List.forall_mem_append, List.forall_mem_cons, List.not_mem_nil, false_imp_iff,
      implies_true, and_true]
    exact ⟨⟨⟨CallsIn.mono (List.subset_append_left _ _) hc.callsIn,
      callsIn_itemsOf _ (by simp [Instr.isCall])⟩,
        CallsIn.mono (List.subset_append_right _ _) ih⟩, callsIn_item _ rfl, hlabel, hlabel⟩
  | ifElse hc _ _ ih ih' =>
    simp only [List.forall_mem_append, List.forall_mem_cons, List.not_mem_nil, false_imp_iff,
      implies_true, and_true]
    refine ⟨⟨⟨⟨⟨CallsIn.mono ?_ hc.callsIn, callsIn_itemsOf _ (by simp [Instr.isCall])⟩,
      CallsIn.mono ?_ ih⟩, callsIn_item _ rfl, hlabel⟩, CallsIn.mono ?_ ih'⟩, hlabel⟩
    · exact List.Subset.trans (List.subset_append_left _ _) (List.subset_append_left _ _)
    · exact List.Subset.trans (List.subset_append_right _ _) (List.subset_append_left _ _)
    · exact List.subset_append_right _ _
  | block _ ih => exact ih
  | nil => simp
  | cons _ _ ih ih' =>
    exact List.forall_mem_append.mpr ⟨CallsIn.mono (List.subset_append_left _ _) ih,
      CallsIn.mono (List.subset_append_right _ _) ih'⟩

end ACompiler
