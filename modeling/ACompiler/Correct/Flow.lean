import ACompiler.Correct.Function
import ACompiler.Parser.Complete
import ACompiler.Semantics.Paths

/-!
# Where control can go

The ways through the lines of a function are the paths through its statements, whatever the
conditions turn out to be: control comes to the label of the epilogue from above exactly when a path
falls through (`StmtCode.flows`, `StmtCode.path_of_flows`).
-/

namespace ACompiler

/-- Where control can go next, whatever the flags are. -/
inductive Flow (prog : List Line) : List Line → List Line → Prop
  | next {l : Line} {k : List Line} (hl : ∀ n, l ≠ .instr (.jmp n)) : Flow prog (l :: k) k
  | jump {n : Nat} {k k' : List Line} (h : findLabel n prog = some k') :
      Flow prog (.instr (.jmp n) :: k) k'
  | branch {n : Nat} {k k' : List Line} (h : findLabel n prog = some k') :
      Flow prog (.instr (.je n) :: k) k'

/-- Where control can go. -/
abbrev Flows (prog : List Line) : List Line → List Line → Prop := Relation.ReflTransGen (Flow prog)

/-- A step of the machine goes where control can go. -/
theorem Step.flow {W : World} {prog : List Line} {cfg cfg' : Config} (h : Step W prog cfg cfg') :
    Flow prog cfg.code cfg'.code := by
  cases h with
  | @mark s l k hl =>
    refine .next fun n heq => ?_
    rw [heq] at hl
    exact absurd hl (by simp [Line.isMark])
  | @instr s s' i k hi =>
    refine .next fun n heq => ?_
    rw [Line.instr.inj heq] at hi
    exact absurd hi (by simp [execInstr])
  | call _ => exact .next (by simp)
  | jmp hk => exact .jump hk
  | jeTaken _ hk => exact .branch hk
  | jePassed _ _ => exact .next (by simp)

theorem Steps.flows {W : World} {prog : List Line} {cfg cfg' : Config} (h : Steps W prog cfg cfg') :
    Flows prog cfg.code cfg'.code := by
  induction h with
  | refl => exact .refl
  | tail _ hstep ih => exact ih.tail hstep.flow

section flows
variable {prog k k' : List Line}

/-- Lines without jumps are passed through. -/
theorem flows_through {code : List Line} (h : ∀ l ∈ code, l.isJoint = false) :
    Flows prog (code ++ k) k := by
  induction code with
  | nil => exact .refl
  | cons l code ih =>
    have hl := h l List.mem_cons_self
    refine .head (.next fun n heq => ?_) (ih fun l hl => h l (List.mem_cons_of_mem _ hl))
    rw [heq] at hl
    exact absurd hl (by simp [Line.isJoint])

/-- What is reached from a line, and is shorter, is reached from the next one. -/
theorem Flows.of_cons {l : Line} (h : Flows prog (l :: k) k') (hlen : k'.length ≤ k.length) :
    ∃ k₁, Flow prog (l :: k) k₁ ∧ Flows prog k₁ k' := by
  rcases Relation.ReflTransGen.cases_head h with heq | hstep
  · rw [← heq, List.length_cons] at hlen
    omega
  · exact hstep

theorem Flows.of_next {l : Line} (h : Flows prog (l :: k) k') (hl : ∀ n, l ≠ .instr (.je n))
    (hl' : ∀ n, l ≠ .instr (.jmp n)) (hlen : k'.length ≤ k.length) : Flows prog k k' := by
  obtain ⟨k₁, hflow, hrest⟩ := h.of_cons hlen
  cases hflow with
  | next _ => exact hrest
  | jump _ => exact absurd rfl (hl' _)
  | branch _ => exact absurd rfl (hl _)

theorem Flows.of_jmp {n : Nat} (h : Flows prog (.instr (.jmp n) :: k) k')
    (hlen : k'.length ≤ k.length) : ∃ k₁, findLabel n prog = some k₁ ∧ Flows prog k₁ k' := by
  obtain ⟨k₁, hflow, hrest⟩ := h.of_cons hlen
  cases hflow with
  | next hl => exact absurd rfl (hl _)
  | jump hk => exact ⟨k₁, hk, hrest⟩

theorem Flows.of_je {n : Nat} (h : Flows prog (.instr (.je n) :: k) k')
    (hlen : k'.length ≤ k.length) :
    Flows prog k k' ∨ ∃ k₁, findLabel n prog = some k₁ ∧ Flows prog k₁ k' := by
  obtain ⟨k₁, hflow, hrest⟩ := h.of_cons hlen
  cases hflow with
  | next _ => exact .inl hrest
  | branch hk => exact .inr ⟨k₁, hk, hrest⟩

/-- What is reached from lines without jumps, and is shorter, is reached behind them. -/
theorem Flows.of_through {code : List Line} (hcode : ∀ l ∈ code, l.isJoint = false)
    (h : Flows prog (code ++ k) k') (hlen : k'.length ≤ k.length) : Flows prog k k' := by
  induction code with
  | nil => exact h
  | cons l code ih =>
    have hl := hcode l List.mem_cons_self
    refine ih (fun l hl => hcode l (List.mem_cons_of_mem _ hl)) (Flows.of_next h ?_ ?_ ?_)
    · rintro n rfl
      exact absurd hl (by simp [Line.isJoint])
    · rintro n rfl
      exact absurd hl (by simp [Line.isJoint])
    · rw [List.length_append]
      omega

end flows

/-- The code of an expression has no jumps. -/
theorem ExprCode.not_joint {c : AsmCtx} {e : Expr} {items : List Item}
    (h : ExprCode c (.expr e) items) : ∀ l ∈ codeOf items, l.isJoint = false := by
  intro l hl
  obtain ⟨item, hitem, rfl⟩ := List.mem_map.mp hl
  obtain ⟨i, hi, hjoint⟩ := h.isStep item hitem
  rw [hjoint]

/-- The test of an `if`. -/
theorem testLines_not_joint {c c' : AsmCtx} {e : Expr} {items : List Item}
    (h : ExprCode c (.expr e) items) :
    ∀ l ∈ codeOf (items ++ [c'.item (.cmp (.imm 0) (.reg .rax))]), l.isJoint = false := by
  intro l hl
  rw [codeOf_append, List.mem_append] at hl
  rcases hl with hl | hl
  · exact h.not_joint l hl
  · rw [List.mem_singleton.mp hl]
    rfl

/-! ## Statements -/

section statements
variable {prog : List Line}

/-- The lines of an `if` with `k` behind them. -/
def ifLines (test thenLines elseLines : List Line) (elseLbl endLbl : Nat) (k : List Line) :
    List Line :=
  test ++ .instr (.je elseLbl) :: (thenLines ++ .instr (.jmp endLbl) :: .label elseLbl ::
    (elseLines ++ .label endLbl :: k))

section branches
variable {test thenLines elseLines k k' : List Line} {elseLbl endLbl : Nat}

theorem flows_then (htest : ∀ l ∈ test, l.isJoint = false) (hend : findLabel endLbl prog = some k)
    (hthen : Flows prog
      (thenLines ++ .instr (.jmp endLbl) :: .label elseLbl :: (elseLines ++ .label endLbl :: k))
      (.instr (.jmp endLbl) :: .label elseLbl :: (elseLines ++ .label endLbl :: k))) :
    Flows prog (ifLines test thenLines elseLines elseLbl endLbl k) k :=
  (flows_through htest).trans (.head (.next (by simp)) (hthen.tail (.jump hend)))

theorem flows_else (htest : ∀ l ∈ test, l.isJoint = false)
    (helse : findLabel elseLbl prog = some (elseLines ++ .label endLbl :: k))
    (helseLines : Flows prog (elseLines ++ .label endLbl :: k) (.label endLbl :: k)) :
    Flows prog (ifLines test thenLines elseLines elseLbl endLbl k) k :=
  (flows_through htest).trans (.head (.branch helse) (helseLines.tail (.next (by simp))))

/-- What is reached from an `if` is reached from one of its branches. -/
theorem Flows.of_if (htest : ∀ l ∈ test, l.isJoint = false)
    (helse : findLabel elseLbl prog = some (elseLines ++ .label endLbl :: k))
    (h : Flows prog (ifLines test thenLines elseLines elseLbl endLbl k) k')
    (hlen : k'.length ≤ k.length) :
    Flows prog (thenLines ++ .instr (.jmp endLbl) :: .label elseLbl ::
        (elseLines ++ .label endLbl :: k)) k' ∨
      Flows prog (elseLines ++ .label endLbl :: k) k' := by
  have hbehind := Flows.of_through htest h (by simp; omega)
  rcases hbehind.of_je (by simp; omega) with hthen | ⟨k₁, hk₁, hrest⟩
  · exact .inl hthen
  · rw [helse] at hk₁
    rw [← Option.some.inj hk₁] at hrest
    exact .inr hrest

end branches

theorem codeOf_ifThen (c : AsmCtx) (items items' : List Item) (n m : Nat) (depth : Int)
    (k : List Line) :
    codeOf (items ++ c.itemsOf [.cmp (.imm 0) (.reg .rax), .je n] ++ items' ++
        [c.item (.jmp m), ⟨0, depth, .label n⟩, ⟨0, depth, .label m⟩]) ++ k =
      ifLines (codeOf (items ++ [c.item (.cmp (.imm 0) (.reg .rax))])) (codeOf items') [] n m k := by
  simp [ifLines]

theorem codeOf_ifElse (c : AsmCtx) (items items' items'' : List Item) (n m : Nat) (depth : Int)
    (k : List Line) :
    codeOf (items ++ c.itemsOf [.cmp (.imm 0) (.reg .rax), .je n] ++ items' ++
        [c.item (.jmp m), ⟨0, depth, .label n⟩] ++ items'' ++ [⟨0, depth, .label m⟩]) ++ k =
      ifLines (codeOf (items ++ [c.item (.cmp (.imm 0) (.reg .rax))])) (codeOf items')
        (codeOf items'') n m k := by
  simp [ifLines]

/-- Where the labels of an `if` without `else` lead, and those of its branch. -/
theorem resolves_ifThen {c : AsmCtx} {items items' : List Item} {n m : Nat} {depth : Int}
    {k : List Line} (h : Resolves prog (codeOf (items ++
      c.itemsOf [.cmp (.imm 0) (.reg .rax), .je n] ++ items' ++
        [c.item (.jmp m), ⟨0, depth, .label n⟩, ⟨0, depth, .label m⟩])) k) :
    findLabel n prog = some ([] ++ .label m :: k) ∧ findLabel m prog = some k ∧
      Resolves prog (codeOf items') (.instr (.jmp m) :: .label n :: ([] ++ .label m :: k)) := by
  rw [codeOf_append, codeOf_append] at h
  exact ⟨h.right _ [.instr (.jmp m)] _ rfl, h.right _ [.instr (.jmp m), .label n] [] rfl,
    h.left.right⟩

/-- Where the labels of an `if` with `else` lead, and those of its branches. -/
theorem resolves_ifElse {c : AsmCtx} {items items' items'' : List Item} {n m : Nat} {depth : Int}
    {k : List Line} (h : Resolves prog (codeOf (items ++
      c.itemsOf [.cmp (.imm 0) (.reg .rax), .je n] ++ items' ++
        [c.item (.jmp m), ⟨0, depth, .label n⟩] ++ items'' ++ [⟨0, depth, .label m⟩])) k) :
    findLabel n prog = some (codeOf items'' ++ .label m :: k) ∧ findLabel m prog = some k ∧
      Resolves prog (codeOf items')
        (.instr (.jmp m) :: .label n :: (codeOf items'' ++ .label m :: k)) ∧
      Resolves prog (codeOf items'') (.label m :: k) := by
  rw [codeOf_append, codeOf_append, codeOf_append, codeOf_append] at h
  exact ⟨h.left.left.right _ [.instr (.jmp m)] [] rfl, h.right _ [] [] rfl, h.left.left.left.right,
    h.left.right⟩

/-- **A path that falls through is a way through the lines.** -/
theorem StmtCode.flows {c c' : AsmCtx} {p : StmtPhrase} {items : List Item}
    {marks : List AsmCtx} (h : StmtCode c p c' items marks) : Path p .fellThrough → ∀ k,
      Resolves prog (codeOf items) k → Flows prog (codeOf items ++ k) k := by
  induction h with
  | comment => exact fun _ k _ => .refl
  | expr he => exact fun _ k _ => flows_through he.not_joint
  | returnStmt _ _ => exact fun hpath => absurd hpath (by rintro ⟨⟩)
  | uninit _ => exact fun _ k _ => .refl
  | init _ he =>
    intro _ k _
    refine flows_through fun l hl => ?_
    rw [codeOf_append, List.mem_append] at hl
    rcases hl with hl | hl
    · exact he.not_joint l hl
    · rw [List.mem_singleton.mp hl]
      rfl
  | ifThen hc _ ih =>
    intro hpath k hres
    obtain ⟨helse, hend, hres'⟩ := resolves_ifThen hres
    rw [codeOf_ifThen]
    cases hpath with
    | ifTaken hbranch =>
      exact flows_then (testLines_not_joint hc) hend (ih (.block hbranch) _ hres')
    | ifPassed => exact flows_else (testLines_not_joint hc) helse .refl
  | ifElse hc hb hb' ih ih' =>
    intro hpath k hres
    obtain ⟨helse, hend, hres', hres''⟩ := resolves_ifElse hres
    rw [codeOf_ifElse]
    cases hpath with
    | ifTaken hbranch =>
      exact flows_then (testLines_not_joint hc) hend (ih (.block hbranch) _ hres')
    | ifElse hbranch =>
      exact flows_else (testLines_not_joint hc) helse (ih' (.block hbranch) _ hres'')
  | block _ ih =>
    intro hpath
    cases hpath with
    | block hpath => exact ih hpath
  | nil => exact fun _ k _ => .refl
  | cons hs hn ih ih' =>
    intro hpath k hres
    rw [codeOf_append] at hres ⊢
    cases hpath with
    | next hfirst hrest =>
      rw [List.append_assoc]
      exact (ih hfirst _ hres.left).trans (ih' hrest k hres.right)

/-- **A way through the lines is a path that falls through**, where the epilogue does not lead back. -/
theorem StmtCode.path_of_flows {c c' : AsmCtx} {p : StmtPhrase} {items : List Item}
    {marks : List AsmCtx} {n : Nat} {kepi target : List Line}
    (hepi : findLabel n prog = some kepi) (hdead : ¬ Flows prog kepi target)
    (h : StmtCode c p c' items marks) : c.epilogueLabel = some n → ∀ k,
      Resolves prog (codeOf items) k → target.length ≤ k.length →
        Flows prog (codeOf items ++ k) target → Path p .fellThrough ∧ Flows prog k target := by
  induction h with
  | comment => exact fun _ k _ _ hflows => ⟨.comment, hflows⟩
  | expr he => exact fun _ k _ hlen hflows => ⟨.expr, Flows.of_through he.not_joint hflows hlen⟩
  | returnStmt he hn =>
    -- the jump goes to the epilogue
    intro hlabel k _ hlen hflows
    rw [codeOf_append, List.append_assoc] at hflows
    have hjmp := Flows.of_through he.not_joint hflows (by simp; omega)
    obtain ⟨k₁, hk₁, hrest⟩ := Flows.of_jmp hjmp hlen
    obtain rfl := Option.some.inj (hn.symm.trans hlabel)
    obtain rfl := Option.some.inj (hepi.symm.trans hk₁)
    exact absurd hrest hdead
  | uninit _ => exact fun _ k _ _ hflows => ⟨.varDecl, hflows⟩
  | init _ he =>
    intro _ k _ hlen hflows
    rw [codeOf_append, List.append_assoc] at hflows
    have hstore := Flows.of_through he.not_joint hflows (by simp; omega)
    exact ⟨.varDecl, hstore.of_next (by simp) (by simp) hlen⟩
  | @ifThen c _ _ _ _ _ _ hc _ ih =>
    intro hlabel k hres hlen hflows
    obtain ⟨helse, hend, hres'⟩ := resolves_ifThen hres
    rw [codeOf_ifThen] at hflows
    rcases Flows.of_if (testLines_not_joint hc) helse hflows hlen with hthen | helse
    · obtain ⟨hpath, hrest⟩ := ih hlabel _ hres' (by simp; omega) hthen
      obtain ⟨k₁, hk₁, hrest⟩ := Flows.of_jmp hrest (by simp; omega)
      obtain rfl := Option.some.inj (hend.symm.trans hk₁)
      cases hpath with
      | block hpath => exact ⟨.ifTaken hpath, hrest⟩
    · exact ⟨.ifPassed, Flows.of_next helse (by simp) (by simp) hlen⟩
  | @ifElse c _ _ _ _ _ _ _ _ _ _ hc hb hb' ih ih' =>
    intro hlabel k hres hlen hflows
    obtain ⟨helse, hend, hres', hres''⟩ := resolves_ifElse hres
    rw [codeOf_ifElse] at hflows
    rcases Flows.of_if (testLines_not_joint hc) helse hflows hlen with hthen | helse
    · obtain ⟨hpath, hrest⟩ := ih hlabel _ hres' (by simp; omega) hthen
      obtain ⟨k₁, hk₁, hrest⟩ := Flows.of_jmp hrest (by simp; omega)
      obtain rfl := Option.some.inj (hend.symm.trans hk₁)
      cases hpath with
      | block hpath => exact ⟨.ifTaken hpath, hrest⟩
    · have hlabel' := hb.extends.epilogueLabel.trans hlabel
      obtain ⟨hpath, hrest⟩ := ih' hlabel' _ hres'' (by simp; omega) helse
      cases hpath with
      | block hpath => exact ⟨.ifElse hpath, hrest.of_next (by simp) (by simp) hlen⟩
  | block _ ih =>
    intro hlabel k hres hlen hflows
    obtain ⟨hpath, hrest⟩ := ih hlabel k hres hlen hflows
    exact ⟨.block hpath, hrest⟩
  | nil => exact fun _ k _ _ hflows => ⟨.nil, hflows⟩
  | cons hs hn ih ih' =>
    intro hlabel k hres hlen hflows
    rw [codeOf_append] at hres hflows
    rw [List.append_assoc] at hflows
    obtain ⟨hpath, hrest⟩ := ih hlabel _ hres.left (by simp; omega) hflows
    obtain ⟨hpath', hrest'⟩ := ih' (hs.extends.epilogueLabel.trans hlabel) k hres.right hlen hrest
    exact ⟨.next hpath hpath', hrest'⟩

end statements

/-! ## Functions -/

/-- Control comes to the label of the epilogue from the line above it. -/
def FallsIntoEpilogue (code : List Line) (label : Nat) : Prop :=
  Flows code code (codeOf (epilogueItems label))

section function
variable {decl : FuncDecl} {c : AsmCtx} {r : Lib.Emitted AsmCtx Item Unit}

/-- The lines before the body have no jumps. -/
theorem prologue_not_joint (decl : FuncDecl) (c : AsmCtx) :
    ∀ l ∈ codeOf (prologueItems decl c ++ spillItems decl), l.isJoint = false := by
  intro l hl
  have hlabel : ∀ n, l ≠ .label n := by
    rintro n rfl
    exact label_not_mem_prologue decl c n hl
  have hstraight : l.isStraight = true := by
    rw [codeOf_append, List.mem_append] at hl
    rcases hl with hl | hl
    · exact prologueItems_straight decl c l hl
    · obtain ⟨item, hitem, rfl⟩ := List.mem_map.mp hl
      obtain ⟨id, off, hline⟩ := paramItems_line decl.params argRegs _ item hitem
      rw [hline]
      rfl
  unfold Line.isJoint
  split
  · exact absurd rfl (hlabel _)
  · exact absurd hstraight (by simp [Line.isStraight])
  · exact absurd hstraight (by simp [Line.isStraight])
  · rfl

/-- The epilogue does not lead back. -/
theorem flows_epilogueTail {prog k k' : List Line} (h : Flows prog k k') (hk : k <:+ epilogueTail) :
    k' <:+ epilogueTail := by
  induction h with
  | refl => exact hk
  | tail _ hflow ih =>
    have hlines : ∀ l ∈ epilogueTail, ∀ n, l ≠ .instr (.jmp n) ∧ l ≠ .instr (.je n) := by
      simp [epilogueTail]
    cases hflow with
    | next _ => exact (List.suffix_cons _ _).trans ih
    | jump _ => exact absurd rfl (hlines _ (ih.subset List.mem_cons_self) _).1
    | branch _ => exact absurd rfl (hlines _ (ih.subset List.mem_cons_self) _).2

/-- **Control falls into the epilogue exactly when a path falls through the body.** -/
theorem fallsIntoEpilogue_iff (hgen : genFuncDecl decl c = .ok r) :
    FallsIntoEpilogue (codeOf r.items) c.labelCount ↔ Path (.nodes decl.block) .fellThrough := by
  obtain ⟨_, c', body, hcode, hr⟩ := genFuncDecl_eq_ok hgen
  obtain ⟨hres, hepi⟩ := resolves_body hcode
  have hlabel : (c.bodyCtx decl).epilogueLabel = some c.labelCount :=
    (declareParams_extends decl.params _).epilogueLabel
  rw [FallsIntoEpilogue, hr]
  simp only
  generalize hprog : codeOf (prologueItems decl c ++ spillItems decl ++ body ++
    epilogueItems c.labelCount) = prog at hres hepi ⊢
  have hsplit : prog = codeOf (prologueItems decl c ++ spillItems decl) ++
      (codeOf body ++ codeOf (epilogueItems c.labelCount)) := by
    rw [← hprog]
    simp
  have hdead : ¬ Flows prog epilogueTail (codeOf (epilogueItems c.labelCount)) := by
    intro hflows
    have hlen := (flows_epilogueTail hflows (List.suffix_refl _)).length_le
    rw [codeOf_epilogueItems, List.length_cons] at hlen
    omega
  constructor
  · intro hflows
    have hbody : Flows prog (codeOf (prologueItems decl c ++ spillItems decl) ++
        (codeOf body ++ codeOf (epilogueItems c.labelCount)))
        (codeOf (epilogueItems c.labelCount)) := by
      rw [← hsplit]
      exact hflows
    have hbody := Flows.of_through (prologue_not_joint decl c) hbody (by simp)
    exact (hcode.path_of_flows hepi hdead hlabel _ hres (Nat.le_refl _) hbody).1
  · intro hpath
    have hbody := hcode.flows hpath _ hres
    have hstart := @flows_through prog (codeOf body ++ codeOf (epilogueItems c.labelCount)) _
      (prologue_not_joint decl c)
    rw [← hsplit] at hstart
    exact hstart.trans hbody

/-- A body that must return never comes to the label of its epilogue from above. -/
theorem steps_not_into_epilogue (hgen : genFuncDecl decl c = .ok r)
    (hret : blockMustRet decl.block = true) (W : World) (s s' : State) :
    ¬ Steps W (codeOf r.items) ⟨s, codeOf r.items⟩ ⟨s', codeOf (epilogueItems c.labelCount)⟩ := by
  intro hsteps
  have hpath := (fallsIntoEpilogue_iff hgen).mp hsteps.flows
  rw [path_fellThrough_iff, hret] at hpath
  exact absurd hpath (by decide)

end function

/-- **An accepted function returns on every path exactly when its body must return.** The check of the
parser holds of the body, which is why a branch that returns is enough for it; every path returns, and
no way through the code falls into the epilogue, exactly when `blockMustRet` holds too. -/
theorem returns_on_every_path_iff (fuel : Nat) (ts rest : List Token) (decl : FuncDecl)
    (h : parseFuncDecl fuel ts = .ok (decl, rest)) :
    blockHasRet decl.block = true ∧
      ((∀ o, Path (.nodes decl.block) o → o = .returned) ↔ blockMustRet decl.block = true) ∧
      ∀ c r, genFuncDecl decl c = .ok r →
        (¬ FallsIntoEpilogue (codeOf r.items) c.labelCount ↔ blockMustRet decl.block = true) := by
  have hfall : ¬ Path (.nodes decl.block) .fellThrough ↔ blockMustRet decl.block = true := by
    rw [path_fellThrough_iff, Bool.not_eq_false]
  refine ⟨?_, ?_, fun c r hgen => ?_⟩
  · cases parseFuncDecl_sound h with
    | func _ _ _ _ _ _ _ hret => exact hret
  · rw [← hfall]
    constructor
    · exact fun hall hpath => absurd (hall _ hpath) (by decide)
    · intro hnot o hpath
      cases o with
      | returned => rfl
      | fellThrough => exact absurd hpath hnot
  · rw [fallsIntoEpilogue_iff hgen, hfall]

/-- `fn f() { return 1; }`. -/
theorem returns_on_every_path_iff_returnOne : ∃ decl rest,
    parseFuncDecl 40 returnOneTokens = .ok (decl, rest) ∧
      ∀ o, Path (.nodes decl.block) o → o = .returned :=
  ⟨⟨ascii "f", ⟨.lit .litQword, false, 0⟩, [], [.returnStmt (.literal ⟨1, none⟩)]⟩,
    returnOneTokens.drop 9, rfl, (returns_on_every_path_iff 40 returnOneTokens _ _ rfl).2.1.mpr rfl⟩

/-- `fn f() { if (0) { return 1; } }` as tokens. -/
def returnsInBranchTokens : List Token :=
  [⟨.tFunc, ascii "fn", 2, 1, 1⟩, ⟨.tIdentifier, ascii "f", 1, 1, 4⟩, ⟨.tLeftParen, ascii "(", 1, 1, 5⟩,
    ⟨.tRightParen, ascii ")", 1, 1, 6⟩, ⟨.tLeftBrace, ascii "\x7b", 1, 1, 8⟩,
    ⟨.tIf, ascii "if", 2, 1, 10⟩, ⟨.tLeftParen, ascii "(", 1, 1, 13⟩,
    ⟨.tNumberLit, ascii "0", 1, 1, 14⟩, ⟨.tRightParen, ascii ")", 1, 1, 15⟩,
    ⟨.tLeftBrace, ascii "\x7b", 1, 1, 17⟩, ⟨.tReturn, ascii "return", 6, 1, 19⟩,
    ⟨.tNumberLit, ascii "1", 1, 1, 26⟩, ⟨.tSemicolon, ascii ";", 1, 1, 27⟩,
    ⟨.tRightBrace, ascii "\x7d", 1, 1, 29⟩, ⟨.tRightBrace, ascii "\x7d", 1, 1, 31⟩]

def returnsInBranch : FuncDecl :=
  ⟨ascii "f", ⟨.lit .litQword, false, 0⟩, [],
    [.ifStmt (.literal ⟨0, none⟩) [.returnStmt (.literal ⟨1, none⟩)] none]⟩

/-- The parser accepts the function, a path passes its `if`, and so does the machine. -/
theorem falls_returnsInBranch :
    parseFuncDecl 40 returnsInBranchTokens = .ok (returnsInBranch, []) ∧
      Path (.nodes returnsInBranch.block) .fellThrough ∧
      ∃ r, genFuncDecl returnsInBranch asmInit = .ok r ∧
        FallsIntoEpilogue (codeOf r.items) asmInit.labelCount ∧
        ∀ (W : World) (s : State), ∃ s', Steps W (codeOf r.items) ⟨s, codeOf r.items⟩
          ⟨s', codeOf (epilogueItems asmInit.labelCount)⟩ := by
  have hpath : Path (.nodes returnsInBranch.block) .fellThrough := .next .ifPassed .nil
  have hcode : StmtCode (asmInit.bodyCtx returnsInBranch) (.nodes returnsInBranch.block) _ _ _ :=
    .cons (.ifThen .literal (.block (.cons (.returnStmt .literal rfl) .nil))) .nil
  have hgen := @genFuncDecl_run returnsInBranch asmInit _ _ _ (by decide) hcode
  refine ⟨rfl, hpath, _, hgen, (fallsIntoEpilogue_iff hgen).mpr hpath, fun W s => ?_⟩
  -- past the prologue, the condition and the jump over the branch
  refine ⟨_, .head (.mark rfl) (.head (.mark rfl) (.head (.instr rfl) (.head (.instr rfl)
    (.head (.instr rfl) (.head (.instr rfl) (.head (@Step.jeTaken W _ _ _ _ _ 0 ?_ rfl) (.single (.mark rfl)))))))) ⟩
  simp [Operand.read]

end ACompiler
