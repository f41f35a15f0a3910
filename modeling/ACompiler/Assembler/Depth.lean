import ACompiler.Assembler.Shape

/-!
# The push depth in the code

The push depth with which a line is printed is the depth of the line before it, moved by what that
line does to the stack (`Chain`). It never falls below zero, it is even at every call, and it is zero
at labels, at jumps and at statement boundaries.
-/

namespace ACompiler

/-- The operand is `%rsp` or `%rbp`. -/
def Operand.isStack : Operand → Bool
  | .reg .rsp | .reg .rbp => true
  | _ => false

/-- How many words an instruction puts on the stack; `none` where it moves `%rsp` or `%rbp` in
another way. -/
def Instr.shift : Instr → Option Int
  | .push _ => some 1
  | .pop dest => if dest.isStack then none else some (-1)
  | .sub src dest =>
    if src = .imm 8 ∧ dest = .reg .rsp then some 1 else if dest.isStack then none else some 0
  | .add src dest =>
    if src = .imm 8 ∧ dest = .reg .rsp then some (-1) else if dest.isStack then none else some 0
  | .mov _ dest | .lea _ dest | .imul _ dest | .neg dest => if dest.isStack then none else some 0
  | .idiv _ | .cmp _ _ | .setcc _ | .movzbq | .cqto | .call _ | .je _ | .jmp _ => some 0
  | .ret => none

def Line.shift : Line → Option Int
  | .instr i => i.shift
  | _ => some 0

/-- A label, or a jump. -/
def Line.isJoint : Line → Bool
  | .label _ | .instr (.je _) | .instr (.jmp _) => true
  | _ => false

/-- What holds of the depth of each line. -/
structure Item.Balanced (item : Item) : Prop where
  nonneg : 0 ≤ item.depth
  call : ∀ f, item.line = .instr (.call f) → item.depth % 2 = 0
  joint : item.line.isJoint = true → item.depth = 0

/-- Lines printed one after the other take the depth from `d` to `d'`. -/
inductive Chain : Int → List Item → Int → Prop
  | nil {d : Int} : Chain d [] d
  | cons {d d' n : Int} {item : Item} {items : List Item} (hd : item.depth = d)
      (hshift : item.line.shift = some n) (hbal : item.Balanced) (h : Chain (d + n) items d') :
      Chain d (item :: items) d'

theorem Chain.append {d d' d'' : Int} {items items' : List Item} (h : Chain d items d')
    (h' : Chain d' items' d'') : Chain d (items ++ items') d'' := by
  induction h with
  | nil => exact h'
  | cons hd hshift hbal _ ih => exact .cons hd hshift hbal (ih h')

theorem Chain.balanced {d d' : Int} {items : List Item} (h : Chain d items d') :
    ∀ item ∈ items, item.Balanced := by
  induction h with
  | nil => simp
  | cons _ _ hbal _ ih =>
    intro item hitem
    rcases List.mem_cons.mp hitem with rfl | hitem
    · exact hbal
    · exact ih item hitem

/-- Behind any of its lines a chain goes on from the depth of the next one. -/
theorem Chain.suffix {items' : List Item} : ∀ {items : List Item} {d d' : Int},
    Chain d (items ++ items') d' → ∃ d₁, Chain d₁ items' d' := by
  intro items
  induction items with
  | nil => intro d d' h; exact ⟨d, h⟩
  | cons item items ih =>
    intro d d' h
    cases h with
    | cons _ _ _ h => exact ih h

/-- An instruction that neither moves the stack nor leaves its place. -/
def Instr.isPlain : Instr → Bool
  | .call _ | .je _ | .jmp _ => false
  | i => i.shift = some 0

theorem isPlain_spec {i : Instr} (h : i.isPlain = true) :
    i.shift = some 0 ∧ (∀ f, i ≠ .call f) ∧ (Line.instr i).isJoint = false := by
  unfold Instr.isPlain at h
  split at h
  · exact absurd h (by decide)
  · exact absurd h (by decide)
  · exact absurd h (by decide)
  · rename_i hcall hje hjmp
    refine ⟨by simpa using h, hcall, ?_⟩
    unfold Line.isJoint
    split
    · rename_i hl
      exact absurd hl (by simp)
    · rename_i n hl
      exact absurd (Line.instr.inj hl) (hje n)
    · rename_i n hl
      exact absurd (Line.instr.inj hl) (hjmp n)
    · rfl

/-- A single instruction of an expression. -/
theorem chain_instr (c : AsmCtx) {i : Instr} {n : Int} (hc : 0 ≤ c.pushDepth)
    (hi : i.shift = some n) (hcall : ∀ f, i = .call f → c.pushDepth % 2 = 0)
    (hjoint : (Line.instr i).isJoint = false) :
    Chain c.pushDepth [c.item i] (c.pushDepth + n) := by
  refine .cons rfl hi ⟨hc, ?_, ?_⟩ .nil
  · intro f hf
    exact hcall f (Line.instr.inj hf)
  · intro h
    have h : (Line.instr i).isJoint = true := h
    rw [hjoint] at h
    exact absurd h (by decide)

theorem chain_itemsOf (c : AsmCtx) (hc : 0 ≤ c.pushDepth) (is : List Instr)
    (his : ∀ i ∈ is, i.isPlain = true) :
    Chain c.pushDepth (c.itemsOf is) c.pushDepth := by
  induction is with
  | nil => exact .nil
  | cons i is ih =>
    obtain ⟨hshift, hcall, hjoint⟩ := isPlain_spec (his i List.mem_cons_self)
    have hhead := chain_instr c hc hshift (fun f hf => absurd hf (hcall f)) hjoint
    rw [Int.add_zero] at hhead
    exact hhead.append (ih fun i hi => his i (List.mem_cons_of_mem _ hi))

/-- The pops of a call take its arguments off again. -/
theorem chain_popItems (ids : List RegId) (hids : ∀ id ∈ ids, (Operand.reg id).isStack = false) :
    ∀ c : AsmCtx, (ids.length : Int) ≤ c.pushDepth →
      Chain c.pushDepth (c.popItems ids) (c.pushDepth - ids.length) := by
  induction ids with
  | nil =>
    intro c _
    rw [List.length_nil, Int.natCast_zero, Int.sub_zero]
    exact .nil
  | cons id ids ih =>
    intro c hc
    rw [List.length_cons] at hc ⊢
    have hshift : (Instr.pop (.reg id)).shift = some (-1) := by
      simp [Instr.shift, hids id List.mem_cons_self]
    have hhead := chain_instr c (by omega) hshift (by simp) rfl
    have htail := ih (fun id hid => hids id (List.mem_cons_of_mem _ hid))
      (c.withDepth (c.pushDepth - 1)) (by rw [withDepth_pushDepth]; omega)
    have hend : c.pushDepth - 1 - (ids.length : Int) = c.pushDepth - ((ids.length + 1 : Nat) : Int) := by
      omega
    rw [withDepth_pushDepth, hend] at htail
    exact hhead.append htail

theorem argRegs_not_stack (n : Nat) :
    ∀ id ∈ (argRegs.take n).reverse, (Operand.reg id).isStack = false := by
  intro id hid
  have hregs : ∀ id ∈ argRegs, (Operand.reg id).isStack = false := by decide
  exact hregs id (List.mem_of_mem_take (List.mem_reverse.mp hid))

theorem unaryInstrs_plain {op : UnaryOp} {is : List Instr} (h : unaryInstrs op = some is) :
    ∀ i ∈ is, i.isPlain = true := by
  cases op <;> simp [unaryInstrs] at h <;> subst h <;> decide

theorem binaryInstrs_plain (op : BinaryOp) : ∀ i ∈ binaryInstrs op, i.isPlain = true := by
  cases op <;> decide

theorem readInstr_plain (v : Symbol) (name : CString) : (readInstr v name).isPlain = true := by
  unfold readInstr
  split <;> rfl

theorem writeInstr_plain (v : Symbol) (name : CString) : (writeInstr v name).isPlain = true := by
  unfold writeInstr
  split <;> rfl

theorem addrInstr_plain (v : Symbol) : (addrInstr v).isPlain = true := by
  unfold addrInstr
  split <;> rfl

theorem chain_plain (c : AsmCtx) (hc : 0 ≤ c.pushDepth) {i : Instr} (hi : i.isPlain = true) :
    Chain c.pushDepth [c.item i] c.pushDepth :=
  chain_itemsOf c hc [i] (by simpa using hi)

/-- The code behind a push, from the depth in front of it. -/
theorem chain_push {c : AsmCtx} {items : List Item} {d : Int} (hc : 0 ≤ c.pushDepth)
    (h : Chain (c.pushDepth + 1) items d) :
    Chain c.pushDepth (c.item (.push (.reg .rax)) :: items) d :=
  (chain_instr c hc (i := .push (.reg .rax)) rfl (by simp) rfl).append h

/-- The pops of a call and the call. -/
theorem chain_popCall (c : AsmCtx) (callee : CString) {args : List Expr} (hn : args.length ≤ 6)
    (hc : 0 ≤ c.pushDepth) (heven : c.pushDepth % 2 = 0) :
    Chain (c.pushDepth + args.length) ((c.withDepth (c.pushDepth + args.length)).popItems
      (argRegs.take args.length).reverse ++ [c.item (.call callee)]) c.pushDepth := by
  have hlen : (argRegs.take args.length).reverse.length = args.length := by
    simp only [List.length_reverse, List.length_take, argRegs, List.length_cons, List.length_nil]
    omega
  have hpops := chain_popItems _ (argRegs_not_stack args.length)
    (c.withDepth (c.pushDepth + args.length)) (by rw [withDepth_pushDepth, hlen]; omega)
  rw [withDepth_pushDepth, hlen, Int.add_sub_cancel] at hpops
  have hcall := chain_instr c hc (i := .call callee) (n := 0) rfl (fun _ _ => heven) rfl
  rw [Int.add_zero] at hcall
  exact hpops.append hcall

/-- **The code of an expression moves the depth by what it leaves on the stack.** -/
theorem ExprCode.chain {c : AsmCtx} {p : Phrase} {items : List Item} (h : ExprCode c p items) :
    0 ≤ c.pushDepth → Chain c.pushDepth items (c.pushDepth + p.pushes) := by
  induction h with
  | literal => exact fun hc => by simpa [Phrase.pushes] using chain_plain _ hc rfl
  | identifier hs =>
    exact fun hc => by simpa [Phrase.pushes] using chain_plain _ hc (readInstr_plain _ _)
  | addr hs => exact fun hc => by simpa [Phrase.pushes] using chain_plain _ hc (addrInstr_plain _)
  | unary hop _ ih =>
    intro hc
    have htail := chain_itemsOf _ hc _ (unaryInstrs_plain hop)
    have hoperand := ih hc
    simp only [Phrase.pushes, Int.natCast_zero, Int.add_zero] at *
    exact hoperand.append htail
  | @binary c op left right items items' hl hr ihl ihr =>
    intro hc
    have hpop := chain_instr (c.withDepth (c.pushDepth + 1)) (by rw [withDepth_pushDepth]; omega)
      (i := .pop (.reg .rax)) rfl (by simp) rfl
    have hmov := chain_plain (c.withDepth (c.pushDepth + 1)) (by rw [withDepth_pushDepth]; omega)
      (i := .mov (.reg .rax) (.reg .rcx)) rfl
    have hend : c.pushDepth + 1 + -1 = c.pushDepth := by omega
    rw [withDepth_pushDepth, hend] at hpop
    have hright := ihr (by rw [withDepth_pushDepth]; omega)
    have hleft := ihl hc
    simp only [Phrase.pushes, withDepth_pushDepth, Int.natCast_zero, Int.add_zero] at *
    exact ((hleft.append (chain_push hc hright)).append (hmov.append hpop)).append
      (chain_itemsOf _ hc _ (binaryInstrs_plain op))
  | call hn heven ha ih =>
    intro hc
    have hargs := ih hc
    simp only [Phrase.pushes, Int.natCast_zero, Int.add_zero] at *
    rw [List.append_assoc]
    exact hargs.append (chain_popCall _ _ hn hc heven)
  | @callPad c callee args items hn hodd ha ih =>
    intro hc
    have hdepth : 0 ≤ (c.withDepth (c.pushDepth + 1)).pushDepth := by
      rw [withDepth_pushDepth]
      omega
    have hsub := chain_instr c hc (i := .sub (.imm 8) (.reg .rsp)) rfl (by simp) rfl
    have hargs := ih hdepth
    have hcall := chain_popCall (c.withDepth (c.pushDepth + 1)) callee hn hdepth
      (by rw [withDepth_pushDepth]; omega)
    have hadd := chain_instr (c.withDepth (c.pushDepth + 1)) hdepth
      (i := .add (.imm 8) (.reg .rsp)) rfl (by simp) rfl
    have hend : c.pushDepth + 1 + -1 = c.pushDepth := by omega
    rw [withDepth_pushDepth, hend] at hadd
    simp only [Phrase.pushes, withDepth_pushDepth, withDepth_withDepth, Int.natCast_zero,
      Int.add_zero] at *
    have h := hsub.append ((hargs.append hcall).append hadd)
    simpa [AsmCtx.itemsOf] using h
  | @assign c name val v items hv hs ih =>
    intro hc
    have htail := chain_plain c hc (writeInstr_plain v name)
    have hval := ih hc
    simp only [Phrase.pushes, Int.natCast_zero, Int.add_zero] at *
    exact hval.append htail
  | cast hi ih => exact ih
  | argsNil => exact fun _ => by simpa [Phrase.pushes] using Chain.nil
  | @argsCons c arg args items items' ha hs iha ihs =>
    intro hc
    have harg := iha hc
    have hargs := ihs (by rw [withDepth_pushDepth]; omega)
    have hend : c.pushDepth + 1 + (args.length : Int) =
        c.pushDepth + ((arg :: args).length : Nat) := by
      rw [List.length_cons]
      omega
    simp only [Phrase.pushes, withDepth_pushDepth, Int.natCast_zero, Int.add_zero] at *
    rw [hend] at hargs
    exact harg.append (chain_push hc hargs)

/-! ## Statements -/

/-- A jump, or a label, at depth zero. -/
theorem chain_joint (item : Item) (hd : item.depth = 0) (hjoint : item.line.isJoint = true) :
    Chain 0 [item] 0 := by
  have hspec : item.line.shift = some 0 ∧ ∀ f, item.line ≠ .instr (.call f) := by
    unfold Line.isJoint at hjoint
    split at hjoint
    · simp [Line.shift, *]
    · simp [Line.shift, Instr.shift, *]
    · simp [Line.shift, Instr.shift, *]
    · exact absurd hjoint (by decide)
  exact .cons hd hspec.1 ⟨by omega, fun f hf => absurd hf (hspec.2 f), fun _ => hd⟩ .nil

/-- The test of an `if`. -/
theorem chain_test (c : AsmCtx) (hc : c.pushDepth = 0) (n : Nat) :
    Chain 0 (c.itemsOf [.cmp (.imm 0) (.reg .rax), .je n]) 0 := by
  have hcmp := chain_plain c (by omega) (i := .cmp (.imm 0) (.reg .rax)) rfl
  rw [hc] at hcmp
  exact hcmp.append (chain_joint (c.item (.je n)) hc rfl)

theorem StmtCode.marks_pushDepth {c c' : AsmCtx} {p : StmtPhrase} {items : List Item}
    {marks : List AsmCtx} (h : StmtCode c p c' items marks) :
    ∀ m ∈ marks, m.pushDepth = c.pushDepth := by
  induction h with
  | ifThen _ _ ih => exact ih
  | ifElse _ hb _ ih ih' =>
    intro m hm
    rcases List.mem_append.mp hm with hm | hm
    · exact ih m hm
    · exact (ih' m hm).trans hb.extends.pushDepth
  | block _ ih => exact ih
  | nil => simp
  | cons hs _ ih ih' =>
    intro m hm
    rw [List.cons_append, List.mem_cons, List.mem_append] at hm
    rcases hm with rfl | hm | hm
    · rfl
    · exact ih m hm
    · exact (ih' m hm).trans hs.extends.pushDepth
  | _ => simp

/-- **The code of a statement starts and ends at depth zero.** -/
theorem StmtCode.chain {c c' : AsmCtx} {p : StmtPhrase} {items : List Item}
    {marks : List AsmCtx} (h : StmtCode c p c' items marks) :
    c.pushDepth = 0 → Chain 0 items 0 := by
  have hexpr : ∀ {c : AsmCtx} {e : Expr} {items : List Item}, ExprCode c (.expr e) items →
      c.pushDepth = 0 → Chain 0 items 0 := by
    intro c e items he hc
    have h := he.chain (by omega)
    rwa [hc, Phrase.pushes, Int.natCast_zero, Int.add_zero] at h
  induction h with
  | comment => exact fun _ => .nil
  | expr he => exact hexpr he
  | returnStmt he hn => exact fun hc => (hexpr he hc).append (chain_joint _ hc rfl)
  | uninit _ => exact fun _ => .nil
  | @init c name type e items hstk he =>
    intro hc
    have hdecl : (c.declare name type).pushDepth = 0 :=
      (AsmCtx.extends_declare c name type).pushDepth.trans hc
    have hstore := chain_plain c (by omega) (i := .mov (.reg .rax) (.mem .rbp (c.curOffset - 8))) rfl
    rw [hc] at hstore
    exact (hexpr he hdecl).append hstore
  | @ifThen c _ _ _ _ _ _ hc _ ih =>
    intro hd
    have hhead := ((hexpr hc hd).append (chain_test c hd c.labelCount)).append (ih hd)
    have hjmp := chain_joint (c.item (.jmp (c.labelCount + 1))) hd rfl
    have helse := chain_joint ⟨0, c.pushDepth, .label c.labelCount⟩ hd rfl
    have hend := chain_joint ⟨0, c.pushDepth, .label (c.labelCount + 1)⟩ hd rfl
    exact hhead.append (hjmp.append (helse.append hend))
  | @ifElse c _ _ _ _ _ _ _ _ _ _ hc hb _ ih ih' =>
    intro hd
    have hhead := ((hexpr hc hd).append (chain_test c hd c.labelCount)).append (ih hd)
    have hjmp := chain_joint (c.item (.jmp (c.labelCount + 1))) hd rfl
    have helse := chain_joint ⟨0, c.pushDepth, .label c.labelCount⟩ hd rfl
    have hend := chain_joint ⟨0, c.pushDepth, .label (c.labelCount + 1)⟩ hd rfl
    have hbranch := ih' (hb.extends.pushDepth.trans hd)
    exact ((hhead.append (hjmp.append helse)).append hbranch).append hend
  | block _ ih => exact ih
  | nil => exact fun _ => .nil
  | cons hs _ ih ih' => exact fun hc => (ih hc).append (ih' (hs.extends.pushDepth.trans hc))

/-! ## Functions -/

theorem chain_paramItems (params : List FuncParam) : ∀ (ids : List RegId) {c : AsmCtx},
    c.pushDepth = 0 → Chain 0 (c.paramItems ids params) 0 := by
  induction params with
  | nil => intro ids c _; cases ids <;> exact .nil
  | cons p params ih =>
    intro ids c hc
    cases ids with
    | nil => exact .nil
    | cons id ids =>
      have hhead := chain_plain c (by omega) (i := .mov (.reg id) (.mem .rbp (c.curOffset - 8))) rfl
      rw [hc] at hhead
      exact hhead.append (ih ids ((AsmCtx.extends_declare c p.ident p.type).pushDepth.trans hc))

theorem bodyCtx_pushDepth (decl : FuncDecl) (c : AsmCtx) : (c.bodyCtx decl).pushDepth = 0 :=
  (declareParams_extends decl.params _).pushDepth

end ACompiler
