import ACompiler.Assembler.Depth
import ACompiler.Correct.Prologue

/-!
# The stack pointer in a function

Wherever control is in the body of a function, the stack pointer is the bottom of the frame less
eight bytes for every word of the push depth the line was printed with (`Inside.steps`). The frame is
a multiple of sixteen and the depth is even at a call, so every call finds the stack aligned when
the function did (`stack_alignment`).
-/

namespace ACompiler

open Lib (Word Mem)

/-- Every callee gives `%rbp` and `%rsp` back. -/
def World.KeepsFrame (W : World) : Prop :=
  ∀ name s s', W.callee name s s' → s'.regs .rbp = s.regs .rbp ∧ s'.regs .rsp = s.regs .rsp

/-- The stack pointer is `d` words below the frame under `base`. -/
structure AtDepth (base : Word) (frame : Nat) (s : State) (d : Int) : Prop where
  rbp : s.regs .rbp = base
  rsp : s.regs .rsp = base - BitVec.ofNat 64 frame - BitVec.ofInt 64 (8 * d)

/-! ## Single instructions -/

theorem write_keeps_stack {sym : CString → Word} {s s' : State} {v : Word} {dest : Operand}
    (h : dest.write sym s v = some s') (hd : dest.isStack = false) :
    s'.regs .rbp = s.regs .rbp ∧ s'.regs .rsp = s.regs .rsp := by
  cases dest with
  | reg id =>
    obtain rfl := Option.some.inj h
    have hbp : RegId.rbp ≠ id := by rintro rfl; exact absurd hd (by decide)
    have hsp : RegId.rsp ≠ id := by rintro rfl; exact absurd hd (by decide)
    exact ⟨by rw [State.set_regs, if_neg hbp], by rw [State.set_regs, if_neg hsp]⟩
  | imm n => exact absurd h (by simp [Operand.write])
  | mem base disp =>
    obtain rfl := Option.some.inj h
    exact ⟨rfl, rfl⟩
  | sym name =>
    obtain rfl := Option.some.inj h
    exact ⟨rfl, rfl⟩

theorem add_eight (x : Word) : x + 8 = x - BitVec.ofInt 64 (8 * -1) := by
  have hneg : BitVec.ofInt 64 (8 * -1) = (18446744073709551608 : Word) := by decide
  rw [hneg]
  bv_omega

/-- An instruction moves the stack pointer by its shift, and leaves `%rbp` alone. -/
theorem execInstr_shift {sym : CString → Word} {s s' : State} {i : Instr} {n : Int}
    (h : execInstr sym s i = some s') (hi : i.shift = some n) :
    s'.regs .rbp = s.regs .rbp ∧ s'.regs .rsp = s.regs .rsp - BitVec.ofInt 64 (8 * n) := by
  have hzero : s.regs .rsp - BitVec.ofInt 64 (8 * 0) = s.regs .rsp := BitVec.sub_zero _
  have hplain : ∀ {dest : Operand} {s₀ : State} {v : Word}, dest.write sym s₀ v = some s' →
      s₀.regs = s.regs → (if dest.isStack then none else some 0) = some n →
        s'.regs .rbp = s.regs .rbp ∧ s'.regs .rsp = s.regs .rsp - BitVec.ofInt 64 (8 * n) := by
    intro dest s₀ v hw hregs hn
    cases hd : dest.isStack with
    | true => simp [hd] at hn
    | false =>
      obtain rfl : 0 = n := by simpa [hd] using hn
      obtain ⟨hbp, hsp⟩ := write_keeps_stack hw hd
      exact ⟨by rw [hbp, hregs], by rw [hsp, hregs, hzero]⟩
  have hsame : ∀ {s₀ : State}, s' = s₀ → s₀.regs .rbp = s.regs .rbp → s₀.regs .rsp = s.regs .rsp →
      n = 0 → s'.regs .rbp = s.regs .rbp ∧ s'.regs .rsp = s.regs .rsp - BitVec.ofInt 64 (8 * n) := by
    rintro s₀ rfl hbp hsp rfl
    exact ⟨hbp, by rw [hsp, hzero]⟩
  cases i with
  | mov src dest => exact hplain h rfl hi
  | lea src dest =>
    simp only [execInstr, Option.bind_eq_bind, Option.bind_eq_some_iff] at h
    obtain ⟨a, _, hw⟩ := h
    exact hplain hw rfl hi
  | push op =>
    obtain rfl := Option.some.inj hi
    obtain rfl := Option.some.inj h
    exact ⟨rfl, rfl⟩
  | pop op =>
    cases hd : op.isStack with
    | true => simp [Instr.shift, hd] at hi
    | false =>
      obtain rfl : -1 = n := by simpa [Instr.shift, hd] using hi
      obtain ⟨hbp, hsp⟩ := write_keeps_stack (s := s.set .rsp (s.regs .rsp + 8)) h hd
      exact ⟨hbp, hsp.trans (add_eight _)⟩
  | add src dest =>
    by_cases hpad : src = .imm 8 ∧ dest = .reg .rsp
    · obtain ⟨rfl, rfl⟩ := hpad
      obtain rfl := Option.some.inj hi
      obtain rfl := Option.some.inj h
      exact ⟨rfl, add_eight _⟩
    · simp only [Instr.shift, if_neg hpad] at hi
      exact hplain h rfl hi
  | sub src dest =>
    by_cases hpad : src = .imm 8 ∧ dest = .reg .rsp
    · obtain ⟨rfl, rfl⟩ := hpad
      obtain rfl := Option.some.inj hi
      obtain rfl := Option.some.inj h
      exact ⟨rfl, rfl⟩
    · simp only [Instr.shift, if_neg hpad] at hi
      exact hplain h rfl hi
  | imul src dest => exact hplain h rfl hi
  | idiv d =>
    simp only [execInstr, Option.bind_eq_bind, Option.bind_eq_some_iff] at h
    obtain ⟨qr, _, hs⟩ := h
    exact hsame (Option.some.inj hs).symm rfl rfl (Option.some.inj hi).symm
  | neg op => exact hplain h rfl hi
  | cmp src dest => exact hsame (Option.some.inj h).symm rfl rfl (Option.some.inj hi).symm
  | setcc cond =>
    simp only [execInstr, Option.bind_eq_bind, Option.bind_eq_some_iff] at h
    obtain ⟨ab, _, hs⟩ := h
    exact hsame (Option.some.inj hs).symm rfl rfl (Option.some.inj hi).symm
  | movzbq => exact hsame (Option.some.inj h).symm rfl rfl (Option.some.inj hi).symm
  | cqto => exact hsame (Option.some.inj h).symm rfl rfl (Option.some.inj hi).symm
  | call _ => exact absurd h (by simp [execInstr])
  | je _ => exact absurd h (by simp [execInstr])
  | jmp _ => exact absurd h (by simp [execInstr])
  | ret => exact absurd h (by simp [execInstr])

theorem AtDepth.shift {base : Word} {frame : Nat} {s s' : State} {d n : Int}
    (h : AtDepth base frame s d)
    (hs : s'.regs .rbp = s.regs .rbp ∧ s'.regs .rsp = s.regs .rsp - BitVec.ofInt 64 (8 * n)) :
    AtDepth base frame s' (d + n) := by
  refine ⟨hs.1.trans h.rbp, ?_⟩
  rw [hs.2, h.rsp, Int.mul_add, BitVec.ofInt_add]
  generalize BitVec.ofInt 64 (8 * d) = x
  generalize BitVec.ofInt 64 (8 * n) = y
  bv_omega

/-! ## Runs of a function -/

/-- The lines of the epilogue behind its label. -/
def epilogueTail : List Line :=
  [.instr (.mov (.reg .rbp) (.reg .rsp)), .instr (.pop (.reg .rbp)), .instr .ret]

theorem codeOf_epilogueItems (n : Nat) : codeOf (epilogueItems n) = .label n :: epilogueTail := rfl

/-- The prologue has no label. -/
theorem prologueItems_not_label (decl : FuncDecl) (c : AsmCtx) {item : Item}
    (h : item ∈ prologueItems decl c) (n : Nat) : item.line ≠ .label n := by
  simp only [prologueItems, List.mem_append, List.mem_cons, List.not_mem_nil, or_false] at h
  rcases h with (rfl | rfl | rfl | rfl) | h
  · simp
  · simp
  · simp
  · simp
  · split at h
    · rw [List.mem_singleton.mp h]
      simp
    · simp at h

theorem prologueItems_straight (decl : FuncDecl) (c : AsmCtx) :
    ∀ l ∈ codeOf (prologueItems decl c), l.isStraight = true := by
  intro l hl
  obtain ⟨item, hitem, rfl⟩ := List.mem_map.mp hl
  simp only [prologueItems, List.mem_append, List.mem_cons, List.not_mem_nil, or_false] at hitem
  rcases hitem with (rfl | rfl | rfl | rfl) | hitem
  · rfl
  · rfl
  · rfl
  · rfl
  · split at hitem
    · rw [List.mem_singleton.mp hitem]
      rfl
    · simp at hitem

/-- Control is in the lines `items`, at the depth they are printed with, or behind the label of the
epilogue. -/
inductive Inside (items : List Item) (n : Nat) (base : Word) (frame : Nat) : Config → Prop
  | body (pre : List Item) {rest : List Item} {s : State} {d : Int} (hitems : items = pre ++ rest)
      (hchain : Chain d rest 0) (hat : AtDepth base frame s d) :
      Inside items n base frame ⟨s, codeOf (rest ++ epilogueItems n)⟩
  | tail {k : List Line} {s : State} (hk : k <:+ epilogueTail) : Inside items n base frame ⟨s, k⟩

section function
variable {W : World} {decl : FuncDecl} {c : AsmCtx} {items : List Item} {base : Word} {frame : Nat}
  {n : Nat}

/-- The lines behind a label. -/
theorem findLabel_inside (hchain : Chain 0 items 0) {m : Nat} {k : List Line}
    (h : findLabel m (codeOf (prologueItems decl c ++ items ++ epilogueItems n)) = some k) {s : State}
    (hat : AtDepth base frame s 0) : Inside items n base frame ⟨s, k⟩ := by
  obtain ⟨pre, hpre⟩ := findLabel_eq_some h
  rw [codeOf_append, codeOf_append, List.append_assoc] at hpre
  rcases append_eq_append_cons hpre with ⟨_, hpro, -⟩ | ⟨pre', rfl, hpre'⟩
  · obtain ⟨_, item, _, hitems, hline, _⟩ := codeOf_eq_append_cons hpro
    exact absurd hline (prologueItems_not_label decl c (by rw [hitems]; simp) m)
  · rcases append_eq_append_cons hpre' with ⟨post, hbody, rfl⟩ | ⟨pre'', rfl, hepi⟩
    · obtain ⟨before, item, behind, rfl, hline, rfl⟩ := codeOf_eq_append_cons hbody
      obtain ⟨d, hrest⟩ := hchain.suffix
      cases hrest with
      | cons hd hshift hbal hbehind =>
        have hzero : item.depth = 0 := hbal.joint (by rw [hline]; rfl)
        rw [hline] at hshift
        obtain rfl := Option.some.inj hshift
        rw [← hd, hzero] at hbehind
        rw [← codeOf_append]
        exact .body (before ++ [item]) (by simp) hbehind hat
    · rw [codeOf_epilogueItems] at hepi
      refine .tail ?_
      cases pre'' with
      | nil =>
        obtain ⟨_, rfl⟩ := List.cons.inj hepi
        exact List.suffix_refl _
      | cons l pre'' =>
        obtain ⟨_, htail⟩ := List.cons.inj hepi
        exact ⟨pre'' ++ [.label m], by rw [htail]; simp⟩

theorem Inside.step (hW : W.KeepsFrame) (hchain : Chain 0 items 0) {cfg cfg' : Config}
    (h : Inside items n base frame cfg)
    (hstep : Step W (codeOf (prologueItems decl c ++ items ++ epilogueItems n)) cfg cfg') :
    Inside items n base frame cfg' := by
  cases h with
  | @body pre rest s d hitems hrest hat =>
    cases rest with
    | nil =>
      rw [List.nil_append, codeOf_epilogueItems] at hstep
      cases hstep with
      | mark _ => exact .tail (List.suffix_refl _)
    | cons item rest =>
      cases hrest with
      | @cons _ _ m _ _ hd hshift hbal hrest =>
        have hitems' : items = (pre ++ [item]) ++ rest := by rw [hitems]; simp
        obtain ⟨indent, depth, line⟩ := item
        simp only at hd hshift hbal
        subst hd
        rw [List.cons_append, codeOf_cons] at hstep
        cases hstep with
        | mark hm =>
          cases line with
          | instr i => exact absurd hm (by simp [Line.isMark])
          | _ =>
            obtain rfl := Option.some.inj hshift
            rw [Int.add_zero] at hrest
            exact .body _ hitems' hrest hat
        | instr hi => exact .body _ hitems' hrest (hat.shift (execInstr_shift hi hshift))
        | call hcall =>
          obtain rfl := Option.some.inj hshift
          obtain ⟨hbp, hsp⟩ := hW _ _ _ hcall
          rw [Int.add_zero] at hrest
          exact .body _ hitems' hrest ⟨hbp.trans hat.rbp, hsp.trans hat.rsp⟩
        | jmp hk =>
          obtain rfl : depth = 0 := hbal.joint rfl
          exact findLabel_inside hchain hk hat
        | jeTaken _ hk =>
          obtain rfl : depth = 0 := hbal.joint rfl
          exact findLabel_inside hchain hk hat
        | jePassed _ _ =>
          obtain rfl := Option.some.inj hshift
          rw [Int.add_zero] at hrest
          exact .body _ hitems' hrest hat
  | tail hk =>
    have hjump : ∀ l ∈ epilogueTail, ∀ m, l ≠ .instr (.je m) ∧ l ≠ .instr (.jmp m) := by
      intro l hl m
      simp only [epilogueTail, List.mem_cons, List.not_mem_nil, or_false] at hl
      rcases hl with rfl | rfl | rfl <;> simp
    cases hstep with
    | mark _ => exact .tail ((List.suffix_cons _ _).trans hk)
    | instr _ => exact .tail ((List.suffix_cons _ _).trans hk)
    | call _ => exact .tail ((List.suffix_cons _ _).trans hk)
    | jmp _ => exact absurd rfl (hjump _ (hk.subset List.mem_cons_self) _).2
    | jeTaken _ _ => exact absurd rfl (hjump _ (hk.subset List.mem_cons_self) _).1
    | jePassed _ _ => exact absurd rfl (hjump _ (hk.subset List.mem_cons_self) _).1

theorem Inside.steps (hW : W.KeepsFrame) (hchain : Chain 0 items 0) {cfg cfg' : Config}
    (h : Inside items n base frame cfg)
    (hsteps : Steps W (codeOf (prologueItems decl c ++ items ++ epilogueItems n)) cfg cfg') :
    Inside items n base frame cfg' := by
  induction hsteps with
  | refl => exact h
  | tail _ hstep ih => exact ih.step hW hchain hstep

/-- Inside, the depth is that of the next line. -/
theorem Inside.atDepth {s : State} {pre rest : List Item} {item : Item}
    (hitems : items = pre ++ item :: rest)
    (h : Inside items n base frame ⟨s, codeOf (item :: rest ++ epilogueItems n)⟩) :
    AtDepth base frame s item.depth := by
  generalize hk : codeOf (item :: rest ++ epilogueItems n) = k at h
  have hlen := congrArg List.length hk
  simp only [codeOf, List.length_map, List.length_append, List.length_cons, epilogueItems,
    List.length_nil] at hlen
  cases h with
  | @body pre' rest' _ d hitems' hchain hat =>
    -- both are the part of the lines that has that length
    simp only [codeOf, List.length_map, List.length_append, epilogueItems, List.length_cons,
      List.length_nil] at hlen
    have hrest : item :: rest = rest' := by
      refine List.append_inj_right' (hitems.symm.trans hitems') ?_
      rw [List.length_cons]
      omega
    subst hrest
    cases hchain with
    | cons hd _ _ _ =>
      rw [hd]
      exact hat
  | tail hsuffix =>
    have hle := hsuffix.length_le
    simp only [epilogueTail, List.length_cons, List.length_nil] at hle
    omega

/-- Behind the lines before the spills control is inside, at depth zero. -/
theorem inside_of_steps (hchain : Chain 0 items 0) {s t : State} {k : List Line}
    (h : Steps W (codeOf (prologueItems decl c ++ items ++ epilogueItems n))
      ⟨s, codeOf (prologueItems decl c ++ items ++ epilogueItems n)⟩ ⟨t, k⟩)
    (hk : k.length ≤ (codeOf (items ++ epilogueItems n)).length) (hW : W.KeepsFrame) :
    Inside items n (s.regs .rsp - 8) (computeFrameSize decl) ⟨t, k⟩ := by
  have hcode : codeOf (prologueItems decl c ++ items ++ epilogueItems n) =
      codeOf (prologueItems decl c) ++ codeOf (items ++ epilogueItems n) := by
    rw [List.append_assoc, codeOf_append]
  have hsteps : Steps W (codeOf (prologueItems decl c ++ items ++ epilogueItems n))
      ⟨s, codeOf (prologueItems decl c) ++ codeOf (items ++ epilogueItems n)⟩ ⟨t, k⟩ := by
    rw [← hcode]
    exact h
  obtain ⟨s₁, hrun, hrest⟩ := steps_straight (prologueItems_straight decl c) hsteps hk
  obtain rfl := Option.some.inj ((execLines_prologueItems W.sym decl c s).symm.trans hrun)
  obtain ⟨hbp, hsp, _, _⟩ := framed_regs s (computeFrameSize decl)
  have hstart : Inside items n (s.regs .rsp - 8) (computeFrameSize decl)
      ⟨s.framed (computeFrameSize decl), codeOf (items ++ epilogueItems n)⟩ :=
    .body [] rfl hchain ⟨hbp, hsp.trans (BitVec.sub_zero _).symm⟩
  exact hstart.steps hW hchain hrest

end function

/-- An even depth under a frame of a multiple of sixteen bytes. -/
theorem AtDepth.aligned {rsp : Word} {frame : Nat} {s : State} {d : Int}
    (h : AtDepth (rsp - 8) frame s d) (hrsp : rsp.toNat % 16 = 8) (hframe : frame % 16 = 0)
    (hd : d % 2 = 0) : (s.regs .rsp).toNat % 16 = 0 := by
  have hsp := h.rsp
  have hdepth : (BitVec.ofInt 64 (8 * d)).toNat % 16 = 0 := by
    rw [BitVec.toNat_ofInt]
    omega
  have hbytes : (BitVec.ofNat 64 frame).toNat % 16 = 0 := by
    rw [BitVec.toNat_ofNat]
    omega
  generalize BitVec.ofInt 64 (8 * d) = x at *
  generalize BitVec.ofNat 64 frame = y at *
  rw [hsp]
  bv_omega

/-- **The push depth tracks the stack.** In a compiled function whose callees keep `%rbp` and `%rsp`,
the depth is zero at every statement boundary and never negative; wherever control is in the body,
the stack pointer is the bottom of the frame less eight bytes for every word of the depth the next
line was printed with; and if the stack was aligned when the function was called, it is aligned at
every call the function makes. -/
theorem stack_alignment {decl : FuncDecl} {c : AsmCtx} {r : Lib.Emitted AsmCtx Item Unit}
    (hgen : genFuncDecl decl c = .ok r) :
    ∃ body, r.items = prologueItems decl c ++ (spillItems decl ++ body) ++ epilogueItems c.labelCount ∧
      (∀ m ∈ r.marks, m.pushDepth = 0) ∧ (∀ item ∈ body, 0 ≤ item.depth) ∧
      ∀ W : World, W.KeepsFrame → ∀ (pre post : List Item) (item : Item),
        spillItems decl ++ body = pre ++ item :: post → ∀ s t : State,
          Steps W (codeOf r.items) ⟨s, codeOf r.items⟩
            ⟨t, codeOf (item :: post ++ epilogueItems c.labelCount)⟩ →
            t.regs .rbp - BitVec.ofNat 64 (computeFrameSize decl) - t.regs .rsp =
                BitVec.ofInt 64 (8 * item.depth) ∧
              ((s.regs .rsp).toNat % 16 = 8 → ∀ f, item.line = .instr (.call f) →
                (t.regs .rsp).toNat % 16 = 0) := by
  obtain ⟨_, c', body, hcode, hr⟩ := genFuncDecl_eq_ok hgen
  have hdepth := bodyCtx_pushDepth decl c
  have hbody := hcode.chain hdepth
  have hchain : Chain 0 (spillItems decl ++ body) 0 :=
    (chain_paramItems decl.params argRegs rfl).append hbody
  have hitems : r.items =
      prologueItems decl c ++ (spillItems decl ++ body) ++ epilogueItems c.labelCount := by
    rw [hr]
    simp
  refine ⟨body, hitems, ?_, fun item hitem => (hbody.balanced item hitem).nonneg, ?_⟩
  · intro m hm
    rw [hcode.marks_pushDepth m hm, hdepth]
  · intro W hW pre post item hsplit s t hsteps
    rw [hitems] at hsteps
    have hinside := inside_of_steps hchain hsteps (by rw [hsplit]; simp) hW
    have hat := hinside.atDepth hsplit
    refine ⟨?_, fun hrsp f hf => ?_⟩
    · rw [hat.rbp, hat.rsp]
      generalize BitVec.ofInt 64 (8 * item.depth) = x
      bv_omega
    · have hbal := hchain.balanced item (by rw [hsplit]; simp)
      exact hat.aligned hrsp (computeFrameSize_bounds decl).2 (hbal.call f hf)

/-- `fn f() { return 1 + call g(); }`, whose call is padded. -/
def paddedCall : FuncDecl :=
  ⟨ascii "f", ⟨.lit .litQword, false, 0⟩, [],
    [.returnStmt (.binary .bAdd (.literal ⟨1, none⟩) (.call (ascii "g") []))]⟩

theorem stack_alignment_paddedCall :
    ∃ r, genFuncDecl paddedCall asmInit = .ok r ∧
      (r.items.drop 5).map Item.depth = [0, 1, 2, 2, 1, 1, 0, 0, 0, 0, 0, 0] ∧
      ∀ m ∈ r.marks, m.pushDepth = 0 := by
  have hcall : ExprCode ((asmInit.bodyCtx paddedCall).withDepth 1) (.expr (.call (ascii "g") [])) _ :=
    .callPad (by decide) (by decide) .argsNil
  have hcode : StmtCode (asmInit.bodyCtx paddedCall) (.nodes paddedCall.block) _ _ _ :=
    .cons (.returnStmt (.binary .literal hcall) rfl) .nil
  have hgen := @genFuncDecl_run paddedCall asmInit _ _ _ (by decide) hcode
  refine ⟨_, hgen, rfl, ?_⟩
  obtain ⟨_, _, hmarks, _⟩ := stack_alignment hgen
  exact hmarks

end ACompiler
