import ACompiler.Correct.Stores

/-!
# Declared widths

Every local is stored and loaded as 64 bits whatever its type, and a cast has no code of its own. So
what is read back is exactly what was stored, and it depends on the low bits alone only as far as the
stored values themselves do (`declared_widths`).
-/

namespace ACompiler

open Lib (Word Mem Emitted)
open Lib.Mem (load64 store64 InCell Apart)

/-- The words agree in their low bits. -/
def Congruent (bits : Nat) (v v' : Word) : Prop := v.toNat % 2 ^ bits = v'.toNat % 2 ^ bits

instance (bits : Nat) (v v' : Word) : Decidable (Congruent bits v v') :=
  inferInstanceAs (Decidable (_ = _))

/-- The line `store_local` prints, behind the code of a value. -/
def storeLine (x : Symbol) : Line := .instr (.mov (.reg .rax) (.mem .rbp x.stackOffset))

/-- The line `load_local` prints. -/
def loadLine (x : Symbol) : Line := .instr (.mov (.mem .rbp x.stackOffset) (.reg .rax))

/-- In a run of the code from `s`, the value `v` is stored in a local by a `let` or an assignment, and
`res` is read from it with no store in between. -/
structure ReadBack (W : World) (code : List Line) (s : State) (x : Symbol) (v res : Word) : Prop where
  run : ∃ s₁ s₂ s₃ s₄ k k', Steps W code ⟨s, code⟩ ⟨s₁, storeLine x :: k⟩ ∧
    Step W code ⟨s₁, storeLine x :: k⟩ ⟨s₂, k⟩ ∧
    Unstored W code x.stackOffset ⟨s₂, k⟩ ⟨s₃, loadLine x :: k'⟩ ∧
    Step W code ⟨s₃, loadLine x :: k'⟩ ⟨s₄, k'⟩ ∧ s₁.regs .rax = v ∧ s₄.regs .rax = res

/-! ## Where control is -/

/-- Control only ever comes to parts of the program. -/
theorem Steps.suffix {W : World} {prog : List Line} {cfg cfg' : Config}
    (h : Steps W prog cfg cfg') (hcfg : cfg.code <:+ prog) : cfg'.code <:+ prog := by
  induction h with
  | refl => exact hcfg
  | tail _ hstep ih =>
    have hlabel : ∀ {n : Nat} {k : List Line}, findLabel n prog = some k → k <:+ prog := by
      intro n k hk
      obtain ⟨pre, rfl⟩ := findLabel_eq_some hk
      exact ⟨pre ++ [.label n], by simp⟩
    cases hstep with
    | mark _ => exact (List.suffix_cons _ _).trans ih
    | instr _ => exact (List.suffix_cons _ _).trans ih
    | call _ => exact (List.suffix_cons _ _).trans ih
    | jmp hk => exact hlabel hk
    | jeTaken _ hk => exact hlabel hk
    | jePassed _ _ => exact (List.suffix_cons _ _).trans ih

/-- No line of the prologue is a store in a slot. -/
theorem storeLine_not_mem_prologue (decl : FuncDecl) (c : AsmCtx) (x : Symbol) :
    storeLine x ∉ codeOf (prologueItems decl c) := by
  unfold prologueItems storeLine
  split <;> simp

theorem FrameSafe.of_append {sym : CString → Word} {frame : Nat} {items items' items'' : List Item}
    {rsp : Word} (h : FrameSafe sym frame (items ++ items' ++ items'') rsp) :
    FrameSafe sym frame items' rsp :=
  ⟨fun item hitem => h.room item (by simp [hitem]),
    fun name hmem => h.globals name (by simp [hmem])⟩

/-- In the body `%rbp` is the base of the frame. -/
theorem Inside.rbp {items : List Item} {n : Nat} {base : Word} {frame : Nat} {s : State} {i : Instr}
    {k : List Line} (h : Inside items n base frame ⟨s, .instr i :: k⟩)
    (hi : Line.instr i ∉ epilogueTail) : s.regs .rbp = base := by
  generalize hcfg : (⟨s, .instr i :: k⟩ : Config) = cfg at h
  cases h with
  | @body pre rest s₁ d hitems hchain hat =>
    obtain ⟨rfl, _⟩ := Config.mk.inj hcfg
    exact hat.rbp
  | tail hk =>
    obtain ⟨rfl, rfl⟩ := Config.mk.inj hcfg
    exact absurd (hk.subset List.mem_cons_self) hi

section function
variable {W : World} {decl : FuncDecl} {c : AsmCtx} {r : Emitted AsmCtx Item Unit} {s : State}
  {x : Symbol} {v res : Word}

/-- **What is read back is what was stored.** -/
theorem ReadBack.eq (hW : W.Preserves) (hc : c.GlobalsOnly) (hgen : genFuncDecl decl c = .ok r)
    (hsafe : FrameSafe W.sym (computeFrameSize decl) r.items (s.regs .rsp)) {m : AsmCtx}
    (hm : m ∈ r.marks) (hx : x ∈ m.locals) (h : ReadBack W (codeOf r.items) s x v res) :
    res = v := by
  obtain ⟨s₁, s₂, s₃, s₄, k, k', hto, hstore, hrun, hload, rfl, rfl⟩ := h.run
  obtain ⟨hslots, hframe⟩ := genFuncDecl_slots hc hgen m hm
  have hbounds := hslots.bounds x hx
  have hoff : -(computeFrameSize decl : Int) ≤ x.stackOffset ∧ x.stackOffset ≤ -8 ∧
      x.stackOffset % 8 = 0 := by omega
  obtain ⟨_, c', body, hcode, hr⟩ := genFuncDecl_eq_ok hgen
  have hitems : r.items =
      prologueItems decl c ++ (spillItems decl ++ body) ++ epilogueItems c.labelCount := by
    rw [hr]
    simp
  have hdepth := bodyCtx_pushDepth decl c
  rw [hitems] at hsafe hto hstore hrun hload
  have hsealed : Sealed W (computeFrameSize decl) (spillItems decl ++ body) (s.regs .rsp) :=
    ⟨hW, (chain_paramItems decl.params argRegs rfl).append (hcode.chain hdepth),
      confined_body hc hcode, hsafe.of_append⟩
  have hkeeps : W.KeepsFrame := fun name s s' hcall => ⟨(hW name s s' hcall).1, (hW name s s' hcall).2.1⟩
  -- the store is behind the prologue
  have hlen : (storeLine x :: k).length ≤
      (codeOf (spillItems decl ++ body ++ epilogueItems c.labelCount)).length := by
    obtain ⟨pre, hpre⟩ := hto.suffix (List.suffix_refl _)
    simp only at hpre
    rw [List.append_assoc, codeOf_append] at hpre
    rcases append_eq_append_cons hpre.symm with ⟨post, hpro, _⟩ | ⟨pre', _, hbody⟩
    · exact absurd (by rw [hpro]; simp) (storeLine_not_mem_prologue decl c x)
    · rw [hbody, List.length_append]
      omega
  have hinside := inside_of_steps hsealed.chain hto hlen hkeeps
  have hrbp := hinside.rbp (by simp [epilogueTail])
  -- the store, the run and the load
  have hinside₂ := hinside.step hkeeps hsealed.chain hstore
  obtain ⟨hinside₃, hkept⟩ := Unstored.load_slot hsealed hoff hinside₂ hrun
  have hrbp₃ := hinside₃.rbp (by simp [epilogueTail])
  cases hstore with
  | mark hmark => exact absurd (show false = true from hmark) (by decide)
  | instr hstore =>
    obtain rfl := Option.some.inj hstore
    cases hload with
    | mark hmark => exact absurd (show false = true from hmark) (by decide)
    | instr hload =>
      obtain rfl := Option.some.inj hload
      have haddr : slotAt (s.regs .rsp - 8) x.stackOffset =
          s.regs .rsp - 8 + BitVec.ofInt 64 x.stackOffset := rfl
      have hkept : load64 s₃.mem (slotAt (s.regs .rsp - 8) x.stackOffset) =
          load64 (store64 s₁.mem (s₁.regs .rbp + BitVec.ofInt 64 x.stackOffset) (s₁.regs .rax))
            (slotAt (s.regs .rsp - 8) x.stackOffset) := hkept
      rw [hrbp, ← haddr, Lib.Mem.load64_store64] at hkept
      rw [State.set_regs_same]
      show load64 s₃.mem (s₃.regs .rbp + BitVec.ofInt 64 x.stackOffset) = s₁.regs .rax
      rw [hrbp₃, ← haddr, hkept]

end function

/-! ## Casts -/

/-- A run is determined by where it starts and by its calls. -/
theorem Exec.det {W : World} {k : List Line} {s : State} {evs : List CallEvent} {s₁ s₂ : State}
    (h₁ : Exec W k s evs s₁) (h₂ : Exec W k s evs s₂) : s₁ = s₂ := by
  induction h₁ with
  | nil =>
    cases h₂ with
    | nil => rfl
  | instr h _ ih =>
    cases h₂ with
    | instr h' hk' =>
      obtain rfl := Option.some.inj (h.symm.trans h')
      exact ih hk'
    | call _ _ => exact absurd h (by simp [execInstr])
  | call _ _ ih =>
    cases h₂ with
    | instr h' _ => exact absurd h' (by simp [execInstr])
    | call _ hk' => exact ih hk'

/-- In a run from `s`, an expression has the value `v` and its cast to `t` the value `res`, with the
same calls. -/
def CastValue (W : World) (c : AsmCtx) (s : State) (t : VarT) (v res : Word) : Prop :=
  ∃ e r r' evs s₁ s₂, genExpr e c = .ok r ∧ genExpr (.cast t e) c = .ok r' ∧
    Exec W (codeOf r.items) s evs s₁ ∧ Exec W (codeOf r'.items) s evs s₂ ∧
      s₁.regs .rax = v ∧ s₂.regs .rax = res

/-- **A cast has the value of what is cast.** -/
theorem CastValue.eq {W : World} {c : AsmCtx} {s : State} {t : VarT} {v res : Word}
    (h : CastValue W c s t v res) : res = v := by
  obtain ⟨e, r, r', evs, s₁, s₂, hgen, hcast, hexec, hexec', rfl, rfl⟩ := h
  rw [genExpr, genCast] at hcast
  obtain rfl := Except.ok.inj (hgen.symm.trans hcast)
  rw [hexec.det hexec']

/-! ## Both -/

/-- **Values that agree in their low bits read back equal exactly when they are equal**, in a local of
any type and behind a cast to any type. -/
theorem declared_widths {decl : FuncDecl} {c : AsmCtx} {r : Emitted AsmCtx Item Unit} {W : World}
    (hW : W.Preserves) (hc : c.GlobalsOnly) (hgen : genFuncDecl decl c = .ok r) :
    (∀ m ∈ r.marks, ∀ x ∈ m.locals, ∀ s s' v v' res res',
      FrameSafe W.sym (computeFrameSize decl) r.items (s.regs .rsp) →
      FrameSafe W.sym (computeFrameSize decl) r.items (s'.regs .rsp) →
      ReadBack W (codeOf r.items) s x v res → ReadBack W (codeOf r.items) s' x v' res' →
        ((Congruent (8 * typeSize x.type) v v' → res = res') ↔
          (Congruent (8 * typeSize x.type) v v' → v = v'))) ∧
      ∀ c s s' t v v' res res', CastValue W c s t v res → CastValue W c s' t v' res' →
        ((Congruent (8 * typeSize t) v v' → res = res') ↔
          (Congruent (8 * typeSize t) v v' → v = v')) := by
  refine ⟨fun m hm x hx s s' v v' res res' hsafe hsafe' h h' => ?_,
    fun c s s' t v v' res res' h h' => ?_⟩
  · rw [h.eq hW hc hgen hsafe hm hx, h'.eq hW hc hgen hsafe' hm hx]
  · rw [h.eq, h'.eq]

/-- `fn f(a: QWORD) { let b: BYTE = a; return b; }`. -/
def narrow : FuncDecl :=
  ⟨ascii "f", ⟨.lit .litQword, false, 0⟩, [⟨ascii "a", ⟨.lit .litQword, false, 0⟩⟩],
    [.varDecl ⟨ascii "b", ⟨.lit .litByte, false, 0⟩, some (.identifier (ascii "a"))⟩,
      .returnStmt (.identifier (ascii "b"))]⟩

/-- The byte. -/
def narrowLocal : Symbol := ⟨ascii "b", -16, ⟨.lit .litByte, false, 0⟩, false⟩

/-- A state in which `f(v)` is called. -/
def callNarrow (v : Word) : State :=
  ⟨fun id => if id = .rdi then v else if id = .rsp then 4096 else 0, none, fun _ => 0⟩

/-- The lines up to the store. -/
def narrowStart : List Line :=
  [.globl (ascii "f"), .symbol (ascii "f"), .instr (.push (.reg .rbp)),
    .instr (.mov (.reg .rsp) (.reg .rbp)), .instr (.sub (.imm 16) (.reg .rsp)),
    .instr (.mov (.reg .rdi) (.mem .rbp (-8))), .instr (.mov (.mem .rbp (-8)) (.reg .rax))]

/-- The lines behind the store and the load. -/
def narrowEnd : List Line := .instr (.jmp 0) :: codeOf (epilogueItems 0)

/-- What the function compiles to. -/
theorem narrow_code : ∃ r, genFuncDecl narrow asmInit = .ok r ∧
    codeOf r.items = narrowStart ++ storeLine narrowLocal :: loadLine narrowLocal :: narrowEnd ∧
      r.items.map Item.depth = List.replicate 14 0 ∧ ∃ m ∈ r.marks, narrowLocal ∈ m.locals := by
  have hstk := bodyCtx_scopeStk narrow asmInit
  have hoff := bodyCtx_curOffset narrow asmInit
  have hparam : findSymbol ((asmInit.bodyCtx narrow).declare (ascii "b") ⟨.lit .litByte, false, 0⟩)
      (ascii "a") = some ⟨ascii "a", -8, ⟨.lit .litQword, false, 0⟩, false⟩ := by
    rw [findSymbol_declare hstk, if_neg (by decide)]
    exact @findSymbol_param narrow asmInit (by decide) 0 _ rfl
  have hlocal : findSymbol ((asmInit.bodyCtx narrow).declare (ascii "b") ⟨.lit .litByte, false, 0⟩)
      (ascii "b") = some narrowLocal := by
    rw [findSymbol_declare hstk, if_pos rfl, hoff]
    rfl
  have hcode : StmtCode (asmInit.bodyCtx narrow) (.nodes narrow.block) _ _ _ :=
    .cons (.init hstk (.identifier hparam)) (.cons (.returnStmt (.identifier hlocal) rfl) .nil)
  have hgen := @genFuncDecl_run narrow asmInit _ _ _ (by decide) hcode
  refine ⟨_, hgen, rfl, rfl, (asmInit.bodyCtx narrow).declare (ascii "b") ⟨.lit .litByte, false, 0⟩,
    by simp, ?_⟩
  rw [locals_declare hstk, hoff]
  exact List.mem_cons_self

/-- A world without functions, with its globals at address zero. -/
def emptyWorld : World := ⟨fun _ => 0, fun _ _ _ => False⟩

theorem emptyWorld_preserves : emptyWorld.Preserves := fun _ _ _ h => h.elim

/-- A spill, and the load of what was spilled. -/
theorem execLines_spill_load (sym : CString → Word) (id : RegId) (off : Int) (s : State) :
    ∃ s', execLines sym [.instr (.mov (.reg id) (.mem .rbp off)),
      .instr (.mov (.mem .rbp off) (.reg .rax))] s = some s' ∧ s'.regs .rax = s.regs id := by
  refine ⟨_, rfl, ?_⟩
  rw [State.set_regs_same]
  exact Lib.Mem.load64_store64 _ _ _

/-- The byte reads back as the whole argument. -/
theorem narrow_readBack (v : Word) : ReadBack emptyWorld
    (narrowStart ++ storeLine narrowLocal :: loadLine narrowLocal :: narrowEnd) (callNarrow v)
    narrowLocal v v := by
  have hframed := execLines_prologueItems emptyWorld.sym narrow asmInit (callNarrow v)
  have hrdi := (framed_regs (callNarrow v) (computeFrameSize narrow)).2.2.2 .rdi (by decide) (by decide)
  generalize (callNarrow v).framed (computeFrameSize narrow) = s₀ at hframed hrdi
  obtain ⟨s₁, hspill, hrax⟩ := execLines_spill_load emptyWorld.sym .rdi (-8) s₀
  rw [hrdi] at hrax
  have hrax : s₁.regs .rax = v := hrax
  refine ⟨s₁, s₁.store (s₁.regs .rbp + BitVec.ofInt 64 narrowLocal.stackOffset) (s₁.regs .rax), _,
    _, _, _, (steps_of_execLines hframed).trans (steps_of_execLines hspill), .instr rfl, .refl,
    .instr rfl, hrax, ?_⟩
  rw [State.set_regs_same, ← hrax]
  show load64 (store64 s₁.mem (s₁.regs .rbp + BitVec.ofInt 64 narrowLocal.stackOffset)
    (s₁.regs .rax)) (s₁.regs .rbp + BitVec.ofInt 64 narrowLocal.stackOffset) = s₁.regs .rax
  rw [Lib.Mem.load64_store64]

/-- A call has room for the frame, and assigns no global. -/
theorem narrow_frameSafe {r : Emitted AsmCtx Item Unit}
    (hcode : codeOf r.items =
      narrowStart ++ storeLine narrowLocal :: loadLine narrowLocal :: narrowEnd)
    (hdepth : r.items.map Item.depth = List.replicate 14 0) (v : Word) :
    FrameSafe emptyWorld.sym (computeFrameSize narrow) r.items ((callNarrow v).regs .rsp) := by
  refine ⟨fun item hitem => ?_, fun name hname => ?_⟩
  · have hzero : item.depth ∈ List.replicate 14 (0 : Int) := by
      rw [← hdepth]
      exact List.mem_map.mpr ⟨item, hitem, rfl⟩
    rw [List.eq_of_mem_replicate hzero]
    exact (by decide : (8 + (16 : Nat) + 8 * (0 + 1) : Int) ≤ 4096)
  · rw [hcode] at hname
    exact absurd hname (by simp [narrowStart, narrowEnd, storeLine, loadLine, epilogueItems])

/-- Stored in the byte, 0 and 256 read back as different values. -/
theorem declared_widths_overflow : ∃ r, genFuncDecl narrow asmInit = .ok r ∧
    (∃ m ∈ r.marks, narrowLocal ∈ m.locals) ∧ typeSize narrowLocal.type = 1 ∧
      ∃ s s' res res', FrameSafe emptyWorld.sym (computeFrameSize narrow) r.items (s.regs .rsp) ∧
        FrameSafe emptyWorld.sym (computeFrameSize narrow) r.items (s'.regs .rsp) ∧
        ReadBack emptyWorld (codeOf r.items) s narrowLocal 0 res ∧
        ReadBack emptyWorld (codeOf r.items) s' narrowLocal 256 res' ∧
        Congruent 8 0 256 ∧ res ≠ res' := by
  obtain ⟨r, hgen, hcode, hdepth, hlive⟩ := narrow_code
  refine ⟨r, hgen, hlive, rfl, callNarrow 0, callNarrow 256, 0, 256,
    narrow_frameSafe hcode hdepth 0, narrow_frameSafe hcode hdepth 256, ?_, ?_, rfl, by decide⟩
  · rw [hcode]
    exact narrow_readBack 0
  · rw [hcode]
    exact narrow_readBack 256

/-- Small values read back as they were stored. -/
theorem declared_widths_small : ∃ r, genFuncDecl narrow asmInit = .ok r ∧
    ReadBack emptyWorld (codeOf r.items) (callNarrow 5) narrowLocal 5 5 ∧
      ReadBack emptyWorld (codeOf r.items) (callNarrow 6) narrowLocal 6 6 ∧
        ((Congruent 8 5 6 → (5 : Word) = 6) ↔ (Congruent 8 5 6 → (5 : Word) = 6)) := by
  obtain ⟨r, hgen, hcode, hdepth, m, hm, hx⟩ := narrow_code
  have hread : ∀ v, ReadBack emptyWorld (codeOf r.items) (callNarrow v) narrowLocal v v := by
    rw [hcode]
    exact narrow_readBack
  exact ⟨r, hgen, hread 5, hread 6,
    (declared_widths emptyWorld_preserves (show asmInit.GlobalsOnly from rfl) hgen).1 m hm narrowLocal
      hx _ _ _ _ _ _ (narrow_frameSafe hcode hdepth 5) (narrow_frameSafe hcode hdepth 6) (hread 5)
      (hread 6)⟩

end ACompiler
