import ACompiler.Correct.Alignment
import ACompiler.Correct.Labels
import ACompiler.Correct.Layout

/-!
# What a function stores where

The lines of a function store on the stack below the frame, in the cells of globals, and in slots of
the frame (`Line.Confined`). So the value in a slot lasts until a line stores in that very slot,
wherever control goes in the meantime (`Unstored.load_slot`).
-/

namespace ACompiler

open Lib (Word Mem Emitted)
open Lib.Mem (load64 store64 InCell Apart)

/-! ## Lines -/

/-- The operand is in memory. -/
def Operand.isMemory : Operand → Bool
  | .mem _ _ | .sym _ => true
  | _ => false

/-- The instruction stores nothing. -/
def Instr.isQuiet : Instr → Bool
  | .mov _ dest | .lea _ dest | .pop dest | .add _ dest | .sub _ dest | .imul _ dest | .neg dest =>
    !dest.isMemory
  | .push _ => false
  | _ => true

/-- Where the lines of a function store: nowhere, on the stack, in a global, or in a slot from `lo`
up. -/
inductive Line.Confined (lo : Int) : Line → Prop
  | mark {l : Line} (h : l.isMark = true) : Confined lo l
  | quiet {i : Instr} (h : i.isQuiet = true) : Confined lo (.instr i)
  | push {op : Operand} : Confined lo (.instr (.push op))
  | symbol {name : CString} : Confined lo (.instr (.mov (.reg .rax) (.sym name)))
  | slot {id : RegId} {off : Int} (hoff : lo ≤ off ∧ off ≤ -8 ∧ off % 8 = 0) :
      Confined lo (.instr (.mov (.reg id) (.mem .rbp off)))

theorem Line.Confined.mono {lo lo' : Int} {l : Line} (h : l.Confined lo) (hlo : lo' ≤ lo) :
    l.Confined lo' := by
  cases h with
  | mark h => exact .mark h
  | quiet h => exact .quiet h
  | push => exact .push
  | symbol => exact .symbol
  | slot hoff => exact .slot ⟨by omega, hoff.2⟩

theorem confined_itemsOf (lo : Int) (c : AsmCtx) {is : List Instr}
    (h : ∀ i ∈ is, i.isQuiet = true) : ∀ item ∈ c.itemsOf is, item.line.Confined lo := by
  intro item hitem
  obtain ⟨i, hi, rfl⟩ := List.mem_map.mp hitem
  exact .quiet (h i hi)

theorem confined_popItems (lo : Int) (ids : List RegId) : ∀ c : AsmCtx,
    ∀ item ∈ c.popItems ids, item.line.Confined lo := by
  induction ids with
  | nil => intro c item hitem; simp [AsmCtx.popItems] at hitem
  | cons id ids ih =>
    intro c item hitem
    rcases List.mem_cons.mp hitem with rfl | hitem
    · exact .quiet rfl
    · exact ih _ item hitem

theorem unaryInstrs_quiet {op : UnaryOp} {is : List Instr} (h : unaryInstrs op = some is) :
    ∀ i ∈ is, i.isQuiet = true := by
  cases op <;> simp [unaryInstrs] at h <;> subst h <;> decide

theorem binaryInstrs_quiet (op : BinaryOp) : ∀ i ∈ binaryInstrs op, i.isQuiet = true := by
  cases op <;> decide

theorem readInstr_quiet (v : Symbol) (name : CString) : (readInstr v name).isQuiet = true := by
  unfold readInstr
  split <;> rfl

theorem addrInstr_quiet (v : Symbol) : (addrInstr v).isQuiet = true := by
  unfold addrInstr
  split <;> rfl

theorem writeInstr_confined {c : AsmCtx} (hc : c.Slotted) {name : CString} {v : Symbol}
    (hv : findSymbol c name = some v) : (Line.instr (writeInstr v name)).Confined c.curOffset := by
  unfold writeInstr
  cases hg : v.isGlobal with
  | true =>
    rw [if_pos rfl]
    exact .symbol
  | false =>
    rw [if_neg (by decide)]
    exact .slot (hc.bounds v (findSymbol_mem_locals hv hg))

/-- The code of an expression stores in the slots of its context. -/
theorem ExprCode.confined {c : AsmCtx} {p : Phrase} {items : List Item} (h : ExprCode c p items) :
    c.Slotted → ∀ item ∈ items, item.line.Confined c.curOffset := by
  induction h with
  | literal => exact fun _ => by simpa using .quiet rfl
  | identifier _ => exact fun _ => by simpa using .quiet (readInstr_quiet _ _)
  | addr _ => exact fun _ => by simpa using .quiet (addrInstr_quiet _)
  | @unary c _ _ _ _ hop _ ih =>
    intro hc item hitem
    rcases List.mem_append.mp hitem with hitem | hitem
    · exact ih hc item hitem
    · exact confined_itemsOf _ c (unaryInstrs_quiet hop) item hitem
  | @binary c op _ _ _ _ _ _ ihl ihr =>
    intro hc item hitem
    simp only [List.mem_append, List.mem_cons] at hitem
    rcases hitem with ((hitem | rfl | hitem) | hitem) | hitem
    · exact ihl hc item hitem
    · exact .push
    · exact ihr (hc.congr rfl rfl) item hitem
    · exact confined_itemsOf _ _ (by decide) item hitem
    · exact confined_itemsOf _ c (binaryInstrs_quiet op) item hitem
  | call _ _ _ ih =>
    intro hc item hitem
    simp only [List.mem_append, List.mem_singleton] at hitem
    rcases hitem with (hitem | hitem) | rfl
    · exact ih hc item hitem
    · exact confined_popItems _ _ _ item hitem
    · exact .quiet rfl
  | callPad _ _ _ ih =>
    intro hc item hitem
    simp only [List.mem_append, List.mem_cons] at hitem
    rcases hitem with ((rfl | hitem) | hitem) | hitem
    · exact .quiet rfl
    · exact ih (hc.congr rfl rfl) item hitem
    · exact confined_popItems _ _ _ item hitem
    · exact confined_itemsOf _ _ (by simp [Instr.isQuiet, Operand.isMemory]) item hitem
  | assign _ hs ih =>
    intro hc item hitem
    rcases List.mem_append.mp hitem with hitem | hitem
    · exact ih hc item hitem
    · rw [List.mem_singleton.mp hitem]
      exact writeInstr_confined hc hs
  | cast _ ih => exact ih
  | argsNil => simp
  | argsCons _ _ iha ihs =>
    intro hc item hitem
    simp only [List.mem_append, List.mem_cons] at hitem
    rcases hitem with hitem | rfl | hitem
    · exact iha hc item hitem
    · exact .push
    · exact ihs (hc.congr rfl rfl) item hitem

/-- The code of a statement stores in the slots its count pays for. -/
theorem StmtCode.confined {c c' : AsmCtx} {p : StmtPhrase} {items : List Item}
    {marks : List AsmCtx} (h : StmtCode c p c' items marks) :
    c.Slotted → ∀ lo, lo ≤ c.curOffset - p.bytes → ∀ item ∈ items, item.line.Confined lo := by
  induction h with
  | comment => simp
  | expr he =>
    intro hc lo hlo item hitem
    simp only [StmtPhrase.bytes, countLocals] at hlo
    exact (he.confined hc item hitem).mono (by omega)
  | returnStmt he _ =>
    intro hc lo hlo item hitem
    simp only [StmtPhrase.bytes, countLocals] at hlo
    rcases List.mem_append.mp hitem with hitem | hitem
    · exact (he.confined hc item hitem).mono (by omega)
    · rw [List.mem_singleton.mp hitem]
      exact .quiet rfl
  | uninit _ => simp
  | @init c name type _ _ hstk he =>
    intro hc lo hlo item hitem
    have hoff := declare_curOffset name type hstk
    have hslots := hc.offset
    simp only [StmtPhrase.bytes, countLocals] at hlo
    rcases List.mem_append.mp hitem with hitem | hitem
    · exact (he.confined (hc.declare hstk name type) item hitem).mono (by omega)
    · rw [List.mem_singleton.mp hitem]
      exact .slot (by omega)
  | @ifThen c _ _ _ _ _ _ he _ ih =>
    intro hc lo hlo item hitem
    simp only [StmtPhrase.bytes, countLocals] at hlo ih
    have hhead := he.confined (hc.withLabels _)
    simp only [List.mem_append, List.mem_cons, List.not_mem_nil, or_false] at hitem
    rcases hitem with ((hitem | hitem) | hitem) | rfl | rfl | rfl
    · exact (hhead item hitem).mono (show lo ≤ c.curOffset by omega)
    · exact confined_itemsOf _ _ (by simp [Instr.isQuiet, Operand.isMemory]) item hitem
    · exact ih (hc.withLabels _) lo hlo item hitem
    · exact .quiet rfl
    · exact .mark rfl
    · exact .mark rfl
  | @ifElse c _ _ _ _ _ _ _ _ _ _ he hb _ ih ih' =>
    intro hc lo hlo item hitem
    have hbudget := hb.budget.2.2.2 _ rfl
    simp only [StmtPhrase.bytes, countLocals] at hlo ih ih'
    have hhead := he.confined (hc.withLabels _)
    have hlabels : (c.withLabels (c.labelCount + 2)).curOffset = c.curOffset := rfl
    rw [hlabels] at hbudget
    simp only [List.mem_append, List.mem_cons, List.not_mem_nil, or_false] at hitem
    rcases hitem with ((((hitem | hitem) | hitem) | rfl | rfl) | hitem) | rfl
    · exact (hhead item hitem).mono (show lo ≤ c.curOffset by omega)
    · exact confined_itemsOf _ _ (by simp [Instr.isQuiet, Operand.isMemory]) item hitem
    · exact ih (hc.withLabels _) lo (by rw [hlabels]; omega) item hitem
    · exact .quiet rfl
    · exact .mark rfl
    · exact ih' (hb.slotted (hc.withLabels _)).1 lo (by rw [hbudget]; omega) item hitem
    · exact .mark rfl
  | block _ ih => exact fun hc => ih hc.enter
  | nil => simp
  | cons hs _ ih ih' =>
    intro hc lo hlo item hitem
    have hbudget := hs.budget.1
    simp only [StmtPhrase.bytes, countLocalsList] at hlo ih ih' hbudget
    rcases List.mem_append.mp hitem with hitem | hitem
    · exact ih hc lo (by omega) item hitem
    · exact ih' (hs.slotted hc).1 lo (by omega) item hitem

theorem confined_paramItems (lo : Int) (params : List FuncParam) : ∀ (ids : List RegId)
    (c : AsmCtx), c.scopeStk ≠ [] → c.curOffset ≤ 0 ∧ c.curOffset % 8 = 0 →
      lo ≤ c.curOffset - 8 * params.length →
        ∀ item ∈ c.paramItems ids params, item.line.Confined lo := by
  induction params with
  | nil => intro ids c _ _ _ item hitem; cases ids <;> simp [AsmCtx.paramItems] at hitem
  | cons p params ih =>
    intro ids c hstk hoff hlo item hitem
    rw [List.length_cons] at hlo
    cases ids with
    | nil => simp [AsmCtx.paramItems] at hitem
    | cons id ids =>
      have hdecl := declare_curOffset p.ident p.type hstk
      rcases List.mem_cons.mp hitem with rfl | hitem
      · exact .slot (by omega)
      · exact ih ids _ (declare_scopeStk p.ident p.type hstk) (by omega) (by omega) item hitem

/-- The lines of a function behind the reservation of the frame store in slots of the frame. -/
theorem confined_body {decl : FuncDecl} {c c' : AsmCtx} {body : List Item} {marks : List AsmCtx}
    (hc : c.GlobalsOnly) (h : StmtCode (c.bodyCtx decl) (.nodes decl.block) c' body marks) :
    ∀ item ∈ spillItems decl ++ body, item.line.Confined (-(computeFrameSize decl)) := by
  have hframe := (computeFrameSize_bounds decl).1
  have hoff := bodyCtx_curOffset decl c
  intro item hitem
  rcases List.mem_append.mp hitem with hitem | hitem
  · refine confined_paramItems _ decl.params argRegs _ (by simp) ⟨Int.le_refl 0, rfl⟩ ?_ item hitem
    simp only
    omega
  · refine h.confined (bodyCtx_slotted hc) _ ?_ item hitem
    simp only [StmtPhrase.bytes]
    omega

/-! ## Single steps -/

theorem write_mem {sym : CString → Word} {s s' : State} {v : Word} (dest : Operand)
    (h : dest.write sym s v = some s') (hd : dest.isMemory = false) : s'.mem = s.mem := by
  cases dest with
  | reg id =>
    obtain rfl := Option.some.inj h
    rfl
  | imm n => exact absurd h (by simp [Operand.write])
  | mem base disp => exact absurd hd (by simp [Operand.isMemory])
  | sym name => exact absurd hd (by simp [Operand.isMemory])

theorem execInstr_quiet {sym : CString → Word} {s s' : State} {i : Instr}
    (h : execInstr sym s i = some s') (hi : i.isQuiet = true) : s'.mem = s.mem := by
  have hdest : ∀ {dest : Operand}, (!dest.isMemory) = true → dest.isMemory = false := by simp
  cases i with
  | mov src dest => exact write_mem dest h (hdest hi)
  | lea src dest =>
    simp only [execInstr, Option.bind_eq_bind, Option.bind_eq_some_iff] at h
    obtain ⟨a, _, hw⟩ := h
    exact write_mem dest hw (hdest hi)
  | push op => exact absurd hi (by simp [Instr.isQuiet])
  | pop dest =>
    have hmem := write_mem dest (s := s.set .rsp (s.regs .rsp + 8)) h (hdest hi)
    exact hmem
  | add src dest => exact write_mem dest (s := s.clobber) h (hdest hi)
  | sub src dest => exact write_mem dest (s := s.clobber) h (hdest hi)
  | imul src dest => exact write_mem dest (s := s.clobber) h (hdest hi)
  | idiv d =>
    simp only [execInstr, Option.bind_eq_bind, Option.bind_eq_some_iff] at h
    obtain ⟨qr, _, hs⟩ := h
    rw [← Option.some.inj hs]
    rfl
  | neg dest => exact write_mem dest (s := s.clobber) h (hdest hi)
  | cmp src dest => rw [← Option.some.inj h]
  | setcc cond =>
    simp only [execInstr, Option.bind_eq_bind, Option.bind_eq_some_iff] at h
    obtain ⟨ab, _, hs⟩ := h
    rw [← Option.some.inj hs]
    rfl
  | movzbq =>
    rw [← Option.some.inj h]
    rfl
  | cqto =>
    rw [← Option.some.inj h]
    rfl
  | call _ => exact absurd h (by simp [execInstr])
  | je _ => exact absurd h (by simp [execInstr])
  | jmp _ => exact absurd h (by simp [execInstr])
  | ret => exact absurd h (by simp [execInstr])

/-- The stack has room for the frame and the deepest line, and no global the lines assign meets the
frame. -/
structure FrameSafe (sym : CString → Word) (frame : Nat) (items : List Item) (rsp : Word) : Prop where
  room : ∀ item ∈ items, (8 + frame + 8 * (item.depth + 1) : Int) ≤ rsp.toNat
  globals : ∀ name, Line.instr (.mov (.reg .rax) (.sym name)) ∈ codeOf items →
    ∀ x, InCell (sym name) x → ¬ (rsp.toNat - 8 - frame ≤ x.toNat ∧ x.toNat < rsp.toNat)

/-- The address of a slot under `base`. -/
def slotAt (base : Word) (off : Int) : Word := base + BitVec.ofInt 64 off

section step
variable {W : World} {items : List Item} {base rsp : Word} {frame : Nat} {off d : Int} {s s' : State}

/-- The stack pointer at a depth, as a number. -/
theorem AtDepth.rsp_toNat (hat : AtDepth base frame s d) (hd : 0 ≤ d)
    (hroom : (frame + 8 * d : Int) ≤ base.toNat) :
    ((s.regs .rsp).toNat : Int) = base.toNat - frame - 8 * d := by
  have hlt := base.isLt
  rw [hat.rsp, BitVec.toNat_sub, BitVec.toNat_sub, BitVec.toNat_ofNat, BitVec.toNat_ofInt]
  omega

/-- The address of a slot, as a number. -/
theorem slotAt_toNat (base : Word) (hoff : -(frame : Int) ≤ off ∧ off ≤ -8)
    (hroom : frame ≤ base.toNat) :
    ((slotAt base off).toNat : Int) = base.toNat + off :=
  add_ofInt_toNat (by omega) (by omega)

theorem FrameSafe.base_toNat (hsafe : FrameSafe W.sym frame items rsp) {item : Item}
    (hitem : item ∈ items) (hdepth : 0 ≤ item.depth) : (rsp - 8).toNat = rsp.toNat - 8 := by
  have hroom := hsafe.room item hitem
  bv_omega

/-- A line that does not store in a slot keeps its value. -/
theorem execInstr_keeps_slot (hsafe : FrameSafe W.sym frame items rsp)
    (hoff : -(frame : Int) ≤ off ∧ off ≤ -8 ∧ off % 8 = 0) {item : Item} (hitem : item ∈ items)
    (hconf : item.line.Confined (-frame)) (hat : AtDepth (rsp - 8) frame s item.depth)
    (hdepth : 0 ≤ item.depth) {i : Instr} (hi : item.line = .instr i)
    (hexec : execInstr W.sym s i = some s') (hne : ∀ id, i ≠ .mov (.reg id) (.mem .rbp off)) :
    load64 s'.mem (slotAt (rsp - 8) off) = load64 s.mem (slotAt (rsp - 8) off) := by
  have hroom := hsafe.room item hitem
  have hbase := hsafe.base_toNat hitem hdepth
  have hsp := hat.rsp_toNat hdepth (by omega)
  have hslot := slotAt_toNat (rsp - 8) ⟨hoff.1, hoff.2.1⟩ (by omega)
  have hlt := (rsp - 8).isLt
  rw [hi] at hconf
  cases hconf with
  | mark h => exact absurd h (by simp [Line.isMark])
  | quiet h => rw [execInstr_quiet hexec h]
  | push =>
    obtain rfl := Option.some.inj hexec
    have hnew : ((s.regs .rsp - 8).toNat : Int) = (s.regs .rsp).toNat - 8 := by
      bv_omega
    refine Lib.Mem.load64_store64_of_apart (apart_of_not_inCell ?_ ?_)
    · rw [inCell_iff (by omega)]
      omega
    · rw [inCell_iff (by omega)]
      omega
  | @symbol name =>
    obtain rfl := Option.some.inj hexec
    have hmem : Line.instr (.mov (.reg .rax) (.sym name)) ∈ codeOf items :=
      List.mem_map.mpr ⟨item, hitem, hi⟩
    have hout := hsafe.globals name hmem
    refine Lib.Mem.load64_store64_of_apart (apart_of_not_inCell ?_ ?_)
    · intro hcell
      rw [inCell_iff (by omega)] at hcell
      exact hout (W.sym name) (by simp [InCell]) (by omega)
    · intro hcell
      exact hout _ hcell (by omega)
  | @slot id off' hoff' =>
    obtain rfl := Option.some.inj hexec
    have hdiff : off ≠ off' := by
      rintro rfl
      exact hne id rfl
    rw [State.store_mem, hat.rbp]
    exact Lib.Mem.load64_store64_of_apart
      (Lib.Mem.apart_of_offsets _ (by omega) (by omega) (by omega))

end step

/-! ## Runs -/

/-- The line stores in the slot. -/
def storesIn (off : Int) (l : Line) : Prop := ∃ id, l = .instr (.mov (.reg id) (.mem .rbp off))

/-- Steps that do not store in the slot. -/
def Unstored (W : World) (prog : List Line) (off : Int) : Config → Config → Prop :=
  Relation.ReflTransGen fun cfg cfg' =>
    Step W prog cfg cfg' ∧ ∀ l k, cfg.code = l :: k → ¬ storesIn off l

section run
variable {W : World} {decl : FuncDecl} {c : AsmCtx} {items : List Item} {rsp : Word} {frame : Nat}
  {n : Nat} {off : Int}

/-- What a run needs of the lines behind the reservation of the frame. -/
structure Sealed (W : World) (frame : Nat) (items : List Item) (rsp : Word) : Prop where
  keeps : W.Preserves
  chain : Chain 0 items 0
  confined : ∀ item ∈ items, item.line.Confined (-frame)
  safe : FrameSafe W.sym frame items rsp

/-- The lines of the epilogue store nothing. -/
theorem epilogueTail_quiet : ∀ l ∈ epilogueTail, ∃ i, l = .instr i ∧ i.isQuiet = true := by
  intro l hl
  simp only [epilogueTail, List.mem_cons, List.not_mem_nil, or_false] at hl
  rcases hl with rfl | rfl | rfl
  · exact ⟨_, rfl, rfl⟩
  · exact ⟨_, rfl, rfl⟩
  · exact ⟨_, rfl, rfl⟩

theorem Inside.keeps_slot (hsealed : Sealed W frame items rsp)
    (hoff : -(frame : Int) ≤ off ∧ off ≤ -8 ∧ off % 8 = 0) {prog : List Line} {cfg cfg' : Config}
    (h : Inside items n (rsp - 8) frame cfg) (hstep : Step W prog cfg cfg')
    (hne : ∀ l k, cfg.code = l :: k → ¬ storesIn off l) :
    load64 cfg'.state.mem (slotAt (rsp - 8) off) = load64 cfg.state.mem (slotAt (rsp - 8) off) := by
  obtain ⟨hkeeps, hchain, hconf, hsafe⟩ := hsealed
  cases hstep with
  | mark _ => rfl
  | jmp _ => rfl
  | jeTaken _ _ => rfl
  | jePassed _ _ => rfl
  | @instr s s' i k hexec =>
    have hnot : ∀ id, i ≠ .mov (.reg id) (.mem .rbp off) := by
      rintro id rfl
      exact hne _ k rfl ⟨id, rfl⟩
    generalize hcfg : (⟨s, .instr i :: k⟩ : Config) = cfg at h
    cases h with
    | @body pre rest s₁ d hitems hrest hat =>
      obtain ⟨rfl, hcode⟩ := Config.mk.inj hcfg
      cases rest with
      | nil => exact absurd hcode (by simp [epilogueItems])
      | cons item rest =>
        have hi : item.line = .instr i := (List.cons.inj hcode).1.symm
        have hmem : item ∈ items := by simp [hitems]
        cases hrest with
        | cons hd _ _ _ =>
          rw [← hd] at hat
          exact execInstr_keeps_slot hsafe hoff hmem (hconf item hmem) hat
            (hchain.balanced item hmem).nonneg hi hexec hnot
    | tail hk =>
      obtain ⟨rfl, rfl⟩ := Config.mk.inj hcfg
      obtain ⟨i', hi', hquiet⟩ := epilogueTail_quiet _ (hk.subset List.mem_cons_self)
      obtain rfl := Line.instr.inj hi'
      rw [execInstr_quiet hexec hquiet]
  | @call s s' name k hcall =>
    generalize hcfg : (⟨s, .instr (.call name) :: k⟩ : Config) = cfg at h
    cases h with
    | @body pre rest s₁ d hitems hrest hat =>
      obtain ⟨rfl, hcode⟩ := Config.mk.inj hcfg
      cases rest with
      | nil => exact absurd hcode (by simp [epilogueItems])
      | cons item rest =>
        have hmem : item ∈ items := by simp [hitems]
        have hdepth := (hchain.balanced item hmem).nonneg
        have hroom := hsafe.room item hmem
        have hbase := hsafe.base_toNat hmem hdepth
        have hslot := slotAt_toNat (rsp - 8) ⟨hoff.1, hoff.2.1⟩ (by omega)
        have hlt := (rsp - 8).isLt
        cases hrest with
        | cons hd _ _ _ =>
          rw [← hd] at hat
          have hsp := hat.rsp_toNat hdepth (by omega)
          refine Lib.Mem.load64_congr fun x hx => (hkeeps _ _ _ hcall).2.2 x ?_
          rw [inCell_iff (by omega)] at hx
          omega
    | tail hk =>
      obtain ⟨rfl, rfl⟩ := Config.mk.inj hcfg
      obtain ⟨i, hi, _⟩ := epilogueTail_quiet _ (hk.subset List.mem_cons_self)
      have hcalls : ∀ l ∈ epilogueTail, l ≠ .instr (.call name) := by
        simp [epilogueTail]
      exact absurd rfl (hcalls _ (hk.subset List.mem_cons_self))

/-- **The value in a slot lasts until the next store in it.** -/
theorem Unstored.load_slot (hsealed : Sealed W frame items rsp)
    (hoff : -(frame : Int) ≤ off ∧ off ≤ -8 ∧ off % 8 = 0) {cfg cfg' : Config}
    (h : Inside items n (rsp - 8) frame cfg)
    (hrun : Unstored W (codeOf (prologueItems decl c ++ items ++ epilogueItems n)) off cfg cfg') :
    Inside items n (rsp - 8) frame cfg' ∧
      load64 cfg'.state.mem (slotAt (rsp - 8) off) = load64 cfg.state.mem (slotAt (rsp - 8) off) := by
  have hframe : W.KeepsFrame := fun name s s' hcall =>
    ⟨(hsealed.keeps name s s' hcall).1, (hsealed.keeps name s s' hcall).2.1⟩
  induction hrun with
  | refl => exact ⟨h, rfl⟩
  | tail _ hstep ih =>
    obtain ⟨hinside, hload⟩ := ih
    exact ⟨hinside.step hframe hsealed.chain hstep.1,
      (hinside.keeps_slot hsealed hoff hstep.1 hstep.2).trans hload⟩

end run

end ACompiler
