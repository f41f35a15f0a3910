import ACompiler.Correct.Execute
import ACompiler.Correct.Globals
import ACompiler.Correct.LocalLabels
import ACompiler.Correct.Scoping

/-!
# The meaning of a program is preserved

Every call of a compiled program comes back with what the interpreter says (`serves_callProgram`, by
induction on the depth of the calls), so a program that is loaded and entered at one of its functions
returns the interpreter's result, and leaves its globals as the interpreter does
(`genProgram_preserves`). The linked machine has one run only when no two places share an address, so
this is then what every run does.
-/

namespace ACompiler

open Lib (Word Mem Emitted)
open Lib.Mem (load64 store64 InCell Apart)
open Lib.Emit (bind_eq_ok)

/-! ## The names in the lines -/

/-- The names that lines define. -/
def symbolsIn (code : List Line) : List CString :=
  code.filterMap fun l =>
    match l with
    | .symbol x => some x
    | _ => none

theorem symbolsIn_append (code code' : List Line) :
    symbolsIn (code ++ code') = symbolsIn code ++ symbolsIn code' := List.filterMap_append

theorem mem_symbolsIn {code : List Line} {x : CString} : x ∈ symbolsIn code ↔ .symbol x ∈ code := by
  unfold symbolsIn
  rw [List.mem_filterMap]
  constructor
  · rintro ⟨l, hl, hx⟩
    cases l with
    | symbol y => rwa [← Option.some.inj hx]
    | _ => exact absurd hx (by simp)
  · exact fun h => ⟨_, h, rfl⟩

theorem FuncLines.symbolsIn_lines (f : FuncLines) : symbolsIn f.lines = [f.name] := by
  have hinner : symbolsIn f.inner = [] := by
    refine List.eq_nil_iff_forall_not_mem.mpr fun x hx => ?_
    exact absurd (f.isInner _ (mem_symbolsIn.mp hx)) (by simp [Line.isInner])
  show f.name :: symbolsIn (f.inner ++ [.instr .ret]) = [f.name]
  rw [symbolsIn_append, hinner]
  rfl

theorem symbolsIn_globalItems (depth : Int) (decls : List VarDecl) :
    symbolsIn (codeOf (decls.flatMap (globalItems depth))) = decls.map VarDecl.ident := by
  induction decls with
  | nil => rfl
  | cons decl decls ih =>
    rw [List.flatMap_cons, codeOf_append, symbolsIn_append, ih]
    rfl

theorem symbolsIn_dataItems (p : Program) :
    symbolsIn (codeOf (dataItems p)) = (globalsOf p).map VarDecl.ident := by
  unfold dataItems
  split
  · exact symbolsIn_globalItems 0 (globalsOf p)
  · rename_i h
    rw [hasData_eq_false (by simpa using h)]
    rfl

/-- The lines of a program define its names, in their order. -/
theorem genProgram_symbols {p : Program} {r : Emitted AsmCtx Item Unit}
    (h : genProgram p asmInit = .ok r) : symbolsIn (codeOf r.items) = p.names := by
  obtain ⟨r₀, hfuncs, hitems, _⟩ := genProgram_parts h
  obtain ⟨fs, hnames, hlines, _⟩ := genFuncs_lines p hfuncs
  have hfs : symbolsIn (fs.flatMap FuncLines.lines) = fs.map FuncLines.name := by
    clear hnames hlines
    induction fs with
    | nil => rfl
    | cons f fs ih => rw [List.flatMap_cons, symbolsIn_append, ih, f.symbolsIn_lines]; rfl
  rw [hitems, codeOf_append, codeOf_cons, symbolsIn_append, symbolsIn_dataItems, hlines,
    Program.names, ← hnames, ← hfs]
  rfl

theorem findEntry_of_nodup {name : CString} {pre k : List Line}
    (h : (symbolsIn (pre ++ .symbol name :: k)).Nodup) :
    findEntry name (pre ++ .symbol name :: k) = some k := by
  refine findEntry_of_not_mem fun hmem => ?_
  rw [symbolsIn_append, List.nodup_append] at h
  exact h.2.2 name (mem_symbolsIn.mpr hmem) name (mem_symbolsIn.mpr List.mem_cons_self) rfl

/-! ## The functions in the lines -/

/-- Every function stands somewhere in the lines of the functions. -/
theorem genFuncs_split : ∀ (p : Program) {c : AsmCtx} {r : Emitted AsmCtx Item Unit},
    genFuncs p c = .ok r → ∀ decl ∈ funcsOf p, ∃ c₀ r₀ before behind,
      c₀.scopeStk = c.scopeStk ∧ genFuncDecl decl c₀ = .ok r₀ ∧
        codeOf r.items = before ++ (codeOf r₀.items ++ behind) := by
  intro p
  induction p with
  | nil => exact fun _ decl hdecl => absurd hdecl (by simp [funcsOf])
  | cons node p ih =>
    intro c r h decl hdecl
    cases node with
    | varDecl _ => exact ih h decl hdecl
    | comment _ => exact ih h decl hdecl
    | funcDecl first =>
      rw [genFuncs, bind_eq_ok] at h
      obtain ⟨r₁, r₂, h₁, h₂, rfl⟩ := h
      rcases List.mem_cons.mp hdecl with rfl | hdecl
      · exact ⟨c, r₁, [], codeOf r₂.items, rfl, h₁, codeOf_append _ _⟩
      · obtain ⟨_, c', body, _, hr₁⟩ := genFuncDecl_eq_ok h₁
        obtain ⟨c₀, r₀, before, behind, hstk, hr₀, hsplit⟩ := ih h₂ decl hdecl
        refine ⟨c₀, r₀, codeOf r₁.items ++ before, behind, ?_, hr₀, ?_⟩
        · rw [hstk, hr₁, AsmCtx.afterFunc]
        · rw [codeOf_append, hsplit, List.append_assoc]

theorem AsmCtx.GlobalsAre.congr {c c' : AsmCtx} {gs : List CString} (h : c.GlobalsAre gs)
    (hstk : c'.scopeStk = c.scopeStk) : c'.GlobalsAre gs := by
  refine ⟨?_, fun x => ?_⟩
  · unfold AsmCtx.GlobalsOnly AsmCtx.locals
    rw [hstk]
    exact h.only
  · rw [h.names x]
    unfold findSymbol
    rw [hstk]

/-- The functions are generated over the globals. -/
theorem textCtx_globalsAre (p : Program) :
    ({ dataCtx.declareGlobals (globalsOf p) with indent := 0 } : AsmCtx).GlobalsAre
      ((globalsOf p).map VarDecl.ident) :=
  ⟨(declareGlobals_spec (globalsOf p) (by simp [dataCtx, AsmCtx.enter])).2.1,
    textCtx_resolves p⟩

/-- A function of the program with its code and the place of its code. -/
structure Placement (p : Program) (prog : List Line) (decl : FuncDecl) where
  ctx : AsmCtx
  ctx' : AsmCtx
  body : List Item
  marks : List AsmCtx
  entry : List Line
  behind : List Line
  globals : ctx.GlobalsAre ((globalsOf p).map VarDecl.ident)
  params : decl.params.length ≤ 6
  code : StmtCode (ctx.bodyCtx decl) (.nodes decl.block) ctx' body marks
  stands : Stands decl ctx body prog entry behind
  found : findEntry decl.ident prog = some entry

section program
variable {p : Program} {r : Emitted AsmCtx Item Unit} (hgen : genProgram p asmInit = .ok r)
  (hnames : p.names.Nodup)
include hgen hnames

theorem genProgram_placement {decl : FuncDecl} (hdecl : decl ∈ funcsOf p) :
    Nonempty (Placement p (codeOf r.items) decl) := by
  obtain ⟨r₀, hfuncs, hitems, _⟩ := genProgram_parts hgen
  obtain ⟨c, r₁, before, behind, hstk, hr₁, hsplit⟩ := genFuncs_split p hfuncs decl hdecl
  obtain ⟨hparams, c', body, hbody, hr⟩ := genFuncDecl_eq_ok hr₁
  obtain ⟨code, hpro, _⟩ := prologue_lines decl c
  have hglobals : c.GlobalsAre ((globalsOf p).map VarDecl.ident) := (textCtx_globalsAre p).congr hstk
  have hlines : codeOf (prologueItems decl c ++ spillItems decl ++ body ++
      epilogueItems c.labelCount) = .globl decl.ident :: .symbol decl.ident ::
        (code ++ codeOf body ++ codeOf (epilogueItems c.labelCount)) := by
    rw [codeOf_append, codeOf_append, hpro]
    simp
  have hprog : codeOf r.items = (codeOf (dataItems p) ++ .textSection :: before ++
      [.globl decl.ident]) ++ .symbol decl.ident ::
        (code ++ codeOf body ++ codeOf (epilogueItems c.labelCount) ++ behind) := by
    rw [hitems, codeOf_append, codeOf_cons, hsplit, hr]
    simp only [hlines]
    simp
  refine ⟨c, c', body, _, code ++ codeOf body ++ codeOf (epilogueItems c.labelCount) ++ behind,
    behind, hglobals, hparams, hbody, ⟨?_, ?_, (genProgram_lines hgen).2.1⟩, ?_⟩
  · rw [hlines]
    rfl
  · rw [hprog]
    exact (List.suffix_cons _ _).trans (List.suffix_append _ _)
  · rw [hprog]
    refine findEntry_of_nodup ?_
    rw [← hprog, genProgram_symbols hgen]
    exact hnames

end program

/-! ## Calls -/

/-- The stack that one call of a function of the program takes at most: its return address and what
the function itself uses. -/
def Program.callBytes (p : Program) : Nat :=
  (funcsOf p).foldr (fun decl n => max (8 + stackBytes decl) n) 0

theorem le_callBytes {p : Program} {decl : FuncDecl} (h : decl ∈ funcsOf p) :
    8 + stackBytes decl ≤ p.callBytes := by
  unfold Program.callBytes
  generalize funcsOf p = decls at h
  induction decls with
  | nil => exact absurd h (by simp)
  | cons first decls ih =>
    rw [List.foldr_cons]
    rcases List.mem_cons.mp h with rfl | h
    · exact Nat.le_max_left _ _
    · exact (ih h).trans (Nat.le_max_right _ _)

theorem Program.func_spec {p : Program} {f : CString} {decl : FuncDecl} (h : p.func f = some decl) :
    decl ∈ funcsOf p ∧ decl.ident = f :=
  ⟨List.mem_of_find?_eq_some h, by simpa using List.find?_some h⟩

theorem argsIn_pushWord {s : State} {w : Word} {args : List Word} (h : ArgsIn s args) :
    ArgsIn (s.pushWord w) args := by
  intro i id v hid hv
  have hne : id ≠ .rsp := fun he => not_mem_argRegs_take (by decide) 6
    (he ▸ List.mem_reverse.mpr (List.mem_of_getElem? hid))
  rw [pushWord_regs hne]
  exact h i id v hid hv

section calls
variable {I : Image} {p : Program} {r : Emitted AsmCtx Item Unit} {lo top : Nat}
  (hgen : genProgram p asmInit = .ok r) (hnames : p.names.Nodup)
  (hstack : StackFor I.sym ((globalsOf p).map VarDecl.ident) lo top)
include hgen hnames hstack

/-- A function that is entered returns, if the calls in it do. -/
theorem returns_of_call {callee : Callees} {bytes : Nat}
    (hserves : Serves I (codeOf r.items) ((globalsOf p).map VarDecl.ident) callee bytes lo top)
    {f : CString} {decl : FuncDecl} (hf : p.func f = some decl) {s : State} {args : List Word}
    {g g' : CString → Option Word} {v : Word} (hargs : ArgsIn s args)
    (hglobals : GlobalsIn I.sym ((globalsOf p).map VarDecl.ident) s.mem g)
    (hlo : lo + bytes + stackBytes decl ≤ (s.regs .rsp).toNat) (hhi : (s.regs .rsp).toNat ≤ top)
    (hrun : runFuncIn callee decl args g = some (v, g')) :
    ∃ entry behind s', findEntry f (codeOf r.items) = some entry ∧
      LinkedSteps I (codeOf r.items) ⟨s, entry⟩ ⟨s', .instr .ret :: behind⟩ ∧
        Returns I.sym ((globalsOf p).map VarDecl.ident) s s' v g' := by
  obtain ⟨hdecl, rfl⟩ := Program.func_spec hf
  obtain ⟨w⟩ := genProgram_placement hgen hnames hdecl
  obtain ⟨s', hsteps, hret⟩ := returns_of_entry hserves hstack w.globals w.params w.code w.stands
    hargs hglobals hlo hhi hrun
  exact ⟨w.entry, w.behind, s', w.found, hsteps, hret⟩

/-- **Every call comes back with what the interpreter says**, on a stack that has room for calls of
that depth. -/
theorem serves_callProgram (n : Nat) :
    Serves I (codeOf r.items) ((globalsOf p).map VarDecl.ident) (callProgram p n)
      (n * p.callBytes) lo top := by
  induction n with
  | zero => exact fun hcall => absurd hcall (by simp [callProgram])
  | succ n ih =>
    intro f vs g g' v s k hcall hk hargs hglobals hlo hhi
    rw [callProgram, Option.bind_eq_some_iff] at hcall
    obtain ⟨decl, hf, hrun⟩ := hcall
    have hbytes := le_callBytes (Program.func_spec hf).1
    rw [Nat.succ_mul] at hlo
    have hroom : 8 ≤ (s.regs .rsp).toNat := by omega
    have hsub : (s.regs .rsp - 8).toNat = (s.regs .rsp).toNat - 8 := by bv_omega
    -- the return address is pushed
    let s₀ : State := s.pushWord (I.place k.length)
    have hsp₀ : s₀.regs .rsp = s.regs .rsp - 8 := pushWord_rsp
    have hglobals₀ : GlobalsIn I.sym ((globalsOf p).map VarDecl.ident) s₀.mem g := by
      refine ⟨fun x => ?_⟩
      rw [hglobals.holds x]
      by_cases hx : x ∈ (globalsOf p).map VarDecl.ident
      · rw [if_pos hx, if_pos hx]
        refine congrArg some (Lib.Mem.load64_congr fun a ha => (pushWord_mem hroom fun hwin => ?_).symm)
        exact hstack.outside x hx a ha ⟨by omega, by omega⟩
      · rw [if_neg hx, if_neg hx]
    obtain ⟨entry, behind, s', hfound, hsteps, hret⟩ := returns_of_call hgen hnames hstack ih hf
      (argsIn_pushWord hargs) hglobals₀ (by rw [hsp₀, hsub]; omega) (by rw [hsp₀, hsub]; omega) hrun
    -- it is still on top of the stack
    have haddr : load64 s'.mem (s'.regs .rsp) = I.place k.length := by
      rw [hret.rsp, hsp₀, ← load_pushWord (s := s) (w := I.place k.length)]
      refine Lib.Mem.load64_congr fun x hx => ?_
      have hlt := (s.regs .rsp).isLt
      rw [inCell_iff (by omega)] at hx
      exact hret.mem x (by rw [hsp₀]; exact hx.1) fun y hy hcell =>
        hstack.outside y hy x hcell ⟨by omega, by omega⟩
    have hk' : k <:+ codeOf r.items := (List.suffix_cons _ _).trans hk
    refine ⟨s'.set .rsp (s'.regs .rsp + 8), ?_, hret.rax, hret.globals, ?_, ?_, fun x hx hgs => ?_⟩
    · exact .head (.call hfound) (hsteps.tail (.ret hk' haddr))
    · rw [State.set_regs, if_neg (by decide), hret.rbp, pushWord_regs (by decide)]
    · rw [State.set_regs_same, hret.rsp, hsp₀]
      bv_omega
    · show s'.mem x = s.mem x
      rw [hret.mem x (by rw [hsp₀, hsub]; omega) hgs]
      exact pushWord_mem hroom (by omega)

end calls

/-! ## The globals of a loaded program -/

section globals
variable {sym : CString → Word} {base : Nat} {p : Program} {g : CString → Option Word}

theorem VarDecl.initial_spec {decl : VarDecl} {w : Word} (h : decl.initial = some w) :
    typeSize decl.type = 8 ∧ w = BitVec.ofInt 64 (globalValue decl) := by
  obtain ⟨x, type, assign⟩ := decl
  unfold VarDecl.initial at h
  by_cases ht : type.isQword = true
  · rw [if_pos ht] at h
    simp only [VarT.isQword, Bool.and_eq_true, decide_eq_true_eq] at ht
    refine ⟨by rw [typeSize, ht.1], ?_⟩
    cases assign with
    | none => exact (Option.some.inj h).symm
    | some e =>
      cases e with
      | literal lit =>
        by_cases hlit : lit.strValue.isNone = true
        · simp only [hlit, if_true] at h
          exact (Option.some.inj h).symm
        · simp only [hlit] at h
          exact absurd h (by simp)
      | _ => exact absurd h (by simp)
  · rw [if_neg ht] at h
    exact absurd h (by simp)

theorem Program.initial_spec (hg : p.initial = some g) :
    (∀ decl ∈ globalsOf p, ∃ w, decl.initial = some w) ∧
      ∀ x, g x = ((globalsOf p).find? fun decl => decl.ident = x).bind VarDecl.initial := by
  unfold Program.initial at hg
  by_cases hall : ((globalsOf p).all fun decl => decl.initial.isSome) = true
  · rw [if_pos hall] at hg
    rw [List.all_eq_true] at hall
    exact ⟨fun decl hdecl => Option.isSome_iff_exists.mp (hall decl hdecl),
      fun x => congrFun (Option.some.inj hg).symm x⟩
  · rw [if_neg hall] at hg
    exact absurd hg (by simp)

/-- The globals of the fragment are eight bytes wide. -/
theorem globalCells_wide (hg : p.initial = some g) :
    ∀ cell ∈ globalCells 0 (globalsOf p), cell.bytes = 8 := by
  intro cell hcell
  obtain ⟨decl, hdecl, _, hbytes, _⟩ :=
    exists_of_forall₂ (globalCells_forall₂ (globalsOf p) 0).flip cell hcell
  obtain ⟨w, hw⟩ := (Program.initial_spec hg).1 decl hdecl
  rw [hbytes, (VarDecl.initial_spec hw).1]

/-- A loaded program holds its globals. -/
theorem globalsIn_of_loaded (hlaid : LaidOut sym base (globalCells 0 (globalsOf p)))
    (hg : p.initial = some g) {m : Mem} (hm : Loaded sym (globalCells 0 (globalsOf p)) m) :
    GlobalsIn sym ((globalsOf p).map VarDecl.ident) m g := by
  have horder : InOrder (globalCells 0 (globalsOf p)) := globalCells_pairwise _ 0
  obtain ⟨hinit, hvalue⟩ := Program.initial_spec hg
  refine ⟨fun x => ?_⟩
  rw [hvalue x]
  cases hfind : (globalsOf p).find? fun decl => decl.ident = x with
  | none =>
    rw [List.find?_eq_none] at hfind
    rw [if_neg, Option.bind_none]
    intro hx
    obtain ⟨decl, hdecl, rfl⟩ := List.mem_map.mp hx
    exact hfind decl hdecl (decide_eq_true rfl)
  | some decl =>
    have hdecl := List.mem_of_find?_eq_some hfind
    obtain rfl : decl.ident = x := by simpa using List.find?_some hfind
    obtain ⟨w, hw⟩ := hinit decl hdecl
    obtain ⟨cell, hcell, hname, _, hval⟩ :=
      exists_of_forall₂ (globalCells_forall₂ (globalsOf p) 0) decl hdecl
    have hload := holdsCells_of_loaded hlaid horder (globalCells_wide hg) hm cell hcell
    rw [initialOf_mem hlaid horder hcell, hname, hval] at hload
    rw [if_pos (List.mem_map_of_mem hdecl), hload, ← (VarDecl.initial_spec hw).2, Option.bind_some,
      hw]

/-- The stack next to the data of a program. -/
theorem stackFor_of_laidOut (hlaid : LaidOut sym base (globalCells 0 (globalsOf p)))
    (hg : p.initial = some g) {lo top : Nat}
    (haway : ∀ cell ∈ globalCells 0 (globalsOf p), ∀ x, cell.Owns sym x →
      ¬ (lo ≤ x.toNat ∧ x.toNat < top)) :
    StackFor sym ((globalsOf p).map VarDecl.ident) lo top := by
  have hwide := globalCells_wide hg
  have hcell : ∀ x ∈ (globalsOf p).map VarDecl.ident, ∃ cell ∈ globalCells 0 (globalsOf p),
      cell.name = x := by
    intro x hx
    obtain ⟨decl, hdecl, rfl⟩ := List.mem_map.mp hx
    obtain ⟨cell, hmem, hname, _⟩ :=
      exists_of_forall₂ (globalCells_forall₂ (globalsOf p) 0) decl hdecl
    exact ⟨cell, hmem, hname⟩
  refine ⟨fun x hx y hy hne => ?_, fun x hx a ha => ?_⟩
  · obtain ⟨cell, hmem, rfl⟩ := hcell x hx
    obtain ⟨cell', hmem', rfl⟩ := hcell y hy
    exact hlaid.cells_apart (globalCells_pairwise _ 0) hwide hmem hmem' hne
  · obtain ⟨cell, hmem, rfl⟩ := hcell x hx
    exact haway cell hmem a (by rw [DataCell.Owns, hwide cell hmem]; exact ha)

end globals

/-! ## Programs -/

/-- The linker has put the program somewhere: its data in order, its lines at addresses of their
own. -/
structure Image.Links (I : Image) (lines : List Line) : Prop where
  data : ∃ base, LaidOut I.sym base (dataCells 0 lines)
  code : ∀ i j, i ≤ lines.length → j ≤ lines.length → I.place i = I.place j → i = j

/-- One of the functions of a linked program is called: its data is in memory, the arguments are in
their registers, and of the stack there are `bytes` left below, clear of the data. -/
structure Starts (I : Image) (lines : List Line) (args : List Word) (bytes : Nat) (s : State) :
    Prop where
  loaded : Loaded I.sym (dataCells 0 lines) s.mem
  args : ArgsIn s args
  room : bytes ≤ (s.regs .rsp).toNat
  away : ∀ cell ∈ dataCells 0 lines, ∀ x, cell.Owns I.sym x →
    ¬ ((s.regs .rsp).toNat - bytes ≤ x.toNat ∧ x.toNat < (s.regs .rsp).toNat)

/-- What a step of a function on its own leads to. -/
def stepTarget (I : Image) (prog : List Line) : Config → Option Config
  | ⟨s, .instr (.jmp n) :: _⟩ => (findLabel n prog).map fun k => ⟨s, k⟩
  | ⟨s, .instr (.je n) :: k⟩ => do
    let (a, b) ← s.flags
    if a = b then (findLabel n prog).map fun k => ⟨s, k⟩ else some ⟨s, k⟩
  | ⟨s, .instr i :: k⟩ => (execInstr I.sym s i).map fun s' => ⟨s', k⟩
  | ⟨s, _ :: k⟩ => some ⟨s, k⟩
  | ⟨_, []⟩ => none

theorem Step.target {I : Image} {prog : List Line} {cfg cfg' : Config}
    (h : Step I.world prog cfg cfg') : stepTarget I prog cfg = some cfg' := by
  cases h with
  | @mark s l k hl => cases l <;> first | rfl | exact absurd hl (by simp [Line.isMark])
  | @instr s s' i k hi =>
    have hmap : (execInstr I.sym s i).map (fun s' => Config.mk s' k) = some ⟨s', k⟩ :=
      congrArg (Option.map fun s' => Config.mk s' k) hi
    cases i <;> first | exact hmap | exact absurd hi (by simp [execInstr])
  | call hcall => exact absurd hcall (by simp [Image.world])
  | jmp hfind => simp [stepTarget, hfind]
  | jeTaken hf hfind => simp [stepTarget, hf, hfind]
  | jePassed hf hab => simp [stepTarget, hf, hab]

/-- Where no two places share an address, the machine has one way to go on. -/
theorem linkedStep_rightUnique {I : Image} {prog : List Line}
    (hcode : ∀ i j, i ≤ prog.length → j ≤ prog.length → I.place i = I.place j → i = j) :
    Relator.RightUnique (LinkedStep I prog) := by
  intro cfg cfg₁ cfg₂ h₁ h₂
  have hcall : ∀ {s : State} {f : CString} {k : List Line} {cfg : Config},
      ¬ Step I.world prog ⟨s, .instr (.call f) :: k⟩ cfg := by
    intro s f k cfg h
    exact absurd h.target (by simp [stepTarget, execInstr])
  have hret : ∀ {s : State} {k : List Line} {cfg : Config},
      ¬ Step I.world prog ⟨s, .instr .ret :: k⟩ cfg := by
    intro s k cfg h
    exact absurd h.target (by simp [stepTarget, execInstr])
  cases h₁ with
  | inner h₁ =>
    cases h₂ with
    | inner h₂ => exact Option.some.inj (h₁.target.symm.trans h₂.target)
    | call _ => exact absurd h₁ hcall
    | ret _ _ => exact absurd h₁ hret
  | call hfind =>
    cases h₂ with
    | inner h₂ => exact absurd h₂ hcall
    | call hfind' => rw [Option.some.inj (hfind.symm.trans hfind')]
  | ret hk haddr =>
    cases h₂ with
    | inner h₂ => exact absurd h₂ hret
    | ret hk' haddr' =>
      have hlen := hcode _ _ hk.length_le hk'.length_le (haddr.symm.trans haddr')
      have hsame := (List.suffix_of_suffix_length_le hk hk' (Nat.le_of_eq hlen)).eq_of_length hlen
      rw [hsame]

/-- A linked program comes to the `ret` of the function it is entered at. -/
theorem genProgram_returns {p : Program} {r : Emitted AsmCtx Item Unit}
    (hgen : genProgram p asmInit = .ok r) (hnames : p.names.Nodup) {I : Image}
    (hlinks : I.Links (codeOf r.items)) {n : Nat} {f : CString} {args : List Word} {v : Word}
    {g' : CString → Option Word} (hrun : runProgram p n f args = some (v, g')) {s : State}
    (hs : Starts I (codeOf r.items) args (n * p.callBytes) s) :
    ∃ entry behind s', findEntry f (codeOf r.items) = some entry ∧
      LinkedSteps I (codeOf r.items) ⟨s, entry⟩ ⟨s', .instr .ret :: behind⟩ ∧
        Returns I.sym ((globalsOf p).map VarDecl.ident) s s' v g' := by
  obtain ⟨⟨base, hlaid⟩, _⟩ := hlinks
  obtain ⟨hloaded, hargs, hroom, haway⟩ := hs
  rw [(genProgram_eq_ok hgen).1] at hlaid hloaded haway
  rw [runProgram, Option.bind_eq_some_iff] at hrun
  obtain ⟨g, hg, hcall⟩ := hrun
  have hstack := stackFor_of_laidOut hlaid hg haway
  have hglobals := globalsIn_of_loaded hlaid hg hloaded
  cases n with
  | zero => exact absurd hcall (by simp [callProgram])
  | succ n =>
    rw [callProgram, Option.bind_eq_some_iff] at hcall
    obtain ⟨decl, hf, hbody⟩ := hcall
    have hbytes := le_callBytes (Program.func_spec hf).1
    rw [Nat.succ_mul] at hroom
    exact returns_of_call hgen hnames hstack (serves_callProgram hgen hnames hstack n) hf hargs
      hglobals (by rw [Nat.succ_mul]; omega) (Nat.le_refl _) hbody

/-- **A compiled program does what the interpreter does**: linked, loaded and entered at one of its
functions with room for the calls on the stack, it comes to the `ret` of that function with the
interpreter's result and globals, with `%rbp` and `%rsp` as on entry and the memory above as it was;
and no run of it does anything else. -/
theorem genProgram_preserves (p : Program) (r : Emitted AsmCtx Item Unit)
    (hgen : genProgram p asmInit = .ok r) (hnames : p.names.Nodup) (I : Image)
    (hlinks : I.Links (codeOf r.items)) (n : Nat) (f : CString) (args : List Word) (v : Word)
    (g' : CString → Option Word) (hrun : runProgram p n f args = some (v, g')) (s : State)
    (hs : Starts I (codeOf r.items) args (n * p.callBytes) s) :
    ∃ entry behind s', findEntry f (codeOf r.items) = some entry ∧
      LinkedSteps I (codeOf r.items) ⟨s, entry⟩ ⟨s', .instr .ret :: behind⟩ ∧
        Returns I.sym ((globalsOf p).map VarDecl.ident) s s' v g' ∧
          ∀ cfg, LinkedSteps I (codeOf r.items) ⟨s, entry⟩ cfg →
            LinkedSteps I (codeOf r.items) cfg ⟨s', .instr .ret :: behind⟩ ∨
              LinkedSteps I (codeOf r.items) ⟨s', .instr .ret :: behind⟩ cfg := by
  obtain ⟨entry, behind, s', hfound, hsteps, hret⟩ := genProgram_returns hgen hnames hlinks hrun hs
  refine ⟨entry, behind, s', hfound, hsteps, hret, fun cfg hcfg => ?_⟩
  exact (hsteps.total_of_right_unique (linkedStep_rightUnique hlinks.code) hcfg).symm

/-- `let QWORD calls = 0; fn QWORD fib(QWORD n) { calls = calls + 1; if (n <= 1) { return n; }
return call fib(n - 1) + call fib(n - 2); }`. -/
def fibProgram : Program :=
  [.varDecl ⟨ascii "calls", ⟨.lit .litQword, false, 0⟩, some (.literal ⟨0, none⟩)⟩,
    .funcDecl ⟨ascii "fib", ⟨.lit .litQword, false, 0⟩,
      [⟨ascii "n", ⟨.lit .litQword, false, 0⟩⟩],
      [.expr (.assign (.identifier (ascii "calls"))
          (.binary .bAdd (.identifier (ascii "calls")) (.literal ⟨1, none⟩))),
        .ifStmt (.binary .bLeq (.identifier (ascii "n")) (.literal ⟨1, none⟩))
          [.returnStmt (.identifier (ascii "n"))] none,
        .returnStmt (.binary .bAdd
          (.call (ascii "fib") [.binary .bSub (.identifier (ascii "n")) (.literal ⟨1, none⟩)])
          (.call (ascii "fib") [.binary .bSub (.identifier (ascii "n")) (.literal ⟨2, none⟩)]))]⟩]

/-- The counter is at 4096, and the lines are numbered. -/
def fibImage : Image := ⟨fun _ => 4096, fun n => BitVec.ofNat 64 n⟩

/-- A state in which `fib(4)` is called. -/
def callFib : State :=
  ⟨fun id => if id = .rdi then 4 else if id = .rsp then 65536 else 0, none, fun _ => 0⟩

section fib
variable {lines : List Line} (hdata : dataCells 0 lines = [⟨ascii "calls", 0, .quad, 0⟩])
include hdata

theorem fibImage_links (hlen : lines.length = 61) : fibImage.Links lines := by
  refine ⟨⟨4096, ?_⟩, fun i j hi hj hplace => ?_⟩
  · rw [hdata]
    exact ⟨by decide, by decide⟩
  · have hnat := congrArg BitVec.toNat hplace
    simp only [fibImage, BitVec.toNat_ofNat] at hnat
    omega

theorem starts_callFib : Starts fibImage lines [4] 224 callFib := by
  have hargs : ArgsIn callFib [4] := argsIn_of_zip (by decide)
  refine ⟨?_, hargs, by decide +kernel, ?_⟩
  · rw [hdata]
    simp [Loaded, callFib]
  · rw [hdata]
    intro cell hcell x hx hwin
    obtain rfl := List.mem_singleton.mp hcell
    have hrsp : (callFib.regs .rsp).toNat = 65536 := rfl
    have hlow : (x - 4096).toNat < 8 := hx
    rw [hrsp] at hwin
    bv_omega

end fib

/-- The compiled `fib(4)` is 3, after nine calls. -/
theorem genProgram_preserves_fib : ∃ r entry behind s',
    genProgram fibProgram asmInit = .ok r ∧ findEntry (ascii "fib") (codeOf r.items) = some entry ∧
      LinkedSteps fibImage (codeOf r.items) ⟨callFib, entry⟩ ⟨s', .instr .ret :: behind⟩ ∧
        s'.regs .rax = 3 ∧ load64 s'.mem 4096 = 9 := by
  have hlen : (match genProgram fibProgram asmInit with
    | .ok r => (codeOf r.items).length
    | .error _ => 0) = 61 := by decide +kernel
  have hvalue : (runProgram fibProgram 4 (ascii "fib") [4]).map
      (fun r => (r.1, r.2 (ascii "calls"))) = some (3, some 9) := by decide +kernel
  obtain ⟨⟨v, g'⟩, hrun, heq⟩ := Option.map_eq_some_iff.mp hvalue
  obtain ⟨rfl, hcalls⟩ := Prod.mk.inj heq
  cases hgen : genProgram fibProgram asmInit with
  | error e => exact absurd (hgen ▸ hlen) (by simp)
  | ok r =>
    simp only [hgen] at hlen
    have hdata : dataCells 0 (codeOf r.items) = [⟨ascii "calls", 0, .quad, 0⟩] :=
      (genProgram_eq_ok hgen).1
    have hbytes : 4 * fibProgram.callBytes = 224 := by decide +kernel
    obtain ⟨entry, behind, s', hfound, hsteps, hret, _⟩ := genProgram_preserves fibProgram r hgen
      (by decide +kernel) fibImage (fibImage_links hdata hlen) 4 (ascii "fib") [4] 3 g' hrun callFib
        (hbytes ▸ starts_callFib hdata)
    refine ⟨r, entry, behind, s', rfl, hfound, hsteps, hret.rax, ?_⟩
    have hcell := hret.globals (ascii "calls")
    rw [if_pos (by decide +kernel)] at hcell
    exact (Option.some.inj (hcalls.symm.trans hcell)).symm

end ACompiler
