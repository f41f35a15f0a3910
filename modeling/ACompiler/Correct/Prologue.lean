import ACompiler.Assembler.Frame
import ACompiler.Correct.Call

/-!
# Entering a function

The prologue saves `%rbp`, reserves the frame and spills the argument registers; behind it the slot
of every parameter holds the value its register had at entry (`prologue_steps`), and the name of a
parameter resolves to its slot when the names are distinct (`findSymbol_param`).
-/

namespace ACompiler

open Lib (Word Mem)
open Lib.Mem (load64 store64 InCell Apart load64_store64_of_apart store64_of_not_inCell)

/-! ## The symbols of the parameters -/

/-- The symbols of the parameters, from the offset `o` down. -/
def paramSymbols : Int → List FuncParam → List Symbol
  | _, [] => []
  | o, p :: params => ⟨p.ident, o - 8, p.type, false⟩ :: paramSymbols (o - 8) params

theorem paramSymbols_getElem? (params : List FuncParam) : ∀ (o : Int) (i : Nat),
    (paramSymbols o params)[i]? =
      params[i]?.map fun p => ⟨p.ident, o - 8 * (i + 1), p.type, false⟩ := by
  induction params with
  | nil => intro o i; simp [paramSymbols]
  | cons p params ih =>
    intro o i
    cases i with
    | zero => simp [paramSymbols]
    | succ i =>
      rw [paramSymbols, List.getElem?_cons_succ, List.getElem?_cons_succ, ih]
      congr 1
      funext p
      congr 1
      push_cast
      omega

theorem paramSymbols_names (params : List FuncParam) : ∀ o : Int,
    (paramSymbols o params).map Symbol.name = params.map FuncParam.ident := by
  induction params with
  | nil => intro o; rfl
  | cons p params ih => intro o; simp [paramSymbols, ih]

theorem declare_of_cons {c : AsmCtx} {s : Scope} {scopes : List Scope}
    (h : c.scopeStk = s :: scopes) (name : CString) (type : VarT) :
    c.declare name type = { c with
      curOffset := c.curOffset - 8
      scopeStk := s.addSymbol ⟨name, c.curOffset - 8, type, false⟩ :: scopes } := by
  simp only [AsmCtx.declare, h]

/-- Declaring the parameters puts their symbols into the innermost scope. -/
theorem declareParams_scopeStk (params : List FuncParam) : ∀ {c : AsmCtx} {s : Scope}
    {scopes : List Scope}, c.scopeStk = s :: scopes →
      (c.declareParams params).curOffset = c.curOffset - 8 * params.length ∧
        ∃ s', (c.declareParams params).scopeStk = s' :: scopes ∧
          s'.defined = (paramSymbols c.curOffset params).reverse ++ s.defined := by
  induction params with
  | nil =>
    intro c s scopes h
    exact ⟨by simp [AsmCtx.declareParams], s, h, by simp [paramSymbols]⟩
  | cons p params ih =>
    intro c s scopes h
    rw [AsmCtx.declareParams, declare_of_cons h]
    obtain ⟨hoff, s', hs', hdef⟩ := ih (c := { c with
      curOffset := c.curOffset - 8
      scopeStk := s.addSymbol ⟨p.ident, c.curOffset - 8, p.type, false⟩ :: scopes }) rfl
    refine ⟨?_, s', hs', ?_⟩
    · rw [hoff, List.length_cons]
      push_cast
      omega
    · rw [hdef]
      simp [paramSymbols, Scope.addSymbol]

/-- The locals of a body are its parameters. -/
theorem bodyCtx_locals (decl : FuncDecl) {c : AsmCtx} (hc : c.GlobalsOnly) :
    (c.bodyCtx decl).locals = (paramSymbols 0 decl.params).reverse := by
  have henter : c.funcCtx.enter.scopeStk = newScope c.funcCtx.curOffset :: c.scopeStk := rfl
  obtain ⟨_, s', hs', hdef⟩ := declareParams_scopeStk decl.params henter
  have hlocals : (c.scopeStk.flatMap Scope.defined).filter (fun v => !v.isGlobal) = [] := hc
  have hparams : ∀ v ∈ paramSymbols 0 decl.params, v.isGlobal = false := by
    intro v hv
    obtain ⟨i, hi⟩ := List.getElem?_of_mem hv
    rw [paramSymbols_getElem?, Option.map_eq_some_iff] at hi
    obtain ⟨p, _, rfl⟩ := hi
    rfl
  have hoff : c.funcCtx.enter.curOffset = 0 := rfl
  rw [hoff] at hdef
  have hnew : (newScope c.funcCtx.curOffset).defined = [] := rfl
  rw [AsmCtx.locals, AsmCtx.bodyCtx, hs', List.flatMap_cons, List.filter_append, hlocals,
    List.append_nil, hdef, hnew, List.append_nil, List.filter_eq_self]
  intro v hv
  simp [hparams v (List.mem_reverse.mp hv)]

/-- A symbol of a list with distinct names is the one its name finds. -/
theorem find?_of_nodup {l : List Symbol} (h : (l.map Symbol.name).Nodup) {v : Symbol}
    (hv : v ∈ l) : l.find? (fun s => s.name = v.name) = some v := by
  induction l with
  | nil => simp at hv
  | cons w l ih =>
    rw [List.map_cons, List.nodup_cons] at h
    rw [List.find?_cons]
    rcases List.mem_cons.mp hv with rfl | hv
    · simp
    · have hne : w.name ≠ v.name := fun he => h.1 (he ▸ List.mem_map_of_mem hv)
      simp [hne, ih h.2 hv]

/-- The name of the `i`-th parameter resolves to its slot. -/
theorem findSymbol_param {decl : FuncDecl} (c : AsmCtx)
    (hnodup : (decl.params.map FuncParam.ident).Nodup) {i : Nat} {p : FuncParam}
    (hp : decl.params[i]? = some p) :
    findSymbol (c.bodyCtx decl) p.ident = some ⟨p.ident, -(8 * (i + 1)), p.type, false⟩ := by
  have henter : c.funcCtx.enter.scopeStk = newScope c.funcCtx.curOffset :: c.scopeStk := rfl
  obtain ⟨_, s', hs', hdef⟩ := declareParams_scopeStk decl.params henter
  have hoff : c.funcCtx.enter.curOffset = 0 := rfl
  rw [hoff] at hdef
  have hmem : (⟨p.ident, -(8 * (i + 1)), p.type, false⟩ : Symbol) ∈ s'.defined := by
    rw [hdef]
    have h := paramSymbols_getElem? decl.params 0 i
    rw [hp, Option.map_some, Int.zero_sub] at h
    simpa [newScope] using List.mem_of_getElem? h
  have hnames : (s'.defined.map Symbol.name).Nodup := by
    rw [hdef]
    simpa [newScope, paramSymbols_names, List.nodup_reverse] using hnodup
  have hfind := find?_of_nodup hnames hmem
  rw [AsmCtx.bodyCtx, findSymbol_of_cons hs', hfind]
  rfl

/-! ## The run of the prologue -/

variable {W : World} {prog : List Line}

/-- The spills write the registers into the slots and touch nothing else. -/
theorem exec_paramItems (params : List FuncParam) : ∀ (ids : List RegId) {c : AsmCtx} {s : State},
    c.scopeStk ≠ [] → params.length ≤ ids.length → params.length ≤ 6 →
      ∃ s', Exec W (codeOf (c.paramItems ids params)) s [] s' ∧ s'.regs = s.regs ∧
        (∀ i, i < params.length → ∀ id, ids[i]? = some id →
          load64 s'.mem (s.regs .rbp + BitVec.ofInt 64 (c.curOffset - 8 * (i + 1))) = s.regs id) ∧
        ∀ x, (∀ i : Nat, i < params.length →
          ¬ InCell (s.regs .rbp + BitVec.ofInt 64 (c.curOffset - 8 * (i + 1))) x) →
            s'.mem x = s.mem x := by
  induction params with
  | nil =>
    intro ids c s _ _ _
    refine ⟨s, ?_, rfl, by simp, fun _ _ => rfl⟩
    cases ids <;> exact .nil
  | cons p params ih =>
    intro ids c s hstk hlen hsix
    cases ids with
    | nil => simp at hlen
    | cons id ids =>
      rw [List.length_cons, List.length_cons] at hlen
      rw [List.length_cons] at hsix
      let s₁ := s.store (s.regs .rbp + BitVec.ofInt 64 (c.curOffset - 8)) (s.regs id)
      have hoff := declare_curOffset p.ident p.type hstk
      obtain ⟨s', hrun, hregs, hload, hmem⟩ := ih ids (s := s₁)
        (declare_scopeStk p.ident p.type hstk) (by omega) (by omega)
      rw [hoff] at hload hmem
      have hshift : ∀ i : Nat, c.curOffset - 8 - 8 * ((i : Int) + 1) =
          c.curOffset - 8 * (((i + 1 : Nat) : Int) + 1) := by
        intro i
        push_cast
        omega
      refine ⟨s', .instr rfl hrun, hregs, ?_, ?_⟩
      · intro i hi id' hid'
        cases i with
        | zero =>
          simp only [List.getElem?_cons_zero, Option.some.injEq] at hid'
          subst hid'
          have hself : load64 s'.mem (s.regs .rbp + BitVec.ofInt 64 (c.curOffset - 8)) =
              load64 s₁.mem (s.regs .rbp + BitVec.ofInt 64 (c.curOffset - 8)) := by
            apply Lib.Mem.load64_congr
            intro x hx
            refine hmem x fun j hj hcell => ?_
            have hapart := Lib.Mem.apart_of_offsets (s.regs .rbp) (p := c.curOffset - 8)
              (q := c.curOffset - 8 - 8 * ((j : Int) + 1)) (by omega) (by omega) (by omega)
            exact hapart.not_inCell hx hcell
          simpa [s₁] using hself
        | succ i =>
          rw [List.getElem?_cons_succ] at hid'
          rw [List.length_cons] at hi
          have h := hload i (by omega) id' hid'
          rw [hshift] at h
          exact h
      · intro x hx
        rw [hmem x fun i hi => ?_]
        · have h0 := hx 0 (by simp)
          exact store64_of_not_inCell (by simpa using h0)
        · have h := hx (i + 1) (by rw [List.length_cons]; omega)
          rw [hshift]
          exact h

/-! ## The frame -/

/-- The slot of the `i`-th parameter, in a frame entered with that `%rsp`. -/
def paramSlot (rsp : Word) (i : Nat) : Word := rsp - 8 + BitVec.ofInt 64 (-(8 * (i + 1)))

/-- The state behind the prologue of a function entered in `s`. -/
structure Entered (decl : FuncDecl) (s s' : State) : Prop where
  rbp : s'.regs .rbp = s.regs .rsp - 8
  rsp : s'.regs .rsp = s.regs .rsp - 8 - BitVec.ofNat 64 (computeFrameSize decl)
  saved : load64 s'.mem (s.regs .rsp - 8) = s.regs .rbp
  slots : ∀ i, i < decl.params.length → ∀ id, argRegs[i]? = some id →
    load64 s'.mem (paramSlot (s.regs .rsp) i) = s.regs id
  frame : ∀ x, ¬ InCell (s.regs .rsp - 8) x →
    (∀ i, i < decl.params.length → ¬ InCell (paramSlot (s.regs .rsp) i) x) → s'.mem x = s.mem x

/-- The state behind the lines before the spills. -/
def State.framed (s : State) (frame : Nat) : State :=
  let s₁ := (s.store (s.regs .rsp - 8) (s.regs .rbp)).set .rsp (s.regs .rsp - 8)
  let s₂ := s₁.set .rbp (s.regs .rsp - 8)
  if frame > 0 then s₂.clobber.set .rsp (s.regs .rsp - 8 - BitVec.ofNat 64 frame) else s₂

theorem framed_regs (s : State) (frame : Nat) :
    (s.framed frame).regs .rbp = s.regs .rsp - 8 ∧
      (s.framed frame).regs .rsp = s.regs .rsp - 8 - BitVec.ofNat 64 frame ∧
      (s.framed frame).mem = store64 s.mem (s.regs .rsp - 8) (s.regs .rbp) ∧
      ∀ id, id ≠ .rsp → id ≠ .rbp → (s.framed frame).regs id = s.regs id := by
  by_cases h : frame > 0
  · simp only [State.framed, if_pos h]
    refine ⟨?_, ?_, rfl, ?_⟩
    · simp [State.set_regs]
    · simp
    · intro id h₁ h₂
      simp [State.set_regs, h₁, h₂]
  · have h0 : frame = 0 := by omega
    subst h0
    simp only [State.framed, if_neg h]
    refine ⟨?_, ?_, rfl, ?_⟩
    · simp
    · simp [State.set_regs]
    · intro id h₁ h₂
      simp [State.set_regs, h₁, h₂]

theorem execLines_prologueItems (sym : CString → Word) (decl : FuncDecl) (c : AsmCtx) (s : State) :
    execLines sym (codeOf (prologueItems decl c)) s = some (s.framed (computeFrameSize decl)) := by
  by_cases h : computeFrameSize decl > 0
  · simp only [prologueItems, State.framed, if_pos h]
    rfl
  · simp only [prologueItems, State.framed, if_neg h]
    rfl

variable (W prog) in
/-- **The prologue spills the arguments into the slots of the parameters.** -/
theorem prologue_steps {decl : FuncDecl} (hparams : decl.params.length ≤ 6) (c : AsmCtx)
    (s : State) (k : List Line) :
    ∃ s', Steps W prog ⟨s, codeOf (prologueItems decl c ++ spillItems decl) ++ k⟩ ⟨s', k⟩ ∧
      Entered decl s s' := by
  obtain ⟨hbp, hsp, hmem, hregs⟩ := framed_regs s (computeFrameSize decl)
  obtain ⟨s', hrun, hregs', hload, hframe⟩ := exec_paramItems (W := W) decl.params
    argRegs (c := ⟨4, [newScope 0], 0, 0, 0, none⟩)
    (s := s.framed (computeFrameSize decl)) (by simp) hparams hparams
  rw [hbp] at hload hframe
  have hslot : ∀ i : Nat, s.regs .rsp - 8 + BitVec.ofInt 64 (0 - 8 * ((i : Int) + 1)) =
      paramSlot (s.regs .rsp) i := by
    intro i
    rw [paramSlot, Int.zero_sub]
  refine ⟨s', ?_, ?_, ?_, ?_, ?_, ?_⟩
  · rw [codeOf_append, List.append_assoc]
    exact (steps_of_execLines (execLines_prologueItems W.sym decl c s)).trans (hrun.steps k)
  · rw [hregs', hbp]
  · rw [hregs', hsp]
  · have hsave : load64 s'.mem (s.regs .rsp - 8) =
        load64 (s.framed (computeFrameSize decl)).mem (s.regs .rsp - 8) := by
      apply Lib.Mem.load64_congr
      intro x hx
      refine hframe x fun i hi => ?_
      have hapart := Lib.Mem.apart_of_offsets (s.regs .rsp - 8) (p := 0)
        (q := 0 - 8 * ((i : Int) + 1)) (by omega) (by omega) (by omega)
      have hzero : s.regs .rsp - 8 + BitVec.ofInt 64 0 = s.regs .rsp - 8 := BitVec.add_zero _
      rw [hzero] at hapart
      exact hapart.not_inCell hx
    rw [hsave, hmem, Lib.Mem.load64_store64]
  · intro i hi id hid
    have h := hload i hi id hid
    rw [hslot] at h
    have hid' : id ∈ argRegs := List.mem_of_getElem? hid
    rw [h, hregs id]
    · rintro rfl
      exact absurd hid' (by decide)
    · rintro rfl
      exact absurd hid' (by decide)
  · intro x hsave hslots
    rw [hframe x fun i hi => by rw [hslot]; exact hslots i hi, hmem]
    exact store64_of_not_inCell hsave

end ACompiler
