import ACompiler.Correct.Program
import ACompiler.Correct.Runnable

/-!
# The stack discipline of a linked program

What the stack looks like in every run of a compiled program: control is in the activation of one
function (`At`), under it lie the activations whose calls have not come back (`Callers`), and each
keeps its return address, its `%rbp` and its temporaries until then. So every `ret` goes back behind
its own call (`linked_discipline`), and a run is only ever stuck at a division or at a call of a
function that is not there (`linked_progress`).
-/

namespace ACompiler

open Lib (Word Mem Emitted)
open Lib.Mem (load64 store64 InCell Apart)

/-! ## Runs -/

/-- A call that has not come back: its callee, the lines behind it, and the state in front of it. -/
structure Pending where
  callee : CString
  code : List Line
  rsp : Word
  rbp : Word
  mem : Mem

/-- A run of so many steps from `start` that has not returned, on a stack that ends at `lo`, with the
calls that have not come back, the last one first. -/
inductive Running (I : Image) (prog : List Line) (lo : Nat) (start : Config) :
    Nat → Config → List Pending → Prop
  | start : Running I prog lo start 0 start []
  | inner {n : Nat} {cfg cfg' : Config} {ps : List Pending} (h : Running I prog lo start n cfg ps)
      (hstep : Step I.world prog cfg cfg') (hlo : lo ≤ (cfg'.state.regs .rsp).toNat) :
      Running I prog lo start (n + 1) cfg' ps
  | call {n : Nat} {s : State} {f : CString} {k k' : List Line} {ps : List Pending}
      (h : Running I prog lo start n ⟨s, .instr (.call f) :: k⟩ ps)
      (hfound : findEntry f prog = some k') (hlo : lo ≤ (s.regs .rsp - 8).toNat) :
      Running I prog lo start (n + 1) ⟨s.pushWord (I.place k.length), k'⟩
        (⟨f, k, s.regs .rsp, s.regs .rbp, s.mem⟩ :: ps)
  | ret {n : Nat} {s : State} {k k' : List Line} {e : Pending} {ps : List Pending}
      (h : Running I prog lo start n ⟨s, .instr .ret :: k⟩ (e :: ps)) (hk : k' <:+ prog)
      (haddr : load64 s.mem (s.regs .rsp) = I.place k'.length) :
      Running I prog lo start (n + 1) ⟨s.set .rsp (s.regs .rsp + 8), k'⟩ ps

/-- The step of a run, computed. -/
def runStep (I : Image) (prog : List Line) (lo : Nat) :
    Config → List Pending → Option (Config × List Pending)
  | ⟨s, .instr (.call f) :: k⟩, ps => do
    let k' ← findEntry f prog
    if lo ≤ (s.regs .rsp - 8).toNat then
      some (⟨s.pushWord (I.place k.length), k'⟩, ⟨f, k, s.regs .rsp, s.regs .rbp, s.mem⟩ :: ps)
    else none
  | ⟨s, .instr .ret :: _⟩, e :: ps =>
    if e.code <:+ prog ∧ load64 s.mem (s.regs .rsp) = I.place e.code.length then
      some (⟨s.set .rsp (s.regs .rsp + 8), e.code⟩, ps)
    else none
  | cfg, ps => do
    let cfg' ← stepTarget I prog cfg
    if lo ≤ (cfg'.state.regs .rsp).toNat then some (cfg', ps) else none

/-- So many steps of a run, computed. -/
def runFor (I : Image) (prog : List Line) (lo : Nat) :
    Nat → Config → List Pending → Option (Config × List Pending)
  | 0, cfg, ps => some (cfg, ps)
  | n + 1, cfg, ps => do
    let (cfg', ps') ← runStep I prog lo cfg ps
    runFor I prog lo n cfg' ps'

section run
variable {I : Image} {prog : List Line} {lo : Nat} {start cfg cfg' : Config} {ps ps' : List Pending}

theorem step_of_target (h : stepTarget I prog cfg = some cfg') : Step I.world prog cfg cfg' := by
  unfold stepTarget at h
  split at h
  · obtain ⟨k', hk', rfl⟩ := Option.map_eq_some_iff.mp h
    exact .jmp hk'
  · rename_i s n k
    simp only [Option.bind_eq_bind, Option.bind_eq_some_iff] at h
    obtain ⟨⟨a, b⟩, hflags, h⟩ := h
    by_cases hab : a = b
    · subst hab
      rw [if_pos rfl] at h
      obtain ⟨k', hk', rfl⟩ := Option.map_eq_some_iff.mp h
      exact .jeTaken hflags hk'
    · rw [if_neg hab] at h
      obtain rfl := Option.some.inj h
      exact .jePassed hflags hab
  · obtain ⟨s', hs', rfl⟩ := Option.map_eq_some_iff.mp h
    exact .instr hs'
  · rename_i s l k _ _ hne
    obtain rfl := Option.some.inj h
    refine .mark ?_
    cases l with
    | instr i => exact absurd rfl (hne i)
    | _ => rfl
  · exact absurd h (by simp)

theorem running_of_runStep {n : Nat} (h : Running I prog lo start n cfg ps)
    (hstep : runStep I prog lo cfg ps = some (cfg', ps')) :
    Running I prog lo start (n + 1) cfg' ps' := by
  unfold runStep at hstep
  split at hstep
  · simp only [Option.bind_eq_bind, Option.bind_eq_some_iff] at hstep
    obtain ⟨k', hfound, hstep⟩ := hstep
    split_ifs at hstep with hlo
    obtain ⟨rfl, rfl⟩ := Prod.mk.inj (Option.some.inj hstep)
    exact h.call hfound hlo
  · split_ifs at hstep with hback
    obtain ⟨rfl, rfl⟩ := Prod.mk.inj (Option.some.inj hstep)
    exact h.ret hback.1 hback.2
  · simp only [Option.bind_eq_bind, Option.bind_eq_some_iff] at hstep
    obtain ⟨cfg₁, htarget, hstep⟩ := hstep
    split_ifs at hstep with hlo
    obtain ⟨rfl, rfl⟩ := Prod.mk.inj (Option.some.inj hstep)
    exact h.inner (step_of_target htarget) hlo

/-- What is computed is a run. -/
theorem running_of_runFor : ∀ {m n : Nat} {cfg : Config} {ps : List Pending},
    Running I prog lo start m cfg ps → runFor I prog lo n cfg ps = some (cfg', ps') →
      Running I prog lo start (m + n) cfg' ps' := by
  intro m n
  induction n generalizing m with
  | zero =>
    intro cfg ps h hrun
    obtain ⟨rfl, rfl⟩ := Prod.mk.inj (Option.some.inj hrun)
    exact h
  | succ n ih =>
    intro cfg ps h hrun
    simp only [runFor, Option.bind_eq_bind, Option.bind_eq_some_iff] at hrun
    obtain ⟨⟨cfg₁, ps₁⟩, hstep, hrun⟩ := hrun
    rw [Nat.add_comm n 1, ← Nat.add_assoc]
    exact ih (running_of_runStep h hstep) hrun

end run

/-- The function that runs, in a run that started in `f`. -/
def currentOf (f : CString) : List Pending → CString
  | [] => f
  | e :: _ => e.callee

/-! ## Activations -/

theorem resolves_of_suffix {prog code k : List Line} (h : code ++ k <:+ prog)
    (hnodup : (labelsIn prog).Nodup) : Resolves prog code k := by
  obtain ⟨before, rfl⟩ := h
  rw [← List.append_assoc] at hnodup ⊢
  exact resolves_of_labelsIn hnodup

/-- A function that runs: its place in the program, and where its `%rbp` points. -/
structure Activation (p : Program) (prog : List Line) where
  decl : FuncDecl
  member : decl ∈ funcsOf p
  place : Placement p prog decl
  base : Word

section activation
variable {p : Program} {prog : List Line} (a : Activation p prog)

/-- The spills and the body. -/
def Activation.items : List Item := spillItems a.decl ++ a.place.body

def Activation.frame : Nat := computeFrameSize a.decl

/-- The lines behind the label of the epilogue. -/
def Activation.epilogue : List Line := epilogueTail ++ a.place.behind

/-- The lines behind the body. -/
def Activation.exits : List Line := .label a.place.ctx.labelCount :: a.epilogue

/-- The reservation of the frame. -/
def Activation.reserve : List Line :=
  if 0 < a.frame then [.instr (.sub (.imm a.frame) (.reg .rsp))] else []

theorem Activation.entry_eq : a.place.entry = .instr (.push (.reg .rbp)) ::
    .instr (.mov (.reg .rsp) (.reg .rbp)) :: (a.reserve ++ (codeOf a.items ++ a.exits)) := by
  have hlines := a.place.stands.lines
  have hreserve : codeOf (prologueItems a.decl a.place.ctx) = .globl a.decl.ident ::
      .symbol a.decl.ident :: .instr (.push (.reg .rbp)) ::
        .instr (.mov (.reg .rsp) (.reg .rbp)) :: a.reserve := by
    unfold prologueItems Activation.reserve Activation.frame
    split <;> rfl
  rw [codeOf_append, codeOf_append, codeOf_append, hreserve, codeOf_epilogueItems] at hlines
  simp only [List.cons_append, List.append_assoc, List.cons.injEq, true_and] at hlines
  rw [hlines, Activation.items, codeOf_append, Activation.exits, Activation.epilogue]
  simp

theorem Activation.suffix : codeOf a.items ++ a.exits <:+ prog := by
  have hentry := a.place.stands.suffix
  rw [a.entry_eq] at hentry
  exact (List.suffix_append _ _).trans
    ((List.suffix_cons _ _).trans ((List.suffix_cons _ _).trans hentry))

theorem Activation.chain : Chain 0 a.items 0 :=
  (chain_paramItems a.decl.params argRegs rfl).append
    (a.place.code.chain (bodyCtx_pushDepth a.decl a.place.ctx))

theorem Activation.confined : ∀ item ∈ a.items, item.line.Confined (-(a.frame : Int)) :=
  confined_body a.place.globals.only a.place.code

theorem Activation.fine :
    ∀ item ∈ a.items, item.line.Fine ((globalsOf p).map VarDecl.ident) := by
  refine List.forall_mem_append.mpr ⟨fun item hitem => ?_,
    a.place.code.fine (bodyCtx_inBody a.decl a.place.globals).names⟩
  obtain ⟨id, off, hline⟩ := paramItems_line a.decl.params argRegs _ item hitem
  rw [hline]
  rintro i hi
  obtain rfl := Line.instr.inj hi
  exact ⟨rfl, by simp⟩

theorem Activation.ready : Ready none (codeOf a.items) := by
  rw [Activation.items, codeOf_append]
  refine Ready.append (ready_of_no_need fun l hl => ?_) a.place.code.ready
  obtain ⟨item, hitem, rfl⟩ := List.mem_map.mp hl
  obtain ⟨id, off, hline⟩ := paramItems_line a.decl.params argRegs _ item hitem
  rw [hline]
  rfl

theorem Activation.callsIn : ∀ item ∈ a.items, item.line.CallsIn a.decl.callees := by
  refine List.forall_mem_append.mpr ⟨fun item hitem f hf => ?_, a.place.code.callsIn⟩
  obtain ⟨id, off, hline⟩ := paramItems_line a.decl.params argRegs _ item hitem
  rw [hline] at hf
  exact absurd hf (by simp)

/-- No more words are on the stack than the body needs. -/
theorem Activation.depth_le {pre rest : List Item} {d : Int} (hitems : a.items = pre ++ rest)
    (hchain : Chain d rest 0) : d ≤ stmtsNeed a.decl.block := by
  cases hchain with
  | nil => exact Int.natCast_nonneg _
  | @cons _ _ _ item rest hd _ _ _ =>
    have hmem : item ∈ a.items := by rw [hitems]; simp
    rw [← hd]
    rcases List.mem_append.mp hmem with hspill | hbody
    · rw [paramItems_depth a.decl.params argRegs _ item hspill]
      exact Int.natCast_nonneg _
    · exact a.place.code.depth_le (bodyCtx_pushDepth a.decl a.place.ctx) item hbody

theorem Activation.forward :
    Forward (fun n => n = a.place.ctx.labelCount) (codeOf a.items) := by
  rw [Activation.items, codeOf_append, forward_append]
  refine ⟨forward_of_no_target fun l hl => ?_, a.place.code.forward fun n hn => ?_⟩
  · obtain ⟨item, hitem, rfl⟩ := List.mem_map.mp hl
    obtain ⟨id, off, hline⟩ := paramItems_line a.decl.params argRegs _ item hitem
    rw [hline]
    rfl
  · have hlabel : (a.place.ctx.bodyCtx a.decl).epilogueLabel = some a.place.ctx.labelCount :=
      (declareParams_extends a.decl.params _).epilogueLabel
    exact (Option.some.inj (hlabel.symm.trans hn)).symm

theorem Activation.resolves : Resolves prog (codeOf a.items ++ [.label a.place.ctx.labelCount])
    a.epilogue := by
  have hsuffix := a.suffix
  rw [show codeOf a.items ++ a.exits = codeOf a.items ++ [.label a.place.ctx.labelCount] ++
    a.epilogue by simp [Activation.exits]] at hsuffix
  exact resolves_of_suffix hsuffix a.place.stands.nodup

/-- A jump goes to a line of the function, or to its epilogue. -/
theorem Activation.jump {pre rest : List Item} {item : Item} {n : Nat}
    (hitems : a.items = pre ++ item :: rest) (hn : item.line.target = some n) :
    findLabel n prog = some a.epilogue ∨ ∃ pre' rest', a.items = pre' ++ rest' ∧
      Chain 0 rest' 0 ∧ Ready none (codeOf rest') ∧
        findLabel n prog = some (codeOf rest' ++ a.exits) := by
  have hforward := a.forward
  rw [hitems, codeOf_append, codeOf_cons] at hforward
  rcases hforward.target hn with rfl | hmem
  · exact .inl (a.resolves _ (codeOf a.items) [] rfl)
  · obtain ⟨item', hitem', hline⟩ := List.mem_map.mp hmem
    obtain ⟨mid, rest', rfl⟩ := List.append_of_mem hitem'
    have hitems' : a.items = pre ++ item :: mid ++ item' :: rest' := by rw [hitems]; simp
    refine .inr ⟨pre ++ item :: mid ++ [item'], rest', by rw [hitems']; simp, ?_, ?_, ?_⟩
    · have hchain := a.chain
      rw [hitems'] at hchain
      obtain ⟨d, hd⟩ := hchain.suffix
      cases hd with
      | cons hdepth hshift hbal hrest =>
        have hzero := hbal.joint (by rw [hline]; rfl)
        rw [hline] at hshift
        obtain rfl := Option.some.inj hshift
        rwa [← hdepth, hzero] at hrest
    · have hready := a.ready
      rw [hitems', codeOf_append, codeOf_cons] at hready
      obtain ⟨known, hready⟩ := hready.suffix
      have hrest := hready.2
      rwa [hline] at hrest
    · have hres := a.resolves n (codeOf (pre ++ item :: mid))
        (codeOf rest' ++ [.label a.place.ctx.labelCount]) (by
          rw [hitems', codeOf_append, codeOf_cons, hline]
          simp)
      rw [hres, Activation.exits]
      simp

/-! ## Control in an activation -/

/-- The frame stands, with `d` words of temporaries on top of it. -/
structure Activation.Deep (s : State) (d : Int) : Prop where
  rbp : s.regs .rbp = a.base
  rsp : ((s.regs .rsp).toNat : Int) + a.frame + 8 * d = a.base.toNat

/-- Where control can be in an activation whose caller has `saved` in `%rbp`. -/
inductive Activation.At (saved : Word) : Config → Prop
  | entry {s : State} (hrsp : s.regs .rsp = a.base + 8) (hrbp : s.regs .rbp = saved) :
      At saved ⟨s, a.place.entry⟩
  | pushed {s : State} (hrsp : s.regs .rsp = a.base) (hsaved : load64 s.mem a.base = saved) :
      At saved ⟨s, .instr (.mov (.reg .rsp) (.reg .rbp)) ::
        (a.reserve ++ (codeOf a.items ++ a.exits))⟩
  | based {s : State} (hframe : 0 < a.frame) (hrsp : s.regs .rsp = a.base)
      (hrbp : s.regs .rbp = a.base) (hsaved : load64 s.mem a.base = saved) :
      At saved ⟨s, .instr (.sub (.imm a.frame) (.reg .rsp)) :: (codeOf a.items ++ a.exits)⟩
  | body {s : State} {pre rest : List Item} {known : Option Setup} {d : Int} (hitems : a.items = pre ++ rest)
      (hchain : Chain d rest 0) (hready : Ready known (codeOf rest))
      (hhas : s.Has known) (hdeep : a.Deep s d)
      (hsaved : load64 s.mem a.base = saved) : At saved ⟨s, codeOf rest ++ a.exits⟩
  | epilogue {s : State} (hdeep : a.Deep s 0) (hsaved : load64 s.mem a.base = saved) :
      At saved ⟨s, a.epilogue⟩
  | popping {s : State} (hrsp : s.regs .rsp = a.base) (hsaved : load64 s.mem a.base = saved) :
      At saved ⟨s, .instr (.pop (.reg .rbp)) :: .instr .ret :: a.place.behind⟩
  | returning {s : State} (hrsp : s.regs .rsp = a.base + 8) (hrbp : s.regs .rbp = saved) :
      At saved ⟨s, .instr .ret :: a.place.behind⟩

/-- The lines of an activation write nothing from `from` on but globals. -/
def WritesBelow (sym : CString → Word) (gs : List CString) (bound : Nat) (m m' : Mem) : Prop :=
  ∀ x : Word, bound ≤ x.toNat → (∀ g ∈ gs, ¬ InCell (sym g) x) → m' x = m x

theorem Chain.depth_nonneg {d : Int} {items : List Item} (h : Chain d items 0) : 0 ≤ d := by
  cases h with
  | nil => exact Int.le_refl 0
  | cons hd _ hbal _ => exact hd ▸ hbal.nonneg

variable {a}

/-- The temporaries move with the stack pointer. -/
theorem Activation.Deep.shift {s s' : State} {d n : Int} (h : a.Deep s d)
    (hn : 0 ≤ d + n) (hshift : -1 ≤ n ∧ n ≤ 1) (hroom : 8 ≤ (s.regs .rsp).toNat)
    (hs : s'.regs .rbp = s.regs .rbp ∧ s'.regs .rsp = s.regs .rsp - BitVec.ofInt 64 (8 * n)) :
    a.Deep s' (d + n) := by
  refine ⟨hs.1.trans h.rbp, ?_⟩
  have hlt := a.base.isLt
  have hrsp := h.rsp
  rw [hs.2, BitVec.toNat_sub, BitVec.toNat_ofInt]
  omega

/-- A line of the body writes nothing from the base of its activation on but globals. -/
theorem Activation.Deep.writes {I : Image} {s s' : State} {d : Int} (h : a.Deep s d) (hd : 0 ≤ d)
    {i : Instr} (hexec : execInstr I.sym s i = some s')
    (hconf : (Line.instr i).Confined (-(a.frame : Int)))
    (hfine : (Line.instr i).Fine ((globalsOf p).map VarDecl.ident))
    (hroom : 8 ≤ (s.regs .rsp).toNat) :
    WritesBelow I.sym ((globalsOf p).map VarDecl.ident) a.base.toNat s.mem s'.mem := by
  intro x hx hglobals
  have hlt := (s.regs .rsp).isLt
  have hrsp := h.rsp
  cases hconf with
  | mark hm => exact absurd hm (by simp [Line.isMark])
  | quiet hquiet => rw [execInstr_quiet hexec hquiet]
  | push =>
    obtain rfl := Option.some.inj hexec
    refine Lib.Mem.store64_of_not_inCell fun hcell => ?_
    have hsub : (s.regs .rsp - 8).toNat = (s.regs .rsp).toNat - 8 := by bv_omega
    rw [inCell_iff (by omega), hsub] at hcell
    omega
  | symbol =>
    obtain rfl := Option.some.inj hexec
    exact Lib.Mem.store64_of_not_inCell (hglobals _ ((hfine _ rfl).2 _ rfl))
  | @slot id off hoff =>
    obtain rfl := Option.some.inj hexec
    refine Lib.Mem.store64_of_not_inCell fun hcell => ?_
    have hroom : a.frame ≤ a.base.toNat := by omega
    have hslot := slotAt_toNat a.base ⟨hoff.1, hoff.2.1⟩ hroom
    have hlt' := a.base.isLt
    rw [h.rbp] at hcell
    rw [slotAt] at hslot
    rw [inCell_iff (by omega)] at hcell
    omega

theorem WritesBelow.refl {sym : CString → Word} {gs : List CString} {bound : Nat} {m : Mem} :
    WritesBelow sym gs bound m m := fun _ _ _ => rfl

theorem WritesBelow.mono {sym : CString → Word} {gs : List CString} {bound bound' : Nat}
    {m m' : Mem} (h : WritesBelow sym gs bound m m') (hle : bound ≤ bound') :
    WritesBelow sym gs bound' m m' := fun x hx => h x (Nat.le_trans hle hx)

/-- Words of the stack from the bound on are kept. -/
theorem WritesBelow.stack {sym : CString → Word} {gs : List CString} {bound lo top : Nat}
    {m m' : Mem} (h : WritesBelow sym gs bound m m') (hstack : StackFor sym gs lo top)
    (hlo : lo ≤ bound) {x : Word} (hx : bound ≤ x.toNat ∧ x.toNat < top) : m' x = m x :=
  h x hx.1 fun g hg hcell => hstack.outside g hg x hcell ⟨Nat.le_trans hlo hx.1, hx.2⟩

theorem WritesBelow.load {sym : CString → Word} {gs : List CString} {bound lo top : Nat}
    {m m' : Mem} (h : WritesBelow sym gs bound m m') (hstack : StackFor sym gs lo top)
    (hlo : lo ≤ bound) (htop : top ≤ 2 ^ 64) {x : Word} (hx : bound ≤ x.toNat)
    (hx' : x.toNat + 8 ≤ top) : load64 m' x = load64 m x := by
  refine Lib.Mem.load64_congr fun y hy => ?_
  rw [inCell_iff (by omega)] at hy
  exact h.stack hstack hlo ⟨by omega, by omega⟩

theorem shift_bounds {l : Line} {n : Int} (h : l.shift = some n) : -1 ≤ n ∧ n ≤ 1 := by
  cases l with
  | instr i =>
    cases i <;> simp only [Line.shift, Instr.shift] at h <;> (try split_ifs at h) <;>
      first
      | cases h; exact ⟨by decide, by decide⟩
      | cases h
  | _ =>
    obtain rfl := Option.some.inj h
    exact ⟨by decide, by decide⟩

/-- The activation lies on the stack between `lo` and `top`, with room below. -/
structure Activation.Grounded (a : Activation p prog) (lo top : Nat) : Prop where
  frame : 16 + a.frame ≤ lo
  base : lo ≤ a.base.toNat + 8 ∧ a.base.toNat + 8 ≤ top
  top : top < 2 ^ 64

variable {I : Image} {lo top : Nat}

/-- A step in the body of an activation. -/
theorem Activation.step_body (hground : a.Grounded lo top)
    (hstack : StackFor I.sym ((globalsOf p).map VarDecl.ident) lo top) {saved : Word} {s : State}
    {pre rest : List Item} {item : Item} {known : Option Setup} {d : Int} {cfg' : Config}
    (hitems : a.items = pre ++ item :: rest) (hchain : Chain d (item :: rest) 0)
    (hready : Ready known (codeOf (item :: rest))) (hdeep : a.Deep s d)
    (hsaved : load64 s.mem a.base = saved) (hlo : lo ≤ (s.regs .rsp).toNat)
    (hstep : Step I.world prog ⟨s, item.line :: (codeOf rest ++ a.exits)⟩ cfg') :
    a.At saved cfg' ∧ WritesBelow I.sym ((globalsOf p).map VarDecl.ident) (a.base.toNat + 8)
      s.mem cfg'.state.mem := by
  have hframe := hground.frame
  have hd := hchain.depth_nonneg
  have hitems' : a.items = (pre ++ [item]) ++ rest := by rw [hitems]; simp
  have hmem : item ∈ a.items := by rw [hitems]; simp
  have hconf := a.confined item hmem
  have hfine := a.fine item hmem
  have hready' := hready.2
  have hjump : ∀ {n : Nat} {k : List Line}, item.line.target = some n → d = 0 →
      findLabel n prog = some k → a.At saved ⟨s, k⟩ := by
    rintro n k hn rfl hk
    rcases a.jump hitems hn with hfind | ⟨pre', rest', hsplit, hchain', hready', hfind⟩
    · obtain rfl := Option.some.inj (hk.symm.trans hfind)
      exact .epilogue hdeep hsaved
    · obtain rfl := Option.some.inj (hk.symm.trans hfind)
      exact .body hsplit hchain' hready' trivial hdeep hsaved
  cases hchain with
  | @cons _ _ n _ _ hdepth hshift hbal hrest =>
    have hjoint := hbal.joint
    generalize item.line = l at *
    cases hstep with
    | mark hm =>
      have hzero : n = 0 := by cases l <;> simp_all [Line.shift, Line.isMark]
      rw [hzero, Int.add_zero] at hrest
      exact ⟨.body hitems' hrest hready' (by cases l <;> simp_all [Line.isMark, Line.gives, State.Has])
        hdeep hsaved, .refl⟩
    | instr hi =>
      have hn := hrest.depth_nonneg
      have hwrites := hdeep.writes hd hi hconf hfine (by omega)
      have hbase : lo ≤ a.base.toNat := by
        have hrsp := hdeep.rsp
        omega
      refine ⟨.body hitems' hrest hready' (has_gives hi)
        (hdeep.shift hn (shift_bounds hshift) (by omega) (execInstr_shift hi hshift)) ?_,
        hwrites.mono (Nat.le_add_right _ _)⟩
      rw [hwrites.load hstack hbase hground.top.le (Nat.le_refl _) hground.base.2, hsaved]
    | call hcall => exact absurd hcall (by simp [Image.world])
    | jmp hk => exact ⟨hjump rfl (hdepth ▸ hjoint rfl) hk, .refl⟩
    | jeTaken _ hk => exact ⟨hjump rfl (hdepth ▸ hjoint rfl) hk, .refl⟩
    | jePassed _ _ =>
      obtain rfl := Option.some.inj hshift
      rw [Int.add_zero] at hrest
      exact ⟨.body hitems' hrest hready' trivial hdeep hsaved, .refl⟩

/-- **A step stays in the activation** and writes nothing above it but globals. -/
theorem Activation.At.step (hground : a.Grounded lo top)
    (hstack : StackFor I.sym ((globalsOf p).map VarDecl.ident) lo top) {saved : Word}
    {cfg cfg' : Config} (h : a.At saved cfg) (hlo : lo ≤ (cfg.state.regs .rsp).toNat)
    (hstep : Step I.world prog cfg cfg') :
    a.At saved cfg' ∧ WritesBelow I.sym ((globalsOf p).map VarDecl.ident) (a.base.toNat + 8)
      cfg.state.mem cfg'.state.mem := by
  have hframe := hground.frame
  have hbase := hground.base
  have htop := hground.top
  have hlt := a.base.isLt
  cases h with
  | @entry s hrsp hrbp =>
    rw [a.entry_eq] at hstep
    cases hstep with
    | mark hm => exact absurd hm (by simp [Line.isMark])
    | instr hi =>
      obtain rfl := Option.some.inj hi
      have hbelow : s.regs .rsp - 8 = a.base := by rw [hrsp]; bv_omega
      refine ⟨.pushed ?_ ?_, fun x hx _ => Lib.Mem.store64_of_not_inCell fun hcell => ?_⟩
      · exact hbelow
      · rw [← hbelow]
        exact (@load_pushWord s (s.regs .rbp)).trans hrbp
      · rw [hbelow, inCell_iff (by omega)] at hcell
        omega
  | @pushed s hrsp hsaved =>
    cases hstep with
    | mark hm => exact absurd hm (by simp [Line.isMark])
    | instr hi =>
      obtain rfl := Option.some.inj hi
      refine ⟨?_, .refl⟩
      unfold Activation.reserve
      by_cases hpos : 0 < a.frame
      · rw [if_pos hpos]
        exact .based hpos hrsp hrsp hsaved
      · rw [if_neg hpos]
        refine .body (List.nil_append _).symm a.chain a.ready trivial ⟨hrsp, ?_⟩ hsaved
        have hsp : (s.set .rbp (s.regs .rsp)).regs .rsp = a.base := hrsp
        simp only [Operand.read, hsp]
        omega
  | @based s hpos hrsp hrbp hsaved =>
    cases hstep with
    | mark hm => exact absurd hm (by simp [Line.isMark])
    | instr hi =>
      obtain rfl := Option.some.inj hi
      refine ⟨.body (List.nil_append _).symm a.chain a.ready trivial ⟨hrbp, ?_⟩ hsaved, .refl⟩
      have himm : (BitVec.ofInt 64 (a.frame : Int)).toNat = a.frame := by
        rw [BitVec.toNat_ofInt]
        omega
      simp only [Operand.read, State.set_regs_same]
      rw [hrsp, BitVec.toNat_sub, himm]
      rw [hrsp] at hlo
      omega
  | @body s pre rest known d hitems hchain hready _ hdeep hsaved =>
    cases rest with
    | nil =>
      cases hchain
      cases hstep with
      | mark _ => exact ⟨.epilogue hdeep hsaved, .refl⟩
    | cons item rest =>
      exact Activation.step_body hground hstack hitems hchain hready hdeep hsaved hlo hstep
  | epilogue hdeep hsaved =>
    cases hstep with
    | mark hm => exact absurd hm (by simp [Line.isMark])
    | instr hi =>
      obtain rfl := Option.some.inj hi
      exact ⟨.popping hdeep.rbp hsaved, .refl⟩
  | @popping s hrsp hsaved =>
    cases hstep with
    | mark hm => exact absurd hm (by simp [Line.isMark])
    | instr hi =>
      obtain rfl := Option.some.inj hi
      refine ⟨.returning ?_ ?_, .refl⟩
      · exact congrArg (· + 8) hrsp
      · exact (congrArg (load64 s.mem) hrsp).trans hsaved
  | returning _ _ =>
    cases hstep with
    | mark hm => exact absurd hm (by simp [Line.isMark])
    | instr hi => exact absurd hi (by simp [execInstr])

/-- Control is in the program. -/
theorem Activation.At.suffix {saved : Word} {cfg : Config} (h : a.At saved cfg) :
    cfg.code <:+ prog := by
  have hentry := a.place.stands.suffix
  rw [a.entry_eq] at hentry
  have hpushed := (List.suffix_cons _ _).trans hentry
  have hepilogue : a.epilogue <:+ prog :=
    (List.suffix_cons _ _).trans ((List.suffix_append _ _).trans a.suffix)
  cases h with
  | entry _ _ => exact a.place.stands.suffix
  | pushed _ _ => exact hpushed
  | based hpos _ _ _ =>
    unfold Activation.reserve at hpushed
    rw [if_pos hpos] at hpushed
    exact (List.suffix_cons _ _).trans hpushed
  | body hitems _ _ _ _ _ =>
    have hsuffix := a.suffix
    rw [hitems, codeOf_append, List.append_assoc] at hsuffix
    exact (List.suffix_append _ _).trans hsuffix
  | epilogue _ _ => exact hepilogue
  | popping _ _ => exact (List.suffix_cons _ _).trans hepilogue
  | returning _ _ => exact (List.suffix_cons _ _).trans ((List.suffix_cons _ _).trans hepilogue)

theorem State.Has.needs {s : State} {known : Option Setup} (h : s.Has known) {l : Line}
    (hl : l.needs = none ∨ l.needs = known) : s.Has l.needs := by
  rcases hl with hl | hl
  · rw [hl]
    trivial
  · rw [hl]
    exact h

/-- Control only stops to leave the activation, or at a division that faults. -/
theorem Activation.At.progress {saved : Word} {s : State} {k : List Line} (h : a.At saved ⟨s, k⟩) :
    (∃ cfg, Step I.world prog ⟨s, k⟩ cfg) ∨ (∃ k', k = .instr .ret :: k') ∨
      (∃ f k', k = .instr (.call f) :: k') ∨
        ∃ d k', k = .instr (.idiv d) :: k' ∧
          (d.read I.sym s = 0 ∨ (s.regs .rax = int64Min ∧ d.read I.sym s = -1)) := by
  cases h with
  | entry _ _ =>
    rw [a.entry_eq]
    exact .inl ⟨_, .instr rfl⟩
  | pushed _ _ => exact .inl ⟨_, .instr rfl⟩
  | based _ _ _ _ => exact .inl ⟨_, .instr rfl⟩
  | epilogue _ _ => exact .inl ⟨_, .instr rfl⟩
  | popping _ _ => exact .inl ⟨_, .instr rfl⟩
  | returning _ _ => exact .inr (.inl ⟨_, rfl⟩)
  | @body _ pre rest known d hitems hchain hready hhas _ _ =>
    cases rest with
    | nil => exact .inl ⟨_, .mark rfl⟩
    | cons item rest =>
      have hfine := a.fine item (by rw [hitems]; simp)
      have hneeds := hhas.needs hready.1
      have hjump : ∀ n, item.line.target = some n → ∃ k', findLabel n prog = some k' := by
        intro n hn
        rcases a.jump hitems hn with hfind | ⟨_, _, _, _, _, hfind⟩
        · exact ⟨_, hfind⟩
        · exact ⟨_, hfind⟩
      rw [codeOf_cons, List.cons_append]
      generalize item.line = l at *
      cases l with
      | instr i =>
        by_cases hspecial : i.isSpecial = true
        · cases i with
          | idiv d =>
            cases hexec : execInstr I.sym s (.idiv d) with
            | some s' => exact .inl ⟨_, .instr hexec⟩
            | none => exact .inr (.inr (.inr ⟨d, _, rfl, (execInstr_idiv hneeds).mp hexec⟩))
          | call f => exact .inr (.inr (.inl ⟨f, _, rfl⟩))
          | je n =>
            obtain ⟨k', hk'⟩ := hjump n rfl
            obtain ⟨⟨x, y⟩, hxy⟩ := Option.isSome_iff_exists.mp hneeds
            by_cases heq : x = y
            · exact .inl ⟨_, .jeTaken (by rw [hxy, heq]) hk'⟩
            · exact .inl ⟨_, .jePassed hxy heq⟩
          | jmp n =>
            obtain ⟨k', hk'⟩ := hjump n rfl
            exact .inl ⟨_, .jmp hk'⟩
          | _ => exact absurd hspecial (by simp [Instr.isSpecial])
        · obtain ⟨s', hexec⟩ := @execInstr_runs I.sym _ _ (hfine i rfl).1 (by simpa using hspecial)
            hneeds
          exact .inl ⟨_, .instr hexec⟩
      | _ => exact .inl ⟨_, .mark rfl⟩

/-- At a call, control is in the body. -/
theorem Activation.At.call {saved : Word} {s : State} {f : CString} {k : List Line}
    (h : a.At saved ⟨s, .instr (.call f) :: k⟩) : f ∈ a.decl.callees ∧ ∃ pre rest d,
      a.items = pre ++ rest ∧ Chain d rest 0 ∧ d % 2 = 0 ∧ Ready none (codeOf rest) ∧
        a.Deep s d ∧ load64 s.mem a.base = saved ∧ k = codeOf rest ++ a.exits := by
  generalize hcfg : (⟨s, .instr (.call f) :: k⟩ : Config) = cfg at h
  cases h with
  | entry _ _ =>
    rw [a.entry_eq] at hcfg
    exact absurd (Config.mk.inj hcfg).2 (by simp)
  | @body s' pre rest known d hitems hchain hready _ hdeep hsaved =>
    obtain ⟨rfl, hcode⟩ := Config.mk.inj hcfg
    cases rest with
    | nil => exact absurd hcode (by simp [Activation.exits])
    | cons item rest =>
      obtain ⟨hline, rfl⟩ := List.cons.inj hcode
      have hcallee := a.callsIn item (by rw [hitems]; simp) f hline.symm
      cases hchain with
      | cons hdepth hshift hbal hrest =>
        have heven := hbal.call f hline.symm
        have hready' := hready.2
        rw [← hline] at hshift hready'
        obtain rfl := Option.some.inj hshift
        rw [Int.add_zero] at hrest
        exact ⟨hcallee, pre ++ [item], rest, d, by rw [hitems]; simp, hrest, hdepth ▸ heven, hready',
          hdeep, hsaved, rfl⟩
  | epilogue _ _ => exact absurd (Config.mk.inj hcfg).2 (by simp [Activation.epilogue, epilogueTail])
  | _ => exact absurd (Config.mk.inj hcfg).2 (by simp)

/-- At a `ret`, the stack and `%rbp` are as they were on entry. -/
theorem Activation.At.ret {saved : Word} {s : State} {k : List Line}
    (h : a.At saved ⟨s, .instr .ret :: k⟩) :
    s.regs .rsp = a.base + 8 ∧ s.regs .rbp = saved := by
  generalize hcfg : (⟨s, .instr .ret :: k⟩ : Config) = cfg at h
  cases h with
  | entry _ _ =>
    rw [a.entry_eq] at hcfg
    exact absurd (Config.mk.inj hcfg).2 (by simp)
  | @body s' pre rest known d hitems hchain _ _ _ _ =>
    have hcode := (Config.mk.inj hcfg).2
    cases rest with
    | nil => exact absurd hcode (by simp [Activation.exits])
    | cons item rest =>
      cases hchain with
      | cons _ hshift _ _ =>
        rw [← (List.cons.inj hcode).1] at hshift
        exact absurd hshift (by simp [Line.shift, Instr.shift])
  | epilogue _ _ => exact absurd (Config.mk.inj hcfg).2 (by simp [Activation.epilogue, epilogueTail])
  | returning hrsp hrbp =>
    obtain ⟨rfl, -⟩ := Config.mk.inj hcfg
    exact ⟨hrsp, hrbp⟩
  | _ => exact absurd (Config.mk.inj hcfg).2 (by simp)

/-! ## The callers -/

/-- The activations under the one at `base`, whose caller has `saved` in `%rbp`: each has its return
address and its saved `%rbp` on the stack, and its temporaries as they were. `rbp₀` is the `%rbp` of
the outermost caller, `top` its stack pointer, and `f` its callee. -/
inductive Callers (I : Image) (p : Program) (prog : List Line) (f : CString) (top : Nat) (rbp₀ : Word)
    (m : Mem) : Word → Word → List Pending → Prop
  | start {base : Word} (hbase : base.toNat + 8 = top) : Callers I p prog f top rbp₀ m rbp₀ base []
  | call {a : Activation p prog} {pre rest : List Item} {d : Int} {saved base : Word} {e : Pending}
      {ps : List Pending} (hname : a.decl.ident = currentOf f ps) (hcallee : e.callee ∈ a.decl.callees)
      (hitems : a.items = pre ++ rest) (hchain : Chain d rest 0) (heven : d % 2 = 0)
      (hready : Ready none (codeOf rest)) (hcode : e.code = codeOf rest ++ a.exits)
      (haddr : load64 m (base + 8) = I.place e.code.length)
      (hframe : (base.toNat : Int) + 16 + a.frame + 8 * d = a.base.toNat)
      (hsaved : load64 m a.base = saved) (hrsp : e.rsp = base + 16) (hrbp : e.rbp = a.base)
      (hkept : ∀ x : Word, base.toNat + 16 ≤ x.toNat → x.toNat < top → m x = e.mem x)
      (h : Callers I p prog f top rbp₀ m saved a.base ps) :
      Callers I p prog f top rbp₀ m a.base base (e :: ps)

variable {f : CString} {rbp₀ saved base : Word} {m m' : Mem} {ps : List Pending}

theorem Callers.base_le (h : Callers I p prog f top rbp₀ m saved base ps) :
    base.toNat + 8 ≤ top := by
  induction h with
  | start hbase => exact hbase.le
  | call _ _ _ hchain _ _ _ _ hframe _ _ _ _ _ ih =>
    have hd := hchain.depth_nonneg
    omega

/-- Every call takes its part of the stack at most. -/
theorem Callers.le_base (h : Callers I p prog f top rbp₀ m saved base ps) :
    top ≤ base.toNat + 8 + ps.length * p.callBytes := by
  induction h with
  | start hbase => simp [hbase]
  | @call a _ _ _ _ _ _ _ _ _ hitems hchain _ _ _ _ hframe _ _ _ _ _ ih =>
    have hdepth := a.depth_le hitems hchain
    have hbytes := le_callBytes a.member
    have hframe' : a.frame = computeFrameSize a.decl := rfl
    unfold stackBytes at hbytes
    rw [List.length_cons, Nat.succ_mul]
    omega

/-- What the callers keep lies above the activation. -/
theorem Callers.congr (hm : ∀ x : Word, base.toNat + 8 ≤ x.toNat → x.toNat < top → m' x = m x)
    (htop : top ≤ 2 ^ 64) (h : Callers I p prog f top rbp₀ m saved base ps) :
    Callers I p prog f top rbp₀ m' saved base ps := by
  induction h with
  | start hbase => exact .start hbase
  | @call a pre rest d saved base e ps hname hcallee hitems hchain heven hready hcode haddr hframe
      hsaved hrsp hrbp hkept h ih =>
    have hd := hchain.depth_nonneg
    have hle := h.base_le
    have hload : ∀ x : Word, base.toNat + 8 ≤ x.toNat → x.toNat + 8 ≤ top →
        load64 m' x = load64 m x := by
      intro x hx hx'
      refine Lib.Mem.load64_congr fun y hy => ?_
      rw [inCell_iff (by omega)] at hy
      exact hm y (by omega) (by omega)
    have hadd : (base + 8).toNat = base.toNat + 8 := by bv_omega
    refine .call hname hcallee hitems hchain heven hready hcode ?_ hframe ?_ hrsp hrbp
      (fun x hx hx' => ?_) (ih fun x hx => hm x (by omega))
    · rw [hload _ (by omega) (by omega), haddr]
    · rw [hload _ (by omega) (by omega), hsaved]
    · rw [hm x (by omega) hx', hkept x hx hx']

/-- The frames are multiples of sixteen bytes, and so is what lies between them. -/
theorem Callers.aligned (h : Callers I p prog f top rbp₀ m saved base ps) (htop : top % 16 = 8) :
    base.toNat % 16 = 0 := by
  induction h with
  | start hbase => omega
  | @call a _ _ _ _ _ _ _ _ _ _ _ heven _ _ _ hframe _ _ _ _ _ ih =>
    have hframe' : a.frame % 16 = 0 := (computeFrameSize_bounds a.decl).2
    omega

end activation

/-! ## The discipline -/

/-- The program is linked: its lines have addresses of their own, no call names data, and the stack
between `lo` and `top` is clear of the data and ends above what a call needs. -/
structure Image.Grounds (I : Image) (p : Program) (prog : List Line) (lo top : Nat) : Prop where
  code : ∀ i j, i ≤ prog.length → j ≤ prog.length → I.place i = I.place j → i = j
  calls : ∀ decl ∈ funcsOf p, ∀ g ∈ decl.callees, g ∉ (globalsOf p).map VarDecl.ident
  stack : StackFor I.sym ((globalsOf p).map VarDecl.ident) lo top
  room : p.callBytes ≤ lo

/-- What holds in every configuration of a run from `s₀`: control is in the activation `a`, over its
callers, and the memory above is as it was. -/
structure Disciplined (I : Image) (p : Program) (prog : List Line) (f : CString) (lo : Nat)
    (s₀ : State) (cfg : Config) (ps : List Pending) (a : Activation p prog) (saved : Word) : Prop where
  name : a.decl.ident = currentOf f ps
  callers : Callers I p prog f (s₀.regs .rsp).toNat (s₀.regs .rbp) cfg.state.mem saved a.base ps
  control : a.At saved cfg
  base : lo ≤ a.base.toNat + 8
  rsp : lo ≤ (cfg.state.regs .rsp).toNat
  above : WritesBelow I.sym ((globalsOf p).map VarDecl.ident) (s₀.regs .rsp).toNat s₀.mem
    cfg.state.mem

theorem mem_of_findEntry {name : CString} {k : List Line} : ∀ {code : List Line},
    findEntry name code = some k → .symbol name ∈ code := by
  intro code
  induction code with
  | nil => intro h; exact absurd h (by simp [findEntry])
  | cons l code ih =>
    intro h
    unfold findEntry at h
    split at h
    · rename_i heq
      exact absurd heq (by simp)
    · rename_i x rest heq
      obtain ⟨rfl, rfl⟩ := List.cons.inj heq
      by_cases hx : x = name
      · rw [hx]
        exact List.mem_cons_self
      · rw [if_neg hx] at h
        exact List.mem_cons_of_mem _ (ih h)
    · rename_i l' rest _ heq
      obtain ⟨rfl, rfl⟩ := List.cons.inj heq
      exact List.mem_cons_of_mem _ (ih h)

theorem exists_findEntry {name : CString} {code : List Line} (h : .symbol name ∈ code) :
    ∃ k, findEntry name code = some k := by
  induction code with
  | nil => exact absurd h List.not_mem_nil
  | cons l code ih =>
    unfold findEntry
    split
    · rename_i heq
      exact absurd heq (by simp)
    · rename_i x rest heq
      obtain ⟨rfl, rfl⟩ := List.cons.inj heq
      by_cases hx : x = name
      · exact ⟨_, if_pos hx⟩
      · rw [if_neg hx]
        exact ih ((List.mem_cons.mp h).resolve_left fun heq => hx (Line.symbol.inj heq).symm)
    · rename_i l' rest hne heq
      obtain ⟨rfl, rfl⟩ := List.cons.inj heq
      exact ih ((List.mem_cons.mp h).resolve_left fun heq => hne name heq.symm)

section run
variable {p : Program} {r : Emitted AsmCtx Item Unit} {I : Image} {lo : Nat} {s₀ : State}
  (hgen : genProgram p asmInit = .ok r) (hnames : p.names.Nodup)
include hgen hnames

/-- An entry that is not data is that of a function. -/
theorem exists_activation {f : CString} {k : List Line}
    (hf : f ∉ (globalsOf p).map VarDecl.ident) (hfound : findEntry f (codeOf r.items) = some k)
    (base : Word) : ∃ a : Activation p (codeOf r.items),
      a.decl.ident = f ∧ a.base = base ∧ a.place.entry = k := by
  have hname : f ∈ p.names := by
    rw [← genProgram_symbols hgen]
    exact mem_symbolsIn.mpr (mem_of_findEntry hfound)
  obtain ⟨decl, hdecl, rfl⟩ := List.mem_map.mp ((List.mem_append.mp hname).resolve_left hf)
  obtain ⟨place⟩ := genProgram_placement hgen hnames hdecl
  exact ⟨⟨decl, hdecl, place, base⟩, rfl, rfl, Option.some.inj (place.found.symm.trans hfound)⟩

end run

section discipline
variable {p : Program} {prog : List Line} {I : Image} {lo : Nat} {s₀ : State} {cfg cfg' : Config}
  {ps : List Pending} {a : Activation p prog} {saved : Word} {f : CString}

theorem Disciplined.grounded (hg : I.Grounds p prog lo (s₀.regs .rsp).toNat)
    (h : Disciplined I p prog f lo s₀ cfg ps a saved) : a.Grounded lo (s₀.regs .rsp).toNat := by
  have hbytes := le_callBytes a.member
  have hroom := hg.room
  unfold stackBytes at hbytes
  refine ⟨?_, ⟨h.base, h.callers.base_le⟩, (s₀.regs .rsp).isLt⟩
  unfold Activation.frame
  omega

/-- A step of a function keeps the discipline. -/
theorem Disciplined.inner (hg : I.Grounds p prog lo (s₀.regs .rsp).toNat)
    (h : Disciplined I p prog f lo s₀ cfg ps a saved) (hstep : Step I.world prog cfg cfg')
    (hlo : lo ≤ (cfg'.state.regs .rsp).toNat) : Disciplined I p prog f lo s₀ cfg' ps a saved := by
  obtain ⟨hcontrol, hwrites⟩ := h.control.step (h.grounded hg) hg.stack h.rsp hstep
  have htop := (s₀.regs .rsp).isLt
  refine ⟨h.name, h.callers.congr (fun x hx hx' => hwrites.stack hg.stack h.base ⟨hx, hx'⟩) htop.le,
    hcontrol, h.base, hlo, fun x hx hx' => ?_⟩
  rw [hwrites x (h.callers.base_le.trans hx) hx', h.above x hx hx']

/-- A call opens an activation on top of its caller. -/
theorem Disciplined.call (hg : I.Grounds p prog lo (s₀.regs .rsp).toNat) {s : State} {g : CString}
    {k : List Line} (h : Disciplined I p prog f lo s₀ ⟨s, .instr (.call g) :: k⟩ ps a saved)
    {a' : Activation p prog} (hname : a'.decl.ident = g) (hbase : a'.base = s.regs .rsp - 16)
    (hlo : lo ≤ (s.regs .rsp - 8).toNat) :
    Disciplined I p prog f lo s₀ ⟨s.pushWord (I.place k.length), a'.place.entry⟩
      (⟨g, k, s.regs .rsp, s.regs .rbp, s.mem⟩ :: ps) a' a.base := by
  obtain ⟨hcallee, pre, rest, d, hitems, hchain, heven, hready, hdeep, hsaved, rfl⟩ :=
    h.control.call
  have hground := h.grounded hg
  have hframe := hground.frame
  have htop := hground.top
  have hle := hground.base.2
  have hrsp := hdeep.rsp
  have hd := hchain.depth_nonneg
  have hlo' : lo ≤ (s.regs .rsp).toNat := h.rsp
  have hbelow : a'.base.toNat = (s.regs .rsp).toNat - 16 := by rw [hbase]; bv_omega
  have hadd : a'.base + 8 = s.regs .rsp - 8 := by rw [hbase]; bv_omega
  have hadd' : s.regs .rsp = a'.base + 16 := by rw [hbase]; bv_omega
  have hwrites : ∀ x : Word, (s.regs .rsp).toNat ≤ x.toNat →
      (s.pushWord (I.place (codeOf rest ++ a.exits).length)).mem x = s.mem x :=
    fun x hx => pushWord_mem (by omega) (by omega)
  have hkeep : WritesBelow I.sym ((globalsOf p).map VarDecl.ident) a.base.toNat s.mem
      (s.pushWord (I.place (codeOf rest ++ a.exits).length)).mem :=
    fun x hx _ => hwrites x (by omega)
  refine ⟨hname, ?_, .entry ?_ ?_, ?_, ?_, fun x hx hx' => ?_⟩
  · refine .call h.name hcallee hitems hchain heven hready rfl ?_ (by omega) ?_ hadd' hdeep.rbp
      (fun x hx _ => hwrites x (by omega))
      (h.callers.congr (fun x hx hx' => ?_) htop.le)
    · rw [hadd]
      exact load_pushWord
    · rw [hkeep.load hg.stack (by omega) htop.le (Nat.le_refl _) hle, hsaved]
    · exact hkeep.stack hg.stack (by omega) ⟨by omega, hx'⟩
  · rw [hadd]
    exact pushWord_rsp
  · rw [pushWord_regs (by decide)]
    exact hdeep.rbp
  · rw [← hadd] at hlo
    have : (a'.base + 8).toNat = a'.base.toNat + 8 := by bv_omega
    omega
  · rw [pushWord_rsp]
    exact hlo
  · rw [hwrites x (by omega)]
    exact h.above x hx hx'

/-- What the return address of an activation says. -/
theorem Disciplined.return_eq {s : State} {k : List Line} {e : Pending}
    (h : Disciplined I p prog f lo s₀ ⟨s, .instr .ret :: k⟩ (e :: ps) a saved) :
    e.code <:+ prog ∧ load64 s.mem (s.regs .rsp) = I.place e.code.length ∧
      s.regs .rsp + 8 = e.rsp ∧ s.regs .rbp = e.rbp ∧ (∀ x : Word, e.rsp.toNat ≤ x.toNat →
        x.toNat < (s₀.regs .rsp).toNat → s.mem x = e.mem x) ∧
        ∃ (a' : Activation p prog) (saved' : Word), ∀ s' : State, s'.regs .rsp = e.rsp →
          s'.regs .rbp = e.rbp → s'.mem = s.mem →
            Disciplined I p prog f lo s₀ ⟨s', e.code⟩ ps a' saved' := by
  obtain ⟨hrsp, hrbp⟩ := h.control.ret
  have hle := h.callers.base_le
  have htop := (s₀.regs .rsp).isLt
  have hlo := h.base
  have habove := h.above
  cases h.callers with
  | @call a' pre rest d saved' _ _ _ hname hcallee hitems hchain heven hready hcode haddr hframe
      hsaved hersp hebp hkept hcallers =>
    have hd := hchain.depth_nonneg
    have hle' := hcallers.base_le
    have hadd : (a.base + 16).toNat = a.base.toNat + 16 := by bv_omega
    refine ⟨?_, by rw [hrsp, haddr], ?_, by rw [hrbp, hebp], fun x hx hx' => ?_, a', saved',
      fun s' hsp hbp hmem => ⟨hname, ?_, ?_, by omega, ?_, ?_⟩⟩
    · rw [hcode]
      have hsuffix := a'.suffix
      rw [hitems, codeOf_append, List.append_assoc] at hsuffix
      exact (List.suffix_append _ _).trans hsuffix
    · rw [hrsp, hersp]
      bv_omega
    · rw [hersp, hadd] at hx
      exact hkept x hx hx'
    · rw [hmem]
      exact hcallers
    · rw [hcode]
      refine .body hitems hchain hready trivial ⟨hbp.trans hebp, ?_⟩ (hmem ▸ hsaved)
      rw [hsp, hersp, hadd]
      omega
    · rw [hsp, hersp, hadd]
      omega
    · rw [hmem]
      exact habove

/-- **The discipline holds in every run.** -/
theorem Running.disciplined {r : Emitted AsmCtx Item Unit} (hgen : genProgram p asmInit = .ok r)
    (hnames : p.names.Nodup) (hg : I.Grounds p (codeOf r.items) lo (s₀.regs .rsp).toNat)
    (hroom : lo ≤ (s₀.regs .rsp).toNat) {entry : List Line} {n : Nat}
    (hf : f ∉ (globalsOf p).map VarDecl.ident) (hfound : findEntry f (codeOf r.items) = some entry)
    (h : Running I (codeOf r.items) lo ⟨s₀, entry⟩ n cfg ps) :
    ∃ a saved, Disciplined I p (codeOf r.items) f lo s₀ cfg ps a saved := by
  induction h with
  | start =>
    obtain ⟨a, hname, hbase, rfl⟩ := exists_activation hgen hnames hf hfound (s₀.regs .rsp - 8)
    have hbytes := le_callBytes a.member
    have hlo := hg.room
    have hnat : a.base.toNat + 8 = (s₀.regs .rsp).toNat := by rw [hbase]; bv_omega
    refine ⟨a, s₀.regs .rbp, hname, .start hnat, .entry ?_ rfl, by omega, hroom, .refl⟩
    rw [hbase]
    bv_omega
  | inner _ hstep hlo ih =>
    obtain ⟨a, saved, hdisc⟩ := ih
    exact ⟨a, saved, hdisc.inner hg hstep hlo⟩
  | @call n s g k k' ps _ hcall hlo ih =>
    obtain ⟨a, saved, hdisc⟩ := ih
    have hg' := hg.calls a.decl a.member g hdisc.control.call.1
    obtain ⟨a', hname, hbase, rfl⟩ := exists_activation hgen hnames hg' hcall (s.regs .rsp - 16)
    exact ⟨a', a.base, hdisc.call hg hname hbase hlo⟩
  | @ret n s k k' e ps _ hk haddr ih =>
    obtain ⟨a, saved, hdisc⟩ := ih
    obtain ⟨hsuffix, hload, hrsp, hrbp, _, a', saved', hback⟩ := hdisc.return_eq
    have hlen := hg.code _ _ hk.length_le hsuffix.length_le (haddr.symm.trans hload)
    obtain rfl := (List.suffix_of_suffix_length_le hk hsuffix hlen.le).eq_of_length hlen
    exact ⟨a', saved', hback _ hrsp hrbp rfl⟩

/-! ## Runs of a linked program -/

/-- `fn QWORD one() { return 1; } fn QWORD two() { return call one() + call one(); }`. -/
def twoProgram : Program :=
  [.funcDecl ⟨ascii "one", ⟨.lit .litQword, false, 0⟩, [], [.returnStmt (.literal ⟨1, none⟩)]⟩,
    .funcDecl ⟨ascii "two", ⟨.lit .litQword, false, 0⟩, [],
      [.returnStmt (.binary .bAdd (.call (ascii "one") []) (.call (ascii "one") []))]⟩]

/-- The lines are numbered. -/
def twoImage : Image := ⟨fun _ => 4096, fun n => BitVec.ofNat 64 n⟩

/-- A state in which `two()` is called. -/
def callTwo : State :=
  ⟨fun id => if id = .rsp then 65528 else if id = .rbp then 7 else 0, none, fun _ => 0⟩

theorem grounds_twoImage {lines : List Line} (hlen : lines.length ≤ 100) :
    twoImage.Grounds twoProgram lines 8192 65528 := by
  refine ⟨fun i j hi hj hplace => ?_, by decide +kernel, ⟨?_, ?_⟩, by decide +kernel⟩
  · have hnat := congrArg BitVec.toNat hplace
    simp only [twoImage, BitVec.toNat_ofNat] at hnat
    omega
  · exact fun x hx => absurd hx (by simp [twoProgram, globalsOf])
  · exact fun x hx => absurd hx (by simp [twoProgram, globalsOf])

/-- After nineteen steps, the second `one()` is at its `ret`. -/
theorem running_two : ∃ r entry s k e, genProgram twoProgram asmInit = .ok r ∧
    (codeOf r.items).length ≤ 100 ∧ findEntry (ascii "two") (codeOf r.items) = some entry ∧
      Running twoImage (codeOf r.items) 8192 ⟨callTwo, entry⟩ 19 ⟨s, .instr .ret :: k⟩ [e] := by
  have hchecked : ((genProgram twoProgram asmInit).toOption.bind fun r =>
      (findEntry (ascii "two") (codeOf r.items)).bind fun entry =>
        (runFor twoImage (codeOf r.items) 8192 19 ⟨callTwo, entry⟩ []).map fun reached =>
          (decide ((codeOf r.items).length ≤ 100), reached.1.code.head?, reached.2.length)) =
      some (true, some (.instr .ret), 1) := by decide +kernel
  obtain ⟨r, hr, hchecked⟩ := Option.bind_eq_some_iff.mp hchecked
  obtain ⟨entry, hfound, hchecked⟩ := Option.bind_eq_some_iff.mp hchecked
  obtain ⟨⟨⟨s, code⟩, ps⟩, hfor, hreached⟩ := Option.map_eq_some_iff.mp hchecked
  obtain ⟨hlen, hreached⟩ := Prod.mk.inj hreached
  obtain ⟨hhead, hone⟩ := Prod.mk.inj hreached
  have hgen : genProgram twoProgram asmInit = .ok r := by
    cases hgen : genProgram twoProgram asmInit with
    | error e => simp [hgen, Except.toOption] at hr
    | ok r' =>
      rw [hgen] at hr
      rw [Option.some.inj hr]
  obtain ⟨k, rfl⟩ : ∃ k, code = .instr .ret :: k := List.head?_eq_some_iff.mp hhead
  obtain ⟨e, rfl⟩ := List.length_eq_one_iff.mp hone
  have hrun := running_of_runFor .start hfor
  rw [Nat.zero_add] at hrun
  exact ⟨r, entry, s, k, e, hgen, by simpa using hlen, hfound, hrun⟩

end discipline

end ACompiler
