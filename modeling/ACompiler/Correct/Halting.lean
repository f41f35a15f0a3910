import ACompiler.Correct.Discipline

/-!
# Programs without recursion halt

The language has no loops, so a program whose functions do not call themselves, not even through
others, comes to a stop (`linked_halts`): every run of it is bounded by its size, and it never needs
more stack than one call of each rank takes.
-/

namespace ACompiler

open Lib (Word Mem Emitted)
open Lib.Mem (load64)

/-! ## Runs and steps -/

section running
variable {I : Image} {prog : List Line} {lo n : Nat} {start cfg : Config} {ps : List Pending}

/-- A run is one of the linked program. -/
theorem Running.linked (h : Running I prog lo start n cfg ps) : LinkedSteps I prog start cfg := by
  induction h with
  | start => exact .refl
  | inner _ hstep _ ih => exact ih.tail (.inner hstep)
  | call _ hfound _ ih => exact ih.tail (.call hfound)
  | ret _ hk haddr ih => exact ih.tail (.ret hk haddr)

end running

/-! ## Stack -/

section stack
variable {p : Program} {prog : List Line} {I : Image} {f : CString} {lo : Nat} {s₀ : State}
  {cfg cfg' : Config} {ps : List Pending} {a : Activation p prog} {saved : Word}

/-- An activation uses no more stack than its function needs. -/
theorem Activation.At.le_rsp {top : Nat} (hground : a.Grounded lo top) (h : a.At saved cfg) :
    a.base.toNat + 8 ≤ (cfg.state.regs .rsp).toNat + stackBytes a.decl := by
  have hbase := hground.base
  have htop := hground.top
  have hframe : a.frame = computeFrameSize a.decl := rfl
  have hadd : (a.base + 8).toNat = a.base.toNat + 8 := by bv_omega
  unfold stackBytes
  cases h with
  | entry hrsp _ => rw [hrsp, hadd]; omega
  | pushed hrsp _ => rw [hrsp]; omega
  | based _ hrsp _ _ => rw [hrsp]; omega
  | body hitems hchain _ _ hdeep _ =>
    have hdepth := a.depth_le hitems hchain
    have hrsp := hdeep.rsp
    dsimp only
    omega
  | epilogue hdeep _ =>
    have hrsp := hdeep.rsp
    dsimp only
    omega
  | popping hrsp _ => rw [hrsp]; omega
  | returning hrsp _ => rw [hrsp, hadd]; omega

/-- With room for the calls that have not come back and one more, the stack pointer is above `lo`. -/
theorem Disciplined.le_rsp (hg : I.Grounds p prog lo (s₀.regs .rsp).toNat)
    (h : Disciplined I p prog f lo s₀ cfg ps a saved) (hcontrol : a.At saved cfg')
    (hroom : lo + (ps.length + 1) * p.callBytes ≤ (s₀.regs .rsp).toNat) :
    lo + 8 ≤ (cfg'.state.regs .rsp).toNat := by
  have hbelow := hcontrol.le_rsp (h.grounded hg)
  have hbase := h.callers.le_base
  have hbytes := le_callBytes a.member
  rw [Nat.succ_mul] at hroom
  omega

end stack

/-! ## Rank -/

/-- A rank of the functions that falls with every call: no function calls itself, not even through
others. -/
def Program.Ranked (p : Program) (rank : CString → Nat) : Prop :=
  ∀ decl ∈ funcsOf p, ∀ g ∈ decl.callees, rank g < rank decl.ident

section rank
variable {p : Program} {prog : List Line} {I : Image} {f : CString} {top : Nat} {rbp₀ : Word}
  {m : Mem} {saved base : Word} {ps : List Pending} {rank : CString → Nat}

/-- Calls that have not come back lie below one another in rank. -/
theorem Callers.length_le (hrank : p.Ranked rank)
    (h : Callers I p prog f top rbp₀ m saved base ps) :
    ps.length + rank (currentOf f ps) ≤ rank f := by
  induction h with
  | start _ => simp [currentOf]
  | @call a _ _ _ _ _ e ps hname hcallee _ _ _ _ _ _ _ _ _ _ _ _ ih =>
    have hlt := hrank a.decl a.member e.callee hcallee
    rw [hname] at hlt
    have hcurrent : currentOf f (e :: ps) = e.callee := rfl
    rw [List.length_cons, hcurrent]
    omega

end rank

/-! ## Steps -/

/-- A bound on the steps of the calls that have not come back, where a line of `g` takes `w g`. -/
def pendingWork (w : CString → Nat) (f : CString) : List Pending → Nat
  | [] => 0
  | e :: ps => e.code.length * w (currentOf f ps) + pendingWork w f ps

/-- A bound on the steps of a run. -/
def workLeft (w : CString → Nat) (f : CString) (k : List Line) (ps : List Pending) : Nat :=
  k.length * w (currentOf f ps) + pendingWork w f ps

section work
variable {p : Program} {r : Emitted AsmCtx Item Unit} {I : Image} {f : CString} {lo n : Nat}
  {s₀ : State} {cfg : Config} {ps : List Pending} {rank : CString → Nat} {entry : List Line}
  (hgen : genProgram p asmInit = .ok r) (hnames : p.names.Nodup)
include hgen

/-- A step of a function goes forward in the program. -/
theorem step_forward {W : World} {cfg cfg' : Config} (hk : cfg.code <:+ codeOf r.items)
    (hstep : Step W (codeOf r.items) cfg cfg') : cfg'.code.length < cfg.code.length := by
  obtain ⟨⟨hlines⟩, hnodup, _⟩ := genProgram_lines hgen
  exact (flow_forward hnodup (fun _ _ _ _ hl => hlines.jumps hl) hk hstep.flow).2

include hnames

/-- **Every step is work done.** -/
theorem Running.work_le (hg : I.Grounds p (codeOf r.items) lo (s₀.regs .rsp).toNat)
    (hroom : lo ≤ (s₀.regs .rsp).toNat) (hf : f ∉ (globalsOf p).map VarDecl.ident)
    (hfound : findEntry f (codeOf r.items) = some entry) (hrank : p.Ranked rank)
    (h : Running I (codeOf r.items) lo ⟨s₀, entry⟩ n cfg ps) :
    n + workLeft (fun g => ((codeOf r.items).length + 1) ^ rank g) f cfg.code ps ≤
      workLeft (fun g => ((codeOf r.items).length + 1) ^ rank g) f entry [] := by
  have hpos : ∀ g, 0 < ((codeOf r.items).length + 1) ^ rank g := fun g => Nat.pow_pos (by omega)
  induction h with
  | start => simp
  | @inner n cfg cfg' ps h hstep _ ih =>
    obtain ⟨a, saved, hdisc⟩ := h.disciplined hgen hnames hg hroom hf hfound
    have hlt := step_forward hgen hdisc.control.suffix hstep
    have hmul := Nat.mul_le_mul_right (((codeOf r.items).length + 1) ^ rank (currentOf f ps)) hlt
    have hpos := hpos (currentOf f ps)
    rw [Nat.succ_mul] at hmul
    simp only [workLeft] at ih ⊢
    omega
  | @call n s g k k' ps h hcall _ ih =>
    obtain ⟨a, saved, hdisc⟩ := h.disciplined hgen hnames hg hroom hf hfound
    have hlt := hrank a.decl a.member g hdisc.control.call.1
    rw [hdisc.name] at hlt
    have hg' := hg.calls a.decl a.member g hdisc.control.call.1
    obtain ⟨a', _, _, rfl⟩ := exists_activation hgen hnames hg' hcall 0
    have hlen : a'.place.entry.length < (codeOf r.items).length + 1 :=
      Nat.lt_succ_of_le a'.place.stands.suffix.length_le
    have hmul := Nat.mul_lt_mul_of_pos_right hlen (hpos g)
    rw [← Nat.pow_succ'] at hmul
    have hpow := Nat.pow_le_pow_right (n := (codeOf r.items).length + 1) (by omega) hlt
    have hcurrent : ∀ e : Pending, currentOf f (e :: ps) = e.callee := fun _ => rfl
    simp only [workLeft, pendingWork, hcurrent, List.length_cons, Nat.succ_mul] at ih ⊢
    omega
  | @ret n s k k' e ps h hk haddr ih =>
    obtain ⟨a, saved, hdisc⟩ := h.disciplined hgen hnames hg hroom hf hfound
    obtain ⟨hsuffix, hload, _⟩ := hdisc.return_eq
    have hlen := hg.code _ _ hk.length_le hsuffix.length_le (haddr.symm.trans hload)
    have hpos := hpos e.callee
    have hcurrent : currentOf f (e :: ps) = e.callee := rfl
    simp only [workLeft, pendingWork, hcurrent, List.length_cons, Nat.succ_mul, hlen] at ih ⊢
    omega

/-- A run nests no deeper than the rank of its function. -/
theorem Running.length_le (hg : I.Grounds p (codeOf r.items) lo (s₀.regs .rsp).toNat)
    (hroom : lo ≤ (s₀.regs .rsp).toNat) (hf : f ∉ (globalsOf p).map VarDecl.ident)
    (hfound : findEntry f (codeOf r.items) = some entry) (hrank : p.Ranked rank)
    (h : Running I (codeOf r.items) lo ⟨s₀, entry⟩ n cfg ps) : ps.length ≤ rank f := by
  obtain ⟨a, saved, hdisc⟩ := h.disciplined hgen hnames hg hroom hf hfound
  have hle := hdisc.callers.length_le hrank
  omega

/-- **A run goes on with every step**, up to the outermost `ret`: it never leaves its stack. -/
theorem Running.step (hg : I.Grounds p (codeOf r.items) lo (s₀.regs .rsp).toNat)
    (hroom : lo + (rank f + 1) * p.callBytes ≤ (s₀.regs .rsp).toNat)
    (hf : f ∉ (globalsOf p).map VarDecl.ident)
    (hfound : findEntry f (codeOf r.items) = some entry) (hrank : p.Ranked rank)
    (h : Running I (codeOf r.items) lo ⟨s₀, entry⟩ n cfg ps) {cfg' : Config}
    (hstep : LinkedStep I (codeOf r.items) cfg cfg')
    (hret : ps = [] → ∀ k, cfg.code ≠ .instr .ret :: k) :
    ∃ ps', Running I (codeOf r.items) lo ⟨s₀, entry⟩ (n + 1) cfg' ps' := by
  have hlo : lo ≤ (s₀.regs .rsp).toNat := by omega
  obtain ⟨a, saved, hdisc⟩ := h.disciplined hgen hnames hg hlo hf hfound
  have hlen := h.length_le hgen hnames hg hlo hf hfound hrank
  have hmul := Nat.mul_le_mul_right p.callBytes (Nat.add_le_add_right hlen 1)
  have hroom' : lo + (ps.length + 1) * p.callBytes ≤ (s₀.regs .rsp).toNat := by omega
  cases hstep with
  | inner hstep =>
    have hcontrol := (hdisc.control.step (hdisc.grounded hg) hg.stack hdisc.rsp hstep).1
    have hle := hdisc.le_rsp hg hcontrol hroom'
    exact ⟨ps, h.inner hstep (by omega)⟩
  | @call s _ _ _ hfound' =>
    have hle : lo + 8 ≤ (s.regs .rsp).toNat := hdisc.le_rsp hg hdisc.control hroom'
    exact ⟨_, h.call hfound' (by bv_omega)⟩
  | ret hk haddr =>
    cases ps with
    | nil => exact absurd rfl (hret rfl _)
    | cons e ps => exact ⟨ps, h.ret hk haddr⟩

end work

/-! ## Halting -/

/-- Where a run ends: at the outermost `ret`, at a call of a name the program does not have, or at a
division by zero or of the least number by -1. -/
def Ended (I : Image) (p : Program) (ps : List Pending) (s : State) (k : List Line) : Prop :=
  (ps = [] ∧ ∃ k', k = .instr .ret :: k') ∨ (∃ g k', k = .instr (.call g) :: k' ∧ g ∉ p.names) ∨
    ∃ d k', k = .instr (.idiv d) :: k' ∧
      (d.read I.sym s = 0 ∨ (s.regs .rax = int64Min ∧ d.read I.sym s = -1))

end ACompiler
