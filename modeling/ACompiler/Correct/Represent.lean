import ACompiler.Correct.Forward
import ACompiler.Correct.Layout
import ACompiler.Semantics.Interp

/-!
# Stores in memory

`Rep` relates a store of the interpreter to memory: every local lies in its slot and every global in
its cell. Reading and writing variables keeps the relation because no two variables share a byte,
whether or not a declaration further in hides them; so what the interpreter evaluates, the memory
semantics evaluates too (`evalExpr_ref`), and the code of an expression runs to it (`exec_expr`).
-/

namespace ACompiler

open Lib (Word Mem)
open Lib.Mem (load64 store64 InCell Apart)

/-! ## Names -/

/-- The names in scope are the locals and, behind them, the globals `gs`. -/
structure AsmCtx.Over (c : AsmCtx) (gs : List CString) : Prop where
  locals : ∀ x v, (c.locals.find? fun v => v.name = x) = some v → findSymbol c x = some v
  globals : ∀ x, (c.locals.find? fun v => v.name = x) = none → x ∈ gs →
    ∃ v, findSymbol c x = some v ∧ v.isGlobal = true
  others : ∀ x v, findSymbol c x = some v → v.isGlobal = true → x ∈ gs

theorem AsmCtx.Over.declare {c : AsmCtx} {gs : List CString} (h : c.Over gs)
    (hstk : c.scopeStk ≠ []) (name : CString) (type : VarT) : (c.declare name type).Over gs := by
  have hlocals := locals_declare hstk name type
  refine ⟨?_, ?_, ?_⟩
  · intro x v hv
    rw [findSymbol_declare hstk]
    rw [hlocals, List.find?_cons] at hv
    by_cases hx : name = x
    · simpa [hx] using hv
    · simp only [hx, decide_false] at hv
      rw [if_neg hx]
      exact h.locals x v hv
  · intro x hnone hx
    rw [findSymbol_declare hstk]
    rw [hlocals, List.find?_cons] at hnone
    by_cases hname : name = x
    · simp [hname] at hnone
    · simp only [hname, decide_false] at hnone
      rw [if_neg hname]
      exact h.globals x hnone hx
  · intro x v hv hg
    rw [findSymbol_declare hstk] at hv
    by_cases hname : name = x
    · rw [if_pos hname] at hv
      obtain rfl := Option.some.inj hv
      exact absurd hg (by simp)
    · rw [if_neg hname] at hv
      exact h.others x v hv hg

theorem findSymbol_enter (c : AsmCtx) (x : CString) : findSymbol c.enter x = findSymbol c x := by
  have h : c.enter.scopeStk = newScope c.curOffset :: c.scopeStk := rfl
  rw [findSymbol_of_cons h]
  rfl

theorem AsmCtx.Over.enter {c : AsmCtx} {gs : List CString} (h : c.Over gs) : c.enter.Over gs := by
  refine ⟨?_, ?_, ?_⟩
  · intro x v hv
    rw [locals_enter] at hv
    rw [findSymbol_enter]
    exact h.locals x v hv
  · intro x hnone hx
    rw [locals_enter] at hnone
    rw [findSymbol_enter]
    exact h.globals x hnone hx
  · intro x v hv
    rw [findSymbol_enter] at hv
    exact h.others x v hv

/-- A context in the body of a function with that frame. -/
structure Scoped (gs : List CString) (frame : Nat) (c : AsmCtx) : Prop where
  names : c.Over gs
  slots : c.Slotted
  frame : -(frame : Int) ≤ c.curOffset

/-! ## The layout -/

/-- The stack of a function from `lo` up, whose frame lies under `rbp`, and the cells of the
globals: these meet neither the stack nor each other. -/
structure Layout (sym : CString → Word) (gs : List CString) (rbp : Word) (frame lo : Nat) : Prop where
  room : lo + frame ≤ rbp.toNat
  apart : ∀ x ∈ gs, ∀ y ∈ gs, x ≠ y → Apart (sym x) (sym y)
  outside : ∀ x ∈ gs, ∀ a, InCell (sym x) a → ¬ (lo ≤ a.toNat ∧ a.toNat < rbp.toNat + 8)

/-- The slot of a local holds its value, if it has one. -/
def SlotHolds (m : Mem) (rbp : Word) (v : Symbol) (b : CString × Option Word) : Prop :=
  v.name = b.1 ∧ ∀ w, b.2 = some w → load64 m (slotAddr rbp v) = w

/-- The memory holds the store. -/
structure Rep (sym : CString → Word) (gs : List CString) (rbp : Word) (c : AsmCtx) (σ : Store)
    (m : Mem) : Prop where
  locals : List.Forall₂ (SlotHolds m rbp) c.locals σ.locals
  globals : ∀ x, σ.globals x = if x ∈ gs then some (load64 m (sym x)) else none

/-- Looking a name up among the symbols and among the variables. -/
theorem find?_slots {m : Mem} {rbp : Word} {vs : List Symbol} {bs : List (CString × Option Word)}
    (h : List.Forall₂ (SlotHolds m rbp) vs bs) (x : CString) :
    (∃ v b, (vs.find? fun v => v.name = x) = some v ∧ (bs.find? fun b => b.1 = x) = some b ∧
        SlotHolds m rbp v b) ∨
      ((vs.find? fun v => v.name = x) = none ∧ (bs.find? fun b => b.1 = x) = none) := by
  induction h with
  | nil => exact .inr ⟨rfl, rfl⟩
  | @cons v b vs bs hvb _ ih =>
    rw [List.find?_cons, List.find?_cons]
    by_cases hx : b.1 = x
    · exact .inl ⟨v, b, by simp [hvb.1, hx], by simp [hx], hvb⟩
    · simpa [hvb.1, hx] using ih

section rep
variable {sym : CString → Word} {gs : List CString} {rbp : Word} {frame lo : Nat} {c : AsmCtx}
  {σ σ' : Store} {m m' : Mem}

theorem Layout.bottom_le (hl : Layout sym gs rbp frame lo) (hc : Scoped gs frame c) :
    (lo : Int) ≤ rbp.toNat + c.curOffset := by
  have h₁ := hl.room
  have h₂ := hc.frame
  omega

theorem Layout.slot_apart (hl : Layout sym gs rbp frame lo) (hc : Scoped gs frame c) {v : Symbol}
    (hv : v ∈ c.locals) {x : CString} (hx : x ∈ gs) : Apart (slotAddr rbp v) (sym x) := by
  have hbottom := hl.bottom_le hc
  refine slot_apart_global hc.slots (by omega) hv rbp.toNat hbottom (Nat.le_refl _) ?_
  intro a ha h
  exact hl.outside x hx a ha ⟨h.1, by omega⟩

theorem Rep.read (hc : Scoped gs frame c) (h : Rep sym gs rbp c σ m) {x : CString} {w : Word}
    (hread : σ.read x = some w) :
    ∃ a, addrOf sym (findSymbol c) rbp x = some a ∧ load64 m a = w := by
  unfold Store.read at hread
  rcases find?_slots h.locals x with ⟨v, b, hv, hb, hvb⟩ | ⟨hv, hb⟩
  · rw [hb] at hread
    have hg : v.isGlobal = false := by
      have hmem := List.mem_of_find?_eq_some hv
      simpa [AsmCtx.locals] using (List.mem_filter.mp hmem).2
    refine ⟨slotAddr rbp v, ?_, hvb.2 w hread⟩
    simp [addrOf, hc.names.locals x v hv, hg, slotAddr]
  · rw [hb] at hread
    simp only [h.globals] at hread
    by_cases hx : x ∈ gs
    · rw [if_pos hx] at hread
      obtain ⟨v, hfind, hg⟩ := hc.names.globals x hv hx
      exact ⟨sym x, by simp [addrOf, hfind, hg], Option.some.inj hread⟩
    · rw [if_neg hx] at hread
      exact absurd hread (by simp)

/-- A store next to the slots leaves them as they are. -/
theorem slots_store {vs : List Symbol} {bs : List (CString × Option Word)} {a w : Word}
    (h : List.Forall₂ (SlotHolds m rbp) vs bs) (hapart : ∀ v ∈ vs, Apart (slotAddr rbp v) a) :
    List.Forall₂ (SlotHolds (store64 m a w) rbp) vs bs := by
  induction h with
  | nil => exact .nil
  | @cons v b vs bs hvb _ ih =>
    refine .cons ⟨hvb.1, fun w' hw' => ?_⟩ (ih fun v hv => hapart v (List.mem_cons_of_mem _ hv))
    rw [Lib.Mem.load64_store64_of_apart (hapart v List.mem_cons_self)]
    exact hvb.2 w' hw'

/-- A store into the slot that a name finds gives its variable the value. -/
theorem slots_setLocal {vs : List Symbol} {bs : List (CString × Option Word)} {v : Symbol}
    {x : CString} {w : Word} (h : List.Forall₂ (SlotHolds m rbp) vs bs)
    (hv : (vs.find? fun v => v.name = x) = some v)
    (hnodup : (vs.map Symbol.stackOffset).Nodup)
    (hapart : ∀ v' ∈ vs, v'.stackOffset ≠ v.stackOffset → Apart (slotAddr rbp v') (slotAddr rbp v)) :
    List.Forall₂ (SlotHolds (store64 m (slotAddr rbp v) w) rbp) vs (setLocal x w bs) := by
  induction h with
  | nil => exact absurd hv (by simp)
  | @cons v' b vs bs hvb hrest ih =>
    rw [List.map_cons, List.nodup_cons] at hnodup
    rw [List.find?_cons] at hv
    have hoff : ∀ u ∈ vs, u.stackOffset ≠ v'.stackOffset :=
      fun u hu he => hnodup.1 (he ▸ List.mem_map_of_mem hu)
    by_cases hx : b.1 = x
    · obtain rfl : v' = v := by simpa [hvb.1, hx] using hv
      rw [setLocal, if_pos hx]
      refine .cons ⟨hvb.1.trans hx, fun w' hw' => ?_⟩ (slots_store hrest fun u hu => ?_)
      · rw [Lib.Mem.load64_store64]
        exact Option.some.inj hw'
      · exact hapart u (List.mem_cons_of_mem _ hu) (hoff u hu)
    · have hv : (vs.find? fun v => v.name = x) = some v := by simpa [hvb.1, hx] using hv
      rw [setLocal, if_neg hx]
      refine .cons ⟨hvb.1, fun w' hw' => ?_⟩ (ih hv hnodup.2 fun u hu =>
        hapart u (List.mem_cons_of_mem _ hu))
      rw [Lib.Mem.load64_store64_of_apart (hapart v' List.mem_cons_self
        fun he => hoff v (List.mem_of_find?_eq_some hv) he.symm)]
      exact hvb.2 w' hw'

theorem Rep.write (hl : Layout sym gs rbp frame lo) (hc : Scoped gs frame c)
    (h : Rep sym gs rbp c σ m) {x : CString} {w : Word} (hwrite : σ.write x w = some σ') :
    ∃ a, addrOf sym (findSymbol c) rbp x = some a ∧ Rep sym gs rbp c σ' (store64 m a w) := by
  have hbottom := hl.bottom_le hc
  unfold Store.write at hwrite
  rcases find?_slots h.locals x with ⟨v, b, hv, hb, _⟩ | ⟨hv, hb⟩
  · rw [hb] at hwrite
    obtain rfl := Option.some.inj hwrite
    have hmem := List.mem_of_find?_eq_some hv
    have hg : v.isGlobal = false := by
      simpa [AsmCtx.locals] using (List.mem_filter.mp hmem).2
    refine ⟨slotAddr rbp v, by simp [addrOf, hc.names.locals x v hv, hg, slotAddr], ?_, ?_⟩
    · exact slots_setLocal h.locals hv hc.slots.distinct fun u hu hne =>
        slots_apart hc.slots (by omega) hu hmem hne
    · intro y
      rw [h.globals]
      by_cases hy : y ∈ gs
      · rw [if_pos hy, if_pos hy,
          Lib.Mem.load64_store64_of_apart (hl.slot_apart hc hmem hy).symm]
      · rw [if_neg hy, if_neg hy]
  · rw [hb] at hwrite
    simp only [h.globals] at hwrite
    by_cases hx : x ∈ gs
    · rw [if_pos hx] at hwrite
      obtain rfl := Option.some.inj hwrite
      obtain ⟨v, hfind, hg⟩ := hc.names.globals x hv hx
      refine ⟨sym x, by simp [addrOf, hfind, hg], slots_store h.locals fun u hu =>
        hl.slot_apart hc hu hx, ?_⟩
      intro y
      by_cases hyx : y = x
      · subst hyx
        simp [hx]
      · simp only [if_neg hyx]
        by_cases hy : y ∈ gs
        · rw [if_pos hy, if_pos hy, Lib.Mem.load64_store64_of_apart (hl.apart y hy x hx hyx)]
        · rw [if_neg hy, if_neg hy]
    · rw [if_neg hx] at hwrite
      exact absurd hwrite (by simp)

/-! ## Expressions -/

/-- **What the interpreter evaluates, the memory semantics evaluates too.** -/
theorem evalExpr_ref (hl : Layout sym gs rbp frame lo) (hc : Scoped gs frame c) :
    ∀ (e : Expr) {σ σ' : Store} {m : Mem} {v : Word}, evalExpr e σ = some (v, σ') →
      Rep sym gs rbp c σ m → ∃ m', RefEval (addrOf sym (findSymbol c) rbp) (.expr e) m [] [v] m' ∧
        Rep sym gs rbp c σ' m'
  | .literal lit, σ, σ', m, v, h, hrep => by
    rw [evalExpr] at h
    obtain ⟨rfl, rfl⟩ := Prod.mk.inj (Option.some.inj h)
    exact ⟨m, .literal, hrep⟩
  | .identifier x, σ, σ', m, v, h, hrep => by
    rw [evalExpr, Option.map_eq_some_iff] at h
    obtain ⟨w, hread, hw⟩ := h
    obtain ⟨rfl, rfl⟩ := Prod.mk.inj hw
    obtain ⟨a, ha, rfl⟩ := hrep.read hc hread
    exact ⟨m, .identifier ha, hrep⟩
  | .unary op e, σ, σ', m, v, h, hrep => by
    simp only [evalExpr, Option.bind_eq_bind, Option.bind_eq_some_iff] at h
    obtain ⟨⟨a, σ₁⟩, he, w, hw, hv⟩ := h
    obtain ⟨rfl, rfl⟩ := Prod.mk.inj (Option.some.inj hv)
    obtain ⟨m', heval, hrep'⟩ := evalExpr_ref hl hc e he hrep
    exact ⟨m', .unary heval hw, hrep'⟩
  | .binary op left right, σ, σ', m, v, h, hrep => by
    simp only [evalExpr, Option.bind_eq_bind, Option.bind_eq_some_iff] at h
    obtain ⟨⟨a, σ₁⟩, hleft, ⟨b, σ₂⟩, hright, w, hw, hv⟩ := h
    obtain ⟨rfl, rfl⟩ := Prod.mk.inj (Option.some.inj hv)
    obtain ⟨m₁, heval₁, hrep₁⟩ := evalExpr_ref hl hc left hleft hrep
    obtain ⟨m₂, heval₂, hrep₂⟩ := evalExpr_ref hl hc right hright hrep₁
    exact ⟨m₂, .binary heval₁ heval₂ hw, hrep₂⟩
  | .assign target val, σ, σ', m, v, h, hrep => by
    cases target with
    | identifier x =>
      simp only [evalExpr, Option.bind_eq_bind, Option.bind_eq_some_iff] at h
      obtain ⟨⟨w, σ₁⟩, hval, σ₂, hwrite, hv⟩ := h
      obtain ⟨rfl, rfl⟩ := Prod.mk.inj (Option.some.inj hv)
      obtain ⟨m₁, heval, hrep₁⟩ := evalExpr_ref hl hc val hval hrep
      obtain ⟨a, ha, hrep₂⟩ := hrep₁.write hl hc hwrite
      exact ⟨_, .assign heval ha, hrep₂⟩
    | _ => exact absurd h (by simp [evalExpr])
  | .cast t inner, σ, σ', m, v, h, hrep => by
    rw [evalExpr] at h
    obtain ⟨m', heval, hrep'⟩ := evalExpr_ref hl hc inner h hrep
    exact ⟨m', .cast heval, hrep'⟩
  | .call _ _, _, _, _, _, h, _ => by simp [evalExpr] at h
  | .index _ _, _, _, _, _, h, _ => by simp [evalExpr] at h

/-- Memory that differs in the temporaries only holds the same store. -/
theorem Rep.congr (hl : Layout sym gs rbp frame lo) (hc : Scoped gs frame c)
    (h : Rep sym gs rbp c σ m) (hi : Nat) (hhi : (hi : Int) ≤ rbp.toNat + c.curOffset)
    (hm : ∀ x : Word, ¬ (lo ≤ x.toNat ∧ x.toNat < hi) → m' x = m x) : Rep sym gs rbp c σ m' := by
  have hbottom := hl.bottom_le hc
  have hoff := hc.slots.offset.1
  have hslots : ∀ v ∈ c.locals, load64 m' (slotAddr rbp v) = load64 m (slotAddr rbp v) := by
    intro v hv
    obtain ⟨hlow, -⟩ := hc.slots.bounds v hv
    refine Lib.Mem.load64_congr fun x hx => hm x ?_
    rw [inCell_slot hc.slots (by omega) hv] at hx
    omega
  refine ⟨?_, ?_⟩
  · have hrel := h.locals
    generalize c.locals = vs at hrel hslots
    generalize σ.locals = bs at hrel
    induction hrel with
    | nil => exact .nil
    | @cons v b vs bs hvb _ ih =>
      refine .cons ⟨hvb.1, fun w hw => ?_⟩ (ih fun u hu => hslots u (List.mem_cons_of_mem _ hu))
      rw [hslots v List.mem_cons_self]
      exact hvb.2 w hw
  · intro x
    rw [h.globals]
    by_cases hx : x ∈ gs
    · rw [if_pos hx, if_pos hx]
      congr 1
      refine Lib.Mem.load64_congr fun a ha => (hm a fun hwin => ?_).symm
      exact hl.outside x hx a ha ⟨hwin.1, by omega⟩
    · rw [if_neg hx, if_neg hx]

end rep

/-! ## Runs -/

/-- The state of a function whose `%rbp` is `base` and that holds the store; above the frame, memory
is `M` but for the globals. -/
structure Sim (sym : CString → Word) (gs : List CString) (base : Word) (frame : Nat) (M : Mem)
    (c : AsmCtx) (σ : Store) (s : State) : Prop where
  rep : Rep sym gs base c σ s.mem
  rbp : s.regs .rbp = base
  rsp : s.regs .rsp = base - BitVec.ofNat 64 frame
  above : ∀ x : Word, base.toNat ≤ x.toNat → (∀ g ∈ gs, ¬ InCell (sym g) x) → s.mem x = M x

/-- **The code of an expression computes what the interpreter evaluates.** -/
theorem exec_expr {W : World} {gs : List CString} {rbp : Word} {frame lo : Nat} {M : Mem}
    {c : AsmCtx} {σ σ' : Store} {s : State} {e : Expr} {v : Word} {items : List Item}
    (hl : Layout W.sym gs rbp frame lo) (hc : Scoped gs frame c)
    (hcode : ExprCode c (.expr e) items) (hs : Sim W.sym gs rbp frame M c σ s)
    (heval : evalExpr e σ = some (v, σ')) (hroom : lo + 8 * exprNeed e + frame ≤ rbp.toNat) :
    ∃ s', Exec W (codeOf items) s [] s' ∧ s'.regs .rax = v ∧
      Sim W.sym gs rbp frame M c σ' s' := by
  have hframe := hc.frame
  have hoff := hc.slots.offset.1
  have hnat : (rbp - BitVec.ofNat 64 frame).toNat = rbp.toNat - frame := by
    have hlt := rbp.isLt
    bv_omega
  have hglobals : ∀ x, (∃ w, findSymbol c x = some w ∧ w.isGlobal = true) → ∀ a,
      InCell (W.sym x) a → ¬ (lo ≤ a.toNat ∧ a.toNat < rbp.toNat - frame) := by
    rintro x ⟨w, hw, hg⟩ a ha hwin
    exact hl.outside x (hc.names.others x w hw hg) a ha ⟨hwin.1, by omega⟩
  have hA : Avoids (addrOf W.sym (findSymbol c) rbp) lo (rbp.toNat - frame) :=
    avoids_of_slotted hc.slots (by omega) (by omega) fun x w hw hg => hglobals x ⟨w, hw, hg⟩
  obtain ⟨m', href, hrep⟩ := evalExpr_ref hl hc e heval hs.rep
  obtain ⟨s', w, hrun, hev, hw, hspares⟩ := hcode.runs (W := W) hA rfl (by rw [hs.rbp]) href rfl
    (fun _ _ _ _ _ => rfl) ⟨by simp only [Phrase.need]; rw [hs.rsp, hnat]; omega,
      by rw [hs.rsp]; exact Nat.le_of_eq hnat⟩
  obtain ⟨rfl, -⟩ := List.cons.inj hw
  have hrax : v = s'.regs .rax := List.head_eq_of_cons_eq hev.delivers
  refine ⟨s', hrun, hrax.symm, ?_, ?_, ?_, ?_⟩
  · refine hrep.congr hl hc (rbp.toNat - frame) (by omega) fun x hx => ?_
    by_cases hvis : ∃ name a, addrOf W.sym (findSymbol c) rbp name = some a ∧ InCell a x
    · obtain ⟨name, a, ha, hcell⟩ := hvis
      exact hev.agree name a ha x hcell
    · have hnone : ∀ name a, addrOf W.sym (findSymbol c) rbp name = some a → ¬ InCell a x :=
        fun name a ha hcell => hvis ⟨name, a, ha, hcell⟩
      rw [hspares x hx hnone, href.frame rfl x hnone]
  · rw [hev.rbp, hs.rbp]
  · rw [hev.rsp, hs.rsp]
    simp [Phrase.pushes]
  · intro x hx hnone
    rw [hspares x (by omega) ?_, hs.above x hx hnone]
    intro name a ha hcell
    rw [addrOf, Option.map_eq_some_iff] at ha
    obtain ⟨w, hw, rfl⟩ := ha
    by_cases hg : w.isGlobal = true
    · rw [if_pos hg] at hcell
      exact hnone name (hc.names.others name w hw hg) hcell
    · rw [if_neg hg] at hcell
      have hmem := findSymbol_mem_locals hw (by simpa using hg)
      obtain ⟨_, hhigh, _⟩ := hc.slots.bounds w hmem
      have hbytes := (inCell_slot hc.slots (by omega) hmem x).mp hcell
      omega

end ACompiler
