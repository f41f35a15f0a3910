import ACompiler.Assembler.Frame
import ACompiler.Machine.Stack

/-!
# Where the variables are

The slot of a local is eight bytes of the frame under `%rbp`, and the temporaries lie below all of
them: as long as no global is in the way, code that uses the stack below the slots meets no variable
(`avoids_of_slotted`), and different variables share no byte (`slots_apart`, `slot_apart_global`).
-/

namespace ACompiler

open Lib (Word Mem)
open Lib.Mem (load64 store64 InCell Apart)

/-- The slot of a local. -/
def slotAddr (rbp : Word) (v : Symbol) : Word := rbp + BitVec.ofInt 64 v.stackOffset

theorem add_ofInt_toNat {a : Word} {o : Int} (hlo : 0 ≤ (a.toNat : Int) + o) (ho : o ≤ 0) :
    ((a + BitVec.ofInt 64 o).toNat : Int) = a.toNat + o := by
  have hlt := a.isLt
  rw [BitVec.toNat_add, BitVec.toNat_ofInt]
  omega

/-- The cells of two accesses that share no byte. -/
theorem apart_of_not_inCell {a b : Word} (h : ¬ InCell a b) (h' : ¬ InCell b a) : Apart a b := by
  unfold InCell at h h'
  exact ⟨by omega, by omega⟩

section slots
variable {c : AsmCtx} {rbp : Word} {v w : Symbol}

/-- The bytes of a slot. -/
theorem inCell_slot (hc : c.Slotted) (hrbp : 0 ≤ (rbp.toNat : Int) + c.curOffset)
    (hv : v ∈ c.locals) (x : Word) :
    InCell (slotAddr rbp v) x ↔
      (rbp.toNat : Int) + v.stackOffset ≤ x.toNat ∧ (x.toNat : Int) < rbp.toNat + v.stackOffset + 8 := by
  obtain ⟨hlow, hhigh, -⟩ := hc.bounds v hv
  have hnat : ((slotAddr rbp v).toNat : Int) = rbp.toNat + v.stackOffset :=
    add_ofInt_toNat (by omega) (by omega)
  have hlt := rbp.isLt
  rw [inCell_iff (by omega)]
  omega

theorem slots_apart (hc : c.Slotted) (hrbp : 0 ≤ (rbp.toNat : Int) + c.curOffset)
    (hv : v ∈ c.locals) (hw : w ∈ c.locals) (hne : v.stackOffset ≠ w.stackOffset) :
    Apart (slotAddr rbp v) (slotAddr rbp w) := by
  obtain ⟨hlow, hhigh, hmod⟩ := hc.bounds v hv
  obtain ⟨hlow', hhigh', hmod'⟩ := hc.bounds w hw
  have hlt := rbp.isLt
  exact Lib.Mem.apart_of_offsets rbp (by omega) (by omega) (by omega)

/-- A global outside of the stack and a slot. -/
theorem slot_apart_global (hc : c.Slotted) (hrbp : 0 ≤ (rbp.toNat : Int) + c.curOffset)
    (hv : v ∈ c.locals) {a : Word} {lo : Nat} (hi : Nat) (hlo : (lo : Int) ≤ rbp.toNat + c.curOffset)
    (hhi : rbp.toNat ≤ hi)
    (ha : ∀ x, InCell a x → ¬ (lo ≤ x.toNat ∧ x.toNat < hi)) : Apart (slotAddr rbp v) a := by
  obtain ⟨hlow, hhigh, -⟩ := hc.bounds v hv
  have hnat : ((slotAddr rbp v).toNat : Int) = rbp.toNat + v.stackOffset :=
    add_ofInt_toNat (by omega) (by omega)
  refine apart_of_not_inCell ?_ ?_
  · intro hcell
    rw [inCell_slot hc hrbp hv] at hcell
    have hself : InCell a a := by simp [InCell]
    exact ha a hself ⟨by omega, by omega⟩
  · intro hcell
    exact ha _ hcell ⟨by omega, by omega⟩

/-- Below its slots the stack meets no variable, if it meets no global. -/
theorem avoids_of_slotted (hc : c.Slotted) (hrbp : 0 ≤ (rbp.toNat : Int) + c.curOffset)
    {sym : CString → Word} {lo hi : Nat} (hhi : (hi : Int) ≤ rbp.toNat + c.curOffset)
    (hglobals : ∀ name v, findSymbol c name = some v → v.isGlobal = true →
      ∀ x, InCell (sym name) x → ¬ (lo ≤ x.toNat ∧ x.toNat < hi)) :
    Avoids (addrOf sym (findSymbol c) rbp) lo hi := by
  intro name a ha x hx
  rw [addrOf, Option.map_eq_some_iff] at ha
  obtain ⟨v, hv, rfl⟩ := ha
  by_cases hg : v.isGlobal = true
  · rw [if_pos hg] at hx
    exact hglobals name v hv hg x hx
  · rw [if_neg hg] at hx
    have hmem := findSymbol_mem_locals hv (by simpa using hg)
    obtain ⟨hlow, -⟩ := hc.bounds v hmem
    have hbytes := (inCell_slot hc hrbp hmem x).mp hx
    omega

end slots

/-- Where the temporaries of a context end: below the newest of its slots. -/
def AsmCtx.bottom (c : AsmCtx) (rbp : Word) : Nat := ((rbp.toNat : Int) + c.curOffset).toNat

/-- The stack of a context: it lies below the slots of the locals, and no global meets it from `lo`
on. -/
structure Placed (sym : CString → Word) (c : AsmCtx) (s : State) (lo : Nat) : Prop where
  slots : c.Slotted
  below : ((s.regs .rsp).toNat : Int) ≤ (s.regs .rbp).toNat + c.curOffset
  globals : ∀ name v, findSymbol c name = some v → v.isGlobal = true →
    ∀ x, InCell (sym name) x → ¬ (lo ≤ x.toNat ∧ x.toNat < c.bottom (s.regs .rbp))

theorem Placed.avoids {sym : CString → Word} {c : AsmCtx} {s : State} {lo : Nat}
    (h : Placed sym c s lo) :
    Avoids (addrOf sym (findSymbol c) (s.regs .rbp)) lo (c.bottom (s.regs .rbp)) := by
  have hbelow := h.below
  exact avoids_of_slotted h.slots (by omega) (by rw [AsmCtx.bottom]; omega) h.globals

theorem Placed.rsp_le {sym : CString → Word} {c : AsmCtx} {s : State} {lo : Nat}
    (h : Placed sym c s lo) : (s.regs .rsp).toNat ≤ c.bottom (s.regs .rbp) := by
  have hbelow := h.below
  rw [AsmCtx.bottom]
  omega

end ACompiler
