import Mathlib

/-!
# A byte-addressed memory

Memory is a total map from 64-bit addresses to bytes. A 64-bit access reads or writes the eight
bytes from its address on, least significant byte first, and wraps around at the end of the address
space. Two accesses that share no byte do not see each other.
-/

namespace ACompiler.Lib

/-- A machine word, and an address. -/
abbrev Word := BitVec 64

abbrev Byte := BitVec 8

/-- A memory. -/
abbrev Mem := Word → Byte

namespace Mem

/-- The eight bytes from `a` on, as a word. -/
def load64 (m : Mem) (a : Word) : Word :=
  m (a + 7) ++ m (a + 6) ++ m (a + 5) ++ m (a + 4) ++ m (a + 3) ++ m (a + 2) ++ m (a + 1) ++ m a

/-- Write the eight bytes of `v` from `a` on. -/
def store64 (m : Mem) (a v : Word) : Mem := fun x =>
  if (x - a).toNat < 8 then v.extractLsb' (8 * (x - a).toNat) 8 else m x

/-- The byte lies in the eight bytes from `a` on. -/
def InCell (a x : Word) : Prop := (x - a).toNat < 8

instance (a x : Word) : Decidable (InCell a x) := inferInstanceAs (Decidable (_ < _))

/-- The cells of two accesses share no byte. -/
def Apart (a b : Word) : Prop := 8 ≤ (a - b).toNat ∧ 8 ≤ (b - a).toNat

theorem Apart.symm {a b : Word} (h : Apart a b) : Apart b a := ⟨h.2, h.1⟩

theorem store64_of_inCell {m : Mem} {a v x : Word} (h : InCell a x) :
    store64 m a v x = v.extractLsb' (8 * (x - a).toNat) 8 := if_pos h

theorem store64_of_not_inCell {m : Mem} {a v x : Word} (h : ¬ InCell a x) :
    store64 m a v x = m x := if_neg h

theorem inCell_add (a : Word) {i : Word} (hi : i.toNat < 8) : InCell a (a + i) := by
  rw [InCell, BitVec.add_comm, BitVec.add_sub_cancel]
  exact hi

theorem not_inCell_add {a b : Word} (h : Apart a b) {i : Word} (hi : i.toNat < 8) :
    ¬ InCell b (a + i) := by
  obtain ⟨h₁, h₂⟩ := h
  rw [InCell]
  bv_omega

/-- A byte of one cell is not a byte of the other. -/
theorem Apart.not_inCell {a b x : Word} (h : Apart a b) (hx : InCell a x) : ¬ InCell b x := by
  have hx' : x = a + (x - a) := by bv_omega
  rw [hx']
  exact not_inCell_add h hx

/-- Cells at offsets at least eight apart, both ways around the address space. -/
theorem apart_of_offsets (base : Word) {p q : Int} (h : 8 ≤ p - q ∨ 8 ≤ q - p)
    (hp : p - q ≤ 2 ^ 64 - 8) (hq : q - p ≤ 2 ^ 64 - 8) :
    Apart (base + BitVec.ofInt 64 p) (base + BitVec.ofInt 64 q) := by
  have hsub : ∀ p q : Int, (base + BitVec.ofInt 64 p - (base + BitVec.ofInt 64 q)).toNat =
      ((p - q) % 2 ^ 64).toNat := by
    intro p q
    have hdiff : BitVec.ofInt 64 p = BitVec.ofInt 64 (p - q) + BitVec.ofInt 64 q := by
      rw [← BitVec.ofInt_add]
      congr 1
      omega
    have hadd : base + BitVec.ofInt 64 p - (base + BitVec.ofInt 64 q) =
        BitVec.ofInt 64 (p - q) := by
      rw [hdiff]
      generalize BitVec.ofInt 64 (p - q) = u
      generalize BitVec.ofInt 64 q = v
      bv_omega
    rw [hadd, BitVec.toNat_ofInt]
    rfl
  rw [Apart, hsub, hsub]
  omega

/-- A load reads its own cell only. -/
theorem load64_congr {m m' : Mem} {a : Word} (h : ∀ x, InCell a x → m x = m' x) :
    load64 m a = load64 m' a := by
  have h0 : m a = m' a := h a (by simp [InCell])
  simp only [load64, h0, h _ (inCell_add a (i := 7) (by decide)),
    h _ (inCell_add a (i := 6) (by decide)), h _ (inCell_add a (i := 5) (by decide)),
    h _ (inCell_add a (i := 4) (by decide)), h _ (inCell_add a (i := 3) (by decide)),
    h _ (inCell_add a (i := 2) (by decide)), h _ (inCell_add a (i := 1) (by decide))]

/-- A load sees the last store to its cell. -/
@[simp] theorem load64_store64 (m : Mem) (a v : Word) : load64 (store64 m a v) a = v := by
  have byte : ∀ i : Word, i.toNat < 8 →
      store64 m a v (a + i) = v.extractLsb' (8 * i.toNat) 8 := by
    intro i hi
    rw [store64_of_inCell (inCell_add a hi), BitVec.add_comm, BitVec.add_sub_cancel]
  have byte0 : store64 m a v a = v.extractLsb' 0 8 := by
    have h := byte 0 (by decide)
    simpa using h
  rw [load64, byte 7 (by decide), byte 6 (by decide), byte 5 (by decide), byte 4 (by decide),
    byte 3 (by decide), byte 2 (by decide), byte 1 (by decide), byte0]
  rw [BitVec.extractLsb'_append_extractLsb'_eq_extractLsb' (by decide),
    BitVec.extractLsb'_append_extractLsb'_eq_extractLsb' (by decide),
    BitVec.extractLsb'_append_extractLsb'_eq_extractLsb' (by decide),
    BitVec.extractLsb'_append_extractLsb'_eq_extractLsb' (by decide),
    BitVec.extractLsb'_append_extractLsb'_eq_extractLsb' (by decide),
    BitVec.extractLsb'_append_extractLsb'_eq_extractLsb' (by decide),
    BitVec.extractLsb'_append_extractLsb'_eq_extractLsb' (by decide)]
  exact BitVec.extractLsb'_eq_self

/-- A load does not see a store to another cell. -/
theorem load64_store64_of_apart {m : Mem} {a b v : Word} (h : Apart a b) :
    load64 (store64 m b v) a = load64 m a := by
  apply load64_congr
  exact fun x hx => store64_of_not_inCell (h.not_inCell hx)

end Mem

end ACompiler.Lib
