import Mathlib

/-!
# Heaps

Programs that allocate, read, write and free cells, and fail at what is not there: a cell that was
never allocated or has been freed. `Completes P m Q` says that `m` runs on every heap whose cells
are exactly `P`, and that the cells it leaves satisfy `Q`. As `P` is all there is, a cell that is
still there at the end and belongs to nothing has leaked.
-/

namespace ACompiler.Lib

abbrev Ref : Type := Nat

/-- Cells by their addresses, which are given out in order and never again. -/
structure Heap (κ : Type) where
  cells : Ref → Option κ
  next : Ref
  lt_next : ∀ r, cells r ≠ none → r < next

/-- The cells of a heap, in no order. -/
abbrev Cells (κ : Type) : Type := Multiset (Ref × κ)

/-- A program over a heap, which may fail. -/
abbrev HeapM (κ α : Type) : Type := StateT (Heap κ) Option α

variable {κ α β : Type}

namespace Heap

def empty : Heap κ := ⟨fun _ => none, 0, fun _ h => absurd rfl h⟩

def alloc (c : κ) : HeapM κ Ref := fun h =>
  some (h.next, {
    cells := Function.update h.cells h.next (some c)
    next := h.next + 1
    lt_next := by
      intro r hr
      by_cases heq : r = h.next
      · rw [heq]
        exact Nat.lt_succ_self h.next
      · rw [Function.update_of_ne heq] at hr
        exact Nat.lt_succ_of_lt (h.lt_next r hr) })

def load (r : Ref) : HeapM κ κ := fun h => (h.cells r).map fun c => (c, h)

/-- What is not there cannot be replaced. -/
def replace (r : Ref) (c : Option κ) : HeapM κ Unit := fun h =>
  if hr : h.cells r = none then none
  else some ((), {
    cells := Function.update h.cells r c
    next := h.next
    lt_next := by
      intro r' hr'
      by_cases heq : r' = r
      · exact heq ▸ h.lt_next r hr
      · rw [Function.update_of_ne heq] at hr'
        exact h.lt_next r' hr' })

def store (r : Ref) (c : κ) : HeapM κ Unit := replace r (some c)

def free (r : Ref) : HeapM κ Unit := replace r none

def fail : HeapM κ α := fun _ => none

/-- How many cells there have been. -/
def count : HeapM κ Nat := fun h => some (h.next, h)

/-- The cells of the heap are exactly these. -/
structure Owns (h : Heap κ) (P : Cells κ) : Prop where
  nodup : (P.map Prod.fst).Nodup
  mem : ∀ r c, h.cells r = some c ↔ (r, c) ∈ P

end Heap

open Heap

theorem Heap.Owns.card_le {h : Heap κ} {P : Cells κ} (hP : h.Owns P) : P.card ≤ h.next := by
  have hlt : ∀ r ∈ P.map Prod.fst, r ∈ Multiset.range h.next := by
    intro r hr
    obtain ⟨entry, hentry, rfl⟩ := Multiset.mem_map.mp hr
    rw [Multiset.mem_range]
    apply h.lt_next
    rw [(hP.mem entry.1 entry.2).mpr hentry]
    simp
  have hle := (Multiset.le_iff_subset hP.nodup).mpr hlt
  have hcard := Multiset.card_le_card hle
  rwa [Multiset.card_map, Multiset.card_range] at hcard

/-- A cell is there once. -/
theorem Heap.Owns.not_mem {h : Heap κ} {P : Cells κ} {r : Ref} {c : κ}
    (hP : h.Owns ({(r, c)} + P)) (c' : κ) : (r, c') ∉ P := by
  intro hmem
  have hnodup := hP.nodup
  rw [Multiset.map_add, Multiset.map_singleton, Multiset.singleton_add,
    Multiset.nodup_cons] at hnodup
  exact hnodup.1 (Multiset.mem_map.mpr ⟨(r, c'), hmem, rfl⟩)

/-! ## Runs -/

/-- On a heap with the cells `P`, the program comes to its end with cells in `Q`. -/
def Completes (P : Cells κ) (m : HeapM κ α) (Q : α → Cells κ → Prop) : Prop :=
  ∀ h : Heap κ, h.Owns P → ∃ a h' P', m h = some (a, h') ∧ h'.Owns P' ∧ Q a P'

/-- The program gives `a` and leaves the cells `P'`. -/
abbrev CompletesTo (P : Cells κ) (m : HeapM κ α) (a : α) (P' : Cells κ) : Prop :=
  Completes P m fun x P'' => x = a ∧ P'' = P'

section rules
variable {P P' F : Cells κ} {m : HeapM κ α} {f : α → HeapM κ β} {Q Q' : α → Cells κ → Prop}
  {R : β → Cells κ → Prop} {r : Ref} {c c' : κ}

theorem Completes.pure {a : α} (h : Q a P) : Completes P (pure a : HeapM κ α) Q :=
  fun heap hP => ⟨a, heap, P, rfl, hP, h⟩

theorem Completes.bind (hm : Completes P m Q) (hf : ∀ a P', Q a P' → Completes P' (f a) R) :
    Completes P (m >>= f) R := by
  intro h hP
  obtain ⟨a, h₁, P₁, hrun, hP₁, hQ⟩ := hm h hP
  obtain ⟨b, h₂, P₂, hrun', hP₂, hR⟩ := hf a P₁ hQ h₁ hP₁
  refine ⟨b, h₂, P₂, ?_, hP₂, hR⟩
  show (m h).bind _ = _
  rw [hrun]
  exact hrun'

theorem Completes.mono (h : Completes P m Q) (hQ : ∀ a P', Q a P' → Q' a P') :
    Completes P m Q' := by
  intro heap hP
  obtain ⟨a, h', P', hrun, hP', hQa⟩ := h heap hP
  exact ⟨a, h', P', hrun, hP', hQ a P' hQa⟩

theorem Completes.of_eq (h : Completes P' m Q) (hP : P = P') : Completes P m Q :=
  hP ▸ h

/-- The rule of consequence. -/
theorem Completes.conseq (h : Completes P' m Q) (hP : P = P') (hQ : ∀ a P'', Q a P'' → Q' a P'') :
    Completes P m Q' :=
  (h.mono hQ).of_eq hP

/-- A step that gives one value goes before the rest. -/
theorem Completes.step {a : α} (hm : CompletesTo P m a P') (h : Completes P' (f a) R) :
    Completes P (m >>= f) R := by
  apply Completes.bind hm
  rintro _ _ ⟨rfl, rfl⟩
  exact h

theorem Completes.alloc : Completes P (Heap.alloc c) fun r P' => P' = {(r, c)} + P := by
  intro heap hP
  refine ⟨_, _, {(heap.next, c)} + P, rfl, ⟨?_, fun r c' => ?_⟩, rfl⟩
  · rw [Multiset.map_add, Multiset.map_singleton, Multiset.singleton_add, Multiset.nodup_cons]
    refine ⟨fun hmem => ?_, hP.nodup⟩
    obtain ⟨⟨r, c'⟩, hentry, hr⟩ := Multiset.mem_map.mp hmem
    have hcell := (hP.mem r c').mpr hentry
    have hlt := heap.lt_next r (by rw [hcell]; simp)
    have hr : r = heap.next := hr
    rw [hr] at hlt
    exact Nat.lt_irrefl _ hlt
  · rw [Multiset.singleton_add, Multiset.mem_cons]
    show Function.update heap.cells heap.next (some c) r = _ ↔ _
    by_cases heq : r = heap.next
    · subst heq
      rw [Function.update_self]
      have hnot : (heap.next, c') ∉ P := by
        intro hmem
        have hcell := (hP.mem heap.next c').mpr hmem
        exact Nat.lt_irrefl _ (heap.lt_next heap.next (by rw [hcell]; simp))
      simp [hnot, eq_comm]
    · rw [Function.update_of_ne heq, hP.mem]
      simp [heq]

theorem Completes.alloc_bind {f : Ref → HeapM κ β} (h : ∀ r, Completes ({(r, c)} + P) (f r) R) :
    Completes P (Heap.alloc c >>= f) R := by
  apply Completes.bind Completes.alloc
  rintro r _ rfl
  exact h r

theorem Completes.load (hmem : (r, c) ∈ P) : CompletesTo P (Heap.load r) c P := by
  intro heap hP
  refine ⟨c, heap, P, ?_, hP, rfl, rfl⟩
  unfold Heap.load
  rw [(hP.mem r c).mpr hmem]
  rfl

theorem Completes.store (hP : P = {(r, c)} + F) :
    CompletesTo P (Heap.store r c') () ({(r, c')} + F) := by
  subst hP
  intro heap hP
  have hcell : heap.cells r = some c := (hP.mem r c).mpr (by simp)
  refine ⟨(), _, {(r, c')} + F, dif_neg (by rw [hcell]; simp), ⟨?_, fun r' c'' => ?_⟩, rfl, rfl⟩
  · have hnodup := hP.nodup
    rwa [Multiset.map_add, Multiset.map_singleton] at hnodup ⊢
  · have hmem := hP.mem r' c''
    rw [Multiset.singleton_add, Multiset.mem_cons] at hmem ⊢
    show Function.update heap.cells r (some c') r' = _ ↔ _
    by_cases heq : r' = r
    · subst heq
      rw [Function.update_self]
      simp [hP.not_mem c'', eq_comm]
    · rw [Function.update_of_ne heq, hmem]
      simp [heq]

theorem Completes.free (hP : P = {(r, c)} + F) : CompletesTo P (Heap.free r) () F := by
  subst hP
  intro heap hP
  have hcell : heap.cells r = some c := (hP.mem r c).mpr (by simp)
  refine ⟨(), _, F, dif_neg (by rw [hcell]; simp), ⟨?_, fun r' c'' => ?_⟩, rfl, rfl⟩
  · have hnodup := hP.nodup
    rw [Multiset.map_add, Multiset.map_singleton, Multiset.singleton_add,
      Multiset.nodup_cons] at hnodup
    exact hnodup.2
  · have hmem := hP.mem r' c''
    rw [Multiset.singleton_add, Multiset.mem_cons] at hmem
    show Function.update heap.cells r none r' = _ ↔ _
    by_cases heq : r' = r
    · subst heq
      rw [Function.update_self]
      simp [hP.not_mem c'']
    · rw [Function.update_of_ne heq, hmem]
      simp [heq]

theorem Completes.count_bind {f : Nat → HeapM κ β} (h : ∀ n, P.card ≤ n → Completes P (f n) R) :
    Completes P (Heap.count >>= f) R :=
  fun heap hP => h _ hP.card_le heap hP

end rules

end ACompiler.Lib
