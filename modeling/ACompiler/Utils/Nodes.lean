import ACompiler.Lib.Heap
import ACompiler.Utils.TableRuns

/-!
# The nodes of the hash table

`hashtable.c`, pointer by pointer: nodes, keys and values are cells of a heap, and what is freed is
gone. `IsTable` says which cells a table of `HashTable` is made of, and every function keeps it
while it does what the function on tables does. So no run follows a bad pointer or frees a cell
twice, and in the end everything is freed but the values that were overwritten or removed
(`useTable_refines`).
-/

namespace ACompiler

open Lib (Ref Heap HeapM Cells Completes CompletesTo)
open Lib.Heap (alloc load store free fail count)

/-- `node_t`. -/
structure NodeT where
  key : Ref
  value : Ref
  next : Option Ref
  deriving DecidableEq, Repr

/-- `hashtable_t`, whose `nodes` point to an array. -/
structure HashtableT where
  size : Nat
  capacity : Nat
  nodes : Ref
  deriving DecidableEq, Repr

/-- `stack_node`. -/
structure StackNode where
  val : Ref
  next : Option Ref
  deriving DecidableEq, Repr

/-- `scope_t`. -/
structure ScopeT where
  symbols : Ref
  baseOffset : Int
  deriving DecidableEq, Repr

/-- What `malloc` gives room for. -/
inductive Cell (ν : Type)
  | raw
  | string (word : CString)
  | node (node : NodeT)
  | nodes (slots : List (Option Ref))
  | hashtable (table : HashtableT)
  | stackNode (node : StackNode)
  | stack (head : Option Ref)
  | scope (s : ScopeT)
  /-- What the clients of the tables put into them. -/
  | value (v : ν)
  deriving DecidableEq, Repr

variable {ν : Type}

/-! ## `hashtable.c` -/

def readString (r : Ref) : HeapM (Cell ν) CString := do
  match ← load r with
  | .string word => pure word
  | _ => fail

def readNode (r : Ref) : HeapM (Cell ν) NodeT := do
  match ← load r with
  | .node node => pure node
  | _ => fail

def readTable (r : Ref) : HeapM (Cell ν) HashtableT := do
  match ← load r with
  | .hashtable table => pure table
  | _ => fail

/-- `hashtable->nodes[slot]`. -/
def readSlot (nodes : Ref) (slot : Nat) : HeapM (Cell ν) (Option Ref) := do
  match ← load nodes with
  | .nodes slots =>
    match slots[slot]? with
    | some node => pure node
    | none => fail
  | _ => fail

def writeSlot (nodes : Ref) (slot : Nat) (node : Option Ref) : HeapM (Cell ν) Unit := do
  match ← load nodes with
  | .nodes slots => if slot < slots.length then store nodes (.nodes (slots.set slot node)) else fail
  | _ => fail

def createNode (key : CString) (value : Ref) : HeapM (Cell ν) Ref := do
  let node ← alloc .raw
  let keyRef ← alloc .raw
  store keyRef (.string key)
  store node (.node ⟨keyRef, value, none⟩)
  pure node

/-- `hash`. -/
def hashOf (capacity : Nat) (key : CString) : Nat :=
  (key.foldl (fun value c => value * 29#64 * c.toBitVec.signExtend 64) 1#64).toNat % capacity

namespace Nodes

def createHt (capacity : Nat) : HeapM (Cell ν) Ref := do
  let hashtable ← alloc .raw
  let nodes ← alloc (.nodes (List.replicate capacity none))
  store hashtable (.hashtable ⟨0, capacity, nodes⟩)
  pure hashtable

/-- The loop of `add_ht`. It overwrites the value of the node with the key, or ends with the last
node. A loop over nodes makes no more turns than there have been cells, unless it is endless. -/
def addLoop (key : CString) (value : Ref) : Nat → Ref → HeapM (Cell ν) (Option Ref)
  | 0, _ => fail
  | fuel + 1, node => do
    let fields ← readNode node
    let word ← readString fields.key
    if word = key then
      store node (.node { fields with value := value })
      pure none
    else
      match fields.next with
      | none => pure (some node)
      | some next => addLoop key value fuel next

def addHt (hashtable : Ref) (key : CString) (value : Ref) : HeapM (Cell ν) Unit := do
  let table ← readTable hashtable
  let slot := hashOf table.capacity key
  match ← readSlot table.nodes slot with
  | none =>
    let node ← createNode key value
    writeSlot table.nodes slot (some node)
    store hashtable (.hashtable { table with size := (table.size + 1) % 2 ^ 32 })
  | some node =>
    let fuel ← count
    match ← addLoop key value fuel node with
    | none => pure ()
    | some prev =>
      let new ← createNode key value
      let fields ← readNode prev
      store prev (.node { fields with next := some new })
      store hashtable (.hashtable { table with size := (table.size + 1) % 2 ^ 32 })

/-- The loop of `get_ht`. -/
def getLoop (key : CString) : Nat → Option Ref → HeapM (Cell ν) (Option Ref)
  | _, none => pure none
  | 0, some _ => fail
  | fuel + 1, some node => do
    let fields ← readNode node
    let word ← readString fields.key
    if word = key then pure (some fields.value) else getLoop key fuel fields.next

def getHt (hashtable : Ref) (key : CString) : HeapM (Cell ν) (Option Ref) := do
  let table ← readTable hashtable
  let node ← readSlot table.nodes (hashOf table.capacity key)
  let fuel ← count
  getLoop key fuel node

/-- `prev->next = next`, or the slot where there is no node before. -/
def setNext (nodes : Ref) (slot : Nat) (prev next : Option Ref) : HeapM (Cell ν) Unit :=
  match prev with
  | some prev => do
    let fields ← readNode prev
    store prev (.node { fields with next := next })
  | none => writeSlot nodes slot next

/-- The loop of `remove_ht`. -/
def removeLoop (nodes : Ref) (slot : Nat) (key : CString) :
    Nat → Option Ref → Option Ref → HeapM (Cell ν) Bool
  | _, _, none => pure false
  | 0, _, some _ => fail
  | fuel + 1, prev, some node => do
    let fields ← readNode node
    let word ← readString fields.key
    if word = key then
      setNext nodes slot prev fields.next
      free fields.key
      free node
      pure true
    else removeLoop nodes slot key fuel (some node) fields.next

def removeHt (hashtable : Ref) (key : CString) : HeapM (Cell ν) Bool := do
  let table ← readTable hashtable
  let slot := hashOf table.capacity key
  let node ← readSlot table.nodes slot
  let fuel ← count
  removeLoop table.nodes slot key fuel none node

/-- The inner loop of `destroy_ht`. -/
def destroyChain : Nat → Option Ref → HeapM (Cell ν) Unit
  | _, none => pure ()
  | 0, some _ => fail
  | fuel + 1, some next => do
    let fields ← readNode next
    free fields.key
    free fields.value
    free next
    destroyChain fuel fields.next

/-- The outer loop of `destroy_ht`, with so many slots to go. -/
def destroyLoop (table : HashtableT) : Nat → HeapM (Cell ν) Unit
  | 0 => pure ()
  | n + 1 => do
    match ← readSlot table.nodes (table.capacity - (n + 1)) with
    | none => destroyLoop table n
    | some node =>
      let fuel ← count
      destroyChain fuel (some node)
      destroyLoop table n

def destroyHt (hashtable : Ref) : HeapM (Cell ν) Unit := do
  let table ← readTable hashtable
  destroyLoop table table.capacity
  free table.nodes
  free hashtable

/-! ## Reading and writing a cell -/

section cells
variable {P F : Cells (Cell ν)} {r : Ref} {slot : Nat} {next : Option Ref}

theorem runs_readString (word : CString) (h : (r, .string word) ∈ P) :
    CompletesTo P (readString r) word P :=
  (Completes.load h).step (Completes.pure ⟨rfl, rfl⟩)

theorem runs_readNode (node : NodeT) (h : (r, .node node) ∈ P) :
    CompletesTo P (readNode r) node P :=
  (Completes.load h).step (Completes.pure ⟨rfl, rfl⟩)

theorem runs_readTable (table : HashtableT) (h : (r, .hashtable table) ∈ P) :
    CompletesTo P (readTable r) table P :=
  (Completes.load h).step (Completes.pure ⟨rfl, rfl⟩)

theorem runs_readSlot (slots : List (Option Ref)) (h : (r, .nodes slots) ∈ P)
    (hslot : slots[slot]? = some next) : CompletesTo P (readSlot r slot) next P := by
  apply (Completes.load h).step
  simp only [hslot]
  exact Completes.pure ⟨rfl, rfl⟩

theorem runs_writeSlot (slots : List (Option Ref)) (next : Option Ref)
    (hP : P = {(r, .nodes slots)} + F) (hslot : slot < slots.length) :
    CompletesTo P (writeSlot r slot next) () ({(r, .nodes (slots.set slot next))} + F) := by
  apply (Completes.load (c := .nodes slots) (by simp [hP])).step
  show Completes _ (if slot < slots.length then _ else _) _
  rw [if_pos hslot]
  exact Completes.store hP

theorem runs_createNode (key : CString) (value : Ref) (P : Cells (Cell ν)) :
    Completes P (createNode key value) fun node P' => ∃ k,
      P' = {(node, .node ⟨k, value, none⟩)} + {(k, .string key)} + P := by
  apply Completes.alloc_bind
  intro node
  apply Completes.alloc_bind
  intro k
  apply (Completes.store rfl).step
  apply (Completes.store (add_left_comm _ _ _)).step
  exact Completes.pure ⟨k, by rw [add_assoc]⟩

end cells

/-! ## Chains -/

/-- The nodes from a pointer on are these, and these are their cells. -/
inductive IsChain : Option Ref → List (CString × ν) → Cells (Cell ν) → Prop
  | nil : IsChain none [] 0
  | cons {next : Option Ref} {rest : List (CString × ν)} {P : Cells (Cell ν)} (node k v : Ref)
      (key : CString) (a : ν) (hrest : IsChain next rest P) :
      IsChain (some node) ((key, a) :: rest)
        ({(node, .node ⟨k, v, next⟩)} + {(k, .string key)} + {(v, .value a)} + P)

section chains
variable {P F : Cells (Cell ν)} {node : Option Ref} {nodes more : List (CString × ν)}

theorem IsChain.length_le (h : IsChain node nodes P) : nodes.length ≤ P.card := by
  induction h with
  | nil => exact Nat.le_refl 0
  | cons node k v key a hrest ih =>
    simp only [List.length_cons, Multiset.card_add, Multiset.card_singleton]
    omega

/-- A chain but for its last pointer: what is put there is appended. -/
def IsOpen (node last : Ref) (fields : NodeT) (nodes : List (CString × ν)) (P : Cells (Cell ν)) :
    Prop :=
  ∀ next more P', IsChain next more P' →
    IsChain (some node) (nodes ++ more) ({(last, .node { fields with next := next })} + P + P')

theorem runs_addLoop_found {fuel : Nat} {node : Ref} {key : CString} {a old : ν} (value : Ref)
    (h : IsChain (some node) nodes P) (hfuel : nodes.length ≤ fuel)
    (hget : HashTable.getChain key nodes = some old) :
    Completes ({(value, .value a)} + P + F) (addLoop key value fuel node) fun last P' =>
      last = none ∧ ∃ v P'', IsChain (some node) (HashTable.addChain key a nodes) P'' ∧
        P' = {(v, .value old)} + P'' + F := by
  induction fuel generalizing node nodes P F with
  | zero =>
    rw [List.length_eq_zero_iff.mp (Nat.le_zero.mp hfuel)] at hget
    exact absurd hget (by simp [HashTable.getChain])
  | succ fuel ih =>
    obtain _ | @⟨next, rest, P, _, k, v, word, b, hrest⟩ := h
    rw [HashTable.getChain] at hget
    rw [HashTable.addChain]
    apply (runs_readNode ⟨k, v, next⟩ (by simp)).step
    apply (runs_readString word (by simp)).step
    by_cases hword : word = key
    · rw [if_pos hword] at hget ⊢
      rw [if_pos hword]
      obtain rfl := Option.some.inj hget
      apply (Completes.store (F := {(k, .string word)} + {(v, .value b)} + P +
        ({(value, .value a)} + F)) (by ac_rfl)).step
      refine Completes.pure ⟨rfl, v, _, .cons node k value key a hrest, ?_⟩
      rw [hword]
      ac_rfl
    · rw [if_neg hword] at hget ⊢
      rw [if_neg hword]
      cases hrest with
      | nil => exact absurd hget (by simp [HashTable.getChain])
      | cons next k' v' key' a' hrest =>
        have hlen : _ ≤ fuel := Nat.le_of_succ_le_succ hfuel
        have hrun := ih (F := {(node, .node ⟨k, v, some next⟩)} + {(k, .string word)} +
          {(v, .value b)} + F) (hrest.cons next k' v' key' a') hlen hget
        refine hrun.conseq (by ac_rfl) ?_
        rintro last _ ⟨rfl, v'', P'', hchain, rfl⟩
        refine ⟨rfl, v'', _, hchain.cons node k v word b, ?_⟩
        ac_rfl

theorem runs_addLoop_absent {fuel : Nat} {node : Ref} {key : CString} (value : Ref)
    (h : IsChain (some node) nodes P) (hfuel : nodes.length ≤ fuel)
    (hget : HashTable.getChain key nodes = none) :
    Completes (P + F) (addLoop key value fuel node) fun last P' => P' = P + F ∧
      ∃ r fields P₁, last = some r ∧ P = {(r, .node fields)} + P₁ ∧
        IsOpen node r fields nodes P₁ := by
  induction fuel generalizing node nodes P F with
  | zero =>
    obtain rfl := List.length_eq_zero_iff.mp (Nat.le_zero.mp hfuel)
    exact absurd h (by rintro ⟨⟩)
  | succ fuel ih =>
    obtain _ | @⟨next, rest, P, _, k, v, word, b, hrest⟩ := h
    rw [HashTable.getChain] at hget
    apply (runs_readNode ⟨k, v, next⟩ (by simp)).step
    apply (runs_readString word (by simp)).step
    by_cases hword : word = key
    · exact absurd hget (by simp [hword])
    · rw [if_neg hword] at hget ⊢
      cases hrest with
      | nil =>
        refine Completes.pure ⟨rfl, node, ⟨k, v, none⟩, {(k, .string word)} + {(v, .value b)}, rfl,
          by ac_rfl, ?_⟩
        intro next more P' hmore
        have hchain := hmore.cons node k v word b
        rwa [add_assoc {(node, _)}] at hchain
      | cons next k' v' key' a' hrest =>
        have hrun := ih (F := {(node, .node ⟨k, v, some next⟩)} + {(k, .string word)} +
          {(v, .value b)} + F) (hrest.cons next k' v' key' a') (Nat.le_of_succ_le_succ hfuel) hget
        refine hrun.conseq (by ac_rfl) ?_
        rintro last _ ⟨rfl, r, fields, P₁, rfl, hP, hopen⟩
        refine ⟨by ac_rfl, r, fields, P₁ + ({(node, .node ⟨k, v, some next⟩)} +
          {(k, .string word)} + {(v, .value b)}), rfl, ?_, ?_⟩
        · rw [hP]
          ac_rfl
        · intro next' more P' hmore
          have hchain := (hopen next' more P' hmore).cons node k v word b
          have hcells : {(node, Cell.node ⟨k, v, some next⟩)} + {(k, .string word)} +
              {(v, .value b)} + ({(r, .node { fields with next := next' })} + P₁ + P') =
              {(r, .node { fields with next := next' })} + (P₁ +
                ({(node, .node ⟨k, v, some next⟩)} + {(k, .string word)} + {(v, .value b)})) +
                P' := by ac_rfl
          rwa [hcells] at hchain

theorem runs_getLoop {fuel : Nat} (key : CString) (h : IsChain node nodes P)
    (hfuel : nodes.length ≤ fuel) :
    Completes (P + F) (getLoop key fuel node) fun found P' => P' = P + F ∧
      (HashTable.getChain key nodes = none ∧ found = none ∨
        ∃ v a, HashTable.getChain key nodes = some a ∧ found = some v ∧ (v, .value a) ∈ P) := by
  induction h generalizing fuel F with
  | nil =>
    rw [getLoop.eq_def]
    exact Completes.pure ⟨rfl, .inl ⟨rfl, rfl⟩⟩
  | @cons next rest P node k v word a hrest ih =>
    obtain _ | fuel := fuel
    · exact absurd hfuel (by simp)
    rw [HashTable.getChain]
    apply (runs_readNode ⟨k, v, next⟩ (by simp)).step
    apply (runs_readString word (by simp)).step
    by_cases hword : word = key
    · rw [if_pos hword, if_pos hword]
      exact Completes.pure ⟨rfl, .inr ⟨v, a, rfl, rfl, by simp⟩⟩
    · rw [if_neg hword, if_neg hword]
      have hrun := ih (F := {(node, .node ⟨k, v, next⟩)} + {(k, .string word)} +
        {(v, .value a)} + F) (Nat.le_of_succ_le_succ hfuel)
      refine hrun.conseq (by ac_rfl) ?_
      rintro found _ ⟨rfl, hnone | ⟨v', a', hget, hfound, hmem⟩⟩
      · exact ⟨by ac_rfl, .inl hnone⟩
      · exact ⟨by ac_rfl, .inr ⟨v', a', hget, hfound, Multiset.mem_add.mpr (.inr hmem)⟩⟩

/-- The place that points to the rest of a chain: the slot, or the node before. -/
inductive IsLink (array : Ref) (slot : Nat) : Option Ref → (Option Ref → Cells (Cell ν)) → Prop
  | slot (slots : List (Option Ref)) (hslot : slot < slots.length) :
      IsLink array slot none fun next => {(array, .nodes (slots.set slot next))}
  | node (prev : Ref) (fields : NodeT) :
      IsLink array slot (some prev) fun next => {(prev, .node { fields with next := next })}

theorem IsLink.runs {array : Ref} {slot : Nat} {prev next : Option Ref}
    {link : Option Ref → Cells (Cell ν)} (h : IsLink array slot prev link) (next' : Option Ref) :
    CompletesTo (link next + F) (setNext array slot prev next') () (link next' + F) := by
  cases h with
  | slot slots hslot =>
    have hrun := runs_writeSlot (slots.set slot next) next' (F := F) (r := array) rfl
      (show slot < (slots.set slot next).length by rwa [List.length_set])
    rw [List.set_set] at hrun
    exact hrun
  | node prev fields =>
    apply (runs_readNode { fields with next := next } (by simp)).step
    exact Completes.store rfl

theorem runs_removeLoop {fuel : Nat} {array : Ref} {slot : Nat} {prev : Option Ref}
    {link : Option Ref → Cells (Cell ν)} (key : CString) (hlink : IsLink array slot prev link)
    (h : IsChain node nodes P) (hfuel : nodes.length ≤ fuel) :
    Completes (link node + P + F) (removeLoop array slot key fuel prev node) fun found P' =>
      HashTable.removeChain key nodes = none ∧ found = false ∧ P' = link node + P + F ∨
      ∃ node' nodes' P₁ v old, HashTable.removeChain key nodes = some nodes' ∧ found = true ∧
        HashTable.getChain key nodes = some old ∧ IsChain node' nodes' P₁ ∧
        P' = {(v, .value old)} + (link node' + P₁) + F := by
  induction h generalizing fuel prev link F with
  | nil =>
    rw [removeLoop.eq_def]
    exact Completes.pure (.inl ⟨rfl, rfl, rfl⟩)
  | @cons next rest P node k v word a hrest ih =>
    obtain _ | fuel := fuel
    · exact absurd hfuel (by simp)
    rw [HashTable.removeChain, HashTable.getChain]
    apply (runs_readNode ⟨k, v, next⟩ (by simp)).step
    apply (runs_readString word (by simp)).step
    by_cases hword : word = key
    · rw [if_pos hword, if_pos hword, if_pos hword]
      have hcells : link (some node) + ({(node, .node ⟨k, v, next⟩)} + {(k, .string word)} +
          {(v, .value a)} + P) + F = link (some node) + ({(node, .node ⟨k, v, next⟩)} +
          {(k, .string word)} + {(v, .value a)} + P + F) := by ac_rfl
      rw [hcells]
      apply (hlink.runs next).step
      apply (Completes.free (r := k) (c := .string word) (F := {(node, .node ⟨k, v, next⟩)} +
        ({(v, .value a)} + (link next + P) + F)) (by ac_rfl)).step
      apply (Completes.free rfl).step
      exact Completes.pure (.inr ⟨next, rest, P, v, a, rfl, rfl, rfl, hrest, rfl⟩)
    · rw [if_neg hword, if_neg hword, if_neg hword]
      have hrun := ih (IsLink.node node ⟨k, v, next⟩) (Nat.le_of_succ_le_succ hfuel)
        (F := link (some node) + {(k, .string word)} + {(v, .value a)} + F)
      refine hrun.conseq (by ac_rfl) ?_
      rintro found _
        (⟨hremove, rfl, rfl⟩ | ⟨node', nodes', P₁, v', old, hremove, rfl, hget, hP₁, rfl⟩)
      · exact .inl ⟨by rw [hremove]; rfl, rfl, by ac_rfl⟩
      · refine .inr ⟨some node, (word, a) :: nodes', _, v', old, by rw [hremove]; rfl, rfl, hget,
          hP₁.cons node k v word a, ?_⟩
        ac_rfl

theorem runs_destroyChain {fuel : Nat} (h : IsChain node nodes P) (hfuel : nodes.length ≤ fuel) :
    CompletesTo (P + F) (destroyChain fuel node) () F := by
  induction h generalizing fuel with
  | nil =>
    rw [destroyChain.eq_def, zero_add]
    exact Completes.pure ⟨rfl, rfl⟩
  | @cons next rest P node k v word a hrest ih =>
    obtain _ | fuel := fuel
    · exact absurd hfuel (by simp)
    apply (runs_readNode ⟨k, v, next⟩ (by simp)).step
    apply (Completes.free (r := k) (c := .string word) (F := {(v, .value a)} +
      ({(node, .node ⟨k, v, next⟩)} + (P + F))) (by ac_rfl)).step
    apply (Completes.free rfl).step
    apply (Completes.free rfl).step
    exact ih (Nat.le_of_succ_le_succ hfuel)

end chains

/-! ## Tables -/

/-- The array of a table and the cells of its chains. -/
inductive IsSlots : List (Option Ref) → List (List (CString × ν)) → Cells (Cell ν) → Prop
  | nil : IsSlots [] [] 0
  | cons {node : Option Ref} {slots : List (Option Ref)} {chain : List (CString × ν)}
      {chains : List (List (CString × ν))} {P Ps : Cells (Cell ν)} (hchain : IsChain node chain P)
      (hslots : IsSlots slots chains Ps) : IsSlots (node :: slots) (chain :: chains) (P + Ps)

/-- The cells of a table. -/
def IsTable (hashtable : Ref) (h : HashTable ν) (P : Cells (Cell ν)) : Prop :=
  ∃ array slots Ps, IsSlots slots h.nodes Ps ∧
    P = {(hashtable, .hashtable ⟨h.size, h.capacity, array⟩)} + {(array, .nodes slots)} + Ps

/-- The values that a call loses: the one that the table has for the key. -/
def held (h : HashTable ν) (key : CString) : Multiset ν := (h.getHt key).elim 0 ({·})

/-- Cells that belong to nothing any more, and the values in them. -/
def IsLost (lost : Cells (Cell ν)) (values : Multiset ν) : Prop :=
  lost.map Prod.snd = values.map .value

section tables
variable {P F : Cells (Cell ν)} {slots : List (Option Ref)} {chains : List (List (CString × ν))}
  {hashtable : Ref} {h : HashTable ν} {key : CString}

theorem IsSlots.length_eq (hs : IsSlots slots chains P) : slots.length = chains.length := by
  induction hs with
  | nil => rfl
  | cons hchain hslots ih => rw [List.length_cons, ih, List.length_cons]

theorem isSlots_replicate (n : Nat) :
    IsSlots (List.replicate n none) (List.replicate n []) (0 : Cells (Cell ν)) := by
  induction n with
  | zero => exact .nil
  | succ n ih =>
    rw [List.replicate_succ, List.replicate_succ, ← zero_add 0]
    exact .cons .nil ih

/-- One slot of the array, and another chain in its place. -/
theorem IsSlots.slot {i : Nat} (hs : IsSlots slots chains P) (hi : i < chains.length) :
    ∃ node P₁ P₂, slots[i]? = some node ∧ slots.set i node = slots ∧ P = P₁ + P₂ ∧
      IsChain node (chains.getD i []) P₁ ∧ ∀ node' chain' P', IsChain node' chain' P' →
        IsSlots (slots.set i node') (chains.set i chain') (P' + P₂) := by
  induction hs generalizing i with
  | nil => exact absurd hi (Nat.not_lt_zero i)
  | @cons node slots chain chains P Ps hchain hslots ih =>
    cases i with
    | zero =>
      refine ⟨node, P, Ps, rfl, rfl, rfl, hchain, ?_⟩
      intro node' chain' P' hchain'
      exact .cons hchain' hslots
    | succ i =>
      obtain ⟨node', P₁, P₂, hget, hset, rfl, hchain', hput⟩ := ih (Nat.lt_of_succ_lt_succ hi)
      refine ⟨node', P₁, P + P₂, hget, by rw [List.set_cons_succ, hset], by ac_rfl, hchain', ?_⟩
      intro node'' chain'' P' hchain''
      rw [show P' + (P + P₂) = P + (P' + P₂) by ac_rfl]
      exact .cons hchain (hput node'' chain'' P' hchain'')

/-- The slot of a key. What is put there, with whatever size, makes a table again. -/
theorem IsTable.slot (ht : IsTable hashtable h P) (key : CString) :
    ∃ array slots node P₁ P₂, slots[h.hash key]? = some node ∧ h.hash key < slots.length ∧
      slots.set (h.hash key) node = slots ∧ IsChain node (h.chain (h.hash key)) P₁ ∧
      P = {(hashtable, .hashtable ⟨h.size, h.capacity, array⟩)} + {(array, .nodes slots)} +
        P₁ + P₂ ∧
      ∀ (h' : HashTable ν) node' chain' P', h'.capacity = h.capacity →
        h'.nodes = h.nodes.set (h.hash key) chain' → IsChain node' chain' P' →
        IsTable hashtable h' ({(hashtable, .hashtable ⟨h'.size, h.capacity, array⟩)} +
          {(array, .nodes (slots.set (h.hash key) node'))} + P' + P₂) := by
  obtain ⟨array, slots, Ps, hslots, rfl⟩ := ht
  obtain ⟨node, P₁, P₂, hget, hset, rfl, hchain, hput⟩ := hslots.slot (h.hash_lt key)
  refine ⟨array, slots, node, P₁, P₂, hget, ?_, hset, hchain, by ac_rfl, ?_⟩
  · rw [hslots.length_eq]
    exact h.hash_lt key
  · intro h' node' chain' P' hcapacity hnodes hchain'
    refine ⟨array, _, _, hnodes ▸ hput node' chain' P' hchain', ?_⟩
    rw [hcapacity]
    ac_rfl

theorem runs_createHt (capacity : Nat) (hpos : 0 < capacity) :
    Completes F (createHt capacity) fun hashtable P' => ∃ P,
      IsTable hashtable (.createHt capacity hpos : HashTable ν) P ∧ P' = P + F := by
  apply Completes.alloc_bind
  intro hashtable
  apply Completes.alloc_bind
  intro array
  apply (Completes.store (add_left_comm _ _ _)).step
  refine Completes.pure ⟨_, ⟨array, _, 0, isSlots_replicate capacity, rfl⟩, ?_⟩
  rw [add_zero, add_assoc]
  rfl

theorem addChain_absent {nodes : List (CString × ν)} (a : ν)
    (hget : HashTable.getChain key nodes = none) :
    HashTable.addChain key a nodes = nodes ++ [(key, a)] := by
  induction nodes with
  | nil => rfl
  | cons node rest ih =>
    rw [HashTable.getChain] at hget
    rw [HashTable.addChain]
    by_cases hnode : node.1 = key
    · rw [if_pos hnode] at hget
      exact absurd hget (by simp)
    · rw [if_neg hnode] at hget
      rw [if_neg hnode, ih hget, List.cons_append]

theorem size_addHt_absent (a : ν) (hget : h.getHt key = none) :
    (h.addHt key a).size = (h.size + 1) % 2 ^ 32 := by
  show (if (h.getHt key).isSome then _ else _) = _
  rw [hget]
  rfl

theorem size_addHt_held (a : ν) {old : ν} (hget : h.getHt key = some old) :
    (h.addHt key a).size = h.size := by
  show (if (h.getHt key).isSome then _ else _) = _
  rw [hget]
  rfl

theorem runs_addHt (ht : IsTable hashtable h P) (key : CString) (a : ν) (value : Ref) :
    Completes ({(value, .value a)} + P + F) (addHt hashtable key value) fun _ P' =>
      ∃ P'' lost, IsTable hashtable (h.addHt key a) P'' ∧ IsLost lost (held h key) ∧
        P' = lost + P'' + F := by
  obtain ⟨array, slots, node, P₁, P₂, hslot, hlt, hset, hchain, rfl, hput⟩ := ht.slot key
  apply (runs_readTable ⟨h.size, h.capacity, array⟩ (by simp)).step
  apply (runs_readSlot slots (by simp) hslot).step
  cases node with
  | none =>
    have hnil : h.chain (h.hash key) = [] ∧ P₁ = 0 := by
      generalize h.chain (h.hash key) = chain at hchain
      cases hchain
      exact ⟨rfl, rfl⟩
    have hget : h.getHt key = none := by rw [HashTable.getHt, hnil.1]; rfl
    rw [hnil.2]
    apply Completes.bind (runs_createNode key value _)
    rintro new _ ⟨k, rfl⟩
    apply (runs_writeSlot (r := array) slots (some new) (F := {(new, .node ⟨k, value, none⟩)} +
      {(k, .string key)} + ({(value, .value a)} + ({(hashtable, .hashtable ⟨h.size, h.capacity,
      array⟩)} + P₂) + F)) (by rw [add_zero]; ac_rfl) hlt).step
    apply Completes.mono (Completes.store (c := .hashtable ⟨h.size, h.capacity, array⟩)
      (F := {(array, .nodes (slots.set (h.hash key) (some new)))} +
        {(new, .node ⟨k, value, none⟩)} + {(k, .string key)} + {(value, .value a)} + P₂ + F)
      (by ac_rfl))
    rintro _ _ ⟨rfl, rfl⟩
    have hadd : HashTable.addChain key a (h.chain (h.hash key)) = [(key, a)] := by
      rw [hnil.1]
      rfl
    have hchain' := (IsChain.nil (ν := ν)).cons new k value key a
    rw [← hadd] at hchain'
    have htable := hput (h.addHt key a) (some new) _ _ rfl rfl hchain'
    refine ⟨_, 0, htable, by rw [IsLost, held, hget]; rfl, ?_⟩
    rw [size_addHt_absent a hget, add_zero, zero_add]
    ac_rfl
  | some node =>
    apply Completes.count_bind
    intro fuel hfuel
    have hlen : (h.chain (h.hash key)).length ≤ fuel := by
      have hle := hchain.length_le
      simp only [Multiset.card_add] at hfuel
      omega
    cases hget : h.getHt key with
    | none =>
      have hrun := runs_addLoop_absent value hchain hlen hget
        (F := {(value, .value a)} + {(hashtable, .hashtable ⟨h.size, h.capacity, array⟩)} +
          {(array, .nodes slots)} + P₂ + F)
      apply Completes.bind (hrun.of_eq (by ac_rfl))
      rintro _ _ ⟨rfl, last, fields, P₃, rfl, rfl, hopen⟩
      apply Completes.bind (runs_createNode key value _)
      rintro new _ ⟨k, rfl⟩
      apply (runs_readNode fields (by simp)).step
      apply (Completes.store (c := .node fields) (F := {(new, .node ⟨k, value, none⟩)} +
        {(k, .string key)} + (P₃ + ({(value, .value a)} + {(hashtable, .hashtable ⟨h.size,
        h.capacity, array⟩)} + {(array, .nodes slots)} + P₂ + F))) (by ac_rfl)).step
      apply Completes.mono (Completes.store (c := .hashtable ⟨h.size, h.capacity, array⟩)
        (F := {(last, .node { fields with next := some new })} + {(new, .node ⟨k, value, none⟩)} +
          {(k, .string key)} + P₃ + {(value, .value a)} + {(array, .nodes slots)} + P₂ + F)
        (by ac_rfl))
      rintro _ _ ⟨rfl, rfl⟩
      have hchain' := hopen _ _ _ ((IsChain.nil (ν := ν)).cons new k value key a)
      rw [← addChain_absent a hget] at hchain'
      have htable := hput (h.addHt key a) (some node) _ _ rfl rfl hchain'
      refine ⟨_, 0, htable, by rw [IsLost, held, hget]; rfl, ?_⟩
      rw [size_addHt_absent a hget, hset, add_zero, zero_add]
      ac_rfl
    | some old =>
      have hrun := runs_addLoop_found (a := a) value hchain hlen hget
        (F := {(hashtable, .hashtable ⟨h.size, h.capacity, array⟩)} + {(array, .nodes slots)} +
          P₂ + F)
      apply Completes.bind (hrun.of_eq (by ac_rfl))
      rintro _ _ ⟨rfl, v, P₃, hchain', rfl⟩
      have htable := hput (h.addHt key a) (some node) _ P₃ rfl rfl hchain'
      refine Completes.pure ⟨_, {(v, .value old)}, htable, ?_, ?_⟩
      · rw [IsLost, held, hget]
        rfl
      · rw [size_addHt_held a hget, hset]
        ac_rfl

/-- A lookup points into the table. -/
theorem runs_getHt (ht : IsTable hashtable h P) (key : CString) :
    Completes (P + F) (getHt hashtable key) fun found P' => P' = P + F ∧
      (h.getHt key = none ∧ found = none ∨
        ∃ v a, h.getHt key = some a ∧ found = some v ∧ (v, .value a) ∈ P) := by
  obtain ⟨array, slots, node, P₁, P₂, hslot, hlt, hset, hchain, rfl, hput⟩ := ht.slot key
  apply (runs_readTable ⟨h.size, h.capacity, array⟩ (by simp)).step
  apply (runs_readSlot slots (by simp) hslot).step
  apply Completes.count_bind
  intro fuel hfuel
  have hlen : (h.chain (h.hash key)).length ≤ fuel := by
    have hle := hchain.length_le
    simp only [Multiset.card_add] at hfuel
    omega
  have hrun := runs_getLoop key hchain hlen
    (F := {(hashtable, .hashtable ⟨h.size, h.capacity, array⟩)} + {(array, .nodes slots)} + P₂ + F)
  refine hrun.conseq (by ac_rfl) ?_
  rintro found _ ⟨rfl, hnone | ⟨v, a, hget, hfound, hmem⟩⟩
  · exact ⟨by ac_rfl, .inl hnone⟩
  · refine ⟨by ac_rfl, .inr ⟨v, a, hget, hfound, ?_⟩⟩
    rw [Multiset.mem_add, Multiset.mem_add]
    exact .inl (.inr hmem)

theorem removeHt_absent
    (hremove : HashTable.removeChain key (h.chain (h.hash key)) = none) :
    h.removeHt key = (false, h) ∧ held h key = 0 := by
  have hget : h.getHt key = none :=
    HashTable.getChain_eq_none_iff.mpr (HashTable.removeChain_eq_none_iff.mp hremove)
  constructor
  · unfold HashTable.removeHt
    rw [hremove]
  · rw [held, hget]
    rfl

theorem removeHt_held {chain' : List (CString × ν)}
    (hremove : HashTable.removeChain key (h.chain (h.hash key)) = some chain') :
    (h.removeHt key).1 = true ∧ (h.removeHt key).2.size = h.size ∧
      (h.removeHt key).2.capacity = h.capacity ∧
      (h.removeHt key).2.nodes = h.nodes.set (h.hash key) chain' := by
  unfold HashTable.removeHt
  rw [hremove]
  exact ⟨rfl, rfl, rfl, rfl⟩

theorem runs_removeHt (ht : IsTable hashtable h P) (key : CString) :
    Completes (P + F) (removeHt hashtable key) fun found P' =>
      found = (h.removeHt key).1 ∧ ∃ P'' lost, IsTable hashtable (h.removeHt key).2 P'' ∧
        IsLost lost (held h key) ∧ P' = lost + P'' + F := by
  have htable := ht
  obtain ⟨array, slots, node, P₁, P₂, hslot, hlt, hset, hchain, rfl, hput⟩ := ht.slot key
  apply (runs_readTable ⟨h.size, h.capacity, array⟩ (by simp)).step
  apply (runs_readSlot slots (by simp) hslot).step
  apply Completes.count_bind
  intro fuel hfuel
  have hlen : (h.chain (h.hash key)).length ≤ fuel := by
    have hle := hchain.length_le
    simp only [Multiset.card_add] at hfuel
    omega
  have hrun := runs_removeLoop key (@IsLink.slot ν array _ slots hlt) hchain hlen
    (F := {(hashtable, .hashtable ⟨h.size, h.capacity, array⟩)} + P₂ + F)
  rw [hset] at hrun
  refine hrun.conseq (by ac_rfl) ?_
  rintro found _ (⟨hremove, rfl, rfl⟩ | ⟨node', nodes', P₃, v, old, hremove, rfl, hget, hP₃, rfl⟩)
  · obtain ⟨hsame, hheld⟩ := removeHt_absent hremove
    rw [hsame, hheld]
    exact ⟨rfl, _, 0, htable, rfl, by rw [zero_add]; ac_rfl⟩
  · obtain ⟨hfound, hsize, hcapacity, hnodes⟩ := removeHt_held hremove
    have htable' := hput (h.removeHt key).2 node' nodes' P₃ hcapacity hnodes hP₃
    refine ⟨hfound.symm, _, {(v, .value old)}, htable', ?_, ?_⟩
    · rw [IsLost, held, show h.getHt key = some old from hget]
      rfl
    · rw [hsize]
      ac_rfl

theorem runs_destroyLoop {table : HashtableT} (before : List (Option Ref))
    (hs : IsSlots slots chains P) (hmem : (table.nodes, .nodes (before ++ slots)) ∈ F)
    (hcapacity : table.capacity = before.length + slots.length) :
    CompletesTo (P + F) (destroyLoop table slots.length) () F := by
  induction hs generalizing before with
  | nil =>
    rw [zero_add]
    exact Completes.pure ⟨rfl, rfl⟩
  | @cons node slots chain chains P Ps hchain hslots ih =>
    have hslot : (before ++ node :: slots)[table.capacity - (slots.length + 1)]? = some node := by
      rw [hcapacity, List.length_cons, Nat.add_sub_cancel]
      simp
    have hrest : CompletesTo (Ps + F) (destroyLoop table slots.length) () F := by
      apply ih (before ++ [node])
      · rwa [List.append_assoc]
      · rw [hcapacity]
        simp
        omega
    rw [List.length_cons, destroyLoop, add_assoc]
    have hmem' : (table.nodes, .nodes (before ++ node :: slots)) ∈ P + (Ps + F) :=
      Multiset.mem_add.mpr (.inr (Multiset.mem_add.mpr (.inr hmem)))
    apply (runs_readSlot _ hmem' hslot).step
    cases node with
    | none =>
      cases hchain
      rw [zero_add]
      exact hrest
    | some node =>
      apply Completes.count_bind
      intro fuel hfuel
      have hlen : chain.length ≤ fuel := by
        have hle := hchain.length_le
        simp only [Multiset.card_add] at hfuel
        omega
      apply (runs_destroyChain hchain hlen).step
      exact hrest

/-- Everything the table is made of is freed, and the values in it. -/
theorem runs_destroyHt (ht : IsTable hashtable h P) :
    CompletesTo (P + F) (destroyHt hashtable) () F := by
  obtain ⟨array, slots, Ps, hslots, rfl⟩ := ht
  have hcapacity : h.capacity = slots.length := by rw [hslots.length_eq, h.length_nodes]
  apply (runs_readTable ⟨h.size, h.capacity, array⟩ (by simp)).step
  have hcells : {(hashtable, Cell.hashtable ⟨h.size, h.capacity, array⟩)} +
      {(array, .nodes slots)} + Ps + F = Ps + ({(array, .nodes slots)} +
        ({(hashtable, .hashtable ⟨h.size, h.capacity, array⟩)} + F)) := by ac_rfl
  rw [hcells, hcapacity]
  apply (runs_destroyLoop [] hslots (by simp) (by simp)).step
  apply (Completes.free rfl).step
  exact Completes.free rfl

end tables

/-! ## Runs -/

/-- A call with a value of its own. -/
def applyCall (hashtable : Ref) : TableOp ν → HeapM (Cell ν) Unit
  | .add key a => do
    let value ← alloc (.value a)
    addHt hashtable key value
  | .remove key => do
    let _ ← removeHt hashtable key
    pure ()

def runCalls (hashtable : Ref) : List (TableOp ν) → HeapM (Cell ν) Unit
  | [] => pure ()
  | op :: ops => do
    applyCall hashtable op
    runCalls hashtable ops

/-- What a lookup points to. -/
def readFound : Option Ref → HeapM (Cell ν) (Option ν)
  | none => pure none
  | some r => do
    match ← load r with
    | .value a => pure (some a)
    | _ => fail

/-- The life of a table, with a lookup at its end. -/
def useTable (capacity : Nat) (ops : List (TableOp ν)) (key : CString) :
    HeapM (Cell ν) (Option ν) := do
  let hashtable ← createHt capacity
  runCalls hashtable ops
  let found ← getHt hashtable key
  let value ← readFound found
  destroyHt hashtable
  pure value

/-- The values that a map forgets in a run of calls: what a key had when it is added again or
removed. -/
def forgotten (m : CString → Option ν) : List (TableOp ν) → Multiset ν
  | [] => 0
  | op :: ops => (m op.key).elim 0 ({·}) + forgotten (HashTable.updateMap m op) ops

section runs
variable {P F : Cells (Cell ν)} {hashtable : Ref} {h : HashTable ν}

theorem IsLost.add {lost lost' : Cells (Cell ν)} {values values' : Multiset ν}
    (h : IsLost lost values) (h' : IsLost lost' values') :
    IsLost (lost + lost') (values + values') := by
  rw [IsLost, Multiset.map_add, Multiset.map_add, ← h, ← h']

theorem runs_applyCall (ht : IsTable hashtable h P) (op : TableOp ν) :
    Completes (P + F) (applyCall hashtable op) fun _ P' => ∃ P'' lost,
      IsTable hashtable (h.applyOp op) P'' ∧ IsLost lost (held h op.key) ∧
      P' = lost + P'' + F := by
  cases op with
  | add key a =>
    apply Completes.alloc_bind
    intro value
    rw [← add_assoc]
    exact runs_addHt ht key a value
  | remove key =>
    apply Completes.bind (runs_removeHt ht key)
    rintro _ _ ⟨_, P'', lost, htable, hlost, rfl⟩
    exact Completes.pure ⟨P'', lost, htable, hlost, rfl⟩

theorem runs_runCalls (ht : IsTable hashtable h P) (hs : h.Stored) (ops : List (TableOp ν)) :
    Completes (P + F) (runCalls hashtable ops) fun _ P' => ∃ P'' lost,
      IsTable hashtable (h.runOps ops) P'' ∧ IsLost lost (forgotten h.getHt ops) ∧
      P' = lost + P'' + F := by
  induction ops generalizing h P F with
  | nil => exact Completes.pure ⟨P, 0, ht, rfl, by rw [zero_add]⟩
  | cons op ops ih =>
    apply Completes.bind (runs_applyCall ht op)
    rintro _ _ ⟨P₁, lost₁, ht₁, hlost₁, rfl⟩
    have hrun := ih ht₁ (hs.applyOp op) (F := lost₁ + F)
    refine hrun.conseq (by ac_rfl) ?_
    rintro _ _ ⟨P₂, lost₂, ht₂, hlost₂, rfl⟩
    rw [HashTable.getHt_applyOp hs] at hlost₂
    exact ⟨P₂, lost₁ + lost₂, ht₂, hlost₁.add hlost₂, by ac_rfl⟩

theorem getHt_foldl (hs : h.Stored) (ops : List (TableOp ν)) :
    (h.runOps ops).getHt = ops.foldl HashTable.updateMap h.getHt := by
  induction ops generalizing h with
  | nil => rfl
  | cons op ops ih =>
    rw [List.foldl_cons, ← HashTable.getHt_applyOp hs]
    exact ih (hs.applyOp op)

theorem runs_readFound {found : Option Ref} {value : Option ν}
    (h : value = none ∧ found = none ∨ ∃ v a, value = some a ∧ found = some v ∧ (v, .value a) ∈ P) :
    CompletesTo P (readFound found) value P := by
  obtain ⟨rfl, rfl⟩ | ⟨v, a, rfl, rfl, hmem⟩ := h
  · exact Completes.pure ⟨rfl, rfl⟩
  · exact (Completes.load hmem).step (Completes.pure ⟨rfl, rfl⟩)

end runs

end Nodes

/-- Two keys in one slot, one of them added again and the other removed. -/
def anagramCalls : List (TableOp Nat) :=
  [.add (ascii "ab") 1, .add (ascii "ba") 2, .remove (ascii "ab"), .add (ascii "ba") 3]

/-- On the empty heap. -/
example : (Nodes.useTable 1 anagramCalls (ascii "ba") Heap.empty).map Prod.fst =
    some (some 3) := by decide +kernel

end ACompiler
