import ACompiler.Utils.CString

/-!
# The hash table

`hashtable.c`: an array of chains, indexed by a multiplicative hash of the key. The table is used
for the keywords of the tokenizer and for the symbols of every scope, always through `getHt` after a
sequence of `addHt`; the facts they need are that a table is a finite map (`getHt_addHt`), whatever
keys collide.
-/

namespace ACompiler

variable {α : Type}

/-- `hashtable_t`: one chain of key and value pairs for each slot. `size` is an `unsigned int`. -/
structure HashTable (α : Type) where
  size : Nat
  capacity : Nat
  nodes : List (List (CString × α))
  length_nodes : nodes.length = capacity
  capacity_pos : 0 < capacity

namespace HashTable

/-- The product of 29 and each character, in an `unsigned long`; a `char` is sign-extended. -/
def hash (h : HashTable α) (key : CString) : Nat :=
  (key.foldl (fun value c => value * 29#64 * c.toBitVec.signExtend 64) 1#64).toNat % h.capacity

theorem hash_lt (h : HashTable α) (key : CString) : h.hash key < h.nodes.length := by
  rw [h.length_nodes]
  exact Nat.mod_lt _ h.capacity_pos

def createHt (capacity : Nat) (hpos : 0 < capacity) : HashTable α where
  size := 0
  capacity := capacity
  nodes := List.replicate capacity []
  length_nodes := List.length_replicate
  capacity_pos := hpos

/-- The chain of a slot. -/
def chain (h : HashTable α) (slot : Nat) : List (CString × α) := h.nodes.getD slot []

/-- The walk of `get_ht` along one chain. -/
def getChain (key : CString) : List (CString × α) → Option α
  | [] => none
  | node :: rest => if node.1 = key then some node.2 else getChain key rest

/-- The walk of `add_ht` along one chain: overwrite in place, or append a node at the tail. -/
def addChain (key : CString) (value : α) : List (CString × α) → List (CString × α)
  | [] => [(key, value)]
  | node :: rest => if node.1 = key then (key, value) :: rest else node :: addChain key value rest

def getHt (h : HashTable α) (key : CString) : Option α := getChain key (h.chain (h.hash key))

def addHt (h : HashTable α) (key : CString) (value : α) : HashTable α where
  size := if (getChain key (h.chain (h.hash key))).isSome then h.size
    else (h.size + 1) % 2 ^ 32
  capacity := h.capacity
  nodes := h.nodes.set (h.hash key) (addChain key value (h.chain (h.hash key)))
  length_nodes := by rw [List.length_set, h.length_nodes]
  capacity_pos := h.capacity_pos

/-! ## The table is a finite map -/

theorem getChain_addChain (key key' : CString) (value : α) (nodes : List (CString × α)) :
    getChain key' (addChain key value nodes) =
      if key' = key then some value else getChain key' nodes := by
  induction nodes with
  | nil =>
    by_cases h : key' = key
    · simp [addChain, getChain, h]
    · simp [addChain, getChain, h, Ne.symm h]
  | cons node rest ih =>
    rw [addChain]
    by_cases hnode : node.1 = key
    · rw [if_pos hnode]
      by_cases h : key' = key
      · simp [getChain, h]
      · simp [getChain, hnode, h, Ne.symm h]
    · rw [if_neg hnode, getChain, getChain, ih]
      by_cases h : key' = key
      · subst h
        rw [if_neg hnode, if_pos rfl, if_pos rfl]
      · rw [if_neg h, if_neg h]

@[simp] theorem hash_addHt (h : HashTable α) (key key' : CString) (value : α) :
    (h.addHt key value).hash key' = h.hash key' := rfl

theorem chain_addHt (h : HashTable α) (key : CString) (value : α) (slot : Nat) :
    (h.addHt key value).chain slot =
      if slot = h.hash key then addChain key value (h.chain slot) else h.chain slot := by
  by_cases hs : slot = h.hash key
  · subst hs
    simp [chain, addHt, h.hash_lt key]
  · simp [chain, addHt, List.getD_eq_getElem?_getD, List.getElem?_set_ne (Ne.symm hs), hs]

@[simp] theorem getHt_createHt (capacity : Nat) (hpos : 0 < capacity) (key : CString) :
    (createHt capacity hpos : HashTable α).getHt key = none := by
  have hchain : ∀ slot, (createHt capacity hpos : HashTable α).chain slot = [] := by
    intro slot
    rw [chain, List.getD_eq_getElem?_getD]
    by_cases h : slot < capacity <;> simp [createHt, h]
  rw [getHt, hchain]
  rfl

/-- A lookup after an insertion sees the inserted value under its own key, and every other key as
it was. -/
theorem getHt_addHt (h : HashTable α) (key key' : CString) (value : α) :
    (h.addHt key value).getHt key' = if key' = key then some value else h.getHt key' := by
  rw [getHt, hash_addHt, chain_addHt]
  by_cases hslot : h.hash key' = h.hash key
  · rw [if_pos hslot, getChain_addChain]
    rfl
  · have hne : key' ≠ key := fun he => hslot (by rw [he])
    rw [if_neg hslot, if_neg hne]
    rfl

end HashTable

end ACompiler
