import ACompiler.Utils.HashTable

/-!
# Runs of the hash table

`remove_ht`, and sequences of insertions and removals from an empty table. In every state that is
reached a key stands in one node at most, in the chain of its slot (`Stored`), so the table is a
finite map whatever keys collide (`runOps_isMap`).
-/

namespace ACompiler

variable {α : Type}

namespace HashTable

/-- The walk of `remove_ht` along one chain, which unlinks the first node with the key. -/
def removeChain (key : CString) : List (CString × α) → Option (List (CString × α))
  | [] => none
  | node :: rest => if node.1 = key then some rest else (removeChain key rest).map (node :: ·)

def removeHt (h : HashTable α) (key : CString) : Bool × HashTable α :=
  match removeChain key (h.chain (h.hash key)) with
  | none => (false, h)
  | some chain => (true, { h with
      nodes := h.nodes.set (h.hash key) chain
      length_nodes := by rw [List.length_set, h.length_nodes] })

end HashTable

/-- A call of `add_ht` or `remove_ht`. -/
inductive TableOp (α : Type)
  | add (key : CString) (value : α)
  | remove (key : CString)

/-- The key of a call. -/
def TableOp.key : TableOp α → CString
  | .add key _ => key
  | .remove key => key

namespace HashTable

def applyOp (h : HashTable α) : TableOp α → HashTable α
  | .add key value => h.addHt key value
  | .remove key => (h.removeHt key).2

def runOps (h : HashTable α) (ops : List (TableOp α)) : HashTable α := ops.foldl applyOp h

/-! ## Chains -/

section chains
variable {key key' : CString} {nodes nodes' : List (CString × α)}

theorem getChain_eq_none_iff : getChain key nodes = none ↔ key ∉ nodes.map Prod.fst := by
  induction nodes with
  | nil => simp [getChain]
  | cons node rest ih =>
    rw [getChain, List.map_cons, List.mem_cons, not_or, ← ih]
    by_cases hnode : node.1 = key
    · simp [hnode]
    · simp [hnode, Ne.symm hnode]

theorem removeChain_eq_none_iff : removeChain key nodes = none ↔ key ∉ nodes.map Prod.fst := by
  induction nodes with
  | nil => simp [removeChain]
  | cons node rest ih =>
    rw [removeChain, List.map_cons, List.mem_cons, not_or, ← ih]
    by_cases hnode : node.1 = key
    · simp [hnode]
    · simp [hnode, Ne.symm hnode]

theorem removeChain_sublist (h : removeChain key nodes = some nodes') : nodes'.Sublist nodes := by
  induction nodes generalizing nodes' with
  | nil => exact absurd h (by simp [removeChain])
  | cons node rest ih =>
    rw [removeChain] at h
    by_cases hnode : node.1 = key
    · rw [if_pos hnode] at h
      obtain rfl := Option.some.inj h
      exact List.sublist_cons_self node rest
    · rw [if_neg hnode] at h
      obtain ⟨rest', hrest, rfl⟩ := Option.map_eq_some_iff.mp h
      exact (ih hrest).cons_cons node

/-- Where no key is there twice, unlinking a node removes its key and no other. -/
theorem getChain_removeChain (hnodup : (nodes.map Prod.fst).Nodup)
    (h : removeChain key nodes = some nodes') :
    getChain key' nodes' = if key' = key then none else getChain key' nodes := by
  induction nodes generalizing nodes' with
  | nil => exact absurd h (by simp [removeChain])
  | cons node rest ih =>
    rw [List.map_cons, List.nodup_cons] at hnodup
    rw [removeChain] at h
    by_cases hnode : node.1 = key
    · rw [if_pos hnode] at h
      obtain rfl := Option.some.inj h
      by_cases hkey : key' = key
      · rw [if_pos hkey, getChain_eq_none_iff, hkey, ← hnode]
        exact hnodup.1
      · rw [if_neg hkey, getChain, if_neg fun heq => hkey (heq.symm.trans hnode)]
    · rw [if_neg hnode] at h
      obtain ⟨rest', hrest, rfl⟩ := Option.map_eq_some_iff.mp h
      rw [getChain, getChain, ih hnodup.2 hrest]
      by_cases hkey : key' = key
      · rw [if_pos hkey, if_pos hkey, if_neg fun heq => hnode (heq.trans hkey)]
      · rw [if_neg hkey, if_neg hkey]

/-- Insertion keeps the keys, or puts the new one behind them. -/
theorem map_fst_addChain (key : CString) (value : α) (nodes : List (CString × α)) :
    (addChain key value nodes).map Prod.fst =
      if key ∈ nodes.map Prod.fst then nodes.map Prod.fst else nodes.map Prod.fst ++ [key] := by
  induction nodes with
  | nil => simp [addChain]
  | cons node rest ih =>
    rw [addChain]
    by_cases hnode : node.1 = key
    · simp [hnode]
    · rw [if_neg hnode, List.map_cons, ih, List.map_cons]
      by_cases hmem : key ∈ rest.map Prod.fst
      · rw [if_pos hmem, if_pos (List.mem_cons_of_mem _ hmem)]
      · rw [if_neg hmem, if_neg (by simpa [Ne.symm hnode] using hmem), List.cons_append]

end chains

/-! ## The invariant -/

/-- Every node is in the chain of its key's slot, and no chain has a key twice. -/
structure Stored (h : HashTable α) : Prop where
  home : ∀ slot, ∀ node ∈ h.chain slot, h.hash node.1 = slot
  nodup : ∀ slot, ((h.chain slot).map Prod.fst).Nodup

theorem chain_createHt (capacity : Nat) (hpos : 0 < capacity) (slot : Nat) :
    (createHt capacity hpos : HashTable α).chain slot = [] := by
  rw [chain, List.getD_eq_getElem?_getD]
  by_cases h : slot < capacity <;> simp [createHt, h]

theorem stored_createHt (capacity : Nat) (hpos : 0 < capacity) :
    (createHt capacity hpos : HashTable α).Stored := by
  constructor
  · intro slot node hnode
    rw [chain_createHt] at hnode
    exact absurd hnode (by simp)
  · intro slot
    rw [chain_createHt]
    exact List.nodup_nil

section step
variable {h : HashTable α} {key key' : CString}

theorem Stored.addHt (hs : h.Stored) (value : α) : (h.addHt key value).Stored := by
  constructor
  · intro slot node hnode
    rw [chain_addHt] at hnode
    rw [hash_addHt]
    by_cases hslot : slot = h.hash key
    · rw [if_pos hslot] at hnode
      have hkey : node.1 ∈ (addChain key value (h.chain slot)).map Prod.fst :=
        List.mem_map_of_mem hnode
      rw [map_fst_addChain] at hkey
      have hcases : node.1 ∈ (h.chain slot).map Prod.fst ∨ node.1 = key := by
        split at hkey
        · exact .inl hkey
        · simpa using hkey
      rcases hcases with hold | hnew
      · obtain ⟨old, hmem, hold⟩ := List.mem_map.mp hold
        rw [← hold]
        exact hs.home slot old hmem
      · rw [hnew, hslot]
    · rw [if_neg hslot] at hnode
      exact hs.home slot node hnode
  · intro slot
    rw [chain_addHt]
    by_cases hslot : slot = h.hash key
    · rw [if_pos hslot, map_fst_addChain]
      split
      · exact hs.nodup slot
      · rename_i hmem
        rw [List.nodup_append_comm, List.singleton_append, List.nodup_cons]
        exact ⟨hmem, hs.nodup slot⟩
    · rw [if_neg hslot]
      exact hs.nodup slot

/-- What `remove_ht` returns and leaves. -/
theorem removeHt_cases (h : HashTable α) (key : CString) :
    (getChain key (h.chain (h.hash key)) = none ∧ h.removeHt key = (false, h)) ∨
      ∃ chain', removeChain key (h.chain (h.hash key)) = some chain' ∧
        (h.removeHt key).1 = true ∧ (∀ k, (h.removeHt key).2.hash k = h.hash k) ∧
        ∀ slot, (h.removeHt key).2.chain slot =
          if slot = h.hash key then chain' else h.chain slot := by
  unfold removeHt
  cases hchain : removeChain key (h.chain (h.hash key)) with
  | none => exact .inl ⟨getChain_eq_none_iff.mpr (removeChain_eq_none_iff.mp hchain), rfl⟩
  | some chain' =>
    refine .inr ⟨chain', rfl, rfl, fun _ => rfl, fun slot => ?_⟩
    by_cases hslot : slot = h.hash key
    · subst hslot
      simp [chain, h.hash_lt key]
    · simp [chain, List.getD_eq_getElem?_getD, List.getElem?_set_ne (Ne.symm hslot), hslot]

theorem Stored.removeHt (hs : h.Stored) (key : CString) : (h.removeHt key).2.Stored := by
  rcases removeHt_cases h key with ⟨_, heq⟩ | ⟨chain', hremove, _, hhash, hchain⟩
  · rw [heq]
    exact hs
  · have hsub := removeChain_sublist hremove
    constructor
    · intro slot node hnode
      rw [hchain] at hnode
      rw [hhash]
      split at hnode
      · rename_i hslot
        rw [hs.home _ node (hsub.subset hnode), hslot]
      · exact hs.home slot node hnode
    · intro slot
      rw [hchain]
      split
      · exact (hs.nodup _).sublist (hsub.map Prod.fst)
      · exact hs.nodup slot

/-- A lookup after a removal. -/
theorem getHt_removeHt (hs : h.Stored) (key key' : CString) :
    (h.removeHt key).2.getHt key' = if key' = key then none else h.getHt key' := by
  rcases removeHt_cases h key with ⟨hnone, heq⟩ | ⟨chain', hremove, _, hhash, hchain⟩
  · rw [heq]
    by_cases hkey : key' = key
    · rw [if_pos hkey, hkey]
      exact hnone
    · rw [if_neg hkey]
  · rw [getHt, hhash, hchain]
    by_cases hslot : h.hash key' = h.hash key
    · rw [if_pos hslot, getChain_removeChain (hs.nodup _) hremove, ← hslot]
      rfl
    · have hne : key' ≠ key := fun he => hslot (by rw [he])
      rw [if_neg hslot, if_neg hne]
      rfl

/-- **A removal says whether the key was there.** -/
theorem removeHt_fst (h : HashTable α) (key : CString) :
    (h.removeHt key).1 = true ↔ h.getHt key ≠ none := by
  rcases removeHt_cases h key with ⟨hnone, heq⟩ | ⟨chain', hremove, htrue, _, _⟩
  · rw [heq]
    exact iff_of_false (by simp) (not_not.mpr hnone)
  · refine iff_of_true htrue fun hnone => ?_
    have hmem := removeChain_eq_none_iff.mpr (getChain_eq_none_iff.mp hnone)
    exact absurd (hremove.symm.trans hmem) (by simp)

end step

/-! ## The map -/

/-- What a call does to the values of the keys. -/
def updateMap (m : CString → Option α) : TableOp α → CString → Option α
  | .add key value => Function.update m key (some value)
  | .remove key => Function.update m key none

theorem Stored.applyOp {h : HashTable α} (hs : h.Stored) (op : TableOp α) :
    (h.applyOp op).Stored := by
  cases op with
  | add key value => exact hs.addHt value
  | remove key => exact hs.removeHt key

/-- **A call updates the map.** -/
theorem getHt_applyOp {h : HashTable α} (hs : h.Stored) (op : TableOp α) :
    (h.applyOp op).getHt = updateMap h.getHt op := by
  funext key'
  cases op with
  | add key value =>
    show (h.addHt key value).getHt key' = Function.update h.getHt key (some value) key'
    rw [getHt_addHt, Function.update_apply]
  | remove key =>
    show (h.removeHt key).2.getHt key' = Function.update h.getHt key none key'
    rw [getHt_removeHt hs, Function.update_apply]

theorem runOps_concat (h : HashTable α) (ops : List (TableOp α)) (op : TableOp α) :
    runOps h (ops ++ [op]) = (runOps h ops).applyOp op := by
  rw [runOps, List.foldl_append]
  rfl

theorem Stored.runOps {h : HashTable α} (hs : h.Stored) (ops : List (TableOp α)) :
    (h.runOps ops).Stored := by
  induction ops using List.reverseRecOn with
  | nil => exact hs
  | append_singleton ops op ih =>
    rw [runOps_concat]
    exact ih.applyOp op

/-- The value of a key is the one of its last insertion, if no removal follows. -/
def LastAdded (ops : List (TableOp α)) (key : CString) (value : α) : Prop :=
  ∃ before after, ops = before ++ .add key value :: after ∧ ∀ op ∈ after, op.key ≠ key

theorem not_lastAdded_nil (key : CString) (value : α) : ¬ LastAdded [] key value := by
  rintro ⟨before, after, h, _⟩
  exact absurd h (by simp)

theorem lastAdded_concat {ops : List (TableOp α)} {op : TableOp α} {key : CString} {value : α} :
    LastAdded (ops ++ [op]) key value ↔
      op = .add key value ∨ (op.key ≠ key ∧ LastAdded ops key value) := by
  constructor
  · rintro ⟨before, after, h, hafter⟩
    rcases List.eq_nil_or_concat' after with rfl | ⟨after', last, rfl⟩
    · have hlast := (List.append_inj' h rfl).2
      exact .inl (by simpa using hlast)
    · rw [← List.cons_append, ← List.append_assoc] at h
      obtain ⟨hops, hlast⟩ := List.append_inj' h rfl
      obtain rfl : op = last := by simpa using hlast
      exact .inr ⟨hafter op (by simp), before, after', hops,
        fun op' hop' => hafter op' (by simp [hop'])⟩
  · rintro (rfl | ⟨hne, before, after, rfl, hafter⟩)
    · exact ⟨ops, [], rfl, by simp⟩
    · refine ⟨before, after ++ [op], by simp, fun op' hop' => ?_⟩
      rcases List.mem_append.mp hop' with hop' | hop'
      · exact hafter op' hop'
      · rw [List.mem_singleton.mp hop']
        exact hne

theorem getHt_runOps (capacity : Nat) (hpos : 0 < capacity) (ops : List (TableOp α))
    (key : CString) (value : α) :
    ((createHt capacity hpos).runOps ops).getHt key = some value ↔ LastAdded ops key value := by
  induction ops using List.reverseRecOn with
  | nil =>
    refine iff_of_false ?_ (not_lastAdded_nil key value)
    show ¬ (createHt capacity hpos).getHt key = some value
    rw [getHt_createHt]
    exact fun h => absurd h (by simp)
  | append_singleton ops op ih =>
    have hstored := (stored_createHt capacity hpos).runOps ops
    rw [runOps_concat, getHt_applyOp hstored, lastAdded_concat, ← ih]
    cases op with
    | add key' value' =>
      simp only [updateMap, Function.update_apply, TableOp.key, TableOp.add.injEq]
      by_cases hkey : key = key'
      · simp [hkey]
      · simp [hkey, Ne.symm hkey]
    | remove key' =>
      simp only [updateMap, Function.update_apply, TableOp.key]
      by_cases hkey : key = key'
      · simp [hkey]
      · simp [hkey, Ne.symm hkey]

/-- The keys of all nodes. -/
def keys (h : HashTable α) : List CString := h.nodes.flatten.map Prod.fst

/-- No key stands in two nodes, of one chain or of two. -/
theorem Stored.nodup_keys {h : HashTable α} (hs : h.Stored) : h.keys.Nodup := by
  have hchain : ∀ (slot : Nat) (hslot : slot < h.nodes.length), h.chain slot = h.nodes[slot] :=
    fun slot hslot => List.getD_eq_getElem _ _ hslot
  rw [keys, List.map_flatten, List.nodup_flatten]
  constructor
  · intro l hl
    obtain ⟨nodes, hnodes, rfl⟩ := List.mem_map.mp hl
    obtain ⟨slot, hslot, rfl⟩ := List.mem_iff_getElem.mp hnodes
    rw [← hchain slot hslot]
    exact hs.nodup slot
  · rw [List.pairwise_map, List.pairwise_iff_getElem]
    intro slot slot' hslot hslot' hlt key hkey hkey'
    obtain ⟨node, hnode, rfl⟩ := List.mem_map.mp hkey
    obtain ⟨node', hnode', heq⟩ := List.mem_map.mp hkey'
    rw [← hchain slot hslot] at hnode
    rw [← hchain slot' hslot'] at hnode'
    have hhome := hs.home slot node hnode
    have hhome' := hs.home slot' node' hnode'
    rw [heq] at hhome'
    omega

/-- **The hash table is a finite map**, after any calls. -/
theorem runOps_isMap (capacity : Nat) (hpos : 0 < capacity) (ops : List (TableOp α)) :
    let h := (createHt capacity hpos).runOps ops
    (∀ key, (∀ value, h.getHt key = some value ↔ LastAdded ops key value) ∧
      (h.getHt key = none ↔ ¬ ∃ value, LastAdded ops key value) ∧
      ((h.removeHt key).1 = true ↔ ∃ value, LastAdded ops key value)) ∧
    (h.keys.Nodup ∧ ∀ slot, ∀ node ∈ h.chain slot, slot = h.hash node.1) ∧
    ∀ op key, key ≠ op.key → (h.applyOp op).getHt key = h.getHt key := by
  intro h
  have hstored : h.Stored := (stored_createHt capacity hpos).runOps ops
  have hget : ∀ key, h.getHt key = none ↔ ¬ ∃ value, LastAdded ops key value := by
    intro key
    simp only [← getHt_runOps capacity hpos]
    rw [Option.eq_none_iff_forall_ne_some, not_exists]
  refine ⟨fun key => ⟨getHt_runOps capacity hpos ops key, hget key, ?_⟩,
    ⟨hstored.nodup_keys, fun slot node hnode => (hstored.home slot node hnode).symm⟩,
    fun op key hkey => ?_⟩
  · rw [removeHt_fst, ne_eq, hget key, not_not]
  · rw [getHt_applyOp hstored]
    cases op with
    | add key' value => exact Function.update_of_ne hkey _ _
    | remove key' => exact Function.update_of_ne hkey _ _

/-- Two keys that collide, one of which is removed. -/
theorem runOps_isMap_anagrams :
    let h := (createHt 1 Nat.one_pos).runOps
      [.add (ascii "ab") 1, .add (ascii "ba") 2, .remove (ascii "ab")]
    (∀ key, (∀ value : Nat, h.getHt key = some value ↔ LastAdded
      [.add (ascii "ab") 1, .add (ascii "ba") 2, .remove (ascii "ab")] key value) ∧
      (h.getHt key = none ↔ ¬ ∃ value, LastAdded
        [.add (ascii "ab") 1, .add (ascii "ba") 2, .remove (ascii "ab")] key value) ∧
      ((h.removeHt key).1 = true ↔ ∃ value, LastAdded
        [.add (ascii "ab") 1, .add (ascii "ba") 2, .remove (ascii "ab")] key value)) ∧
    (h.keys.Nodup ∧ ∀ slot, ∀ node ∈ h.chain slot, slot = h.hash node.1) ∧
    ∀ op key, key ≠ op.key → (h.applyOp op).getHt key = h.getHt key :=
  runOps_isMap 1 Nat.one_pos _

end HashTable

end ACompiler
