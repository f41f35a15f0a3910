import ACompiler.Utils.TableRuns
import Mathlib.Data.List.Dedup

/-!
# The size of the hash table

`add_ht` counts a node that it makes, `remove_ht` does not count down when it frees one. So `size` is
the number of stored keys as long as no removal finds its key (`sizeExact_iff`), and from the first
one that does it is too large by one for each of them.
-/

namespace ACompiler

variable {α : Type}

namespace HashTable

/-- The nodes of all chains. -/
def nodeCount (h : HashTable α) : Nat := (h.nodes.map List.length).sum

/-- `size` is the number of distinct keys that are stored, and of nodes. -/
def SizeExact (h : HashTable α) : Prop :=
  h.size = h.keys.dedup.length ∧ h.size = h.nodeCount

instance (h : HashTable α) : Decidable h.SizeExact := inferInstanceAs (Decidable (_ ∧ _))

/-- The keys of the insertions of a run. -/
def addedKeys (ops : List (TableOp α)) : List CString :=
  ops.filterMap fun
    | .add key _ => some key
    | .remove _ => none

/-- No removal of a run finds its key. -/
def NoneRemoved (ops : List (TableOp α)) : Prop :=
  ∀ before key after, ops = before ++ .remove key :: after → ¬ ∃ value, LastAdded before key value

theorem nodeCount_eq (h : HashTable α) : h.nodeCount = h.keys.length := by
  rw [nodeCount, keys, List.length_map, List.length_flatten]

theorem sizeExact_of_stored {h : HashTable α} (hs : h.Stored) :
    h.SizeExact ↔ h.size = h.keys.length := by
  rw [SizeExact, nodeCount_eq, hs.nodup_keys.dedup, and_self]

/-! ## One call -/

/-- Replacing one chain changes the number of nodes by what it changes in that chain. -/
theorem sum_length_set {β : Type} (l : List (List β)) (chain : List β) :
    ∀ (slot : Nat), slot < l.length →
      ((l.set slot chain).map List.length).sum + (l.getD slot []).length =
        (l.map List.length).sum + chain.length := by
  induction l with
  | nil => intro slot hslot; exact absurd hslot (Nat.not_lt_zero _)
  | cons first rest ih =>
    intro slot hslot
    cases slot with
    | zero =>
      simp only [List.set_cons_zero, List.map_cons, List.sum_cons, List.getD_cons_zero]
      omega
    | succ slot =>
      have hrest := ih slot (Nat.lt_of_succ_lt_succ hslot)
      simp only [List.set_cons_succ, List.map_cons, List.sum_cons, List.getD_cons_succ]
      omega

section chains
variable {key : CString} {nodes nodes' : List (CString × α)}

theorem length_addChain (value : α) : (addChain key value nodes).length =
    if (getChain key nodes).isSome then nodes.length else nodes.length + 1 := by
  induction nodes with
  | nil => rfl
  | cons node rest ih =>
    rw [addChain, getChain]
    by_cases hnode : node.1 = key
    · rw [if_pos hnode, if_pos hnode]
      rfl
    · rw [if_neg hnode, if_neg hnode, List.length_cons, ih, List.length_cons]
      split
      · rfl
      · rfl

theorem length_removeChain (h : removeChain key nodes = some nodes') :
    nodes'.length + 1 = nodes.length := by
  induction nodes generalizing nodes' with
  | nil => exact absurd h (by simp [removeChain])
  | cons node rest ih =>
    rw [removeChain] at h
    by_cases hnode : node.1 = key
    · rw [if_pos hnode] at h
      obtain rfl := Option.some.inj h
      rfl
    · rw [if_neg hnode] at h
      obtain ⟨rest', hrest, rfl⟩ := Option.map_eq_some_iff.mp h
      rw [List.length_cons, List.length_cons, ih hrest]

end chains

variable {h : HashTable α} {key : CString}

/-- An insertion makes a node if the key is new, and counts it. -/
theorem addHt_count (h : HashTable α) (key : CString) (value : α) :
    ((h.getHt key).isSome ∧ (h.addHt key value).size = h.size ∧
        (h.addHt key value).keys.length = h.keys.length) ∨
      (h.getHt key = none ∧ (h.addHt key value).size = (h.size + 1) % 2 ^ 32 ∧
        (h.addHt key value).keys.length = h.keys.length + 1) := by
  have hset := sum_length_set h.nodes (addChain key value (h.chain (h.hash key))) (h.hash key)
    (h.hash_lt key)
  have hsum : (h.addHt key value).keys.length + (h.chain (h.hash key)).length =
      h.keys.length + (addChain key value (h.chain (h.hash key))).length := by
    rw [← nodeCount_eq, ← nodeCount_eq]
    exact hset
  rw [length_addChain] at hsum
  cases hget : h.getHt key with
  | some found =>
    have hsome : (getChain key (h.chain (h.hash key))).isSome := by
      rw [← getHt, hget]
      rfl
    rw [if_pos hsome] at hsum
    exact .inl ⟨rfl, if_pos hsome, by omega⟩
  | none =>
    have hnone : ¬ (getChain key (h.chain (h.hash key))).isSome := by
      rw [← getHt, hget]
      exact Bool.false_ne_true
    rw [if_neg hnone] at hsum
    exact .inr ⟨rfl, if_neg hnone, by omega⟩

/-- A removal that finds its key frees a node, and does not count it. -/
theorem removeHt_count (h : HashTable α) (key : CString) :
    (h.getHt key = none ∧ (h.removeHt key).2 = h) ∨
      (h.getHt key ≠ none ∧ (h.removeHt key).2.size = h.size ∧
        (h.removeHt key).2.keys.length + 1 = h.keys.length) := by
  have hset := fun chain => sum_length_set h.nodes chain (h.hash key) (h.hash_lt key)
  cases hchain : removeChain key (h.chain (h.hash key)) with
  | none =>
    refine .inl ⟨getChain_eq_none_iff.mpr (removeChain_eq_none_iff.mp hchain), ?_⟩
    rw [removeHt, hchain]
  | some chain =>
    refine .inr ⟨fun hnone => ?_, ?_, ?_⟩
    · have hmem := removeChain_eq_none_iff.mpr (getChain_eq_none_iff.mp hnone)
      exact absurd (hchain.symm.trans hmem) (by simp)
    · rw [removeHt, hchain]
    · have hlen := length_removeChain hchain
      have hsum : (h.removeHt key).2.keys.length + (h.chain (h.hash key)).length =
          h.keys.length + chain.length := by
        rw [← nodeCount_eq, ← nodeCount_eq, removeHt, hchain]
        exact hset chain
      omega

theorem mem_keys_iff (hs : h.Stored) : key ∈ h.keys ↔ h.getHt key ≠ none := by
  have hin : h.getHt key ≠ none ↔ key ∈ (h.chain (h.hash key)).map Prod.fst := by
    rw [getHt, ne_eq, getChain_eq_none_iff, not_not]
  rw [hin, keys]
  constructor
  · intro hkey
    obtain ⟨node, hnode, rfl⟩ := List.mem_map.mp hkey
    obtain ⟨nodes, hnodes, hmem⟩ := List.mem_flatten.mp hnode
    obtain ⟨slot, hslot, rfl⟩ := List.mem_iff_getElem.mp hnodes
    have hchain : h.chain slot = h.nodes[slot] := List.getD_eq_getElem _ _ hslot
    rw [← hchain] at hmem
    rw [hs.home slot node hmem]
    exact List.mem_map_of_mem hmem
  · intro hkey
    obtain ⟨node, hnode, rfl⟩ := List.mem_map.mp hkey
    have hslot := h.hash_lt node.1
    have hchain : h.chain (h.hash node.1) = h.nodes[h.hash node.1] :=
      List.getD_eq_getElem _ _ hslot
    rw [hchain] at hnode
    exact List.mem_map_of_mem (List.mem_flatten.mpr ⟨_, List.getElem_mem _, hnode⟩)

/-! ## Runs -/

theorem size_runOps_lt (capacity : Nat) (hpos : 0 < capacity) (ops : List (TableOp α)) :
    ((createHt capacity hpos).runOps ops).size < 2 ^ 32 := by
  induction ops using List.reverseRecOn with
  | nil => exact Nat.two_pow_pos 32
  | append_singleton ops op ih =>
    rw [runOps_concat]
    cases op with
    | add key value =>
      rcases addHt_count ((createHt capacity hpos).runOps ops) key value with
        ⟨_, hsize, _⟩ | ⟨_, hsize, _⟩
      · exact lt_of_eq_of_lt hsize ih
      · exact lt_of_eq_of_lt hsize (Nat.mod_lt _ (Nat.two_pow_pos 32))
    | remove key =>
      rcases removeHt_count ((createHt capacity hpos).runOps ops) key with
        ⟨_, heq⟩ | ⟨_, hsize, _⟩
      · rw [applyOp, heq]
        exact ih
      · exact lt_of_eq_of_lt hsize ih

theorem getHt_runOps_eq_none (capacity : Nat) (hpos : 0 < capacity) (ops : List (TableOp α))
    (key : CString) : ((createHt capacity hpos).runOps ops).getHt key = none ↔
      ¬ ∃ value, LastAdded ops key value := by
  simp only [← getHt_runOps capacity hpos]
  rw [Option.eq_none_iff_forall_ne_some, not_exists]

theorem NoneRemoved.of_append {before after : List (TableOp α)}
    (h : NoneRemoved (before ++ after)) : NoneRemoved before := by
  intro first key rest heq
  exact h first key (rest ++ after) (by rw [heq, List.append_assoc, List.cons_append])

@[simp] theorem addedKeys_append (before after : List (TableOp α)) :
    addedKeys (before ++ after) = addedKeys before ++ addedKeys after :=
  List.filterMap_append

theorem addedKeys_dedup_le (before after : List (TableOp α)) :
    (addedKeys before).dedup.length ≤ (addedKeys (before ++ after)).dedup.length := by
  refine ((List.nodup_dedup _).subperm fun key hkey => ?_).length_le
  rw [List.mem_dedup] at hkey ⊢
  rw [addedKeys_append]
  exact List.mem_append_left _ hkey

theorem LastAdded.mem_addedKeys {ops : List (TableOp α)} {value : α}
    (h : LastAdded ops key value) : key ∈ addedKeys ops := by
  obtain ⟨before, after, rfl, _⟩ := h
  rw [addedKeys_append]
  exact List.mem_append_right _ List.mem_cons_self

/-- A key that is never removed stays. -/
theorem NoneRemoved.lastAdded {ops : List (TableOp α)} (h : NoneRemoved ops)
    (hkey : key ∈ addedKeys ops) : ∃ value, LastAdded ops key value := by
  induction ops using List.reverseRecOn with
  | nil => exact absurd hkey List.not_mem_nil
  | append_singleton ops op ih =>
    simp only [lastAdded_concat]
    by_cases hop : key ∈ addedKeys ops
    · obtain ⟨value, hlast⟩ := ih h.of_append hop
      by_cases hsame : op.key = key
      · cases op with
        | add key' value' => exact ⟨value', .inl (by rw [← hsame]; rfl)⟩
        | remove key' =>
          rw [← hsame] at hlast
          exact absurd ⟨value, hlast⟩ (h ops key' [] rfl)
      · exact ⟨value, .inr ⟨hsame, hlast⟩⟩
    · rw [addedKeys_append, List.mem_append] at hkey
      have hlast := hkey.resolve_left hop
      cases op with
      | add key' value' =>
        obtain rfl : key = key' := List.mem_singleton.mp hlast
        exact ⟨value', .inl rfl⟩
      | remove key' => exact absurd hlast List.not_mem_nil

/-- Without removals the table holds the keys that were added. -/
theorem NoneRemoved.length_keys (capacity : Nat) (hpos : 0 < capacity) {ops : List (TableOp α)}
    (h : NoneRemoved ops) :
    ((createHt capacity hpos).runOps ops).keys.length = (addedKeys ops).dedup.length := by
  have hs := (stored_createHt capacity hpos).runOps ops
  apply List.Perm.length_eq
  rw [List.perm_ext_iff_of_nodup hs.nodup_keys (List.nodup_dedup _)]
  intro key
  rw [mem_keys_iff hs, ne_eq, getHt_runOps_eq_none, not_not, List.mem_dedup]
  exact ⟨fun ⟨_, hlast⟩ => hlast.mem_addedKeys, h.lastAdded⟩

/-- Without removals `size` counts the keys, in an `unsigned int`. -/
theorem NoneRemoved.size_eq (capacity : Nat) (hpos : 0 < capacity) {ops : List (TableOp α)}
    (h : NoneRemoved ops) : ((createHt capacity hpos).runOps ops).size =
      ((createHt capacity hpos).runOps ops).keys.length % 2 ^ 32 := by
  induction ops using List.reverseRecOn with
  | nil => simp [runOps, createHt, keys]
  | append_singleton ops op ih =>
    have hsize := ih h.of_append
    rw [runOps_concat]
    cases op with
    | add key value =>
      show (addHt _ key value).size = (addHt _ key value).keys.length % 2 ^ 32
      rcases addHt_count ((createHt capacity hpos).runOps ops) key value with
        ⟨_, hsame, hlen⟩ | ⟨_, hnew, hlen⟩
      · rw [hsame, hlen, hsize]
      · rw [hnew, hlen, hsize, Nat.mod_add_mod]
    | remove key =>
      have hnone := (getHt_runOps_eq_none capacity hpos ops key).mpr (h ops key [] rfl)
      rcases removeHt_count ((createHt capacity hpos).runOps ops) key with
        ⟨_, heq⟩ | ⟨hsome, _⟩
      · rw [applyOp, heq]
        exact hsize
      · exact absurd hnone hsome

/-- A removal that finds its key leaves `size` too large. -/
theorem noneRemoved_of_sizeExact (capacity : Nat) (hpos : 0 < capacity) {ops : List (TableOp α)}
    (h : ∀ before after, ops = before ++ after →
      ((createHt capacity hpos).runOps before).SizeExact) : NoneRemoved ops := by
  intro before key after hops hlast
  have hs := (stored_createHt capacity hpos).runOps before
  have hbefore := (sizeExact_of_stored hs).mp (h before (.remove key :: after) hops)
  have hremoved := h (before ++ [.remove key]) after
    (by rw [hops, List.append_assoc, List.singleton_append])
  rw [runOps_concat, sizeExact_of_stored (hs.applyOp _)] at hremoved
  rcases removeHt_count ((createHt capacity hpos).runOps before) key with
    ⟨hnone, _⟩ | ⟨_, hsize, hlen⟩
  · exact (getHt_runOps_eq_none capacity hpos before key).mp hnone hlast
  · have hafter : ((createHt capacity hpos).runOps before).size =
        (((createHt capacity hpos).runOps before).removeHt key).2.keys.length :=
      hsize.symm.trans hremoved
    omega

/-- **The size of the hash table is exact as long as nothing is removed.** -/
theorem sizeExact_iff (capacity : Nat) (hpos : 0 < capacity) (ops : List (TableOp α)) :
    (∀ before after, ops = before ++ after →
        ((createHt capacity hpos).runOps before).SizeExact) ↔
      NoneRemoved ops ∧ (addedKeys ops).dedup.length < 2 ^ 32 := by
  have hs := (stored_createHt capacity hpos (α := α)).runOps
  constructor
  · intro h
    have hnone := noneRemoved_of_sizeExact capacity hpos h
    refine ⟨hnone, ?_⟩
    have hexact := (sizeExact_of_stored (hs ops)).mp (h ops [] (List.append_nil ops).symm)
    rw [← hnone.length_keys capacity hpos, ← hexact]
    exact size_runOps_lt capacity hpos ops
  · rintro ⟨hnone, hlt⟩ before after rfl
    have hbefore := hnone.of_append
    have hle := addedKeys_dedup_le before after
    rw [sizeExact_of_stored (hs before), hbefore.size_eq]
    apply Nat.mod_eq_of_lt
    rw [hbefore.length_keys]
    exact Nat.lt_of_le_of_lt hle hlt

/-- The table of a scope, with two symbols added, one of them twice. -/
theorem sizeExact_iff_overwrite :
    (∀ before after, [.add (ascii "key") 1, .add (ascii "x") 3, .add (ascii "key") 2] =
        before ++ after → ((createHt 64 (by decide)).runOps before).SizeExact (α := Nat)) ↔
      NoneRemoved [.add (ascii "key") 1, .add (ascii "x") 3, .add (ascii "key") (2 : Nat)] ∧
        (addedKeys [.add (ascii "key") 1, .add (ascii "x") 3,
          .add (ascii "key") (2 : Nat)]).dedup.length < 2 ^ 32 :=
  sizeExact_iff 64 (by decide) _

/-- One key is added and removed: no node is left, and `size` is 1. -/
theorem not_sizeExact_removed : ¬ ∀ (capacity : Nat) (hpos : 0 < capacity)
    (ops before after : List (TableOp Nat)), ops = before ++ after →
      ((createHt capacity hpos).runOps before).SizeExact := by
  intro h
  have hexact := h 10 (by decide) [.add (ascii "key") 1, .remove (ascii "key")] _ []
    (List.append_nil _).symm
  exact absurd hexact (by decide)

end HashTable

end ACompiler
