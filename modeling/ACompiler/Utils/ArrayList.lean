import ACompiler.Utils.CString

/-!
# The array list

`arraylist.c`: a block of pointers that doubles when it is full. `length` and `capacity` are
`unsigned int`s, so the doubling wraps around at 2^32, and `add_list` compares the two for equality
only. As long as no doubling wraps every item is written inside the block and found again, and the
first one that wraps makes the next write miss the block (`sound_iff`). Allocations succeed.
-/

namespace ACompiler

/-- A block of the heap: its size, and the pointers that have been written to it. -/
structure Block (α : Type) where
  bytes : Nat
  slots : Nat → Option α

/-- The ways an access to a block goes wrong. -/
inductive AccessError
  | outOfBounds
  | indeterminate
  deriving DecidableEq, Repr

/-- `ArrayList`. -/
structure ArrayList (α : Type) where
  length : Nat
  capacity : Nat
  items : Block α

variable {α : Type}

namespace Block

def malloc (bytes : Nat) : Block α := ⟨bytes, fun _ => none⟩

/-- `realloc` keeps what fits into the new size. -/
def realloc (block : Block α) (bytes : Nat) : Block α :=
  ⟨bytes, fun i => if 8 * (i + 1) ≤ bytes then block.slots i else none⟩

def load (block : Block α) (i : Nat) : Except AccessError α :=
  if 8 * (i + 1) ≤ block.bytes then
    match block.slots i with
    | some item => .ok item
    | none => .error .indeterminate
  else .error .outOfBounds

def store (block : Block α) (i : Nat) (item : α) : Except AccessError (Block α) :=
  if 8 * (i + 1) ≤ block.bytes then
    .ok { block with slots := Function.update block.slots i (some item) }
  else .error .outOfBounds

end Block

namespace ArrayList

/-- `RESIZE_MUL`. -/
def resizeMul : Nat := 2

def initList (capacity : Nat) : ArrayList α := ⟨0, capacity, .malloc (8 * capacity)⟩

def getList (array : ArrayList α) (index : Nat) : Except AccessError (Option α) :=
  if index < array.length then (array.items.load index).map some else .ok none

/-- The array at the write of `add_list`: a full one has grown. -/
def grown (array : ArrayList α) : ArrayList α :=
  if array.length = array.capacity then
    let newcap := array.capacity * resizeMul % 2 ^ 32
    { array with items := array.items.realloc (8 * newcap), capacity := newcap }
  else array

/-- `add_list`; `none` is `NULL`. -/
def addList (array : Option (ArrayList α)) (item : α) :
    Except AccessError (Bool × Option (ArrayList α)) :=
  match array with
  | none => .ok (false, none)
  | some array => do
    let items ← array.grown.items.store array.grown.length item
    .ok (true, some
      { array.grown with length := (array.grown.length + 1) % 2 ^ 32, items := items })

/-- Calls of `add_list`, one after the other. -/
def addAll (array : Option (ArrayList α)) : List α → Except AccessError (Option (ArrayList α))
  | [] => .ok array
  | item :: items => do
    let (_, array) ← addList array item
    addAll array items

/-! ## What the list promises -/

/-- The array holds these items. -/
structure Holds (array : ArrayList α) (items : List α) : Prop where
  length : array.length = items.length
  bytes : array.items.bytes = array.capacity * 8
  get : ∀ index, array.getList index = .ok items[index]?

/-- The next write has room, in a block that holds what the array held. -/
structure HasRoom (array : ArrayList α) : Prop where
  room : array.grown.length < array.grown.capacity
  bytes : array.grown.items.bytes = array.grown.capacity * 8
  kept : ∀ index, array.grown.getList index = array.getList index

/-- After each of the calls the array holds what has been added, and there is room for the next. -/
def Sound (capacity : Nat) (items : List α) : Prop :=
  ∀ before after, items = before ++ after →
    ∃ array, addAll (some (initList capacity)) before = .ok (some array) ∧
      array.Holds before ∧ (after ≠ [] → array.HasRoom)

/-- No doubling that is needed for so many items wraps around. -/
def NoWrap (capacity count : Nat) : Prop :=
  ∀ k, capacity * 2 ^ k < count → capacity * 2 ^ (k + 1) < 2 ^ 32

/-! ## The invariant -/

/-- The array holds these items in a block with room for `count` of them: the first capacity after
some doublings that is enough, none of which has wrapped around. -/
structure Grown (capacity : Nat) (array : ArrayList α) (items : List α) (count : Nat) : Prop where
  length : array.length = items.length
  bytes : array.items.bytes = 8 * array.capacity
  slots : ∀ i, i < items.length → array.items.slots i = items[i]?
  doubled : ∃ k, array.capacity = capacity * 2 ^ k ∧ ∀ j, j < k → capacity * 2 ^ j < count
  bound : array.capacity < 2 ^ 32
  le : items.length ≤ count
  fits : count ≤ array.capacity

section step
variable {capacity count : Nat} {array : ArrayList α} {items : List α}

theorem Grown.getList (h : Grown capacity array items count) (index : Nat) :
    array.getList index = .ok items[index]? := by
  have hle := h.le
  have hfits := h.fits
  rw [ArrayList.getList, h.length]
  by_cases hlt : index < items.length
  · have hslot := h.slots index hlt
    rw [if_pos hlt, Block.load, if_pos (by rw [h.bytes]; omega), hslot,
      List.getElem?_eq_getElem hlt]
    rfl
  · rw [if_neg hlt, List.getElem?_eq_none (by omega)]

theorem Grown.holds (h : Grown capacity array items count) : array.Holds items :=
  ⟨h.length, h.bytes.trans (Nat.mul_comm _ _), h.getList⟩

theorem grown_initList (hbound : capacity < 2 ^ 32) :
    Grown capacity (initList capacity : ArrayList α) [] 0 where
  length := rfl
  bytes := rfl
  slots i hi := absurd hi (Nat.not_lt_zero i)
  doubled := ⟨0, (Nat.mul_one capacity).symm, fun j hj => absurd hj (Nat.not_lt_zero j)⟩
  bound := hbound
  le := Nat.le_refl 0
  fits := Nat.zero_le _

/-- A full array doubles, and has room for one more. -/
theorem Grown.grown (h : Grown capacity array items items.length) (hpos : 0 < capacity)
    (hwrap : items.length = array.capacity → array.capacity * 2 < 2 ^ 32) :
    Grown capacity array.grown items (items.length + 1) := by
  obtain ⟨k, hcap, hneeded⟩ := h.doubled
  have hle := h.fits
  unfold ArrayList.grown
  rw [h.length]
  by_cases hfull : items.length = array.capacity
  · have hlt := hwrap hfull
    have hnew : array.capacity * resizeMul % 2 ^ 32 = array.capacity * 2 := Nat.mod_eq_of_lt hlt
    have hcappos : 0 < array.capacity := by
      rw [hcap]
      exact Nat.mul_pos hpos (Nat.two_pow_pos k)
    rw [if_pos hfull]
    simp only [hnew]
    refine ⟨rfl, rfl, fun i hi => ?_, ⟨k + 1, ?_, fun j hj => ?_⟩, hlt, Nat.le_succ _, ?_⟩
    · show (if 8 * (i + 1) ≤ 8 * (array.capacity * 2) then array.items.slots i else none) = items[i]?
      rw [if_pos (by omega), h.slots i hi]
    · show array.capacity * 2 = capacity * 2 ^ (k + 1)
      rw [hcap, Nat.pow_succ, Nat.mul_assoc]
    · rcases Nat.lt_succ_iff_lt_or_eq.mp hj with hj | rfl
      · exact Nat.lt_succ_of_lt (hneeded j hj)
      · rw [← hcap, hfull]
        exact Nat.lt_succ_self _
    · show items.length + 1 ≤ array.capacity * 2
      omega
  · rw [if_neg hfull]
    exact ⟨h.length, h.bytes, h.slots,
      ⟨k, hcap, fun j hj => Nat.lt_succ_of_lt (hneeded j hj)⟩, h.bound, Nat.le_succ _, by omega⟩

theorem Grown.hasRoom (h : Grown capacity array items items.length) (hpos : 0 < capacity)
    (hwrap : items.length = array.capacity → array.capacity * 2 < 2 ^ 32) : array.HasRoom := by
  have hgrown := h.grown hpos hwrap
  refine ⟨?_, hgrown.bytes.trans (Nat.mul_comm _ _), fun index => ?_⟩
  · rw [hgrown.length]
    exact hgrown.fits
  · rw [hgrown.getList, h.getList]

/-- One item is written behind the others. -/
theorem Grown.addList (h : Grown capacity array items items.length) (hpos : 0 < capacity)
    (hwrap : items.length = array.capacity → array.capacity * 2 < 2 ^ 32) (item : α) :
    ∃ array', ArrayList.addList (some array) item = .ok (true, some array') ∧
      Grown capacity array' (items ++ [item]) (items ++ [item]).length := by
  have hgrown := h.grown hpos hwrap
  have hfits := hgrown.fits
  have hbound := hgrown.bound
  have hstore : array.grown.items.store array.grown.length item = .ok { array.grown.items with
      slots := Function.update array.grown.items.slots array.grown.length (some item) } := by
    rw [Block.store, if_pos]
    rw [hgrown.bytes, hgrown.length]
    omega
  refine ⟨_, by rw [ArrayList.addList, hstore]; rfl, ?_⟩
  rw [List.length_append, List.length_singleton]
  refine ⟨?_, hgrown.bytes, fun i hi => ?_, hgrown.doubled, hbound, ?_, hfits⟩
  · show (array.grown.length + 1) % 2 ^ 32 = _
    rw [hgrown.length, List.length_append, List.length_singleton]
    exact Nat.mod_eq_of_lt (by omega)
  · show Function.update array.grown.items.slots array.grown.length (some item) i = _
    rw [List.length_append, List.length_singleton] at hi
    rw [hgrown.length]
    rcases Nat.lt_succ_iff_lt_or_eq.mp hi with hlt | rfl
    · rw [Function.update_of_ne (by omega), hgrown.slots i hlt, List.getElem?_append_left hlt]
    · rw [Function.update_self, List.getElem?_append_right (Nat.le_refl _), Nat.sub_self]
      rfl
  · rw [List.length_append, List.length_singleton]

end step

/-! ## Runs -/

theorem addAll_append (array : Option (ArrayList α)) (before after : List α) :
    addAll array (before ++ after) = (addAll array before).bind fun array => addAll array after := by
  induction before generalizing array with
  | nil => rfl
  | cons item before ih =>
    rw [List.cons_append, addAll, addAll]
    cases ArrayList.addList array item with
    | error e => rfl
    | ok result => exact ih result.2

variable {capacity : Nat}

theorem NoWrap.mono {count count' : Nat} (h : NoWrap capacity count) (hle : count' ≤ count) :
    NoWrap capacity count' := fun k hk => h k (Nat.lt_of_lt_of_le hk hle)

/-- The doubling before the next item does not wrap around. -/
theorem Grown.double_lt {array : ArrayList α} {items : List α} {count : Nat}
    (h : Grown capacity array items items.length) (hnowrap : NoWrap capacity count)
    (hcount : items.length < count) (hfull : items.length = array.capacity) :
    array.capacity * 2 < 2 ^ 32 := by
  obtain ⟨k, hcap, _⟩ := h.doubled
  have hlt := hnowrap k (by rw [← hcap, ← hfull]; exact hcount)
  rw [hcap, Nat.mul_assoc, ← Nat.pow_succ]
  exact hlt

/-- Items that are added without a doubling that wraps are held. -/
theorem grown_addAll (hpos : 0 < capacity) (hbound : capacity < 2 ^ 32) (items : List α)
    (hnowrap : NoWrap capacity items.length) :
    ∃ array, addAll (some (initList capacity)) items = .ok (some array) ∧
      Grown capacity array items items.length := by
  induction items using List.reverseRecOn with
  | nil => exact ⟨_, rfl, grown_initList hbound⟩
  | append_singleton items item ih =>
    have hlen : items.length < (items ++ [item]).length := by simp
    obtain ⟨array, hrun, hgrown⟩ := ih (hnowrap.mono (Nat.le_of_lt hlen))
    obtain ⟨array', hadd, hgrown'⟩ := hgrown.addList hpos (hgrown.double_lt hnowrap hlen) item
    refine ⟨array', ?_, hgrown'⟩
    rw [addAll_append, hrun]
    show addAll (some array) [item] = .ok (some array')
    rw [addAll, hadd]
    rfl

/-- An array of as many items as one of its capacities is full. -/
theorem Grown.full {array : ArrayList α} {items : List α} {k : Nat}
    (h : Grown capacity array items items.length) (hlen : items.length = capacity * 2 ^ k) :
    array.capacity = capacity * 2 ^ k := by
  obtain ⟨k', hcap, hneeded⟩ := h.doubled
  have hfits := h.fits
  have hle : k' ≤ k := by
    by_contra hgt
    have hlt := hneeded k (Nat.not_le.mp hgt)
    rw [hlen] at hlt
    exact Nat.lt_irrefl _ hlt
  have hpow := Nat.mul_le_mul_left capacity (Nat.pow_le_pow_right (n := 2) (by omega) hle)
  rw [hlen] at hfits
  omega

/-- A full array has room for the next item only if its doubling does not wrap around. -/
theorem HasRoom.double_lt {array : ArrayList α} (h : array.HasRoom)
    (hfull : array.length = array.capacity) (hbound : array.capacity < 2 ^ 32) :
    array.capacity * 2 < 2 ^ 32 := by
  have hroom := h.room
  rw [ArrayList.grown, if_pos hfull] at hroom
  have hlt : array.length < array.capacity * resizeMul % 2 ^ 32 := hroom
  simp only [resizeMul] at hlt
  omega

/-- In a run that is sound no doubling wraps around. -/
theorem noWrap_of_sound (hpos : 0 < capacity) (hbound : capacity < 2 ^ 32) {items : List α}
    (h : Sound capacity items) : NoWrap capacity items.length := by
  intro k
  induction k using Nat.strong_induction_on with
  | _ k ih =>
    intro hk
    obtain ⟨before, after, rfl, hlen⟩ : ∃ before after, items = before ++ after ∧
        before.length = capacity * 2 ^ k :=
      ⟨items.take (capacity * 2 ^ k), items.drop (capacity * 2 ^ k),
        (List.take_append_drop _ _).symm, by rw [List.length_take, Nat.min_eq_left hk.le]⟩
    -- the doublings before this one have not wrapped
    have hnowrap : NoWrap capacity before.length := by
      intro j hj
      rw [hlen] at hj
      have hlt : j < k := by
        by_contra hge
        have hpow := Nat.pow_le_pow_right (n := 2) (by omega) (Nat.not_lt.mp hge)
        exact absurd (Nat.mul_le_mul_left capacity hpow) (Nat.not_le.mpr hj)
      exact ih j hlt (Nat.lt_trans hj hk)
    obtain ⟨array, hrun, hgrown⟩ := grown_addAll hpos hbound before hnowrap
    obtain ⟨array', hrun', _, hroom⟩ := h before after rfl
    obtain rfl : array = array' := Option.some.inj (Except.ok.inj (hrun.symm.trans hrun'))
    have hafter : after ≠ [] := by
      rintro rfl
      rw [List.append_nil, hlen] at hk
      exact Nat.lt_irrefl _ hk
    have hcap := hgrown.full hlen
    have hlt := (hroom hafter).double_lt (by rw [hgrown.length, hlen, hcap]) hgrown.bound
    rw [Nat.pow_succ, ← Nat.mul_assoc, ← hcap]
    exact hlt

theorem sound_of_noWrap (hpos : 0 < capacity) (hbound : capacity < 2 ^ 32) {items : List α}
    (hnowrap : NoWrap capacity items.length) : Sound capacity items := by
  rintro before after rfl
  have hle : before.length ≤ (before ++ after).length := by simp
  obtain ⟨array, hrun, hgrown⟩ := grown_addAll hpos hbound before (hnowrap.mono hle)
  refine ⟨array, hrun, hgrown.holds, fun hafter => hgrown.hasRoom hpos ?_⟩
  have hlt : before.length < (before ++ after).length := by
    have hpos := List.length_pos_iff.mpr hafter
    rw [List.length_append]
    omega
  exact hgrown.double_lt hnowrap hlt

/-- Up to 2^31 items are held, whatever the first capacity: so are the tokens and the nodes of a
source file, which is shorter. -/
theorem sound_of_le (hpos : 1 ≤ capacity) (hbound : capacity < 2 ^ 32) {items : List α}
    (hle : items.length ≤ 2 ^ 31) : Sound capacity items := by
  apply sound_of_noWrap hpos hbound
  intro k hk
  rw [Nat.pow_succ, ← Nat.mul_assoc]
  omega

/-- **The array list is sound as long as no doubling wraps around.** -/
theorem sound_iff (capacity : Nat) (hpos : 1 ≤ capacity) (hbound : capacity < 2 ^ 32)
    (items : List α) : Sound capacity items ↔ NoWrap capacity items.length :=
  ⟨noWrap_of_sound hpos hbound, sound_of_noWrap hpos hbound⟩

/-- A hundred items in a list that starts with one. -/
theorem sound_iff_hundred :
    Sound 1 (List.range 100) ↔ NoWrap 1 (List.range 100).length :=
  sound_iff 1 (by decide) (by decide) _

/-- The list of the tokens starts with 100: its 26th doubling wraps around. -/
theorem not_sound_tokens : ¬ Sound 100 (List.replicate (100 * 2 ^ 25 + 1) ()) := by
  intro h
  have hnowrap := noWrap_of_sound (by decide) (by decide) h 25
  rw [List.length_replicate] at hnowrap
  exact absurd (hnowrap (by decide)) (by decide)

end ArrayList

end ACompiler
