import ACompiler.Utils.CString

/-!
# Files

A `FILE` that is read: its content, a position, and the byte that `ungetc` has pushed back. `char` is
signed, so the byte `0xFF` as a `char` is `-1`, which is also `EOF`: `toChar` cannot tell the two
apart, and `ungetc` does nothing with it.
-/

namespace ACompiler

/-- A `FILE`. -/
structure File where
  bytes : CString
  pos : Nat
  pushed : Option UInt8
  deriving DecidableEq, Repr

/-- The result of `fgetc` as a `char`; `EOF` becomes `0xFF`. -/
def toChar (c : Option UInt8) : UInt8 := c.getD 255

namespace File

/-- A file that has just been opened. -/
def fopen (bytes : CString) : File := ⟨bytes, 0, none⟩

/-- `fgetc`, with `none` for `EOF`. -/
def fgetc (f : File) : Option UInt8 × File :=
  match f.pushed with
  | some c => (some c, { f with pushed := none })
  | none =>
    match f.bytes[f.pos]? with
    | some c => (some c, { f with pos := f.pos + 1 })
    | none => (none, f)

/-- `ungetc` of a `char`. -/
def ungetc (c : UInt8) (f : File) : File :=
  if c = 255 then f else { f with pushed := some c }

/-- `ftell`: a pushed-back byte counts as not read. -/
def ftell (f : File) : Nat := if f.pushed.isSome then f.pos - 1 else f.pos

/-- `fseek` from the start, which drops a pushed-back byte. -/
def fseek (f : File) (pos : Nat) : File := { f with pos := pos, pushed := none }

/-- `fread`: at most `n` bytes. -/
def fread : Nat → File → CString × File
  | 0, f => ([], f)
  | n + 1, f =>
    match f.fgetc with
    | (some c, f) =>
      let (word, f) := fread n f
      (c :: word, f)
    | (none, f) => ([], f)

/-! ## The next byte -/

/-- The next byte to be read from the file is the one at `i`: nothing is pushed back, or that very
byte is. -/
inductive At (bytes : CString) (i : Nat) : File → Prop
  | plain : At bytes i ⟨bytes, i, none⟩
  | pushed {c : UInt8} (h : bytes[i]? = some c) : At bytes i ⟨bytes, i + 1, some c⟩

variable {bytes : CString} {i : Nat} {f : File}

theorem At.ftell (h : At bytes i f) : f.ftell = i := by
  cases h with
  | plain => rfl
  | pushed _ => rfl

theorem At.fseek (h : At bytes i f) (j : Nat) : f.fseek j = ⟨bytes, j, none⟩ := by
  cases h with
  | plain => rfl
  | pushed _ => rfl

theorem At.fgetc_of_some (h : At bytes i f) {c : UInt8} (hc : bytes[i]? = some c) :
    f.fgetc = (some c, ⟨bytes, i + 1, none⟩) := by
  cases h with
  | plain => simp only [fgetc, hc]
  | pushed h =>
    obtain rfl := Option.some.inj (hc.symm.trans h)
    rfl

theorem At.fgetc_of_none (h : At bytes i f) (hi : bytes[i]? = none) :
    f.fgetc = (none, ⟨bytes, i, none⟩) := by
  cases h with
  | plain => simp only [fgetc, hi]
  | pushed h => simp [hi] at h

/-- A read, in the file or at its end. -/
theorem At.fgetc (h : At bytes i f) (hi : i ≤ bytes.length) :
    f.fgetc = (bytes[i]?, ⟨bytes, min (i + 1) bytes.length, none⟩) := by
  rcases Nat.lt_or_eq_of_le hi with hlt | rfl
  · rw [h.fgetc_of_some (List.getElem?_eq_getElem hlt), List.getElem?_eq_getElem hlt,
      Nat.min_eq_left hlt]
  · have hnone : bytes[bytes.length]? = none := List.getElem?_eq_none (Nat.le_refl _)
    rw [h.fgetc_of_none hnone, hnone, Nat.min_eq_right (Nat.le_succ _)]

/-- A byte that is read and pushed back is the next one again. -/
theorem At.ungetc {c : UInt8} (hc : bytes[i]? = some c) (hne : c ≠ 255) :
    At bytes i (File.ungetc c ⟨bytes, i + 1, none⟩) := by
  rw [File.ungetc, if_neg hne]
  exact .pushed hc

/-- Bytes that are there are read. -/
theorem fread_eq (bytes : CString) : ∀ (n i : Nat), i + n ≤ bytes.length →
    fread n ⟨bytes, i, none⟩ = ((bytes.drop i).take n, ⟨bytes, i + n, none⟩) := by
  intro n
  induction n with
  | zero => intro i _; simp [fread]
  | succ n ih =>
    intro i h
    have hi : i < bytes.length := by omega
    have hget := At.plain.fgetc_of_some (List.getElem?_eq_getElem hi)
    simp only [fread, hget, ih (i + 1) (by omega)]
    rw [List.drop_eq_getElem_cons hi, List.take_succ_cons, Nat.add_assoc, Nat.add_comm 1 n]

end File

/-! ## Padding -/

/-- A character printed with `%*c`: the width is an `int`, and a negative one pads behind it. -/
def padChar (width : Int) (c : UInt8) : CString :=
  let spaces := List.replicate (width.natAbs - 1) 32
  if width < 0 then c :: spaces else spaces ++ [c]

theorem padChar_space {n : Nat} (h : 0 < n) : padChar n 32 = List.replicate n 32 := by
  obtain ⟨n, rfl⟩ := Nat.exists_eq_succ_of_ne_zero (Nat.pos_iff_ne_zero.mp h)
  rw [padChar, if_neg (by omega), Int.natAbs_natCast, Nat.succ_sub_one, List.replicate_succ']

end ACompiler
