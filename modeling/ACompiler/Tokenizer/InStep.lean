import ACompiler.Tokenizer.Source

/-!
# The window and the file

`advance` moves the file by a read, `peekNext` by a read that it takes back, and `getCurWord` by a
seek to the word and one to where it was. Whatever the order of the calls, the file stands behind the
byte of the window (`InStep`), at the end of the file too.
-/

namespace ACompiler

/-- A use of the window; `moveStart` is an assignment to `start_idx`. -/
inductive WindowOp
  | advance
  | peek
  | peekNext
  | matchChar (c : UInt8)
  | moveStart (start : Nat)
  | getCurWord

namespace Tokenizer

/-- `advance` is called before the end of the file, `getCurWord` on a word that fits its buffer. -/
def Allowed (t : Tokenizer) : WindowOp → Prop
  | .advance => t.curIdx < t.filesize
  | .getCurWord => t.startIdx ≤ t.curIdx ∧ t.curIdx - t.startIdx < maxLexeme
  | _ => True

def applyOp (t : Tokenizer) : WindowOp → Except ScanError Tokenizer
  | .advance => .ok t.advance.2
  | .peek => .ok t
  | .peekNext => .ok t.peekNext.2
  | .matchChar c => .ok (t.matchChar c).2
  | .moveStart start => .ok { t with startIdx := start }
  | .getCurWord => t.getCurWord.map Prod.snd

/-- The states of the tokenizer on a file, from the first one of `tokenize` on. -/
inductive InUse (bytes : CString) : Tokenizer → Prop
  | init : InUse bytes (tokenizerInit (.fopen bytes) bytes.length)
  | step {t t' : Tokenizer} {op : WindowOp} : InUse bytes t → t.Allowed op →
      t.applyOp op = .ok t' → InUse bytes t'

/-- The window is on a byte of the file or at its end, and the file is to be read from behind it. -/
structure InStep (bytes : CString) (t : Tokenizer) : Prop where
  size : t.filesize = bytes.length
  le : t.curIdx ≤ bytes.length
  file : Reading bytes t.curIdx t.sourcefile
  cur : t.cur = toChar bytes[t.curIdx]?

variable {bytes : CString} {t t' : Tokenizer}

theorem inStep_init (bytes : CString) :
    InStep bytes (tokenizerInit (.fopen bytes) bytes.length) := by
  have hget : (File.fopen bytes).fgetc = (bytes[0]?, ⟨bytes, min 1 bytes.length, none⟩) :=
    File.At.plain.fgetc (Nat.zero_le _)
  simp only [tokenizerInit, hget]
  exact ⟨rfl, Nat.zero_le _, .plain, rfl⟩

theorem InStep.cur_eq (h : InStep bytes t) (hlt : t.curIdx < bytes.length) :
    t.cur = bytes[t.curIdx] := by
  rw [h.cur, List.getElem?_eq_getElem hlt]
  rfl

theorem InStep.eq_window (h : InStep bytes t) :
    t = { window bytes t.startIdx t.curIdx t.curLine with sourcefile := t.sourcefile } := by
  obtain ⟨file, size, cur, start, i, line⟩ := t
  obtain rfl : size = bytes.length := h.size
  obtain rfl : cur = toChar bytes[i]? := h.cur
  rfl

/-! ## One operation -/

theorem InStep.advance (h : InStep bytes t) (hlt : t.curIdx < t.filesize) :
    InStep bytes t.advance.2 := by
  have hsize := h.size
  have hfile := h.file
  rw [Reading, Nat.min_eq_left (by omega : t.curIdx + 1 ≤ bytes.length)] at hfile
  rw [advance_of_at hfile (by omega)]
  exact ⟨hsize, show t.curIdx + 1 ≤ bytes.length by omega, .plain, rfl⟩

/-- `peekNext` takes its read back, also if the byte had been pushed back before. -/
theorem InStep.peekNext (h255 : (255 : UInt8) ∉ bytes) (h : InStep bytes t) :
    t.peekNext.1 = bytes.getD (t.curIdx + 1) 0 ∧ InStep bytes t.peekNext.2 := by
  have hsize := h.size
  by_cases hnext : t.curIdx + 1 < bytes.length
  · have hne : bytes[t.curIdx + 1] ≠ 255 := fun heq => h255 (heq ▸ List.getElem_mem hnext)
    have hmin : min (t.curIdx + 1) bytes.length = t.curIdx + 1 := Nat.min_eq_left hnext.le
    have hfile := h.file
    rw [Reading, hmin] at hfile
    obtain ⟨f, hf, hpeek⟩ :=
      peekNext_of_at hfile (by omega) (List.getElem?_eq_getElem hnext) hne
    rw [hpeek, List.getD_eq_getElem _ _ hnext]
    refine ⟨rfl, hsize, h.le, ?_, h.cur⟩
    show File.At bytes (min (t.curIdx + 1) bytes.length) f
    rw [hmin]
    exact hf
  · rw [Tokenizer.peekNext, if_pos (by omega), List.getD_eq_default _ _ (by omega)]
    exact ⟨rfl, h⟩

theorem InStep.matchChar (h : InStep bytes t) (c : UInt8) : InStep bytes (t.matchChar c).2 := by
  unfold Tokenizer.matchChar
  by_cases hend : t.filesize ≤ t.curIdx
  · rw [if_pos hend]
    exact h
  · rw [if_neg hend]
    by_cases hc : t.cur ≠ c
    · rw [if_pos hc]
      exact h
    · rw [if_neg hc]
      exact h.advance (Nat.not_le.mp hend)

/-- `getCurWord` reads the word and restores the file, up to a byte that was pushed back. -/
theorem InStep.getCurWord (h0 : (0 : UInt8) ∉ bytes) (h : InStep bytes t)
    (hs : t.startIdx ≤ t.curIdx) (hfits : t.curIdx - t.startIdx < maxLexeme) :
    ∃ f, t.getCurWord = .ok (slice bytes t.startIdx t.curIdx, { t with sourcefile := f }) ∧
      Reading bytes t.curIdx f := by
  have hword := @getCurWord_reading _ _ _ t.curLine _ h.file hs h.le
  rw [if_neg (Nat.not_le.mpr hfits), cString_eq (not_mem_slice h0 _ _), ← h.eq_window] at hword
  refine ⟨_, ?_, @reading_window bytes t.startIdx t.curIdx t.curLine⟩
  rw [hword]
  have hsize := h.size
  have hcur := h.cur
  obtain ⟨file, size, cur, start, i, line⟩ := t
  simp only at hsize hcur
  rw [hsize, hcur]
  rfl

theorem InStep.applyOp (h0 : (0 : UInt8) ∉ bytes) (h255 : (255 : UInt8) ∉ bytes)
    (h : InStep bytes t) {op : WindowOp} (hop : t.Allowed op) :
    ∃ t', t.applyOp op = .ok t' ∧ InStep bytes t' := by
  cases op with
  | advance => exact ⟨_, rfl, h.advance hop⟩
  | peek => exact ⟨_, rfl, h⟩
  | peekNext => exact ⟨_, rfl, (h.peekNext h255).2⟩
  | matchChar c => exact ⟨_, rfl, h.matchChar c⟩
  | moveStart start => exact ⟨_, rfl, h.size, h.le, h.file, h.cur⟩
  | getCurWord =>
    obtain ⟨f, hword, hf⟩ := h.getCurWord h0 hop.1 hop.2
    refine ⟨{ t with sourcefile := f }, ?_, h.size, h.le, hf, h.cur⟩
    rw [Tokenizer.applyOp, hword]
    rfl

/-! ## Runs -/

theorem InUse.inStep (h0 : (0 : UInt8) ∉ bytes) (h255 : (255 : UInt8) ∉ bytes)
    (h : InUse bytes t) : InStep bytes t := by
  induction h with
  | init => exact inStep_init bytes
  | step _ hop heq ih =>
    obtain ⟨t', heq', hstep⟩ := ih.applyOp h0 h255 hop
    obtain rfl := Except.ok.inj (heq.symm.trans heq')
    exact hstep

/-- Two files that stand before the same byte. -/
theorem reading_fgetc {i : Nat} {f f' : File} (h : Reading bytes i f) (h' : Reading bytes i f') :
    f.ftell = f'.ftell ∧ f.fgetc = f'.fgetc :=
  ⟨h.ftell.trans h'.ftell.symm,
    (h.fgetc (Nat.min_le_right _ _)).trans (h'.fgetc (Nat.min_le_right _ _)).symm⟩

/-- **The window and the file stay in step**, in any order of the calls: the position of the file is
the one behind the window, the next byte and the current word are those of the text, and a word that
is read leaves everything as it was. -/
theorem inUse_inStep (h0 : (0 : UInt8) ∉ bytes) (h255 : (255 : UInt8) ∉ bytes)
    (h : InUse bytes t) :
    t.filesize = bytes.length ∧
    t.sourcefile.ftell = min (t.curIdx + 1) t.filesize ∧
    (∀ hlt : t.curIdx < bytes.length, t.cur = bytes[t.curIdx]) ∧
    t.peekNext.1 = bytes.getD (t.curIdx + 1) 0 ∧
    (t.startIdx ≤ t.curIdx → t.curIdx - t.startIdx < maxLexeme →
      ∃ f, t.getCurWord = .ok (slice bytes t.startIdx t.curIdx, { t with sourcefile := f }) ∧
        f.ftell = t.sourcefile.ftell ∧ f.fgetc = t.sourcefile.fgetc) ∧
    ∀ op, t.Allowed op → ∃ t', t.applyOp op = .ok t' := by
  have hstep := h.inStep h0 h255
  refine ⟨hstep.size, ?_, hstep.cur_eq, (hstep.peekNext h255).1, fun hs hfits => ?_,
    fun op hop => ?_⟩
  · rw [hstep.size]
    exact hstep.file.ftell
  · obtain ⟨f, hword, hf⟩ := hstep.getCurWord h0 hs hfits
    exact ⟨f, hword, reading_fgetc hf hstep.file⟩
  · obtain ⟨t', hop', _⟩ := hstep.applyOp h0 h255 hop
    exact ⟨t', hop'⟩

/-- Two bytes, looked ahead at and passed: the word is read at the end of the file. -/
theorem inUse_inStep_equal :
    let bytes := ascii "=="
    let t := (tokenizerInit (.fopen bytes) bytes.length).peekNext.2.advance.2.advance.2
    t.filesize = bytes.length ∧
    t.sourcefile.ftell = min (t.curIdx + 1) t.filesize ∧
    (∀ hlt : t.curIdx < bytes.length, t.cur = bytes[t.curIdx]) ∧
    t.peekNext.1 = bytes.getD (t.curIdx + 1) 0 ∧
    (t.startIdx ≤ t.curIdx → t.curIdx - t.startIdx < maxLexeme →
      ∃ f, t.getCurWord = .ok (slice bytes t.startIdx t.curIdx, { t with sourcefile := f }) ∧
        f.ftell = t.sourcefile.ftell ∧ f.fgetc = t.sourcefile.fgetc) ∧
    ∀ op, t.Allowed op → ∃ t', t.applyOp op = .ok t' := by
  intro bytes t
  have h1 : InUse bytes _ := @InUse.step _ _ _ .peekNext .init trivial rfl
  have h2 := @InUse.step _ _ _ .advance h1 (by decide : 0 < 2) rfl
  have h3 := @InUse.step _ _ _ .advance h2 (by decide : 1 < 2) rfl
  exact inUse_inStep (by decide) (by decide) h3

end Tokenizer

end ACompiler
