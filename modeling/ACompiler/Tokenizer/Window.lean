import ACompiler.Tokenizer.Tokenize

/-!
# The window of the tokenizer

The state of the tokenizer is spread over `cur`, the indices and the position of the file, which
`getCurWord` moves and restores. On a file without the byte `0xFF` they never part: every state is
`window bytes start i line`, in which `cur` is the byte at `i` and the file is to be read from behind
it, up to a byte that `peekNext` has pushed back. Each function is described once on such states.
-/

namespace ACompiler

namespace Tokenizer

/-- The state of the tokenizer on the byte `i` of a file. -/
def window (bytes : CString) (start i line : Nat) : Tokenizer where
  sourcefile := ⟨bytes, min (i + 1) bytes.length, none⟩
  filesize := bytes.length
  cur := toChar bytes[i]?
  startIdx := start
  curIdx := i
  curLine := line

/-- The bytes from `start` up to `i`. -/
def slice (bytes : CString) (start i : Nat) : CString := (bytes.drop start).take (i - start)

variable {bytes : CString} {start i line fuel : Nat} {f : File}

@[simp] theorem window_startIdx : (window bytes start i line).startIdx = start := rfl

@[simp] theorem window_curIdx : (window bytes start i line).curIdx = i := rfl

@[simp] theorem window_filesize : (window bytes start i line).filesize = bytes.length := rfl

@[simp] theorem window_moveStart (j : Nat) :
    { window bytes start i line with startIdx := j } = window bytes j i line := rfl

@[simp] theorem window_newline (k : Nat) :
    { window bytes start i line with curLine := k } = window bytes start i k := rfl

/-- A turn has its word start at the byte it is on. -/
theorem turn_of_window {t : Tokenizer} (ht : t = window bytes start i line) :
    { t with startIdx := t.curIdx } = window bytes i i line := by
  rw [ht]
  rfl

theorem lt_of_window {t : Tokenizer} (ht : t = window bytes start i line)
    (hlt : t.curIdx < t.filesize) : i < bytes.length := by
  rw [ht] at hlt
  exact hlt

/-- The file of a state, up to a byte that has been pushed back. -/
abbrev Reading (bytes : CString) (i : Nat) (f : File) : Prop :=
  File.At bytes (min (i + 1) bytes.length) f

theorem reading_window : Reading bytes i (window bytes start i line).sourcefile := .plain

/-! ## Looking and moving -/

theorem peek_window (bytes : CString) (start i line : Nat) :
    (window bytes start i line).peek = bytes.getD i 0 := by
  show (if bytes.length ≤ i then 0 else toChar bytes[i]?) = bytes.getD i 0
  by_cases h : bytes.length ≤ i
  · rw [if_pos h, List.getD_eq_default _ _ h]
  · rw [if_neg h, List.getD_eq_getElem?_getD, List.getElem?_eq_getElem (Nat.not_le.mp h)]
    rfl

/-- `advance` reads the next byte of the file. -/
theorem advance_of_at {t : Tokenizer} (hf : File.At bytes i t.sourcefile) (hi : i ≤ bytes.length) :
    t.advance = (t.cur, { t with
      sourcefile := ⟨bytes, min (i + 1) bytes.length, none⟩
      cur := toChar bytes[i]?
      curIdx := t.curIdx + 1 }) := by
  simp only [advance, hf.fgetc hi]

/-- `peekNext` reads the next byte of the file and pushes it back. -/
theorem peekNext_of_at {t : Tokenizer} {c : UInt8} (hf : File.At bytes i t.sourcefile)
    (hlt : t.curIdx + 1 < t.filesize) (hc : bytes[i]? = some c) (hne : c ≠ 255) :
    ∃ f, File.At bytes i f ∧ t.peekNext = (c, { t with sourcefile := f }) := by
  refine ⟨File.ungetc c ⟨bytes, i + 1, none⟩, .ungetc hc hne, ?_⟩
  rw [peekNext, if_neg (Nat.not_le.mpr hlt)]
  simp only [hf.fgetc_of_some hc]
  rfl

/-- `advance` moves the window by one byte, also after a byte was pushed back. -/
theorem advance_reading (hf : Reading bytes i f) (hi : i < bytes.length) :
    advance { window bytes start i line with sourcefile := f } =
      (bytes.getD i 0, window bytes start (i + 1) line) := by
  have hcur : toChar bytes[i]? = bytes.getD i 0 := by
    rw [List.getD_eq_getElem?_getD, List.getElem?_eq_getElem hi]
    rfl
  rw [Reading, Nat.min_eq_left (by omega : i + 1 ≤ bytes.length)] at hf
  rw [@advance_of_at bytes (i + 1) { window bytes start i line with sourcefile := f } hf hi, ← hcur]
  rfl

theorem advance_window (hi : i < bytes.length) :
    (window bytes start i line).advance = (bytes.getD i 0, window bytes start (i + 1) line) :=
  @advance_reading _ _ _ _ (window bytes start i line).sourcefile .plain hi

/-- `peekNext` sees the byte behind the next one, and pushes it back. -/
theorem peekNext_window (h255 : (255 : UInt8) ∉ bytes) :
    ∃ f, Reading bytes i f ∧ (window bytes start i line).peekNext =
      (bytes.getD (i + 1) 0, { window bytes start i line with sourcefile := f }) := by
  by_cases hnext : i + 1 < bytes.length
  · have hne : bytes[i + 1] ≠ 255 := fun h => h255 (h ▸ List.getElem_mem hnext)
    have hfile := @reading_window bytes start i line
    rw [Reading, Nat.min_eq_left hnext.le] at hfile
    obtain ⟨f, hf, hpeek⟩ := @peekNext_of_at bytes (i + 1) (window bytes start i line) _
      hfile hnext (List.getElem?_eq_getElem hnext) hne
    refine ⟨f, ?_, ?_⟩
    · rw [Reading, Nat.min_eq_left hnext.le]
      exact hf
    · rw [List.getD_eq_getElem _ _ hnext]
      exact hpeek
  · refine ⟨(window bytes start i line).sourcefile, reading_window, ?_⟩
    rw [peekNext, if_pos (by simpa using hnext), List.getD_eq_default _ _ (by omega)]

theorem matchChar_window (c : UInt8) (hc : c ≠ 0) :
    (window bytes start i line).matchChar c =
      if bytes.getD i 0 = c then (true, window bytes start (i + 1) line)
      else (false, window bytes start i line) := by
  unfold matchChar
  by_cases hi : bytes.length ≤ i
  · rw [if_pos (by simpa using hi), List.getD_eq_default _ _ hi, if_neg (Ne.symm hc)]
  · have hlt : i < bytes.length := Nat.not_le.mp hi
    have hcur : (window bytes start i line).cur = bytes.getD i 0 := by
      rw [List.getD_eq_getElem?_getD, window, List.getElem?_eq_getElem hlt]
      rfl
    rw [if_neg (by simpa using hlt), hcur, advance_window hlt]
    by_cases h : bytes.getD i 0 = c
    · rw [if_neg (not_not.mpr h), if_pos h]
    · rw [if_pos h, if_neg h]

/-! ## Words -/

/-- `getCurWord` reads the bytes of the window and comes back to where it was. -/
theorem getCurWord_reading (hf : Reading bytes i f) (hs : start ≤ i) (hi : i ≤ bytes.length) :
    getCurWord { window bytes start i line with sourcefile := f } =
      if maxLexeme ≤ i - start then .error .overflow
      else .ok (cString (slice bytes start i), window bytes start i line) := by
  have hread := File.fread_eq bytes (i - start) start (by omega)
  have hlen : (slice bytes start i).length = i - start := by
    rw [slice, List.length_take, List.length_drop]
    omega
  unfold getCurWord
  simp only [window_curIdx, window_startIdx, hf.fseek, hf.ftell, hread]
  rw [← slice, hlen, if_neg (Nat.lt_irrefl _)]
  rfl

theorem getCurWord_window (hs : start ≤ i) (hi : i ≤ bytes.length) :
    getCurWord (window bytes start i line) =
      if maxLexeme ≤ i - start then .error .overflow
      else .ok (cString (slice bytes start i), window bytes start i line) :=
  @getCurWord_reading _ _ _ _ (window bytes start i line).sourcefile .plain hs hi

theorem createToken_reading (type : TokenType) (hf : Reading bytes i f) (hs : start ≤ i)
    (hi : i ≤ bytes.length) :
    createToken type { window bytes start i line with sourcefile := f } =
      if maxLexeme ≤ i - start then .error .overflow
      else .ok (⟨type, cString (slice bytes start i), i - start, line, i⟩,
        window bytes start i line) := by
  unfold createToken
  rw [getCurWord_reading hf hs hi]
  split
  · rfl
  · rfl

theorem createToken_window (type : TokenType) (hs : start ≤ i) (hi : i ≤ bytes.length) :
    createToken type (window bytes start i line) =
      if maxLexeme ≤ i - start then .error .overflow
      else .ok (⟨type, cString (slice bytes start i), i - start, line, i⟩,
        window bytes start i line) :=
  @createToken_reading _ _ _ _ (window bytes start i line).sourcefile type .plain hs hi

/-! ## Loops -/

/-- How many bytes from `i` on pass a test. -/
def run (test : UInt8 → Bool) (bytes : CString) (i : Nat) : Nat :=
  ((bytes.drop i).takeWhile test).length

theorem run_le (test : UInt8 → Bool) (hi : i ≤ bytes.length) :
    i + run test bytes i ≤ bytes.length := by
  have h := (List.takeWhile_prefix test (l := bytes.drop i)).length_le
  rw [List.length_drop] at h
  unfold run
  omega

theorem run_of_true {test : UInt8 → Bool} (hi : i < bytes.length)
    (h : test (bytes.getD i 0) = true) : run test bytes i = run test bytes (i + 1) + 1 := by
  rw [List.getD_eq_getElem _ _ hi] at h
  rw [run, List.drop_eq_getElem_cons hi, List.takeWhile_cons, if_pos h]
  rfl

theorem run_of_false {test : UInt8 → Bool} (h : test (bytes.getD i 0) = false) :
    run test bytes i = 0 := by
  by_cases hi : i < bytes.length
  · rw [List.getD_eq_getElem _ _ hi] at h
    rw [run, List.drop_eq_getElem_cons hi, List.takeWhile_cons, h]
    rfl
  · rw [run, List.drop_eq_nil_of_le (by omega)]
    rfl

/-- A byte that passes a test which the end of the file fails lies in the file. -/
theorem lt_of_test {test : UInt8 → Bool} (h0 : test 0 = false)
    (h : test (bytes.getD i 0) = true) : i < bytes.length := by
  by_contra hi
  rw [List.getD_eq_default _ _ (by omega), h0] at h
  exact absurd h (by simp)

/-- The loops over identifiers, numbers and strings move the window behind the bytes that pass. -/
theorem advanceWhile_window {test : UInt8 → Bool} (h0 : test 0 = false) :
    ∀ (fuel i : Nat), advanceWhile test fuel (window bytes start i line) =
      if run test bytes i < fuel then .ok (window bytes start (i + run test bytes i) line)
      else .error .outOfFuel := by
  intro fuel
  induction fuel with
  | zero => intro i; simp [advanceWhile]
  | succ fuel ih =>
    intro i
    rw [advanceWhile, peek_window]
    by_cases h : test (bytes.getD i 0) = true
    · have hi := lt_of_test h0 h
      rw [if_pos h, advance_window hi, ih, run_of_true hi h]
      simp only [Nat.add_lt_add_iff_right, Nat.add_assoc, Nat.add_comm 1]
    · have hrun := run_of_false (Bool.not_eq_true _ ▸ h)
      rw [if_neg h, hrun, if_pos (by omega), Nat.add_zero]

/-- Digits behind a decimal point are never passed. -/
theorem advanceDigits_of_digit {p : UInt8} (hp : isdigit p = true) :
    ∀ (fuel : Nat) (t : Tokenizer), advanceDigits p fuel t = .error .outOfFuel := by
  intro fuel
  induction fuel with
  | zero => exact fun _ => rfl
  | succ fuel ih =>
    intro t
    rw [advanceDigits, if_pos hp]
    exact ih _

/-- Behind the end of the file the window moves on, over nothing. -/
theorem advance_window_past (hi : bytes.length ≤ i) :
    (window bytes start i line).advance.2 = window bytes start (i + 1) line := by
  have hat : File.At bytes bytes.length (window bytes start i line).sourcefile := by
    rw [window, Nat.min_eq_right (by omega)]
    exact .plain
  have hget := hat.fgetc_of_none (List.getElem?_eq_none (Nat.le_refl _))
  have hwindow : window bytes start (i + 1) line =
      ⟨⟨bytes, bytes.length, none⟩, bytes.length, toChar none, start, i + 1, line⟩ := by
    rw [window, Nat.min_eq_right (by omega), List.getElem?_eq_none (by omega)]
  simp only [advance, hget]
  rw [hwindow]
  rfl

/-- The bytes of a comment: what is read up to its newline. -/
theorem commentLoop_window (bytes : CString) (start line : Nat) :
    ∀ (room i : Nat) (lexeme : CString), commentLoop room (window bytes start i line) lexeme =
      if i + run (· ≠ 10) bytes i < bytes.length ∧ run (· ≠ 10) bytes i < room then
        .ok (lexeme ++ slice bytes i (i + run (· ≠ 10) bytes i),
          window bytes start (i + run (· ≠ 10) bytes i) line)
      else .error .overflow := by
  intro room
  induction room with
  | zero => intro i lexeme; simp [commentLoop]
  | succ room ih =>
    intro i lexeme
    rw [commentLoop, peek_window]
    by_cases h : bytes.getD i 0 = 10
    · have hi : i < bytes.length := @lt_of_test bytes i (· = 10) rfl (by simpa using h)
      have hrun : run (· ≠ 10) bytes i = 0 := run_of_false (by simpa using h)
      rw [if_pos h, hrun, if_pos ⟨by omega, by omega⟩]
      simp [slice]
    · rw [if_neg h]
      by_cases hi : i < bytes.length
      · have hrun := @run_of_true _ _ (· ≠ 10) hi (by simpa using h)
        have hslice : slice bytes i (i + 1 + run (· ≠ 10) bytes (i + 1)) =
            bytes.getD i 0 :: slice bytes (i + 1) (i + 1 + run (· ≠ 10) bytes (i + 1)) := by
          rw [slice, slice, List.drop_eq_getElem_cons hi, List.getD_eq_getElem _ _ hi,
            Nat.add_sub_cancel_left, Nat.add_assoc, Nat.add_sub_cancel_left, Nat.add_comm 1,
            List.take_succ_cons]
        rw [hrun, advance_window hi, ih, show i + (run (· ≠ 10) bytes (i + 1) + 1) =
          i + 1 + run (· ≠ 10) bytes (i + 1) from by omega, hslice]
        simp only [Nat.add_lt_add_iff_right, List.append_assoc, List.singleton_append]
      · rw [advance_window_past (by omega), ih, if_neg (by omega), if_neg (by omega)]

/-! ## Tokens -/

/-- The type of a word of letters and digits. -/
def wordType (word : CString) : TokenType := (tokenHash.getHt word).getD .tIdentifier

theorem createIdentifer_window (hs : start ≤ i) (hi : i ≤ bytes.length) :
    createIdentifer fuel (window bytes start i line) =
      if run inWord bytes i < fuel then
        createToken (wordType (cString (slice bytes start (i + run inWord bytes i))))
          (window bytes start (i + run inWord bytes i) line)
      else .error .outOfFuel := by
  have hstop := run_le inWord hi
  have hloop := @advanceWhile_window bytes start line inWord (by decide) fuel i
  by_cases hfuel : run inWord bytes i < fuel
  · rw [if_pos hfuel] at hloop
    have hword := @getCurWord_window bytes start _ line (by omega) hstop
    simp only [createIdentifer, hloop, hword, createToken_window _ (by omega : start ≤
      i + run inWord bytes i) hstop, if_pos hfuel, bind, Except.bind]
    by_cases hlen : maxLexeme ≤ i + run inWord bytes i - start
    · simp only [if_pos hlen]
    · simp only [if_neg hlen, wordType]
      cases tokenHash.getHt (cString (slice bytes start (i + run inWord bytes i))) with
      | none => exact (createToken_window _ (by omega) hstop).trans (if_neg hlen)
      | some type => exact (createToken_window _ (by omega) hstop).trans (if_neg hlen)
  · rw [if_neg hfuel] at hloop
    simp only [createIdentifer, hloop, if_neg hfuel, bind, Except.bind]

/-- An unclosed string, or a string with its closing quote behind the token. -/
theorem createString_window (hs : start < i) (hi : i ≤ bytes.length) :
    createString fuel (window bytes start i line) =
      let stop := i + run inString bytes i
      if run inString bytes i < fuel then
        if bytes.getD stop 0 = 0 then createToken .tUnknown (window bytes start stop line)
        else if maxLexeme ≤ stop - (start + 1) then .error .overflow
        else .ok (⟨.tStringLit, cString (slice bytes (start + 1) stop), stop - (start + 1), line,
          stop⟩, window bytes (start + 1) (stop + 1) line)
      else .error .outOfFuel := by
  have hstop := run_le inString hi
  have hloop := @advanceWhile_window bytes start line inString (by decide) fuel i
  by_cases hfuel : run inString bytes i < fuel
  · rw [if_pos hfuel] at hloop
    simp only [createString, hloop, if_pos hfuel, bind, Except.bind, peek_window]
    by_cases hend : bytes.getD (i + run inString bytes i) 0 = 0
    · simp only [if_pos hend]
    · have hlt : i + run inString bytes i < bytes.length := by
        by_contra hge
        exact hend (List.getD_eq_default _ _ (by omega))
      have htoken := @createToken_window bytes (start + 1) _ line .tStringLit (by omega) hstop
      simp only [if_neg hend, window_startIdx, window_moveStart, htoken]
      by_cases hlen : maxLexeme ≤ i + run inString bytes i - (start + 1)
      · simp only [if_pos hlen]
      · simp only [if_neg hlen, advance_window hlt]
        rfl
  · rw [if_neg hfuel] at hloop
    simp only [createString, hloop, if_neg hfuel, bind, Except.bind]

/-- A number ends at the first byte that is neither a digit nor `_`; before a decimal point with a
digit behind it, the tokenizer does not come back. -/
theorem createNumber_window (h255 : (255 : UInt8) ∉ bytes) (hs : start ≤ i) (hi : i ≤ bytes.length) :
    createNumber fuel (window bytes start i line) =
      let stop := i + run inNumber bytes i
      if run inNumber bytes i < fuel then
        if bytes.getD stop 0 = 46 ∧ isdigit (bytes.getD (stop + 1) 0) then .error .outOfFuel
        else createToken .tNumberLit (window bytes start stop line)
      else .error .outOfFuel := by
  have hstop := run_le inNumber hi
  have hloop := @advanceWhile_window bytes start line inNumber (by decide) fuel i
  by_cases hfuel : run inNumber bytes i < fuel
  · rw [if_pos hfuel] at hloop
    simp only [createNumber, hloop, if_pos hfuel, bind, Except.bind, peek_window]
    by_cases hdot : bytes.getD (i + run inNumber bytes i) 0 = 46
    · have hlt : i + run inNumber bytes i < bytes.length := by
        by_contra hge
        rw [List.getD_eq_default _ _ (by omega)] at hdot
        exact absurd hdot (by decide)
      obtain ⟨f, hf, hnext⟩ := @peekNext_window bytes start (i + run inNumber bytes i) line h255
      simp only [if_pos hdot, hnext, advance_reading hf hlt, peek_window]
      by_cases hdigit : isdigit (bytes.getD (i + run inNumber bytes i + 1) 0) = true
      · simp only [advanceDigits_of_digit hdigit, hdot, hdigit, and_self, if_true]
      · simp only [hdigit, and_false, if_false, Bool.false_eq_true]
        rw [createToken_reading _ hf (by omega) hstop, createToken_window _ (by omega) hstop]
    · simp only [hdot, false_and, if_false]
  · rw [if_neg hfuel] at hloop
    simp only [createNumber, hloop, if_neg hfuel, bind, Except.bind]

theorem createCommentToken_window (bytes : CString) (start i line : Nat) :
    createCommentToken (window bytes start i line) =
      let stop := i + run (· ≠ 10) bytes i
      if stop < bytes.length ∧ run (· ≠ 10) bytes i < maxLexeme then
        .ok (⟨.tComment, cString (slice bytes i stop), ((slice bytes i stop).length + (2 ^ 32 - 1)) %
          2 ^ 32, stop, line⟩, window bytes start stop line)
      else .error .overflow := by
  have hloop := commentLoop_window bytes start line maxLexeme i []
  by_cases hfits : i + run (· ≠ 10) bytes i < bytes.length ∧ run (· ≠ 10) bytes i < maxLexeme
  · rw [if_pos hfits, List.nil_append] at hloop
    simp only [createCommentToken, hloop, if_pos hfits, bind, Except.bind]
    rfl
  · rw [if_neg hfits] at hloop
    simp only [createCommentToken, hloop, if_neg hfits, bind, Except.bind]

/-! ## The text from a byte on -/

theorem cString_eq {word : CString} (h0 : (0 : UInt8) ∉ word) : cString word = word := by
  refine List.takeWhile_eq_self_iff.mpr fun c hc => ?_
  have hne : c ≠ 0 := fun heq => h0 (heq ▸ hc)
  simpa using hne

/-- The loop over a string ends at a quote, or at what looks like the end of the file. -/
theorem dropWhile_inString (s : CString) :
    (s.dropWhile inString).getD 0 0 = 0 ∧ (s.dropWhile inString).head? ≠ some 34 ∨
      ∃ rest, s.dropWhile inString = 34 :: rest := by
  have hstop := List.head?_dropWhile_not inString s
  cases hrest : s.dropWhile inString with
  | nil => exact .inl ⟨rfl, by simp⟩
  | cons q rest =>
    rw [hrest] at hstop
    have hq : q = 0 ∨ q = 34 := by simpa [inString, or_iff_not_imp_left] using hstop
    rcases hq with rfl | rfl
    · exact .inl ⟨rfl, by simp⟩
    · exact .inr ⟨rest, rfl⟩

/-- The loop over a comment ends at a newline, if there is one. -/
theorem dropWhile_newline (s : CString) :
    (10 : UInt8) ∉ s ∧ (s.takeWhile (· ≠ 10)).length = s.length ∨
      (10 : UInt8) ∈ s ∧ ∃ rest, s.dropWhile (· ≠ 10) = 10 :: rest ∧
        (s.takeWhile (· ≠ 10)).length + 1 + rest.length = s.length := by
  have hsplit := List.takeWhile_append_dropWhile (p := (· ≠ (10 : UInt8))) (l := s)
  have hlen := congrArg List.length hsplit
  have hstop := List.head?_dropWhile_not (· ≠ (10 : UInt8)) s
  rw [List.length_append] at hlen
  cases hrest : s.dropWhile (· ≠ 10) with
  | nil =>
    rw [hrest, List.append_nil] at hsplit
    refine .inl ⟨fun hmem => ?_, by rw [hsplit]⟩
    rw [← hsplit] at hmem
    exact absurd (List.mem_takeWhile_imp hmem) (by decide)
  | cons q rest =>
    rw [hrest] at hstop
    have hq : q = 10 := by simpa using hstop
    rw [hrest, hq] at hsplit
    rw [hrest, List.length_cons] at hlen
    refine .inr ⟨?_, rest, by rw [hq], by omega⟩
    rw [← hsplit]
    exact List.mem_append_right _ List.mem_cons_self

section text
variable {s : CString} {c : UInt8}

theorem getD_of_drop (h : bytes.drop i = c :: s) (k : Nat) :
    bytes.getD (i + k) 0 = (c :: s).getD k 0 := by
  rw [← h, List.getD_eq_getElem?_getD, List.getD_eq_getElem?_getD, List.getElem?_drop]

/-- Beginning of the word, and the word itself. -/
theorem slice_of_drop (h : bytes.drop i = c :: s) (k : Nat) :
    slice bytes i (i + 1 + k) = c :: s.take k := by
  rw [slice, h, show i + 1 + k - i = k + 1 from by omega, List.take_succ_cons]

theorem slice_of_prefix {w rest : CString} (h : bytes.drop i = w ++ rest) :
    slice bytes i (i + w.length) = w := by
  rw [slice, h, Nat.add_sub_cancel_left, List.take_left]

theorem drop_succ_of_drop (h : bytes.drop i = c :: s) : bytes.drop (i + 1) = s := by
  rw [← List.drop_drop, h]
  rfl

theorem lt_of_drop (h : bytes.drop i = c :: s) : i < bytes.length := by
  by_contra hge
  rw [List.drop_eq_nil_of_le (by omega)] at h
  exact absurd h (by simp)

/-- The byte behind the first one. -/
theorem second_iff {d : UInt8} (hd : d ≠ 0) (h : bytes.drop i = c :: s) :
    bytes.getD (i + 1) 0 = d ↔ ∃ l, s = d :: l := by
  rw [getD_of_drop h 1]
  cases s with
  | nil => exact iff_of_false hd.symm (by simp)
  | cons b l => simp

theorem run_of_drop (h : bytes.drop i = c :: s) (test : UInt8 → Bool) :
    run test bytes (i + 1) = (s.takeWhile test).length := by
  rw [run, drop_succ_of_drop h]

theorem slice_takeWhile (h : bytes.drop i = c :: s) (test : UInt8 → Bool) :
    slice bytes i (i + (c :: s.takeWhile test).length) = c :: s.takeWhile test := by
  have hdrop : bytes.drop i = (c :: s.takeWhile test) ++ s.dropWhile test := by
    rw [h, List.cons_append, List.takeWhile_append_dropWhile]
  exact slice_of_prefix hdrop

/-- The bytes behind a run. -/
theorem getD_behind (h : bytes.drop i = c :: s) (test : UInt8 → Bool) (k : Nat) :
    bytes.getD (i + 1 + (s.takeWhile test).length + k) 0 = (s.dropWhile test).getD k 0 := by
  have hleft : (s.takeWhile test ++ s.dropWhile test).drop (s.takeWhile test).length =
      s.dropWhile test := List.drop_left ..
  rw [List.takeWhile_append_dropWhile] at hleft
  rw [← hleft, ← drop_succ_of_drop h, List.drop_drop, List.getD_eq_getElem?_getD,
    List.getD_eq_getElem?_getD, List.getElem?_drop, drop_succ_of_drop h]

theorem length_of_drop (h : bytes.drop i = c :: s) : bytes.length = i + 1 + s.length := by
  have hi := lt_of_drop h
  have hlen := congrArg List.length h
  rw [List.length_drop, List.length_cons] at hlen
  omega

theorem not_mem_slice {b : UInt8} (hb : b ∉ bytes) (start j : Nat) : b ∉ slice bytes start j :=
  fun h => hb (List.mem_of_mem_drop (List.mem_of_mem_take h))

end text

end Tokenizer

end ACompiler
