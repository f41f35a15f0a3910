import ACompiler.Tokenizer.Found
import ACompiler.Tokenizer.Source

/-!
# Lines and columns

A newline is counted when it is skipped, and at no other place: the lines behind a string that has
newlines in it are wrong (`tokenLine_iff`). `createCommentToken` fills the fields of its token in its own way, which is never
the way of `createToken` (`tokenMetadata_iff`).
-/

namespace ACompiler

open Tokenizer

/-! ## Newlines -/

/-- The newlines in the string that a text starts with. -/
def stringLines : CString → Nat
  | 34 :: s => (s.takeWhile inString).count 10
  | _ => 0

theorem stringLines_of_ne {c : UInt8} {s : CString} (hc : c ≠ 34) : stringLines (c :: s) = 0 := by
  unfold stringLines
  split
  · rename_i heq
    exact absurd (List.cons.inj heq).1 hc
  · rfl

section lines
variable {bytes : CString} {i line : Nat} {temp : Option Token} {t : Tokenizer}

/-- **The newlines that a call passes are counted**, but for those in a string. -/
theorem Found.lines (h : Found bytes i line temp t) :
    t.curLine + stringLines (bytes.drop i) = line + (slice bytes i t.curIdx).count 10 := by
  cases h with
  | @blank c s h hc =>
    have hquote : c ≠ 34 := fun heq => absurd hc (by rw [heq]; decide)
    have hslice : slice bytes i (i + 1) = [c] := slice_of_prefix (show _ = [c] ++ s from h)
    rw [h, stringLines_of_ne hquote, window_curIdx, hslice, List.count_singleton]
    simp only [Tokenizer.window, beq_iff_eq]
    rfl
  | @word type w rest h hne hw hslash htype _ =>
    have hcount : w.count 10 = 0 := List.count_eq_zero.mpr fun hmem => (hw 10 hmem).2.1 rfl
    have hquote : stringLines (bytes.drop i) = 0 := by
      rw [h]
      cases w with
      | nil => exact absurd rfl hne
      | cons b w => exact stringLines_of_ne (hw b List.mem_cons_self).2.2
    rw [hquote, window_curIdx, slice_of_prefix h, hcount]
    rfl
  | @string s rest h hclosed =>
    have hdrop : bytes.drop i = (34 :: (s.takeWhile inString ++ [34])) ++ rest := by
      rw [h, List.cons_append, List.append_assoc, List.singleton_append, ← hclosed,
        List.takeWhile_append_dropWhile]
    have hslice := slice_of_prefix hdrop
    rw [List.length_cons, List.length_append, List.length_singleton] at hslice
    rw [h, window_curIdx, show i + 1 + (s.takeWhile inString).length + 1 =
      i + ((s.takeWhile inString).length + 1 + 1) from by omega, hslice]
    simp [stringLines, Tokenizer.window]
  | @openString s h =>
    have hdrop : bytes.drop i = (34 :: s.takeWhile inString) ++ s.dropWhile inString := by
      rw [h, List.cons_append, List.takeWhile_append_dropWhile]
    rw [window_curIdx, slice_of_prefix hdrop, h]
    simp [stringLines, Tokenizer.window]
  | @comment s rest h hclosed =>
    have hdrop : bytes.drop i = (47 :: 47 :: s.takeWhile (· ≠ 10)) ++ s.dropWhile (· ≠ 10) := by
      rw [h, List.cons_append, List.cons_append, List.takeWhile_append_dropWhile]
    have hslice := slice_of_prefix hdrop
    have hcount : (47 :: 47 :: s.takeWhile (· ≠ (10 : UInt8))).count 10 = 0 := by
      refine List.count_eq_zero.mpr fun hmem => ?_
      rcases List.mem_cons.mp hmem with heq | hmem
      · exact absurd heq (by decide)
      · rcases List.mem_cons.mp hmem with heq | hmem
        · exact absurd heq (by decide)
        · exact absurd (List.mem_takeWhile_imp hmem) (by decide)
    rw [List.length_cons, List.length_cons] at hslice
    rw [h, stringLines_of_ne (by decide), window_curIdx,
      show i + 2 + (s.takeWhile (· ≠ 10)).length = i + ((s.takeWhile (· ≠ 10)).length + 1 + 1) from by
        omega, hslice, hcount]
    rfl

/-- The index behind the last byte of a lexeme: where the call ends, or in front of the closing
quote. -/
def lexemeEnd (token : Token) (behind : Tokenizer) : Nat :=
  if token.type = .tStringLit then behind.curIdx - 1 else behind.curIdx

def Call.lexemeEnd (c : Call) : Nat :=
  match c.token with
  | some token => ACompiler.lexemeEnd token c.behind
  | none => c.behind.curIdx

/-- A token that is not a comment has the line of its first byte. -/
theorem Found.line_eq {token : Token} (h : Found bytes i line (some token) t)
    (htype : token.type ≠ .tComment) : token.line = line := by
  cases h with
  | word h hne hw hslash htype _ => rfl
  | string h hclosed => rfl
  | openString h => rfl
  | comment h hclosed => exact absurd rfl htype

/-- The lexeme ends at `lexemeEnd`. -/
theorem Found.lexeme_eq {token : Token} (h : Found bytes i line (some token) t) :
    ∃ start, i ≤ start ∧ token.lexeme = cString (slice bytes start (lexemeEnd token t)) := by
  cases h with
  | @word type w rest h hne hw hslash htype _ =>
    refine ⟨i, Nat.le_refl i, ?_⟩
    rw [lexemeEnd, if_neg htype.2, window_curIdx, slice_of_prefix h,
      cString_eq fun h0 => (hw 0 h0).1 rfl]
  | @string s rest h hclosed =>
    have hdrop : bytes.drop (i + 1) = s.takeWhile inString ++ s.dropWhile inString := by
      rw [drop_succ_of_drop h, List.takeWhile_append_dropWhile]
    refine ⟨i + 1, Nat.le_succ i, ?_⟩
    rw [lexemeEnd, if_pos rfl, window_curIdx, Nat.add_sub_cancel, slice_of_prefix hdrop,
      cString_eq fun h0 => absurd (List.mem_takeWhile_imp h0) (by decide)]
  | @openString s h =>
    have hdrop : bytes.drop i = (34 :: s.takeWhile inString) ++ s.dropWhile inString := by
      rw [h, List.cons_append, List.takeWhile_append_dropWhile]
    have h0 : (0 : UInt8) ∉ 34 :: s.takeWhile inString := by
      rw [List.mem_cons, not_or]
      exact ⟨by decide, fun hmem => absurd (List.mem_takeWhile_imp hmem) (by decide)⟩
    refine ⟨i, Nat.le_refl i, ?_⟩
    rw [lexemeEnd, if_neg (by simp), window_curIdx, slice_of_prefix hdrop, cString_eq h0]
  | @comment s rest h hclosed =>
    have hdrop : bytes.drop (i + 2) = s.takeWhile (· ≠ 10) ++ s.dropWhile (· ≠ 10) := by
      rw [List.takeWhile_append_dropWhile]
      exact drop_succ_of_drop (drop_succ_of_drop h)
    refine ⟨i + 2, Nat.le_add_right i 2, ?_⟩
    rw [lexemeEnd, if_neg (by simp), window_curIdx, slice_of_prefix hdrop]

/-- **One constructor of tokens is right, and the other is not**: the line of a comment is a column,
which is larger than any line so far. -/
theorem Found.metadata_iff {token : Token} (h : Found bytes i line (some token) t)
    (hline : line ≤ 1 + i) :
    (token.length = token.lexeme.length ∧ token.col = lexemeEnd token t ∧
        token.line = t.curLine) ↔ ¬ [47, 47] <+: bytes.drop i := by
  cases h with
  | word h hne hw hslash htype _ =>
    refine iff_of_true ⟨rfl, ?_, rfl⟩ hslash
    rw [lexemeEnd, if_neg htype.2, window_curIdx]
  | string h hclosed =>
    refine iff_of_true ⟨rfl, ?_, rfl⟩ (h ▸ not_slashes (by decide))
    rw [lexemeEnd, if_pos rfl, window_curIdx, Nat.add_sub_cancel]
  | openString h =>
    refine iff_of_true ⟨rfl, ?_, rfl⟩ (h ▸ not_slashes (by decide))
    rw [lexemeEnd, if_neg (by simp), window_curIdx]
  | @comment s rest h hclosed =>
    refine iff_of_false ?_ fun hnot => hnot (h ▸ List.prefix_append [47, 47] s)
    rintro ⟨_, _, hfield⟩
    have hfield : i + 2 + (s.takeWhile (· ≠ 10)).length = line := hfield
    omega

end lines

/-! ## Runs -/

theorem slice_append (bytes : CString) {i j k : Nat} (hij : i ≤ j) (hjk : j ≤ k) :
    slice bytes i j ++ slice bytes j k = slice bytes i k := by
  rw [slice, slice, slice, show k - i = (j - i) + (k - j) from by omega, List.take_add,
    List.drop_drop, show i + (j - i) = j from by omega]

/-- A state on the text of a file. -/
def OnText (bytes : CString) (t : Tokenizer) : Prop :=
  ∃ start, Cut bytes t (window (sourceText bytes) start t.curIdx t.curLine)

section runs
variable {bytes : CString} {fuel : Nat} {t t' : Tokenizer} {temp : Option Token} {calls : List Call}

theorem onText_sourceInit (bytes : CString) : OnText bytes (sourceInit bytes) := by
  have hcut := cut_tokenizerInit bytes
  rw [tokenizerInit_eq] at hcut
  exact ⟨0, hcut⟩

/-- **A call in a file** finds what is in its text. -/
theorem OnText.found (h : OnText bytes t) (hlt : t.curIdx < t.filesize)
    (hscan : scanToken fuel { t with startIdx := t.curIdx } = .ok (temp, t')) :
    ∃ t₁, Found (sourceText bytes) t.curIdx t.curLine temp t₁ ∧ Cut bytes t' t₁ ∧ OnText bytes t' := by
  obtain ⟨start, hcut⟩ := h
  have hsize := hcut.size
  have hsame := (hcut.moveStart (Nat.le_refl _) hcut.curIdx).scanToken fuel hlt
  rw [hscan, window_moveStart, window_curIdx] at hsame
  obtain ⟨⟨temp', t₁⟩, hscan', htemp, hcut'⟩ := hsame.of_ok
  obtain rfl : temp = temp' := htemp
  have hdrop := List.drop_eq_getElem_cons (show t.curIdx < (sourceText bytes).length by omega)
  have hfound := scanToken_finds hdrop (not_mem_sourceText bytes) temp t₁ hscan'
  obtain ⟨start', hwindow⟩ := hfound.window
  refine ⟨t₁, hfound, hcut', start', ?_⟩
  rw [hcut'.curIdx, hcut'.curLine] at hwindow
  rwa [← hwindow]

/-- **The lines of a run**: the newlines that were passed, less those in strings. -/
theorem Calls.lines (h : Calls fuel t calls t') : OnText bytes t →
    t.curIdx ≤ t'.curIdx ∧
      t'.curLine +
          (calls.map fun c => stringLines ((sourceText bytes).drop c.before.curIdx)).sum =
        t.curLine + (slice (sourceText bytes) t.curIdx t'.curIdx).count 10 := by
  induction h with
  | @nil t =>
    intro _
    refine ⟨Nat.le_refl _, ?_⟩
    rw [slice, Nat.sub_self]
    rfl
  | @cons t t₁ t₂ temp calls hlt hscan _ ih =>
    intro hon
    obtain ⟨u, hfound, hcut, hon'⟩ := hon.found hlt hscan
    obtain ⟨hle, hlines⟩ := ih hon'
    have hmoved := hfound.lt.le
    have hcall := hfound.lines
    rw [hcut.curIdx] at hmoved
    rw [hcut.curIdx, hcut.curLine] at hcall
    refine ⟨hmoved.trans hle, ?_⟩
    simp only [List.map_cons, List.sum_cons]
    rw [← slice_append _ hmoved hle, List.count_append]
    omega

theorem Calls.split {before after : List Call} {call : Call}
    (h : Calls fuel t (before ++ call :: after) t') :
    Calls fuel t before call.before ∧ call.before.curIdx < call.before.filesize ∧
      scanToken fuel { call.before with startIdx := call.before.curIdx } =
        .ok (call.token, call.behind) := by
  induction before generalizing t with
  | nil =>
    cases h with
    | cons hlt hscan _ => exact ⟨.nil, hlt, hscan⟩
  | cons c before ih =>
    cases h with
    | cons hlt hscan hrest =>
      obtain ⟨hbefore, hcall⟩ := ih hrest
      exact ⟨.cons hlt hscan hbefore, hcall⟩

theorem Calls.onText (h : Calls fuel t calls t') (hon : OnText bytes t) : OnText bytes t' := by
  induction h with
  | nil => exact hon
  | cons hlt hscan _ ih =>
    obtain ⟨_, _, _, hon'⟩ := hon.found hlt hscan
    exact ih hon'

/-- The lines of a run on a file. -/
theorem Calls.curLine (h : Calls fuel (sourceInit bytes) calls t) :
    t.curLine + (calls.map fun c => stringLines ((sourceText bytes).drop c.before.curIdx)).sum =
      1 + (bytes.take t.curIdx).count 10 := by
  obtain ⟨start, hcut⟩ := h.onText (onText_sourceInit bytes)
  have hlines := (h.lines (onText_sourceInit bytes)).2
  have htext : slice (sourceText bytes) (sourceInit bytes).curIdx t.curIdx =
      bytes.take t.curIdx := by
    have hle := hcut.le
    show ((sourceText bytes).drop 0).take (t.curIdx - 0) = _
    rw [List.drop_zero, Nat.sub_zero, sourceText_eq_take, List.take_take, Nat.min_eq_left hle]
  rw [htext] at hlines
  exact hlines

/-- **The line of a token is right exactly if no string before it has a newline.** -/
theorem tokenLine_iff {tokens : List Token} (h : tokenizeSource fuel bytes = .ok tokens) :
    ∃ calls t, Calls fuel (sourceInit bytes) calls t ∧ ¬ t.curIdx < t.filesize ∧
      tokens = calls.filterMap Call.token ++ [eofToken] ∧
      ∀ before call after token, calls = before ++ call :: after → call.token = some token →
        token.type ≠ .tComment →
        (token.line = 1 + (bytes.take call.before.curIdx).count 10 ↔
          ∀ c ∈ before, stringLines ((sourceText bytes).drop c.before.curIdx) = 0) := by
  rw [tokenizeSource_loop] at h
  obtain ⟨calls, t, hcalls, hend, htokens⟩ := tokenizeLoop_calls h
  refine ⟨calls, t, hcalls, hend, htokens, ?_⟩
  intro before call after token hsplit htoken htype
  rw [hsplit] at hcalls
  obtain ⟨hbefore, hlt, hscan⟩ := hcalls.split
  rw [htoken] at hscan
  obtain ⟨_, hfound, _, _⟩ := (hbefore.onText (onText_sourceInit bytes)).found hlt hscan
  have hline := hbefore.curLine
  have hsum : (before.map fun c => stringLines ((sourceText bytes).drop c.before.curIdx)).sum = 0 ↔
      ∀ c ∈ before, stringLines ((sourceText bytes).drop c.before.curIdx) = 0 := by
    rw [List.sum_eq_zero_iff, List.forall_mem_map]
  rw [hfound.line_eq htype, ← hsum]
  omega

end runs

/-- A string that goes over two lines, and a name behind it. -/
def twoLines : CString := ascii "\"a\nb\" c"

theorem tokenLine_iff_twoLines : ∃ tokens, tokenizeSource 20 twoLines = .ok tokens ∧
    ∃ calls t, Calls 20 (sourceInit twoLines) calls t ∧ ¬ t.curIdx < t.filesize ∧
      tokens = calls.filterMap Call.token ++ [eofToken] ∧
      ∀ before call after token, calls = before ++ call :: after → call.token = some token →
        token.type ≠ .tComment →
        (token.line = 1 + (twoLines.take call.before.curIdx).count 10 ↔
          ∀ c ∈ before, stringLines ((sourceText twoLines).drop c.before.curIdx) = 0) :=
  ⟨_, rfl, tokenLine_iff rfl⟩

/-- The name is on the second line, and its token says the first. -/
theorem tokenLine_twoLines : ∃ tokens token, tokenizeSource 20 twoLines = .ok tokens ∧
    token ∈ tokens ∧ token.type = .tIdentifier ∧ token.lexeme = ascii "c" ∧
    token.line ≠ 1 + (twoLines.take (twoLines.idxOf 99)).count 10 :=
  ⟨_, ⟨.tIdentifier, ascii "c", 1, 1, 7⟩, rfl, by decide, rfl, rfl, by decide⟩

section metadata
variable {bytes : CString} {fuel : Nat}

/-- **The fields of a token are right exactly if it is not a comment.** -/
theorem tokenMetadata_iff {tokens : List Token} (h : tokenizeSource fuel bytes = .ok tokens) :
    ∃ calls t, Calls fuel (sourceInit bytes) calls t ∧ ¬ t.curIdx < t.filesize ∧
      tokens = calls.filterMap Call.token ++ [eofToken] ∧
      ∀ call ∈ calls, ∀ token, call.token = some token →
        (∃ start, call.before.curIdx ≤ start ∧
          token.lexeme = cString (slice (sourceText bytes) start call.lexemeEnd)) ∧
        ((token.length = token.lexeme.length ∧ token.col = call.lexemeEnd ∧
            token.line = call.behind.curLine) ↔
          ¬ [47, 47] <+: (sourceText bytes).drop call.before.curIdx) := by
  rw [tokenizeSource_loop] at h
  obtain ⟨calls, t, hcalls, hend, htokens⟩ := tokenizeLoop_calls h
  refine ⟨calls, t, hcalls, hend, htokens, ?_⟩
  intro call hmem token htoken
  obtain ⟨before, after, hsplit⟩ := List.append_of_mem hmem
  rw [hsplit] at hcalls
  obtain ⟨hbefore, hlt, hscan⟩ := hcalls.split
  rw [htoken] at hscan
  obtain ⟨u, hfound, hcut, _⟩ := (hbefore.onText (onText_sourceInit bytes)).found hlt hscan
  have hline : call.before.curLine ≤ 1 + call.before.curIdx := by
    have hlines := hbefore.curLine
    have hcount := List.count_le_length (a := (10 : UInt8)) (l := bytes.take call.before.curIdx)
    have htake := List.length_take_le call.before.curIdx bytes
    omega
  have hlexeme : call.lexemeEnd = lexemeEnd token u := by
    simp only [Call.lexemeEnd, htoken, lexemeEnd, hcut.curIdx]
  rw [hlexeme, ← hcut.curLine]
  exact ⟨hfound.lexeme_eq, hfound.metadata_iff hline⟩

end metadata

theorem tokenMetadata_iff_comment : ∃ tokens, tokenizeSource 20 (ascii "//d\n") = .ok tokens ∧
    ∃ calls t, Calls 20 (sourceInit (ascii "//d\n")) calls t ∧ ¬ t.curIdx < t.filesize ∧
      tokens = calls.filterMap Call.token ++ [eofToken] ∧
      ∀ call ∈ calls, ∀ token, call.token = some token →
        (∃ start, call.before.curIdx ≤ start ∧
          token.lexeme = cString (slice (sourceText (ascii "//d\n")) start call.lexemeEnd)) ∧
        ((token.length = token.lexeme.length ∧ token.col = call.lexemeEnd ∧
            token.line = call.behind.curLine) ↔
          ¬ [47, 47] <+: (sourceText (ascii "//d\n")).drop call.before.curIdx) :=
  ⟨_, rfl, tokenMetadata_iff rfl⟩

/-- The lexeme has one character, which is followed by the byte 3, in the first line. -/
theorem tokenMetadata_commentLine : ∃ tokens token, tokenizeSource 20 (ascii "//d\n") = .ok tokens ∧
    token ∈ tokens ∧ token.type = .tComment ∧ token.lexeme = ascii "d" ∧
    token.length ≠ 1 ∧ token.col ≠ 3 ∧ token.line ≠ 1 :=
  ⟨_, ⟨.tComment, ascii "d", 0, 3, 1⟩, rfl, by decide, rfl, rfl, by decide, by decide, by decide⟩

end ACompiler
