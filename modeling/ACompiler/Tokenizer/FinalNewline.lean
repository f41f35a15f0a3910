import ACompiler.Tokenizer.Buffers

/-!
# The final newline

A run on a text and a run on the text with a newline behind it make the same calls
(`scanToken_append`, `Calls.append`): the end of the file ends every word that a newline ends. The
exception is a comment, whose loop goes on until it sees a newline.
-/

namespace ACompiler

open Tokenizer

/-! ## The bytes -/

section bytes
variable {bytes : CString} {i j k : Nat}

/-- What does not tell a newline from the end of the file does not see the new byte. -/
theorem getD_append_newline {α : Type} (f : UInt8 → α) (hf : f 10 = f 0) (k : Nat) :
    f ((bytes ++ [10]).getD k 0) = f (bytes.getD k 0) := by
  rcases Nat.lt_trichotomy k bytes.length with hlt | rfl | hgt
  · rw [List.getD_append _ _ _ _ hlt]
  · rw [List.getD_append_right _ _ _ _ (Nat.le_refl _), Nat.sub_self,
      List.getD_eq_default bytes _ (Nat.le_refl _)]
    exact hf
  · rw [List.getD_eq_default _ _ (by rw [List.length_append, List.length_singleton]; omega),
      List.getD_eq_default _ _ (by omega)]

theorem getD_append_eq_iff {c : UInt8} (h0 : c ≠ 0) (h10 : c ≠ 10) (k : Nat) :
    (bytes ++ [10]).getD k 0 = c ↔ bytes.getD k 0 = c := by
  have hsame := @getD_append_newline bytes _ (· = c) (propext (by simp [h0.symm, h10.symm])) k
  exact iff_of_eq hsame

theorem slice_append_newline (hj : j ≤ bytes.length) : slice (bytes ++ [10]) i j = slice bytes i j := by
  rcases Nat.le_total i j with hij | hji
  · rw [slice, slice, List.drop_append_of_le_length (by omega), List.take_append_of_le_length (by
      rw [List.length_drop]
      omega)]
  · rw [slice, slice, Nat.sub_eq_zero_of_le hji, List.take_zero, List.take_zero]

/-- A newline ends a run, as the end of the file does. -/
theorem run_append_newline {test : UInt8 → Bool} (h10 : test 10 = false) (hi : i ≤ bytes.length) :
    run test (bytes ++ [10]) i = run test bytes i := by
  rw [run, run, List.drop_append_of_le_length hi, List.takeWhile_append]
  split
  · next hall => simpa [h10] using hall.symm
  · rfl

/-- A run that is stopped ends in the file. -/
theorem run_lt_of_stop {test : UInt8 → Bool} {b : UInt8} (hb : b ∈ bytes.drop i)
    (htest : test b = false) : i + run test bytes i < bytes.length := by
  have hstart := List.takeWhile_prefix test (l := bytes.drop i)
  have hlt : run test bytes i < (bytes.drop i).length := by
    refine Nat.lt_of_le_of_ne hstart.length_le fun hall => ?_
    have hpass := List.mem_takeWhile_imp ((hstart.eq_of_length hall).symm ▸ hb)
    exact absurd (htest.symm.trans hpass) (by simp)
  rw [List.length_drop] at hlt
  omega

/-- It does not see the new byte either. -/
theorem run_append_of_stop {test : UInt8 → Bool} {b : UInt8} (hb : b ∈ bytes.drop i)
    (htest : test b = false) (hi : i ≤ bytes.length) :
    run test (bytes ++ [10]) i = run test bytes i := by
  have hlt := run_lt_of_stop hb htest
  rw [run] at hlt
  rw [run, run, List.drop_append_of_le_length hi, List.takeWhile_append, if_neg]
  rw [List.length_drop]
  omega

end bytes

/-! ## A call -/

/-- The same result, on another file. -/
def onFile {α : Type} (bytes : CString) (r : Except ScanError (α × Tokenizer)) :
    Except ScanError (α × Tokenizer) :=
  r.map fun p => (p.1, window bytes p.2.startIdx p.2.curIdx p.2.curLine)

theorem onFile_scanned (bytes : CString) (r : Except ScanError (Token × Tokenizer)) :
    scanned (onFile bytes r) = onFile bytes (scanned r) := by
  cases r with
  | error e => rfl
  | ok p => rfl

/-- The text starts with a comment that fits, and that only the end of the file ends. -/
def EndComment (s : CString) : Prop :=
  ∃ text, s = 47 :: 47 :: text ∧ (10 : UInt8) ∉ text ∧ text.length < maxLexeme

section call
variable {bytes s : CString} {c : UInt8} {start i j line fuel : Nat}

theorem createToken_append {type : TokenType} (hs : start ≤ j) (hj : j ≤ bytes.length) :
    createToken type (window (bytes ++ [10]) start j line) =
      onFile (bytes ++ [10]) (createToken type (window bytes start j line)) := by
  have hlen : j ≤ (bytes ++ [10]).length := by
    rw [List.length_append]
    omega
  rw [createToken_window type hs hj, createToken_window type hs hlen, slice_append_newline hj]
  by_cases hlong : maxLexeme ≤ j - start
  · rw [if_pos hlong, if_pos hlong]
    rfl
  · rw [if_neg hlong, if_neg hlong]
    rfl

theorem createIdentifer_append (hi : i < bytes.length) :
    createIdentifer fuel (window (bytes ++ [10]) i (i + 1) line) =
      onFile (bytes ++ [10]) (createIdentifer fuel (window bytes i (i + 1) line)) := by
  have hstop := @run_le bytes (i + 1) inWord hi
  have hlen : i + 1 ≤ (bytes ++ [10]).length := by
    rw [List.length_append]
    omega
  rw [createIdentifer_window (by omega) hlen, createIdentifer_window (by omega) hi,
    run_append_newline (by decide) hi, slice_append_newline hstop]
  by_cases hfuel : run inWord bytes (i + 1) < fuel
  · rw [if_pos hfuel, if_pos hfuel]
    exact createToken_append (by omega) hstop
  · rw [if_neg hfuel, if_neg hfuel]
    rfl

theorem createNumber_append (h255 : (255 : UInt8) ∉ bytes) (hi : i < bytes.length) :
    createNumber fuel (window (bytes ++ [10]) i (i + 1) line) =
      onFile (bytes ++ [10]) (createNumber fuel (window bytes i (i + 1) line)) := by
  have hstop := @run_le bytes (i + 1) inNumber hi
  have hlen : i + 1 ≤ (bytes ++ [10]).length := by
    rw [List.length_append]
    omega
  have h255' : (255 : UInt8) ∉ bytes ++ [10] := by simp [h255]
  have hpoint := @getD_append_eq_iff bytes 46 (by decide) (by decide)
    (i + 1 + run inNumber bytes (i + 1))
  have hdigit := @getD_append_newline bytes _ isdigit (by decide)
    (i + 1 + run inNumber bytes (i + 1) + 1)
  rw [createNumber_window h255' (by omega) hlen, createNumber_window h255 (by omega) hi,
    run_append_newline (by decide) hi]
  simp only
  rw [hdigit]
  simp only [hpoint]
  by_cases hfuel : run inNumber bytes (i + 1) < fuel
  · rw [if_pos hfuel, if_pos hfuel]
    split
    · rfl
    · exact createToken_append (by omega) hstop
  · rw [if_neg hfuel, if_neg hfuel]
    rfl

/-- A string that is closed is closed before the newline. -/
theorem createString_append (h : bytes.drop i = 34 :: s) (hclosed : (34 : UInt8) ∈ s) :
    createString fuel (window (bytes ++ [10]) i (i + 1) line) =
      onFile (bytes ++ [10]) (createString fuel (window bytes i (i + 1) line)) := by
  have hi := lt_of_drop h
  have hquote : (34 : UInt8) ∈ bytes.drop (i + 1) := drop_succ_of_drop h ▸ hclosed
  have hrun := @run_append_of_stop bytes (i + 1) inString 34 hquote (by decide) hi
  have hstop := @run_lt_of_stop bytes (i + 1) inString 34 hquote (by decide)
  have hlen : i + 1 ≤ (bytes ++ [10]).length := by
    rw [List.length_append]
    omega
  rw [createString_window (by omega) hlen, createString_window (by omega) hi, hrun]
  simp only
  rw [List.getD_append _ _ _ _ hstop, slice_append_newline (by omega)]
  by_cases hfuel : run inString bytes (i + 1) < fuel
  · rw [if_pos hfuel, if_pos hfuel]
    by_cases hend : bytes.getD (i + 1 + run inString bytes (i + 1)) 0 = 0
    · rw [if_pos hend, if_pos hend]
      exact createToken_append (by omega) (by omega)
    · rw [if_neg hend, if_neg hend]
      by_cases hlong : maxLexeme ≤ i + 1 + run inString bytes (i + 1) - (i + 1)
      · rw [if_pos hlong, if_pos hlong]
        rfl
      · rw [if_neg hlong, if_neg hlong]
        rfl
  · rw [if_neg hfuel, if_neg hfuel]
    rfl

/-- A comment that is closed, or does not fit. -/
theorem createCommentToken_append (h : bytes.drop i = 47 :: 47 :: s)
    (hclosed : (10 : UInt8) ∈ s ∨ maxLexeme ≤ s.length) :
    createCommentToken (window (bytes ++ [10]) i (i + 2) line) =
      onFile (bytes ++ [10]) (createCommentToken (window bytes i (i + 2) line)) := by
  have hnext : bytes.drop (i + 1) = 47 :: s := drop_succ_of_drop h
  have hdrop : bytes.drop (i + 2) = s := drop_succ_of_drop hnext
  have hlen := length_of_drop hnext
  have hle := @run_le bytes (i + 2) (· ≠ 10) (by omega)
  have hrun := @run_append_newline bytes (i + 2) (· ≠ 10) (by decide) (by omega)
  rw [createCommentToken_window, createCommentToken_window, hrun]
  simp only
  rw [slice_append_newline hle, List.length_append, List.length_singleton]
  by_cases hmem : (10 : UInt8) ∈ s
  · have hlt := @run_lt_of_stop bytes (i + 2) (· ≠ 10) 10 (hdrop ▸ hmem) (by decide)
    by_cases hfits : run (· ≠ 10) bytes (i + 2) < maxLexeme
    · rw [if_pos ⟨by omega, hfits⟩, if_pos ⟨hlt, hfits⟩]
      rfl
    · rw [if_neg fun hp => hfits hp.2, if_neg fun hp => hfits hp.2]
      rfl
  · have hlong : maxLexeme ≤ run (· ≠ 10) bytes (i + 2) := by
      have hall : s.takeWhile (· ≠ 10) = s := List.takeWhile_eq_self_iff.mpr fun c hc => by
        simpa using fun heq : c = 10 => hmem (heq ▸ hc)
      rw [run, hdrop, hall]
      exact hclosed.resolve_left hmem
    rw [if_neg fun hp => by omega, if_neg fun hp => by omega]
    rfl

/-- **A call does not see the newline**, if it stands neither at a string that is not closed nor at
a comment that only the end of the file ends. -/
theorem scanToken_append (h255 : (255 : UInt8) ∉ bytes) (h : bytes.drop i = c :: s)
    (hstring : c = 34 → (34 : UInt8) ∈ s) (hcomment : ¬ EndComment (c :: s)) :
    scanToken fuel (window (bytes ++ [10]) i i line) =
      onFile (bytes ++ [10]) (scanToken fuel (window bytes i i line)) := by
  have hi := lt_of_drop h
  have hi' : i < (bytes ++ [10]).length := by
    rw [List.length_append]
    omega
  have hbyte : bytes.getD i 0 = c := getD_of_drop h 0
  have hbyte' : (bytes ++ [10]).getD i 0 = c := by rw [List.getD_append _ _ _ _ hi, hbyte]
  have hone {type : TokenType} : scanned (createToken type (window (bytes ++ [10]) i (i + 1) line)) =
      onFile (bytes ++ [10]) (scanned (createToken type (window bytes i (i + 1) line))) := by
    rw [createToken_append (by omega) hi, onFile_scanned]
  cases firstByte c with
  | single hc =>
    rw [scanToken_single hi' (hbyte'.symm ▸ hc), scanToken_single hi (hbyte.symm ▸ hc)]
    exact hone
  | @pair second pair single hc =>
    obtain ⟨_, _, ⟨h0, h10, _⟩, _⟩ := plain_of_pair hc
    have hsame := @getD_append_eq_iff bytes second h0 h10 (i + 1)
    rw [scanToken_pair hi' (hbyte'.symm ▸ hc), scanToken_pair hi (hbyte.symm ▸ hc)]
    by_cases hsecond : bytes.getD (i + 1) 0 = second
    · obtain ⟨l, rfl⟩ := (second_iff h0 h).mp hsecond
      have hlen := length_of_drop h
      rw [List.length_cons] at hlen
      rw [if_pos hsecond, if_pos (hsame.mpr hsecond), createToken_append (by omega) (by omega),
        onFile_scanned]
    · rw [if_neg hsecond, if_neg (mt hsame.mp hsecond)]
      exact hone
  | slash hc =>
    subst hc
    have hsame := @getD_append_eq_iff bytes 47 (by decide) (by decide) (i + 1)
    rw [scanToken_slash hi' hbyte', scanToken_slash hi hbyte]
    by_cases hsecond : bytes.getD (i + 1) 0 = 47
    · obtain ⟨l, rfl⟩ := (second_iff (by decide) h).mp hsecond
      have hclosed : (10 : UInt8) ∈ l ∨ maxLexeme ≤ l.length := by
        by_contra hopen
        rw [not_or, Nat.not_le] at hopen
        exact hcomment ⟨l, rfl, hopen.1, hopen.2⟩
      rw [if_pos hsecond, if_pos (hsame.mpr hsecond), createCommentToken_append h hclosed,
        onFile_scanned]
    · rw [if_neg hsecond, if_neg (mt hsame.mp hsecond)]
      exact hone
  | quote hc =>
    subst hc
    rw [scanToken_quote hi' hbyte', scanToken_quote hi hbyte,
      createString_append h (hstring rfl), onFile_scanned]
  | blank hc =>
    rw [scanToken_newline hi' (hbyte'.symm ▸ hc), scanToken_newline hi (hbyte.symm ▸ hc), hbyte, hbyte']
    rfl
  | letter ho ha =>
    rw [scanToken_other hi' (hbyte'.symm ▸ ho) (Nat.le_refl i),
      scanToken_other hi (hbyte.symm ▸ ho) (Nat.le_refl i), hbyte, hbyte', if_pos ha, if_pos ha,
      createIdentifer_append hi, onFile_scanned]
  | digit ho hd ha =>
    have hnot : ¬ isalpha c = true := by simp [ha]
    rw [scanToken_other hi' (hbyte'.symm ▸ ho) (Nat.le_refl i),
      scanToken_other hi (hbyte.symm ▸ ho) (Nat.le_refl i), hbyte, hbyte', if_neg hnot, if_neg hnot,
      if_pos hd, if_pos hd, createNumber_append h255 hi, onFile_scanned]
  | unknown ho hd ha =>
    have hnota : ¬ isalpha c = true := by simp [ha]
    have hnotd : ¬ isdigit c = true := by simp [hd]
    have hslice := @slice_append_newline bytes i (i + 1) hi
    rw [scanToken_other hi' (hbyte'.symm ▸ ho) (Nat.le_refl i),
      scanToken_other hi (hbyte.symm ▸ ho) (Nat.le_refl i), hbyte, hbyte', if_neg hnota,
      if_neg hnota, if_neg hnotd, if_neg hnotd, hslice]
    by_cases hlong : maxLexeme ≤ i + 1 - i
    · rw [if_pos hlong]
      rfl
    · rw [if_neg hlong]
      rfl

/-- What a call on the text finds, it finds with the newline behind the text. -/
theorem scanToken_append_ok (h255 : (255 : UInt8) ∉ bytes) (h : bytes.drop i = c :: s)
    (hstring : c = 34 → (34 : UInt8) ∈ s) (hcomment : ¬ EndComment (c :: s)) {temp : Option Token}
    {t : Tokenizer} (hscan : scanToken fuel (window bytes i i line) = .ok (temp, t)) :
    ∃ start' line', i < t.curIdx ∧ t.curIdx ≤ bytes.length ∧ t = window bytes start' t.curIdx line' ∧
      scanToken fuel (window (bytes ++ [10]) i i line) =
        .ok (temp, window (bytes ++ [10]) start' t.curIdx line') := by
  have hmoved := scanToken_moves h255 (lt_of_drop h) temp t hscan
  obtain ⟨start', line', ht⟩ := hmoved.window
  refine ⟨start', line', hmoved.lt, hmoved.le, ht, ?_⟩
  rw [scanToken_append h255 h hstring hcomment, hscan]
  have hstart : t.startIdx = start' := by rw [ht]; rfl
  have hline : t.curLine = line' := by rw [ht]; rfl
  simp only [onFile, Except.map, hstart, hline]

end call

/-! ## Runs -/

section runs
variable {bytes : CString} {fuel : Nat}

/-- Behind the text there is nothing but the newline. -/
theorem tokenizeLoop_newline (n start line : Nat) :
    tokenizeLoop fuel (n + 2) (window (bytes ++ [10]) start bytes.length line) = .ok [eofToken] := by
  have hlen : (bytes ++ [10]).length = bytes.length + 1 := by
    rw [List.length_append, List.length_singleton]
  have hbyte : (bytes ++ [10]).getD bytes.length 0 = 10 := by
    rw [List.getD_append_right _ _ _ _ (Nat.le_refl _), Nat.sub_self]
    rfl
  have hscan := @scanToken_newline (bytes ++ [10]) bytes.length bytes.length line fuel (by omega)
    (by rw [hbyte]; decide)
  rw [tokenizeLoop_turn rfl (by omega) hscan, tokenizeLoop_end rfl (by omega)]
  rfl

/-- **Runs with and without the newline** give the same, if no call sees the difference. -/
theorem tokenizeLoop_append (h255 : (255 : UInt8) ∉ bytes) : ∀ n start i line, i ≤ bytes.length →
    bytes.length + 1 < i + n →
    (∀ calls t, Calls fuel (window bytes start i line) calls t → t.curIdx < t.filesize →
      (∀ s, bytes.drop t.curIdx = 34 :: s → (34 : UInt8) ∈ s) ∧ ¬ EndComment (bytes.drop t.curIdx)) →
    tokenizeLoop fuel n (window (bytes ++ [10]) start i line) =
      tokenizeLoop fuel n (window bytes start i line) := by
  intro n
  induction n with
  | zero => intro start i line hi hn; omega
  | succ n ih =>
    intro start i line hi hn hsafe
    rcases Nat.lt_or_eq_of_le hi with hlt | rfl
    · cases hdrop : bytes.drop i with
      | nil => exact absurd (List.drop_eq_nil_iff.mp hdrop) (by omega)
      | cons c s =>
        obtain ⟨hstring, hcomment⟩ := hsafe [] _ .nil hlt
        rw [window_curIdx, hdrop] at hcomment
        have hquote : c = 34 → (34 : UInt8) ∈ s := fun hc => hstring s (by rw [window_curIdx, hdrop, hc])
        have hlt' : i < (bytes ++ [10]).length := by
          rw [List.length_append]
          omega
        cases hscan : scanToken fuel (window bytes i i line) with
        | error e =>
          have hscan' := @scanToken_append bytes s c i line fuel h255 hdrop hquote hcomment
          rw [hscan] at hscan'
          rw [tokenizeLoop_exit rfl hlt hscan, tokenizeLoop_exit rfl hlt' hscan']
        | ok r =>
          obtain ⟨start', line', hmore, hle, ht, hscan'⟩ :=
            scanToken_append_ok h255 hdrop hquote hcomment hscan
          have hloop := ih start' r.2.curIdx line' hle (by omega) fun calls t hcalls => by
            rw [← ht] at hcalls
            exact hsafe _ t (.cons hlt hscan hcalls)
          rw [tokenizeLoop_turn rfl hlt hscan, tokenizeLoop_turn rfl hlt' hscan', hloop, ← ht]
    · obtain ⟨m, rfl⟩ : ∃ m, n = m + 1 := ⟨n - 1, by omega⟩
      rw [tokenizeLoop_newline, tokenizeLoop_end rfl (Nat.lt_irrefl _)]

/-- The newline ends a comment that nothing else ends. -/
theorem scanToken_endComment {i line : Nat} (h : EndComment (bytes.drop i)) :
    i + 2 ≤ bytes.length ∧ ∃ token, scanToken fuel (window (bytes ++ [10]) i i line) =
      .ok (some token, window (bytes ++ [10]) i bytes.length line) := by
  obtain ⟨text, hdrop, hopen, hfits⟩ := h
  have hnext : bytes.drop (i + 1) = 47 :: text := drop_succ_of_drop hdrop
  have hfile := length_of_drop hnext
  have hi := lt_of_drop hdrop
  have hlen : (bytes ++ [10]).length = bytes.length + 1 := by
    rw [List.length_append, List.length_singleton]
  have hfirst : (bytes ++ [10]).getD i 0 = 47 := by
    rw [List.getD_append _ _ _ _ hi]
    exact getD_of_drop hdrop 0
  have hsecond : (bytes ++ [10]).getD (i + 1) 0 = 47 := by
    rw [List.getD_append _ _ _ _ (by omega)]
    exact getD_of_drop hdrop 1
  have hrun : run (· ≠ 10) (bytes ++ [10]) (i + 2) = text.length := by
    have hall : text.takeWhile (· ≠ 10) = text := List.takeWhile_eq_self_iff.mpr fun c hc => by
      simpa using fun heq : c = 10 => hopen (heq ▸ hc)
    rw [run_append_newline (by decide) (by omega), run, drop_succ_of_drop hnext, hall]
  have hcomment := createCommentToken_window (bytes ++ [10]) i (i + 2) line
  rw [hrun] at hcomment
  simp only at hcomment
  rw [show i + 2 + text.length = bytes.length from by omega, if_pos ⟨by omega, hfits⟩] at hcomment
  refine ⟨by omega, ?_⟩
  rw [scanToken_slash (by omega) hfirst, if_pos hsecond, hcomment]
  exact ⟨_, rfl⟩

/-- Where a call succeeds, no such comment starts. -/
theorem not_endComment_of_ok {i line : Nat} {r : Option Token × Tokenizer}
    (h255 : (255 : UInt8) ∉ bytes) (hfuel : bytes.length < fuel)
    (hscan : scanToken fuel (window bytes i i line) = .ok r) : ¬ EndComment (bytes.drop i) := by
  rintro ⟨text, hdrop, hopen, _⟩
  have herror := (@scanToken_window_overflow_iff _ _ _ i line _ hdrop hfuel h255).mpr
    (.openComment hopen)
  exact absurd (herror.symm.trans hscan) (by simp)

/-- The calls up to such a comment are made with the newline too, and the run then succeeds. -/
theorem tokenizeLoop_endComment (h255 : (255 : UInt8) ∉ bytes) (hfuel : bytes.length < fuel)
    {t t' : Tokenizer} {calls : List Call} (h : Calls fuel t calls t') : ∀ n start line,
      t = window bytes start t.curIdx line → bytes.length + 1 < t.curIdx + n →
      (∀ calls t', Calls fuel t calls t' → t'.curIdx < t'.filesize →
        ∀ s, bytes.drop t'.curIdx = 34 :: s → (34 : UInt8) ∈ s) →
      EndComment (bytes.drop t'.curIdx) →
      ∃ tokens, tokenizeLoop fuel n (window (bytes ++ [10]) start t.curIdx line) = .ok tokens := by
  have hlen : (bytes ++ [10]).length = bytes.length + 1 := by
    rw [List.length_append, List.length_singleton]
  induction h with
  | @nil t =>
    intro n start line ht hn _ hend
    obtain ⟨hle, token, hscan⟩ := @scanToken_endComment bytes fuel t.curIdx line hend
    obtain ⟨m, rfl⟩ : ∃ m, n = m + 2 + 1 := ⟨n - 3, by omega⟩
    rw [tokenizeLoop_turn rfl (by omega) hscan, tokenizeLoop_newline]
    exact ⟨_, rfl⟩
  | @cons t t₁ t₂ temp calls hlt hscan hrest ih =>
    intro n start line ht hn hclosed hend
    have hi := lt_of_window ht hlt
    have hcall := hscan
    rw [turn_of_window ht] at hscan
    have hcomment := not_endComment_of_ok h255 hfuel hscan
    cases hdrop : bytes.drop t.curIdx with
    | nil => exact absurd (List.drop_eq_nil_iff.mp hdrop) (by omega)
    | cons c s =>
      rw [hdrop] at hcomment
      have hquote : c = 34 → (34 : UInt8) ∈ s := fun hc => hclosed [] t .nil hlt s (hc ▸ hdrop)
      obtain ⟨start', line', hmore, hle, ht₁, hscan'⟩ :=
        scanToken_append_ok h255 hdrop hquote hcomment hscan
      obtain ⟨m, rfl⟩ : ∃ m, n = m + 1 := ⟨n - 1, by omega⟩
      obtain ⟨tokens, hloop⟩ := ih m start' line' ht₁ (by omega)
        (fun calls t' hcalls => hclosed _ t' (.cons hlt hcall hcalls)) hend
      rw [tokenizeLoop_turn rfl (by omega) hscan', hloop]
      exact ⟨_, rfl⟩

/-- The text of a file without the byte `0xFF`. -/
theorem sourceInit_eq (h255 : (255 : UInt8) ∉ bytes) : sourceInit bytes = window bytes 0 0 1 := by
  rw [sourceInit, sourceText_eq_self h255, tokenizerInit_eq]

end runs

end ACompiler
