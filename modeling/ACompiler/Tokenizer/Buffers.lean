import ACompiler.Tokenizer.Correct
import ACompiler.Tokenizer.Source

/-!
# Lexeme buffers

A lexeme has `MAX_LEXEME` bytes, its terminator included, and neither `getCurWord` nor
`createCommentToken` looks at that. `Overlong` are the words that do not fit; a buffer is overrun
exactly where one of them is scanned (`lexemeBuffers_iff`).
-/

namespace ACompiler

open Tokenizer

/-- A decimal point, and a digit behind it. -/
def decimalPart : CString → Bool
  | 46 :: d :: _ => isdigit d
  | _ => false

/-- The text starts with a word that does not fit into a lexeme, or with a comment that no newline
ends. A number with a decimal part is none of them: the loop over that part does not end. -/
inductive Overlong : CString → Prop
  | name {c : UInt8} {s : CString} (hc : isalpha c = true)
      (h : maxLexeme ≤ (c :: s.takeWhile inWord).length) : Overlong (c :: s)
  | number {c : UInt8} {s : CString} (hc : isdigit c = true)
      (hpoint : decimalPart (s.dropWhile inNumber) = false)
      (h : maxLexeme ≤ (c :: s.takeWhile inNumber).length) : Overlong (c :: s)
  | string {s : CString} (hclosed : (s.dropWhile inString).head? = some 34)
      (h : maxLexeme ≤ (s.takeWhile inString).length) : Overlong (34 :: s)
  | openString {s : CString} (hopen : (s.dropWhile inString).head? ≠ some 34)
      (h : maxLexeme ≤ (34 :: s.takeWhile inString).length) : Overlong (34 :: s)
  | comment {s : CString} (h : maxLexeme ≤ (s.takeWhile (· ≠ 10)).length) : Overlong (47 :: 47 :: s)
  | openComment {s : CString} (h : (10 : UInt8) ∉ s) : Overlong (47 :: 47 :: s)

/-! ## Words by their first byte -/

section words
variable {c : UInt8} {s : CString}

/-- A long word starts with a letter, a digit, a quote or a slash. -/
theorem Overlong.first (h : Overlong (c :: s)) :
    isalpha c = true ∨ isdigit c = true ∨ c = 34 ∨ c = 47 := by
  cases h with
  | name hc _ => exact .inl hc
  | number hc _ _ => exact .inr (.inl hc)
  | string _ _ => exact .inr (.inr (.inl rfl))
  | openString _ _ => exact .inr (.inr (.inl rfl))
  | comment _ => exact .inr (.inr (.inr rfl))
  | openComment _ => exact .inr (.inr (.inr rfl))

theorem overlong_letter (ha : isalpha c = true) :
    Overlong (c :: s) ↔ maxLexeme ≤ (c :: s.takeWhile inWord).length := by
  refine ⟨fun h => ?_, .name ha⟩
  cases h with
  | name _ h => exact h
  | number hd _ _ => exact absurd (isdigit_of_isalpha ha) (by simp [hd])
  | string _ _ => exact absurd ha (by decide)
  | openString _ _ => exact absurd ha (by decide)
  | comment _ => exact absurd ha (by decide)
  | openComment _ => exact absurd ha (by decide)

theorem overlong_digit (hd : isdigit c = true) :
    Overlong (c :: s) ↔ decimalPart (s.dropWhile inNumber) = false ∧
      maxLexeme ≤ (c :: s.takeWhile inNumber).length := by
  refine ⟨fun h => ?_, fun h => .number hd h.1 h.2⟩
  cases h with
  | name ha _ => exact absurd (isdigit_of_isalpha ha) (by simp [hd])
  | number _ hpoint h => exact ⟨hpoint, h⟩
  | string _ _ => exact absurd hd (by decide)
  | openString _ _ => exact absurd hd (by decide)
  | comment _ => exact absurd hd (by decide)
  | openComment _ => exact absurd hd (by decide)

theorem overlong_quote :
    Overlong (34 :: s) ↔ if (s.dropWhile inString).head? = some 34 then
      maxLexeme ≤ (s.takeWhile inString).length
    else maxLexeme ≤ (34 :: s.takeWhile inString).length := by
  constructor
  · intro h
    cases h with
    | name ha _ => exact absurd ha (by decide)
    | number hd _ _ => exact absurd hd (by decide)
    | string hclosed h => rwa [if_pos hclosed]
    | openString hopen h => rwa [if_neg hopen]
  · intro h
    by_cases hclosed : (s.dropWhile inString).head? = some 34
    · rw [if_pos hclosed] at h
      exact .string hclosed h
    · rw [if_neg hclosed] at h
      exact .openString hclosed h

theorem overlong_comment :
    Overlong (47 :: 47 :: s) ↔ maxLexeme ≤ (s.takeWhile (· ≠ 10)).length ∨ (10 : UInt8) ∉ s := by
  constructor
  · intro h
    cases h with
    | name ha _ => exact absurd ha (by decide)
    | number hd _ _ => exact absurd hd (by decide)
    | comment h => exact .inl h
    | openComment h => exact .inr h
  · rintro (h | h)
    · exact .comment h
    · exact .openComment h

theorem not_overlong_divide (hs : ¬ ∃ l, s = 47 :: l) : ¬ Overlong (47 :: s) := by
  intro h
  cases h with
  | name ha _ => exact absurd ha (by decide)
  | number hd _ _ => exact absurd hd (by decide)
  | comment _ => exact hs ⟨_, rfl⟩
  | openComment _ => exact hs ⟨_, rfl⟩

end words

/-! ## Scans -/

theorem scanned_error_iff {r : Except ScanError (Token × Tokenizer)} {e : ScanError} :
    scanned r = .error e ↔ r = .error e := by
  cases r with
  | error e' => simp [scanned, Except.map]
  | ok p => simp [scanned, Except.map]

section scans
variable {bytes s : CString} {c : UInt8} {start i j line fuel : Nat}

theorem createToken_overflow_iff {type : TokenType} (hs : start ≤ j) (hj : j ≤ bytes.length) :
    scanned (createToken type (window bytes start j line)) = .error .overflow ↔
      maxLexeme ≤ j - start := by
  rw [scanned_error_iff, createToken_window type hs hj]
  by_cases hlen : maxLexeme ≤ j - start
  · rw [if_pos hlen]
    exact ⟨fun _ => hlen, fun _ => rfl⟩
  · rw [if_neg hlen]
    exact ⟨fun h => absurd h (by simp), fun h => absurd h hlen⟩

/-- A word of one or two bytes fits. -/
theorem createToken_short {type : TokenType} (hs : i ≤ j) (hj : j ≤ bytes.length) (hlen : j ≤ i + 2) :
    scanned (createToken type (window bytes i j line)) ≠ .error .overflow := by
  intro h
  have hlong := (createToken_overflow_iff hs hj).mp h
  have htwo := two_lt_maxLexeme
  omega

variable (h : bytes.drop i = c :: s) (hfuel : bytes.length < fuel)
include h hfuel

theorem createIdentifer_overflow_iff :
    scanned (createIdentifer fuel (window bytes i (i + 1) line)) = .error .overflow ↔
      maxLexeme ≤ (c :: s.takeWhile inWord).length := by
  have hfile := length_of_drop h
  have hprefix := (List.takeWhile_prefix inWord (l := s)).length_le
  rw [createIdentifer_window (Nat.le_succ i) (lt_of_drop h), run_of_drop h, if_pos (by omega),
    createToken_overflow_iff (by omega) (by omega), List.length_cons]
  omega

omit hfuel in
/-- What is behind the digits and separators of a number. -/
theorem decimalPart_behind :
    bytes.getD (i + 1 + (s.takeWhile inNumber).length) 0 = 46 ∧
        isdigit (bytes.getD (i + 1 + (s.takeWhile inNumber).length + 1) 0) = true ↔
      decimalPart (s.dropWhile inNumber) = true := by
  rw [getD_behind h inNumber 1,
    show bytes.getD (i + 1 + (s.takeWhile inNumber).length) 0 = (s.dropWhile inNumber).getD 0 0 from
      getD_behind h inNumber 0]
  unfold decimalPart
  split
  · next d rest heq => simp [heq]
  · next hnot =>
    cases hrest : s.dropWhile inNumber with
    | nil => simp
    | cons p rest =>
      cases rest with
      | nil => simp [isdigit]
      | cons d rest =>
        refine iff_of_false (fun hp => ?_) (by simp)
        have hp46 : p = 46 := hp.1
        exact hnot d rest (by rw [hrest, hp46])

omit hfuel in
/-- The loop over a decimal part does not end. -/
theorem createNumber_decimal (h255 : (255 : UInt8) ∉ bytes)
    (hpoint : decimalPart (s.dropWhile inNumber) = true) :
    createNumber fuel (window bytes i (i + 1) line) = .error .outOfFuel := by
  rw [createNumber_window h255 (Nat.le_succ i) (lt_of_drop h), run_of_drop h]
  simp only
  rw [if_pos ((decimalPart_behind h).mpr hpoint), ite_self]

theorem createNumber_whole (h255 : (255 : UInt8) ∉ bytes)
    (hpoint : decimalPart (s.dropWhile inNumber) = false) :
    createNumber fuel (window bytes i (i + 1) line) =
      createToken .tNumberLit (window bytes i (i + (c :: s.takeWhile inNumber).length) line) := by
  have hfile := length_of_drop h
  have hprefix := (List.takeWhile_prefix inNumber (l := s)).length_le
  have hnot := mt (decimalPart_behind h).mp (by simp [hpoint])
  rw [createNumber_window h255 (by omega) (lt_of_drop h), run_of_drop h]
  simp only
  rw [if_pos (by omega), if_neg hnot, List.length_cons,
    show i + ((s.takeWhile inNumber).length + 1) = i + 1 + (s.takeWhile inNumber).length from by
      omega]

theorem createNumber_overflow_iff (h255 : (255 : UInt8) ∉ bytes) :
    scanned (createNumber fuel (window bytes i (i + 1) line)) = .error .overflow ↔
      decimalPart (s.dropWhile inNumber) = false ∧
        maxLexeme ≤ (c :: s.takeWhile inNumber).length := by
  have hfile := length_of_drop h
  have hprefix := (List.takeWhile_prefix inNumber (l := s)).length_le
  cases hpoint : decimalPart (s.dropWhile inNumber) with
  | true =>
    rw [createNumber_decimal h h255 hpoint, scanned_error_iff]
    exact iff_of_false (by simp) (by simp)
  | false =>
    rw [createNumber_whole h hfuel h255 hpoint,
      createToken_overflow_iff (by omega) (by rw [List.length_cons]; omega)]
    simp only [true_and, Nat.add_sub_cancel_left]

theorem createString_overflow_iff :
    scanned (createString fuel (window bytes i (i + 1) line)) = .error .overflow ↔
      if (s.dropWhile inString).head? = some 34 then maxLexeme ≤ (s.takeWhile inString).length
      else maxLexeme ≤ (34 :: s.takeWhile inString).length := by
  have hfile := length_of_drop h
  have hprefix := (List.takeWhile_prefix inString (l := s)).length_le
  have hend : bytes.getD (i + 1 + (s.takeWhile inString).length) 0 =
      (s.dropWhile inString).getD 0 0 := getD_behind h inString 0
  rw [createString_window (by omega) (lt_of_drop h), run_of_drop h]
  simp only
  rw [if_pos (by omega), hend]
  rcases dropWhile_inString s with ⟨hopen, hnone⟩ | ⟨rest, hclosed⟩
  · rw [if_pos hopen, if_neg hnone, createToken_overflow_iff (by omega) (by omega), List.length_cons]
    omega
  · have hnot : (s.dropWhile inString).getD 0 0 ≠ 0 := by simp [hclosed]
    have hhead : (s.dropWhile inString).head? = some 34 := by simp [hclosed]
    rw [if_neg hnot, if_pos hhead, scanned_error_iff]
    by_cases hlen : maxLexeme ≤ i + 1 + (s.takeWhile inString).length - (i + 1)
    · rw [if_pos hlen]
      exact iff_of_true rfl (by omega)
    · rw [if_neg hlen]
      exact iff_of_false (by simp) (by omega)

omit hfuel h in
theorem createCommentToken_overflow_iff (h : bytes.drop i = 47 :: 47 :: s) :
    scanned (createCommentToken (window bytes i (i + 2) line)) = .error .overflow ↔
      maxLexeme ≤ (s.takeWhile (· ≠ 10)).length ∨ (10 : UInt8) ∉ s := by
  have hnext : bytes.drop (i + 1) = 47 :: s := drop_succ_of_drop h
  have hfile := length_of_drop hnext
  have hrun : run (· ≠ 10) bytes (i + 2) = (s.takeWhile (· ≠ 10)).length :=
    run_of_drop hnext (· ≠ 10)
  rw [scanned_error_iff, createCommentToken_window, hrun]
  simp only
  rcases dropWhile_newline s with ⟨hopen, hlen⟩ | ⟨hmem, rest, _, hlen⟩
  · rw [if_neg (by omega)]
    exact iff_of_true rfl (.inr hopen)
  · by_cases hlong : maxLexeme ≤ (s.takeWhile (· ≠ 10)).length
    · rw [if_neg (by omega)]
      exact iff_of_true rfl (.inl hlong)
    · rw [if_pos ⟨by omega, by omega⟩]
      exact iff_of_false (by simp) (not_or.mpr ⟨hlong, not_not.mpr hmem⟩)

/-- **A scan overruns a buffer exactly at a long word.** -/
theorem scanToken_window_overflow_iff (h255 : (255 : UInt8) ∉ bytes) :
    scanToken fuel (window bytes i i line) = .error .overflow ↔ Overlong (c :: s) := by
  have hi := lt_of_drop h
  have hlen := length_of_drop h
  have hbyte : bytes.getD i 0 = c := getD_of_drop h 0
  have hshort (hnot : ¬ Overlong (c :: s)) {type : TokenType} :
      scanned (createToken type (window bytes i (i + 1) line)) = .error .overflow ↔
        Overlong (c :: s) :=
    iff_of_false (createToken_short (by omega) hi (by omega)) hnot
  cases firstByte c with
  | single hc =>
    have hnot : ¬ Overlong (c :: s) := fun hlong => by
      have hfirst := hlong.first
      simp only [singles, List.mem_cons, Prod.mk.injEq, List.not_mem_nil, or_false] at hc
      rcases hc with ⟨rfl, _⟩ | ⟨rfl, _⟩ | ⟨rfl, _⟩ | ⟨rfl, _⟩ | ⟨rfl, _⟩ | ⟨rfl, _⟩ | ⟨rfl, _⟩ |
        ⟨rfl, _⟩ | ⟨rfl, _⟩ | ⟨rfl, _⟩ | ⟨rfl, _⟩ | ⟨rfl, _⟩ <;> exact absurd hfirst (by decide)
    rw [scanToken_single hi (hbyte.symm ▸ hc)]
    exact hshort hnot
  | @pair second pair single hc =>
    have hnot : ¬ Overlong (c :: s) := fun hlong => by
      have hfirst := hlong.first
      simp only [pairs, List.mem_cons, Prod.mk.injEq, List.not_mem_nil, or_false] at hc
      rcases hc with ⟨rfl, _⟩ | ⟨rfl, _⟩ | ⟨rfl, _⟩ | ⟨rfl, _⟩ | ⟨rfl, _⟩ | ⟨rfl, _⟩ <;>
        exact absurd hfirst (by decide)
    rw [scanToken_pair hi (hbyte.symm ▸ hc)]
    by_cases hsecond : bytes.getD (i + 1) 0 = second
    · obtain ⟨l, rfl⟩ := (second_iff (ne_zero_of_pair hc) h).mp hsecond
      rw [List.length_cons] at hlen
      rw [if_pos hsecond]
      exact iff_of_false (createToken_short (by omega) (by omega) (by omega)) hnot
    · rw [if_neg hsecond]
      exact hshort hnot
  | slash hc =>
    subst hc
    rw [scanToken_slash hi hbyte]
    have hcomment := @second_iff bytes i s 47 47 (by decide) h
    by_cases hsecond : bytes.getD (i + 1) 0 = 47
    · obtain ⟨l, rfl⟩ := hcomment.mp hsecond
      rw [if_pos hsecond, overlong_comment]
      exact createCommentToken_overflow_iff h
    · rw [if_neg hsecond]
      exact hshort (not_overlong_divide (mt hcomment.mpr hsecond))
  | quote hc =>
    subst hc
    rw [scanToken_quote hi hbyte, overlong_quote]
    exact createString_overflow_iff h hfuel
  | blank hc =>
    have hnot : ¬ Overlong (c :: s) := fun hlong => by
      have hfirst := hlong.first
      simp only [blanks, List.mem_cons, List.not_mem_nil, or_false] at hc
      rcases hc with rfl | rfl | rfl | rfl <;> exact absurd hfirst (by decide)
    rw [scanToken_newline hi (hbyte.symm ▸ hc)]
    exact iff_of_false (by simp) hnot
  | letter ho ha =>
    rw [scanToken_other hi (hbyte.symm ▸ ho) (Nat.le_refl i), hbyte, if_pos ha, overlong_letter ha]
    exact createIdentifer_overflow_iff h hfuel
  | digit ho hd ha =>
    rw [scanToken_other hi (hbyte.symm ▸ ho) (Nat.le_refl i), hbyte, ha, if_neg (by simp), if_pos hd,
      overlong_digit hd]
    exact createNumber_overflow_iff h hfuel h255
  | unknown ho hd ha =>
    have hnot : ¬ Overlong (c :: s) := fun hlong => by
      rcases hlong.first with hfirst | hfirst | rfl | rfl
      · simp [ha] at hfirst
      · simp [hd] at hfirst
      · exact absurd ho (by decide)
      · exact absurd ho (by decide)
    rw [scanToken_other hi (hbyte.symm ▸ ho) (Nat.le_refl i), hbyte, ha, hd, if_neg (by simp),
      if_neg (by simp), if_neg (by rw [Nat.add_sub_cancel_left]; decide)]
    exact iff_of_false (by simp) hnot

end scans

/-! ## Runs -/

section runs
variable {bytes : CString} {fuel : Nat}

/-- In a run, a call overruns a buffer exactly where the rest of the text starts with a long word. -/
theorem Calls.overflow_iff {t : Tokenizer} {calls : List Call} (hfuel : bytes.length < fuel)
    (hcalls : Calls fuel (sourceInit bytes) calls t) (hlt : t.curIdx < t.filesize) :
    scanToken fuel { t with startIdx := t.curIdx } = .error .overflow ↔
      Overlong ((sourceText bytes).drop t.curIdx) := by
  obtain ⟨hsize, _, calls', start, line, hle, _, hcut, _⟩ := hcalls.source
  have hlen := sourceText_length_le bytes
  have hscan := (hcut.moveStart (Nat.le_refl _) hcut.curIdx).scanToken fuel hlt
  rw [hscan.error_iff]
  cases hdrop : (sourceText bytes).drop t.curIdx with
  | nil =>
    rw [List.drop_eq_nil_iff] at hdrop
    omega
  | cons c s =>
    exact scanToken_window_overflow_iff hdrop (by omega) (not_mem_sourceText bytes)

end runs

/-- A name of `n` letters. -/
def nameOf (n : Nat) : CString := List.replicate n 97

end ACompiler
