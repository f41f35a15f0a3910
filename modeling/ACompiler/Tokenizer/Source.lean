import ACompiler.Lib.Agree
import ACompiler.Tokenizer.Coverage

/-!
# Sources

A source is any file. `main` passes the number of bytes before the first `0xFF` on, and the tokenizer
never looks at what is behind them: a run on the file is a run on the text before that byte
(`tokenizeSource_eq`, `Calls.cut`).
-/

namespace ACompiler

open Tokenizer
open Lib (Agree)

/-- The bytes before the first `0xFF`. -/
def sourceText (bytes : CString) : CString := bytes.takeWhile (· ≠ 255)

/-- The tokens of a file, with the count that `main` takes. -/
def tokenizeSource (fuel : Nat) (bytes : CString) : Except ScanError (List Token) :=
  match getFileCharCount (bytes.length + 1) (.fopen bytes) with
  | none => .error .outOfFuel
  | some (count, file) => tokenize fuel file count

theorem not_mem_sourceText (bytes : CString) : (255 : UInt8) ∉ sourceText bytes := by
  intro h
  have hne := List.mem_takeWhile_imp h
  simp at hne

theorem sourceText_eq_take (bytes : CString) :
    sourceText bytes = bytes.take (sourceText bytes).length :=
  List.prefix_iff_eq_take.mp (List.takeWhile_prefix _)

theorem sourceText_length_le (bytes : CString) : (sourceText bytes).length ≤ bytes.length :=
  (List.takeWhile_prefix _).length_le

theorem sourceText_eq_self {bytes : CString} (h255 : (255 : UInt8) ∉ bytes) :
    sourceText bytes = bytes := by
  refine List.takeWhile_eq_self_iff.mpr fun c hc => ?_
  have hne : c ≠ 255 := fun heq => h255 (heq ▸ hc)
  simpa using hne

theorem getElem?_sourceText {bytes : CString} {i : Nat} (h : i < (sourceText bytes).length) :
    (sourceText bytes)[i]? = bytes[i]? := by
  rw [sourceText_eq_take, List.getElem?_take_of_lt h]

/-- Up to the end of the text, a read of the file gives the same `char`. -/
theorem toChar_sourceText {bytes : CString} {i : Nat} (h : i ≤ (sourceText bytes).length) :
    toChar (sourceText bytes)[i]? = toChar bytes[i]? := by
  rcases Nat.lt_or_eq_of_le h with hlt | rfl
  · rw [getElem?_sourceText hlt]
  · rw [List.getElem?_eq_none (Nat.le_refl _)]
    have hsplit : (sourceText bytes ++ bytes.dropWhile (· ≠ 255))[(sourceText bytes).length]? =
        bytes[(sourceText bytes).length]? := by
      rw [sourceText, List.takeWhile_append_dropWhile]
    rw [List.getElem?_append_right (Nat.le_refl _), Nat.sub_self, ← List.head?_eq_getElem?] at hsplit
    rw [← hsplit]
    cases hdrop : (bytes.dropWhile (· ≠ 255)).head? with
    | none => rfl
    | some c =>
      have hnot := List.head?_dropWhile_not (· ≠ (255 : UInt8)) bytes
      rw [hdrop] at hnot
      have hc : c = 255 := by simpa using hnot
      rw [hc]
      rfl

/-! ## The run on the text -/

/-- The same state, on a file and on its text. -/
structure Cut (bytes : CString) (t t' : Tokenizer) : Prop where
  rest : { t with sourcefile := t'.sourcefile } = t'
  file : File.At bytes (min (t.curIdx + 1) bytes.length) t.sourcefile
  file' : File.At (sourceText bytes) (min (t.curIdx + 1) (sourceText bytes).length) t'.sourcefile
  size : t.filesize = (sourceText bytes).length
  le : t.curIdx ≤ (sourceText bytes).length
  started : t.startIdx ≤ t.curIdx
  cur : t.cur = toChar bytes[t.curIdx]?

/-- The same results, on a file and on its text. -/
abbrev CutResult (bytes : CString) {α : Type} (x y : Except ScanError (α × Tokenizer)) : Prop :=
  Agree (fun a b => a.1 = b.1 ∧ Cut bytes a.2 b.2) x y

namespace Cut

variable {bytes : CString} {t t' : Tokenizer}

theorem filesize (h : Cut bytes t t') : t'.filesize = t.filesize := by rw [← h.rest]

theorem curIdx (h : Cut bytes t t') : t'.curIdx = t.curIdx := by rw [← h.rest]

theorem startIdx (h : Cut bytes t t') : t'.startIdx = t.startIdx := by rw [← h.rest]

theorem curLine (h : Cut bytes t t') : t'.curLine = t.curLine := by rw [← h.rest]

theorem peek (h : Cut bytes t t') : t'.peek = t.peek := by
  rw [← h.rest]
  rfl

/-- The start of the word is moved. -/
theorem moveStart (h : Cut bytes t t') {j j' : Nat} (hj : j ≤ t.curIdx) (heq : j' = j) :
    Cut bytes { t with startIdx := j } { t' with startIdx := j' } := by
  subst heq
  refine ⟨?_, h.file, ?_, h.size, h.le, hj, h.cur⟩
  · rw [← h.rest]
  · rw [← h.rest]
    exact h.file'

theorem newlines (h : Cut bytes t t') (k : Nat) :
    Cut bytes { t with curLine := t.curLine + k } { t' with curLine := t'.curLine + k } := by
  refine ⟨?_, h.file, ?_, h.size, h.le, h.started, h.cur⟩
  · rw [← h.rest]
  · rw [← h.rest]
    exact h.file'

theorem advance (h : Cut bytes t t') (hlt : t.curIdx < t.filesize) :
    t'.advance.1 = t.advance.1 ∧ Cut bytes t.advance.2 t'.advance.2 := by
  have hsize := h.size
  have hlen := sourceText_length_le bytes
  have hfile := h.file
  have hfile' := h.file'
  rw [Nat.min_eq_left (by omega)] at hfile hfile'
  have hget := advance_of_at hfile (by omega)
  have hget' := advance_of_at hfile' (by omega)
  have hcur : t'.cur = t.cur := by rw [← h.rest]
  have hle : t.curIdx + 1 ≤ (sourceText bytes).length := by omega
  rw [hget, hget', hcur]
  refine ⟨rfl, ?_, .plain, ?_, hsize, hle, Nat.le_succ_of_le h.started, rfl⟩
  · rw [← toChar_sourceText hle, ← h.rest]
  · exact .plain

/-- `peekNext` sees the same byte. -/
theorem peekNext (h : Cut bytes t t') :
    t'.peekNext.1 = t.peekNext.1 ∧ Cut bytes t.peekNext.2 t'.peekNext.2 ∧
      t.peekNext.2.curIdx = t.curIdx ∧ t.peekNext.2.filesize = t.filesize := by
  by_cases hlt : t.filesize ≤ t.curIdx + 1
  · have hstay : t.peekNext = (0, t) := by rw [Tokenizer.peekNext, if_pos hlt]
    have hstay' : t'.peekNext = (0, t') := by
      rw [Tokenizer.peekNext, h.filesize, h.curIdx, if_pos hlt]
    rw [hstay, hstay']
    exact ⟨rfl, h, rfl, rfl⟩
  · have hsize := h.size
    have hlen := sourceText_length_le bytes
    have hnext : t.curIdx + 1 < (sourceText bytes).length := by omega
    have hfile := h.file
    have hfile' := h.file'
    rw [Nat.min_eq_left (by omega)] at hfile hfile'
    have hbyte := getElem?_sourceText hnext
    have hsome := List.getElem?_eq_getElem hnext
    have hne : (sourceText bytes)[t.curIdx + 1] ≠ 255 := fun heq =>
      not_mem_sourceText bytes (heq ▸ List.getElem_mem hnext)
    obtain ⟨f, hf, hpeek⟩ := peekNext_of_at hfile (by omega) (hbyte.symm.trans hsome) hne
    obtain ⟨f', hf', hpeek'⟩ := peekNext_of_at hfile' (by rw [h.filesize, h.curIdx]; omega) hsome hne
    rw [hpeek, hpeek']
    refine ⟨rfl, ⟨?_, ?_, ?_, hsize, h.le, h.started, h.cur⟩, rfl, rfl⟩
    · rw [← h.rest]
    · show File.At bytes (min (t.curIdx + 1) bytes.length) f
      rw [Nat.min_eq_left (by omega)]
      exact hf
    · show File.At (sourceText bytes) (min (t.curIdx + 1) (sourceText bytes).length) f'
      rw [Nat.min_eq_left (by omega)]
      exact hf'

theorem matchChar (h : Cut bytes t t') (c : UInt8) :
    (t'.matchChar c).1 = (t.matchChar c).1 ∧ Cut bytes (t.matchChar c).2 (t'.matchChar c).2 := by
  have hcur : t'.cur = t.cur := by rw [← h.rest]
  unfold Tokenizer.matchChar
  rw [h.filesize, h.curIdx, hcur]
  by_cases hend : t.filesize ≤ t.curIdx
  · rw [if_pos hend, if_pos hend]
    exact ⟨rfl, h⟩
  · rw [if_neg hend, if_neg hend]
    by_cases hc : t.cur ≠ c
    · rw [if_pos hc, if_pos hc]
      exact ⟨rfl, h⟩
    · rw [if_neg hc, if_neg hc]
      exact ⟨rfl, (h.advance (Nat.not_le.mp hend)).2⟩

/-- `getCurWord` reads the same word. -/
theorem getCurWord (h : Cut bytes t t') : CutResult bytes t.getCurWord t'.getCurWord := by
  have hlen := sourceText_length_le bytes
  have hword : ((sourceText bytes).drop t.startIdx).take (t.curIdx - t.startIdx) =
      (bytes.drop t.startIdx).take (t.curIdx - t.startIdx) := by
    rw [sourceText_eq_take, List.drop_take, List.take_take]
    have := h.le
    rw [Nat.min_eq_left (by omega)]
  have hread := File.fread_eq bytes (t.curIdx - t.startIdx) t.startIdx (by
    have := h.le
    have := h.started
    omega)
  have hread' := File.fread_eq (sourceText bytes) (t.curIdx - t.startIdx) t.startIdx (by
    have := h.le
    have := h.started
    omega)
  unfold Tokenizer.getCurWord
  rw [h.startIdx, h.curIdx]
  simp only [h.file.fseek, h.file'.fseek, h.file.ftell, h.file'.ftell, hread, hread', hword]
  by_cases hlong : maxLexeme ≤ t.curIdx - t.startIdx
  · rw [if_pos hlong, if_pos hlong]
    exact .error _
  · rw [if_neg hlong, if_neg hlong]
    by_cases hshort :
        ((bytes.drop t.startIdx).take (t.curIdx - t.startIdx)).length < t.curIdx - t.startIdx
    · rw [if_pos hshort, if_pos hshort]
      exact .error _
    · rw [if_neg hshort, if_neg hshort]
      refine .ok ⟨rfl, ?_, .plain, .plain, h.size, h.le, h.started, h.cur⟩
      rw [← h.rest]

theorem createToken (h : Cut bytes t t') (type : TokenType) :
    CutResult bytes (Tokenizer.createToken type t) (Tokenizer.createToken type t') := by
  refine Agree.bind h.getCurWord ?_
  rintro ⟨word, t₁⟩ ⟨word', t₁'⟩ ⟨hword, hcut⟩
  refine .ok ⟨?_, hcut⟩
  simp only at hword hcut ⊢
  rw [hcut.curIdx, hcut.startIdx, hcut.curLine, hword]

/-- The states behind a loop, which has left the start of the word alone and moved on. -/
structure Loop (bytes : CString) (t₀ t t' : Tokenizer) : Prop where
  cut : Cut bytes t t'
  start : t.startIdx = t₀.startIdx
  moved : t₀.curIdx ≤ t.curIdx

theorem lt_of_peek {t : Tokenizer} (h : t.peek ≠ 0) : t.curIdx < t.filesize := by
  by_contra hge
  exact h (by rw [Tokenizer.peek, if_pos (Nat.not_lt.mp hge)])

theorem advanceWhile {test : UInt8 → Bool} (h0 : test 0 = false) : ∀ (fuel : Nat) {t t' : Tokenizer},
    Cut bytes t t' → Agree (Loop bytes t) (Tokenizer.advanceWhile test fuel t)
      (Tokenizer.advanceWhile test fuel t') := by
  intro fuel
  induction fuel with
  | zero => exact fun _ => .error _
  | succ fuel ih =>
    intro t t' h
    rw [Tokenizer.advanceWhile, Tokenizer.advanceWhile, h.peek]
    by_cases htest : test t.peek = true
    · have hlt : t.curIdx < t.filesize := lt_of_peek fun hpeek => by
        rw [hpeek, h0] at htest
        exact absurd htest (by simp)
      rw [if_pos htest, if_pos htest]
      exact (ih (h.advance hlt).2).mono fun a b hab =>
        ⟨hab.cut, hab.start, Nat.le_of_succ_le hab.moved⟩
    · rw [if_neg htest, if_neg htest]
      exact .ok ⟨h, rfl, Nat.le_refl _⟩

theorem createIdentifer (fuel : Nat) (h : Cut bytes t t') :
    CutResult bytes (Tokenizer.createIdentifer fuel t) (Tokenizer.createIdentifer fuel t') := by
  refine Agree.bind (advanceWhile (by decide) fuel h) fun t₁ t₁' h₁ => ?_
  refine Agree.bind h₁.cut.getCurWord ?_
  rintro ⟨buf, t₂⟩ ⟨buf', t₂'⟩ ⟨hbuf, hcut⟩
  obtain rfl : buf = buf' := hbuf
  cases htype : tokenHash.getHt buf with
  | none =>
    simp only [htype]
    exact hcut.createToken .tIdentifier
  | some type =>
    simp only [htype]
    exact hcut.createToken type

/-- `createToken` moves the file only. -/
theorem createToken_keeps {type : TokenType} {t : Tokenizer} {r : Token × Tokenizer}
    (h : Tokenizer.createToken type t = .ok r) :
    r.2.curIdx = t.curIdx ∧ r.2.filesize = t.filesize := by
  unfold Tokenizer.createToken Tokenizer.getCurWord at h
  simp only [bind, Except.bind] at h
  split at h
  · exact absurd h (by simp)
  · rename_i word hword
    split at hword
    · exact absurd hword (by simp)
    · split at hword
      · exact absurd hword (by simp)
      · rw [← Except.ok.inj h, ← Except.ok.inj hword]
        exact ⟨rfl, rfl⟩

theorem createString (fuel : Nat) (h : Cut bytes t t') (hs : t.startIdx < t.curIdx) :
    CutResult bytes (Tokenizer.createString fuel t) (Tokenizer.createString fuel t') := by
  refine Agree.bind (advanceWhile (by decide) fuel h) fun t₁ t₁' h₁ => ?_
  simp only
  rw [h₁.cut.peek]
  by_cases hend : t₁.peek = 0
  · rw [if_pos hend, if_pos hend]
    exact h₁.cut.createToken .tUnknown
  · rw [if_neg hend, if_neg hend]
    have hlt := lt_of_peek hend
    have hstart : t₁.startIdx + 1 ≤ t₁.curIdx := by
      have := h₁.start
      have := h₁.moved
      omega
    have hmove := h₁.cut.moveStart hstart (congrArg (· + 1) h₁.cut.startIdx)
    refine Agree.bind_of_ok (hmove.createToken .tStringLit) ?_
    rintro ⟨temp, t₂⟩ ⟨temp', t₂'⟩ hok ⟨htemp, hcut⟩
    obtain ⟨hidx, hsize⟩ := createToken_keeps hok
    refine .ok ⟨htemp, (hcut.advance ?_).2⟩
    simp only at hidx hsize ⊢
    omega

theorem advanceDigits (p : UInt8) (fuel : Nat) (h : Cut bytes t t') :
    Agree (Cut bytes) (Tokenizer.advanceDigits p fuel t) (Tokenizer.advanceDigits p fuel t') := by
  by_cases hp : isdigit p = true
  · rw [advanceDigits_of_digit hp, advanceDigits_of_digit hp]
    exact .error _
  · cases fuel with
    | zero => exact .error _
    | succ fuel =>
      rw [Tokenizer.advanceDigits, Tokenizer.advanceDigits, if_neg hp, if_neg hp]
      exact .ok h

theorem createNumber (fuel : Nat) (h : Cut bytes t t') :
    CutResult bytes (Tokenizer.createNumber fuel t) (Tokenizer.createNumber fuel t') := by
  refine Agree.bind (advanceWhile (by decide) fuel h) fun t₁ t₁' h₁ => ?_
  simp only
  rw [h₁.cut.peek]
  by_cases hdot : t₁.peek = 46
  · have hlt : t₁.curIdx < t₁.filesize := lt_of_peek (by rw [hdot]; decide)
    obtain ⟨hnext, hcut, hidx, hsize⟩ := h₁.cut.peekNext
    rw [if_pos hdot, if_pos hdot, hnext]
    by_cases hdigit : isdigit t₁.peekNext.1 = true
    · have hadv := (hcut.advance (by omega)).2
      rw [if_pos hdigit, if_pos hdigit, hadv.peek]
      exact Agree.bind (hadv.advanceDigits _ fuel) fun t₂ t₂' h₂ => h₂.createToken .tNumberLit
    · rw [if_neg hdigit, if_neg hdigit]
      exact hcut.createToken .tNumberLit
  · rw [if_neg hdot, if_neg hdot]
    exact h₁.cut.createToken .tNumberLit

/-- Behind the end of the file a comment is never closed. -/
theorem commentLoop_past : ∀ (room : Nat) {t : Tokenizer} (lexeme : CString),
    t.filesize ≤ t.curIdx → Tokenizer.commentLoop room t lexeme = .error .overflow := by
  intro room
  induction room with
  | zero => exact fun _ _ => rfl
  | succ room ih =>
    intro t lexeme hend
    have hpeek : t.peek = 0 := by rw [Tokenizer.peek, if_pos hend]
    rw [Tokenizer.commentLoop, hpeek, if_neg (by decide)]
    exact ih _ (Nat.le_succ_of_le hend)

theorem commentLoop : ∀ (room : Nat) {t t' : Tokenizer} (lexeme : CString), Cut bytes t t' →
    CutResult bytes (Tokenizer.commentLoop room t lexeme)
      (Tokenizer.commentLoop room t' lexeme) := by
  intro room
  induction room with
  | zero => exact fun _ _ => .error _
  | succ room ih =>
    intro t t' lexeme h
    by_cases hend : t.filesize ≤ t.curIdx
    · rw [commentLoop_past _ _ hend, commentLoop_past _ _ (by rw [h.filesize, h.curIdx]; exact hend)]
      exact .error _
    · rw [Tokenizer.commentLoop, Tokenizer.commentLoop, h.peek]
      by_cases hline : t.peek = 10
      · rw [if_pos hline, if_pos hline]
        exact .ok ⟨rfl, h⟩
      · rw [if_neg hline, if_neg hline]
        exact ih _ (h.advance (Nat.not_le.mp hend)).2

theorem createCommentToken (h : Cut bytes t t') :
    CutResult bytes (Tokenizer.createCommentToken t) (Tokenizer.createCommentToken t') := by
  refine Agree.bind (h.commentLoop maxLexeme []) ?_
  rintro ⟨lexeme, t₁⟩ ⟨lexeme', t₁'⟩ ⟨hlexeme, hcut⟩
  refine .ok ⟨?_, hcut⟩
  simp only at hlexeme hcut ⊢
  rw [hcut.curIdx, hcut.curLine, hlexeme]

theorem createPair (h : Cut bytes t t') (c : UInt8) (pair single : TokenType) :
    CutResult bytes (Tokenizer.createPair c pair single t)
      (Tokenizer.createPair c pair single t') := by
  obtain ⟨hmatched, hcut⟩ := h.matchChar c
  unfold Tokenizer.createPair
  simp only
  rw [hmatched]
  exact hcut.createToken _

theorem result_scanned {x y : Except ScanError (Token × Tokenizer)} (h : CutResult bytes x y) :
    CutResult bytes (scanned x) (scanned y) :=
  Agree.map h fun _ _ hab => ⟨congrArg some hab.1, hab.2⟩

/-- **A scan of the file is a scan of the text.** -/
theorem scanToken (fuel : Nat) (h : Cut bytes t t') (hlt : t.curIdx < t.filesize) :
    CutResult bytes (Tokenizer.scanToken fuel t) (Tokenizer.scanToken fuel t') := by
  obtain ⟨hbyte, hcut⟩ := h.advance hlt
  have hstarted : t.advance.2.startIdx < t.advance.2.curIdx := Nat.lt_succ_of_le h.started
  have ht : t.advance = (t.advance.1, t.advance.2) := rfl
  have ht' : t'.advance = (t.advance.1, t'.advance.2) := by rw [← hbyte]
  generalize t.advance.2 = t₁ at ht hcut hstarted
  generalize t'.advance.2 = t₁' at ht' hcut
  cases firstByte t.advance.1 with
  | single hc =>
    rw [scan_single ht hc, scan_single ht' hc]
    exact result_scanned (hcut.createToken _)
  | pair hc =>
    rw [scan_pair ht hc, scan_pair ht' hc]
    exact result_scanned (hcut.createPair _ _ _)
  | slash hc =>
    rw [scan_slash ht hc, scan_slash ht' hc]
    obtain ⟨hmatched, hcut₂⟩ := hcut.matchChar 47
    rw [hmatched]
    by_cases hm : (t₁.matchChar 47).1 = true
    · rw [if_pos hm, if_pos hm]
      exact result_scanned hcut₂.createCommentToken
    · rw [if_neg hm, if_neg hm]
      exact result_scanned (hcut₂.createToken _)
  | quote hc =>
    rw [scan_quote ht hc, scan_quote ht' hc]
    exact result_scanned (hcut.createString fuel hstarted)
  | blank hc =>
    rw [scan_blank ht hc, scan_blank ht' hc]
    exact .ok ⟨rfl, hcut.newlines _⟩
  | letter ho ha =>
    rw [scan_other ht ho, scan_other ht' ho, if_pos ha, if_pos ha]
    exact result_scanned (hcut.createIdentifer fuel)
  | digit ho hd ha =>
    rw [scan_other ht ho, scan_other ht' ho]
    simp only [ha, hd, Bool.false_eq_true, if_false, if_true]
    exact result_scanned (hcut.createNumber fuel)
  | unknown ho hd ha =>
    rw [scan_other ht ho, scan_other ht' ho]
    simp only [ha, hd, Bool.false_eq_true, if_false]
    have hword := hcut.getCurWord
    generalize t₁.getCurWord = x at hword
    generalize t₁'.getCurWord = y at hword
    cases hword with
    | error e => exact .error e
    | @ok a b hab =>
      obtain ⟨word, t₂⟩ := a
      obtain ⟨word', t₂'⟩ := b
      obtain rfl : word = word' := hab.1
      exact .error _

end Cut

/-! ## Runs -/

/-- The state before the first turn is the same. -/
theorem cut_tokenizerInit (bytes : CString) :
    Cut bytes (tokenizerInit (.fopen bytes) (sourceText bytes).length)
      (tokenizerInit (.fopen (sourceText bytes)) (sourceText bytes).length) := by
  have hget := @File.At.fgetc bytes 0 (.fopen bytes) .plain (Nat.zero_le _)
  have hget' := @File.At.fgetc (sourceText bytes) 0 (.fopen (sourceText bytes)) .plain (Nat.zero_le _)
  have hchar := @toChar_sourceText bytes 0 (Nat.zero_le _)
  unfold tokenizerInit
  rw [hget, hget']
  simp only [hchar]
  exact ⟨rfl, .plain, .plain, rfl, Nat.zero_le _, Nat.le_refl _, rfl⟩

theorem Cut.tokenizeLoop {bytes : CString} {fuel : Nat} : ∀ (n : Nat) {t t' : Tokenizer},
    Cut bytes t t' → tokenizeLoop fuel n t = ACompiler.tokenizeLoop fuel n t' := by
  intro n
  induction n with
  | zero => exact fun _ => rfl
  | succ n ih =>
    intro t t' h
    have hlt' : t'.curIdx < t'.filesize ↔ t.curIdx < t.filesize := by rw [h.curIdx, h.filesize]
    rw [ACompiler.tokenizeLoop, ACompiler.tokenizeLoop]
    by_cases hlt : t.curIdx < t.filesize
    · rw [if_pos hlt, if_pos (hlt'.mpr hlt)]
      have hscan := (h.moveStart (Nat.le_refl _) h.curIdx).scanToken fuel hlt
      refine Agree.eq (Agree.bind hscan ?_)
      rintro ⟨temp, t₁⟩ ⟨temp', t₁'⟩ ⟨htemp, hcut⟩
      obtain rfl : temp = temp' := htemp
      exact Agree.of_eq (by simp only [ih hcut])
    · rw [if_neg hlt, if_neg (mt hlt'.mp hlt)]

/-- **A run on a file is a run on its text.** -/
theorem tokenizeSource_eq (fuel : Nat) (bytes : CString) :
    tokenizeSource fuel bytes =
      tokenize fuel (.fopen (sourceText bytes)) (sourceText bytes).length := by
  unfold tokenizeSource
  rw [getFileCharCount_eq (Nat.lt_succ_self _)]
  exact (cut_tokenizerInit bytes).tokenizeLoop fuel

/-- **The calls on a file are the calls on its text.** -/
theorem Calls.cut {bytes : CString} {fuel : Nat} {t t₁ : Tokenizer} {calls : List Call}
    (h : Calls fuel t calls t₁) : ∀ {t' : Tokenizer}, Cut bytes t t' →
      ∃ calls' t₁', Calls fuel t' calls' t₁' ∧ Cut bytes t₁ t₁' ∧
        List.Forall₂ (fun c c' => Cut bytes c.before c'.before ∧ c.token = c'.token ∧
          Cut bytes c.behind c'.behind) calls calls' := by
  induction h with
  | @nil t => exact fun {t'} hcut => ⟨[], t', .nil, hcut, .nil⟩
  | @cons t t₁ t₂ temp calls hlt hscan _ ih =>
    intro t' hcut
    have hlt' : t'.curIdx < t'.filesize := by rwa [hcut.curIdx, hcut.filesize]
    have hsame := (hcut.moveStart (Nat.le_refl _) hcut.curIdx).scanToken fuel hlt
    rw [hscan] at hsame
    obtain ⟨⟨temp', t₁'⟩, hscan', htemp, hcut₁⟩ := hsame.of_ok
    obtain rfl : temp = temp' := htemp
    obtain ⟨calls', t₂', hcalls', hcut₂, hall⟩ := ih hcut₁
    exact ⟨⟨t', temp, t₁'⟩ :: calls', t₂', .cons hlt' hscan' hcalls', hcut₂,
      .cons ⟨hcut, rfl, hcut₁⟩ hall⟩

/-- The state in which `main` has the loop of `tokenize` start. -/
def sourceInit (bytes : CString) : Tokenizer :=
  tokenizerInit (.fopen bytes) (sourceText bytes).length

theorem tokenizeSource_loop (fuel : Nat) (bytes : CString) :
    tokenizeSource fuel bytes = tokenizeLoop fuel fuel (sourceInit bytes) := by
  unfold tokenizeSource
  rw [getFileCharCount_eq (Nat.lt_succ_self _)]
  rfl

/-- The tokenizer is on the byte `i` of a file, and its word began at `start`. -/
structure StandsOn (bytes : CString) (start i : Nat) (t : Tokenizer) : Prop where
  file : File.At bytes (min (i + 1) bytes.length) t.sourcefile
  filesize : t.filesize = (sourceText bytes).length
  cur : t.cur = toChar bytes[i]?
  startIdx : t.startIdx = start
  curIdx : t.curIdx = i

theorem StandsOn.cut {bytes : CString} {start i : Nat} {t : Tokenizer} (h : StandsOn bytes start i t)
    (hs : start ≤ i) (hi : i ≤ (sourceText bytes).length) :
    Cut bytes t (window (sourceText bytes) start i t.curLine) := by
  obtain ⟨hfile, hsize, hcur, rfl, rfl⟩ := h
  refine ⟨?_, hfile, .plain, hsize, hi, hs, hcur⟩
  rw [window, toChar_sourceText hi, ← hcur, ← hsize]

theorem Cut.standsOn {bytes : CString} {start i line : Nat} {t : Tokenizer}
    (h : Cut bytes t (window (sourceText bytes) start i line)) : StandsOn bytes start i t := by
  have hidx : i = t.curIdx := h.curIdx
  subst hidx
  exact ⟨h.file, h.size, h.cur, h.startIdx.symm, rfl⟩

section calls
variable {bytes : CString} {fuel : Nat} {t t' : Tokenizer} {calls : List Call}

/-- The calls move a window on. -/
theorem Calls.window (h255 : (255 : UInt8) ∉ bytes) (h : Calls fuel t calls t') :
    ∀ start line, t = Tokenizer.window bytes start t.curIdx line → t.curIdx ≤ bytes.length →
      t.curIdx + calls.length ≤ t'.curIdx ∧ t'.curIdx ≤ bytes.length ∧
        ∃ start' line', t' = Tokenizer.window bytes start' t'.curIdx line' := by
  induction h with
  | nil => exact fun start line ht hle => ⟨Nat.le_refl _, hle, start, line, ht⟩
  | @cons t t₁ t₂ temp calls hlt hscan _ ih =>
    intro start line ht hle
    have hi := lt_of_window ht hlt
    rw [turn_of_window ht] at hscan
    have hmoved := scanToken_moves h255 hi temp t₁ hscan
    obtain ⟨start', line', ht₁⟩ := hmoved.window
    obtain ⟨hlen, hle', hwindow⟩ := ih start' line' ht₁ hmoved.le
    have hmore := hmoved.lt
    exact ⟨by rw [List.length_cons]; omega, hle', hwindow⟩

/-- **The states of a run**: each is a state on some byte of the file, and the same calls are made on
the text. -/
theorem Calls.source (h : Calls fuel (sourceInit bytes) calls t) :
    t.filesize = (sourceText bytes).length ∧ calls.length ≤ (sourceText bytes).length ∧
      ∃ calls' start line, t.curIdx ≤ (sourceText bytes).length ∧
        Calls fuel (Tokenizer.window (sourceText bytes) 0 0 1) calls'
          (Tokenizer.window (sourceText bytes) start t.curIdx line) ∧
        Cut bytes t (Tokenizer.window (sourceText bytes) start t.curIdx line) ∧
        List.Forall₂ (fun c c' => Cut bytes c.before c'.before ∧ c.token = c'.token ∧
          Cut bytes c.behind c'.behind) calls calls' := by
  obtain ⟨calls', t', hcalls', hcut, hall⟩ := h.cut (cut_tokenizerInit bytes)
  rw [tokenizerInit_eq] at hcalls'
  obtain ⟨hlen, hle, start, line, ht'⟩ :=
    hcalls'.window (not_mem_sourceText bytes) 0 1 rfl (Nat.zero_le _)
  rw [hcut.curIdx] at ht' hlen hle
  rw [ht'] at hcalls' hcut
  have heq := hall.length_eq
  simp only [window_curIdx] at hlen
  exact ⟨hcut.size, by omega, calls', start, line, hle, hcalls', hcut, hall⟩

/-- Before a call of a run. -/
theorem Calls.standsOn (h : Calls fuel (sourceInit bytes) calls t) :
    StandsOn bytes t.curIdx t.curIdx { t with startIdx := t.curIdx } := by
  obtain ⟨_, _, _, _, _, _, _, hcut, _⟩ := h.source
  exact (hcut.moveStart (Nat.le_refl _) hcut.curIdx).standsOn

/-- The loop goes on behind the calls it has made. -/
theorem tokenizeLoop_of_calls (h : Calls fuel t calls t') : ∀ n : Nat,
    tokenizeLoop fuel (calls.length + n) t =
      (tokenizeLoop fuel n t').map fun tokens => calls.filterMap Call.token ++ tokens := by
  induction h with
  | @nil t =>
    intro n
    rw [List.length_nil, Nat.zero_add]
    cases tokenizeLoop fuel n t <;> rfl
  | @cons t t₁ t₂ temp calls hlt hscan _ ih =>
    intro n
    rw [List.length_cons, Nat.add_right_comm, tokenizeLoop, if_pos hlt, hscan]
    simp only [bind, Except.bind, ih]
    cases tokenizeLoop fuel n t₂ with
    | error e => rfl
    | ok tokens =>
      cases temp with
      | none => rfl
      | some token => rfl

/-- The loop fails in a call. -/
theorem tokenizeLoop_error : ∀ {n : Nat} {t : Tokenizer} {e : ScanError},
    tokenizeLoop fuel n t = .error e → e ≠ .outOfFuel →
      ∃ calls t', Calls fuel t calls t' ∧ t'.curIdx < t'.filesize ∧
        scanToken fuel { t' with startIdx := t'.curIdx } = .error e := by
  intro n
  induction n with
  | zero =>
    intro t e h he
    exact absurd (Except.error.inj h).symm he
  | succ n ih =>
    intro t e h he
    rw [tokenizeLoop] at h
    by_cases hlt : t.curIdx < t.filesize
    · rw [if_pos hlt] at h
      cases hscan : scanToken fuel { t with startIdx := t.curIdx } with
      | error e' =>
        simp only [hscan, bind, Except.bind] at h
        obtain rfl := Except.error.inj h
        exact ⟨[], t, .nil, hlt, hscan⟩
      | ok r =>
        cases hrest : tokenizeLoop fuel n r.2 with
        | error e' =>
          simp only [hscan, hrest, bind, Except.bind] at h
          obtain ⟨calls, t', hcalls, hlt', herr⟩ := ih (hrest.trans h) he
          exact ⟨_, t', .cons hlt hscan hcalls, hlt', herr⟩
        | ok tokens => simp [hscan, hrest, bind, Except.bind, pure, Except.pure] at h
    · rw [if_neg hlt] at h
      exact absurd h (by simp)

/-- A run on a file fails exactly in a call that fails, if there is fuel. -/
theorem tokenizeSource_error_iff {e : ScanError} (he : e ≠ .outOfFuel)
    (hfuel : bytes.length < fuel) :
    tokenizeSource fuel bytes = .error e ↔
      ∃ calls t, Calls fuel (sourceInit bytes) calls t ∧ t.curIdx < t.filesize ∧
        scanToken fuel { t with startIdx := t.curIdx } = .error e := by
  rw [tokenizeSource_loop]
  constructor
  · exact fun h => tokenizeLoop_error h he
  · rintro ⟨calls, t, hcalls, hlt, hscan⟩
    have hlen := hcalls.source.2.1
    have htext := sourceText_length_le bytes
    obtain ⟨n, rfl⟩ := Nat.exists_eq_add_of_le (show calls.length + 1 ≤ fuel by omega)
    have hloop := tokenizeLoop_of_calls hcalls (n + 1)
    rw [show calls.length + (n + 1) = calls.length + 1 + n from by omega] at hloop
    rw [hloop, tokenizeLoop, if_pos hlt, hscan]
    rfl

end calls

end ACompiler
