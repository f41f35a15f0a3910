import ACompiler.Tokenizer.Found

/-!
# What is scanned

The loop of `tokenize` as a list of turns, each with the bytes it has passed and the token it has
found. The turns of a run follow each other without a gap and end at the byte count, so whether a
byte of the file is scanned depends on the count alone, and `getFileCharCount` stops at the first
byte that looks like `EOF`.
-/

namespace ACompiler

open Tokenizer

/-! ## Turns -/

/-- One turn of the loop: it has passed the bytes from `start` up to `stop`. -/
structure Turn where
  start : Nat
  stop : Nat
  token : Option Token

/-- The turns of the loop, from one state to the state in which it ends. -/
inductive Turns (fuel : Nat) : Tokenizer → List Turn → Tokenizer → Prop
  | done {t : Tokenizer} (h : ¬ t.curIdx < t.filesize) : Turns fuel t [] t
  | turn {t t' t'' : Tokenizer} {temp : Option Token} {turns : List Turn}
      (h : t.curIdx < t.filesize)
      (hscan : scanToken fuel { t with startIdx := t.curIdx } = .ok (temp, t'))
      (hrest : Turns fuel t' turns t'') : Turns fuel t (⟨t.curIdx, t'.curIdx, temp⟩ :: turns) t''

/-- A call of `scanToken`, with the states before and behind it. -/
structure Call where
  before : Tokenizer
  token : Option Token
  behind : Tokenizer

/-- The calls that the loop of `tokenize` makes from one head of the loop to another. -/
inductive Calls (fuel : Nat) : Tokenizer → List Call → Tokenizer → Prop
  | nil {t : Tokenizer} : Calls fuel t [] t
  | cons {t t' t'' : Tokenizer} {temp : Option Token} {calls : List Call}
      (h : t.curIdx < t.filesize)
      (hscan : scanToken fuel { t with startIdx := t.curIdx } = .ok (temp, t'))
      (hrest : Calls fuel t' calls t'') : Calls fuel t (⟨t, temp, t'⟩ :: calls) t''

/-- **A token list is the tokens of the calls.** -/
theorem tokenizeLoop_calls {fuel : Nat} : ∀ {n : Nat} {t : Tokenizer} {tokens : List Token},
    tokenizeLoop fuel n t = .ok tokens →
      ∃ calls t', Calls fuel t calls t' ∧ ¬ t'.curIdx < t'.filesize ∧
        tokens = calls.filterMap Call.token ++ [eofToken] := by
  intro n
  induction n with
  | zero => intro t tokens h; simp [tokenizeLoop] at h
  | succ n ih =>
    intro t tokens h
    rw [tokenizeLoop] at h
    by_cases hlt : t.curIdx < t.filesize
    · rw [if_pos hlt] at h
      cases hscan : scanToken fuel { t with startIdx := t.curIdx } with
      | error e => simp [hscan, bind, Except.bind] at h
      | ok r =>
        cases hrest : tokenizeLoop fuel n r.2 with
        | error e => simp [hscan, hrest, bind, Except.bind] at h
        | ok rest =>
          simp only [hscan, hrest, bind, Except.bind] at h
          obtain ⟨calls, t', hcalls, hend, rfl⟩ := ih hrest
          refine ⟨_, t', .cons hlt hscan hcalls, hend, ?_⟩
          rw [← Except.ok.inj h]
          cases r.1 with
          | none => rfl
          | some token => rfl
    · rw [if_neg hlt] at h
      exact ⟨[], t, .nil, hlt, (Except.ok.inj h).symm⟩

/-- The bytes that a call passes. -/
def Call.turn (c : Call) : Turn := ⟨c.before.curIdx, c.behind.curIdx, c.token⟩

theorem Calls.turns {fuel : Nat} {t t' : Tokenizer} {calls : List Call} (h : Calls fuel t calls t')
    (hend : ¬ t'.curIdx < t'.filesize) : Turns fuel t (calls.map Call.turn) t' := by
  induction h with
  | nil => exact .done hend
  | cons hlt hscan _ ih => exact .turn hlt hscan (ih hend)

/-- **A token list is the tokens of the turns.** -/
theorem tokenizeLoop_eq_ok {fuel : Nat} {n : Nat} {t : Tokenizer} {tokens : List Token}
    (h : tokenizeLoop fuel n t = .ok tokens) :
    ∃ turns t', Turns fuel t turns t' ∧ tokens = turns.filterMap Turn.token ++ [eofToken] := by
  obtain ⟨calls, t', hcalls, hend, rfl⟩ := tokenizeLoop_calls h
  refine ⟨calls.map Call.turn, t', hcalls.turns hend, ?_⟩
  rw [List.filterMap_map]
  rfl

/-! ## One turn -/

/-- The window has moved on from `i`, over a token or over a blank. -/
structure Moved (bytes : CString) (i : Nat) (temp : Option Token) (t : Tokenizer) : Prop where
  window : ∃ start line, t = Tokenizer.window bytes start t.curIdx line
  lt : i < t.curIdx
  le : t.curIdx ≤ bytes.length
  blank : temp = none → t.curIdx = i + 1 ∧ bytes.getD i 0 ∈ blanks

/-- If a scan from `i` succeeds, the window has moved. -/
def Moves (bytes : CString) (i : Nat) (r : Except ScanError (Option Token × Tokenizer)) : Prop :=
  ∀ temp t, r = .ok (temp, t) → Moved bytes i temp t

variable {bytes : CString} {start i j line fuel : Nat}

/-- What a call finds moves the window. -/
theorem Found.moves {temp : Option Token} {t : Tokenizer} (h : Found bytes i line temp t) :
    Moved bytes i temp t := by
  obtain ⟨start, hwindow⟩ := h.window
  refine ⟨⟨start, _, hwindow⟩, h.lt, h.le, ?_⟩
  rintro rfl
  cases h with
  | @blank c s h hc =>
    have hbyte : bytes.getD i 0 = c := getD_of_drop h 0
    exact ⟨rfl, hbyte.symm ▸ hc⟩

/-- **Every turn moves on.** -/
theorem scanToken_moves (h255 : (255 : UInt8) ∉ bytes) (hi : i < bytes.length) :
    Moves bytes i (scanToken fuel (window bytes i i line)) := fun temp t h =>
  (scanToken_finds (List.drop_eq_getElem_cons hi) h255 temp t h).moves

/-! ## All turns -/

/-- Every byte from `i` on has been passed by a turn, as a part of what became a token or as a
blank. -/
def Covers (bytes : CString) (i : Nat) (turns : List Turn) : Prop :=
  ∀ j, i ≤ j → j < bytes.length → ∃ turn ∈ turns, turn.start ≤ j ∧ j < turn.stop ∧
    (turn.token ≠ none ∨ bytes.getD j 0 ∈ blanks)

/-- **The turns of a run cover the file**, if the byte count is its length. -/
theorem Turns.covers (h255 : (255 : UInt8) ∉ bytes) {t t' : Tokenizer} {turns : List Turn}
    (h : Turns fuel t turns t') : ∀ start line, t = window bytes start t.curIdx line →
      Covers bytes t.curIdx turns := by
  induction h with
  | @done t h =>
    intro start line ht j hj hlt
    rw [ht] at h
    exact absurd hlt (by simp at h; omega)
  | @turn t t' t'' temp turns h hscan _ ih =>
    intro start line ht j hj hlt
    have hi := lt_of_window ht h
    rw [turn_of_window ht] at hscan
    have hmoved := scanToken_moves h255 hi temp t' hscan
    by_cases hthis : j < t'.curIdx
    · refine ⟨_, List.mem_cons_self, hj, hthis, ?_⟩
      by_cases htemp : temp = none
      · obtain ⟨hstop, hblank⟩ := hmoved.blank htemp
        rw [show j = t.curIdx from by omega]
        exact .inr hblank
      · exact .inl htemp
    · obtain ⟨start', line', ht'⟩ := hmoved.window
      obtain ⟨turn, hmem, hcovers⟩ := ih start' line' ht' j (by omega) hlt
      exact ⟨turn, List.mem_cons_of_mem _ hmem, hcovers⟩

/-! ## The byte count -/

/-- The loop of `getFileCharCount`: `c` is a `char` when it is compared with `EOF`. -/
def charCountLoop : Nat → File → Nat → Option (Nat × File)
  | 0, _, _ => none
  | fuel + 1, file, count =>
    let (c, file) := file.fgetc
    if toChar c = toChar none then some (count, file) else charCountLoop fuel file (count + 1)

def getFileCharCount (fuel : Nat) (file : File) : Option (Nat × File) := do
  let (count, file) ← charCountLoop fuel file 0
  some (count, file.fseek 0)

/-- `char_count` of `main`, which is an `unsigned int`. -/
def charCount (fuel : Nat) (file : File) : Option (Nat × File) := do
  let (count, file) ← getFileCharCount fuel file
  some (count % 2 ^ 32, file)

/-- The loop counts the bytes before the first `0xFF`. -/
theorem charCountLoop_eq (bytes : CString) : ∀ (fuel i count : Nat), i ≤ bytes.length →
    bytes.length < i + fuel → ∃ pos, charCountLoop fuel ⟨bytes, i, none⟩ count =
      some (count + run (· ≠ 255) bytes i, ⟨bytes, pos, none⟩) := by
  intro fuel
  induction fuel with
  | zero => intro i count hi h; omega
  | succ fuel ih =>
    intro i count hi h
    rw [charCountLoop]
    by_cases hlt : i < bytes.length
    · have hget := File.At.plain.fgetc_of_some (List.getElem?_eq_getElem hlt)
      have hbyte : toChar (some bytes[i]) = bytes.getD i 0 := (List.getD_eq_getElem _ _ hlt).symm
      simp only [hget, hbyte]
      by_cases h255 : bytes.getD i 0 = toChar none
      · have hrun : run (· ≠ 255) bytes i = 0 := run_of_false (by rw [h255]; decide)
        rw [if_pos h255, hrun]
        exact ⟨i + 1, rfl⟩
      · have hne : bytes.getD i 0 ≠ 255 := h255
        have hrun := @run_of_true bytes i (· ≠ 255) hlt (by simpa using hne)
        obtain ⟨pos, hloop⟩ := ih (i + 1) (count + 1) hlt (by omega)
        refine ⟨pos, ?_⟩
        rw [if_neg h255, hloop, hrun]
        simp only [Option.some.injEq, Prod.mk.injEq, and_true]
        omega
    · have hget := File.At.plain.fgetc_of_none (List.getElem?_eq_none (Nat.not_lt.mp hlt))
      have hrun : run (· ≠ 255) bytes i = 0 := by
        rw [run, List.drop_eq_nil_of_le (Nat.not_lt.mp hlt)]
        rfl
      simp only [hget, hrun, if_true]
      exact ⟨i, rfl⟩

/-- **The byte count** is the number of bytes before the first `0xFF`. -/
theorem getFileCharCount_eq (hfuel : bytes.length < fuel) :
    getFileCharCount fuel (.fopen bytes) = some (run (· ≠ 255) bytes 0, .fopen bytes) := by
  obtain ⟨pos, hloop⟩ := charCountLoop_eq bytes fuel 0 0 (Nat.zero_le _) (by omega)
  rw [getFileCharCount, File.fopen, hloop, Nat.zero_add]
  rfl

theorem run_eq_length_iff : run (· ≠ 255) bytes 0 = bytes.length ↔ (255 : UInt8) ∉ bytes := by
  rw [run, List.drop_zero]
  constructor
  · intro h hmem
    have hall := (List.takeWhile_prefix (· ≠ (255 : UInt8)) (l := bytes)).eq_of_length h
    have hne := List.mem_takeWhile_imp (hall.symm ▸ hmem : (255 : UInt8) ∈ bytes.takeWhile (· ≠ 255))
    simp at hne
  · intro h
    rw [List.takeWhile_eq_self_iff.mpr]
    intro c hc
    have hne : c ≠ 255 := fun heq => h (heq ▸ hc)
    simpa using hne

/-- Nothing of a file is ignored: the count that `main` passes on is its length, and whenever there
is a token list, it stands for turns that have passed every byte. -/
def ScansWhole (bytes : CString) (count : Nat) (file : File) : Prop :=
  count = bytes.length ∧ ∀ fuel tokens, tokenize fuel file count = .ok tokens →
    ∃ turns t, Turns fuel (tokenizerInit file count) turns t ∧
      tokens = turns.filterMap Turn.token ++ [eofToken] ∧ Covers bytes 0 turns

theorem tokenizerInit_eq (bytes : CString) :
    tokenizerInit (.fopen bytes) bytes.length = window bytes 0 0 1 := by
  unfold tokenizerInit window File.fopen
  by_cases h : 0 < bytes.length
  · rw [File.At.plain.fgetc_of_some (List.getElem?_eq_getElem h), List.getElem?_eq_getElem h,
      Nat.min_eq_left h]
  · rw [File.At.plain.fgetc_of_none (List.getElem?_eq_none (Nat.not_lt.mp h)),
      List.getElem?_eq_none (Nat.not_lt.mp h), Nat.min_eq_right (by omega),
      show bytes.length = 0 from by omega]

/-- **A file is scanned as a whole exactly when it does not hold the byte `0xFF`.** -/
theorem charCount_scansWhole_iff (bytes : CString) (hsize : bytes.length < 2 ^ 31) (fuel : Nat)
    (hfuel : bytes.length < fuel) :
    (∃ count file, charCount fuel (.fopen bytes) = some (count, file) ∧
      ScansWhole bytes count file) ↔ (255 : UInt8) ∉ bytes := by
  have hcount : charCount fuel (.fopen bytes) =
      some (run (· ≠ 255) bytes 0, .fopen bytes) := by
    have hle := @run_le bytes 0 (· ≠ 255) (Nat.zero_le _)
    rw [charCount, getFileCharCount_eq hfuel]
    show some (run (· ≠ 255) bytes 0 % 2 ^ 32, File.fopen bytes) = _
    rw [Nat.mod_eq_of_lt (by omega)]
  constructor
  · rintro ⟨count, file, hrun, hlength, _⟩
    obtain ⟨rfl, _⟩ := Prod.mk.inj (Option.some.inj (hcount.symm.trans hrun))
    exact run_eq_length_iff.mp hlength
  · intro h255
    have hlength := run_eq_length_iff.mpr h255
    refine ⟨_, _, hcount, hlength, fun fuel' tokens htokens => ?_⟩
    rw [hlength] at htokens ⊢
    obtain ⟨turns, t, hturns, heq⟩ := tokenizeLoop_eq_ok htokens
    refine ⟨turns, t, hturns, heq, ?_⟩
    rw [tokenizerInit_eq] at hturns
    exact hturns.covers h255 0 1 rfl

/-- `let x;`, the byte `0xFF`, and `let y;`. -/
def splitFile : CString := ascii "let x;" ++ 255 :: ascii "let y;"

theorem charCount_scansWhole_iff_splitFile :
    splitFile.length < 2 ^ 31 ∧ splitFile.length < 20 ∧
      ((∃ count file, charCount 20 (.fopen splitFile) = some (count, file) ∧
        ScansWhole splitFile count file) ↔ (255 : UInt8) ∉ splitFile) :=
  ⟨by decide, by decide, charCount_scansWhole_iff splitFile (by decide) 20 (by decide)⟩

/-- The second declaration is dropped, without a word. -/
theorem charCount_splitFile : ∃ file, charCount 20 (.fopen splitFile) = some (6, file) ∧
    (∃ tokens, tokenize 20 file 6 = .ok tokens ∧ tokens.map Token.type =
      [.tLet, .tIdentifier, .tSemicolon, .tEof]) ∧ ¬ ScansWhole splitFile 6 file := by
  refine ⟨.fopen splitFile, by decide, ⟨_, rfl, by decide⟩, ?_⟩
  rintro ⟨hlength, _⟩
  exact absurd hlength (by decide)

end ACompiler
