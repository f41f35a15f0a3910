import ACompiler.Assembler.Emitter
import ACompiler.Utils.Stdio

/-!
# Formats

`emit_print` expands the formats of the emitter by hand: literal text is gathered in a buffer of 256
bytes, which is printed before a directive and at the end. A format with the directives `%s` and
`%d` only is printed as its expansion (`emitPrint_expand`), and with it the lines of the emitter
(`emitPrint_line`).
-/

namespace ACompiler

/-- The `emitter`, with what has been written to its file. -/
structure Emitter where
  file : CString
  indent : Nat

/-- An argument of a format. -/
inductive PrintArg
  | str (word : CString)
  | int (n : BitVec 32)

/-- The ways `emit_print` reads or writes where it must not. -/
inductive PrintError
  /-- A character is stored behind the end of `buf`. -/
  | overflow
  /-- `va_arg` finds no argument, or one of another type. -/
  | badArgument
  /-- The terminator of the format is passed. -/
  | pastEnd
  deriving DecidableEq, Repr

/-- The local variables of `emit_print`, and what has been written. -/
structure PrintState where
  file : CString
  buf : Nat → UInt8
  bufIdx : Nat

/-- The size of `buf`. -/
def bufSize : Nat := 256

namespace PrintState

def fprintf (s : PrintState) (word : CString) : PrintState := { s with file := s.file ++ word }

/-- `buf[buf_idx] = c`. -/
def store (s : PrintState) (c : UInt8) : Except PrintError PrintState :=
  if s.bufIdx < bufSize then .ok { s with buf := Function.update s.buf s.bufIdx c }
  else .error .overflow

/-- The string in `buf`. -/
def bufString (s : PrintState) : CString := ((List.range bufSize).map s.buf).takeWhile (· ≠ 0)

/-- The buffer is terminated and printed. -/
def printBuf (s : PrintState) : Except PrintError PrintState := do
  let s ← s.store 0
  .ok (s.fprintf s.bufString)

/-- The buffer is printed before a directive, and cleared. -/
def flush (s : PrintState) : Except PrintError PrintState :=
  if s.bufIdx ≠ 0 then do
    let s ← s.printBuf
    .ok { s with buf := fun _ => 0, bufIdx := 0 }
  else .ok s

/-- What is left in the buffer is printed at the end. -/
def finish (s : PrintState) : Except PrintError PrintState :=
  if 0 < s.bufIdx then s.printBuf else .ok s

/-- The loop over the format. -/
def printLoop : CString → List PrintArg → PrintState → Except PrintError PrintState
  | [], _, s => .ok s
  | c :: fmt, args, s =>
    if c = 37 then do
      let s ← s.flush
      match fmt with
      | [] => .error .pastEnd
      | d :: fmt =>
        if d = 115 then
          match args with
          | .str word :: args => printLoop fmt args (s.fprintf word)
          | _ => .error .badArgument
        else if d = 100 then
          match args with
          | .int n :: args => printLoop fmt args (s.fprintf (decimal n.toInt))
          | _ => .error .badArgument
        else printLoop fmt args s
    else do
      let s ← s.store c
      printLoop fmt args { s with bufIdx := s.bufIdx + 1 }

end PrintState

/-- `emit_print`; `junk` is what the buffer holds at first. -/
def emitPrint (junk : Nat → UInt8) (emitter : Emitter) (fmt : CString) (args : List PrintArg) :
    Except PrintError Emitter := do
  -- the indent is an `unsigned int`, the width an `int`
  let start := if 0 < emitter.indent then padChar (BitVec.ofNat 32 emitter.indent).toInt 32 else []
  let s ← PrintState.printLoop fmt args ⟨emitter.file ++ start, junk, 0⟩
  let s ← s.finish
  .ok { emitter with file := s.file ++ [10] }

/-! ## Formats and their expansions -/

/-- A piece of a format: a literal character, `%s` or `%d`. -/
inductive Piece
  | lit (c : UInt8)
  | str
  | int
  deriving DecidableEq, Repr

/-- The pieces of a format that has no other directives. -/
def parseFormat : CString → Option (List Piece)
  | [] => some []
  | c :: fmt =>
    if c = 37 then
      match fmt with
      | [] => none
      | d :: fmt =>
        if d = 115 then (parseFormat fmt).map (.str :: ·)
        else if d = 100 then (parseFormat fmt).map (.int :: ·)
        else none
    else if c = 0 then none
    else (parseFormat fmt).map (.lit c :: ·)

/-- The text of the pieces, with each directive replaced by its argument. -/
def expand : List Piece → List PrintArg → Option CString
  | [], _ => some []
  | .lit c :: pieces, args => (expand pieces args).map (c :: ·)
  | .str :: pieces, args =>
    match args with
    | .str word :: args => (expand pieces args).map (word ++ ·)
    | _ => none
  | .int :: pieces, args =>
    match args with
    | .int n :: args => (expand pieces args).map (decimal n.toInt ++ ·)
    | _ => none

/-- The maximal runs of literal characters, the first of which goes on with `run`. -/
def literalRuns (run : CString) : List Piece → List CString
  | [] => [run]
  | .lit c :: pieces => literalRuns (run ++ [c]) pieces
  | _ :: pieces => run :: literalRuns [] pieces

/-- A format begins with one of the pieces it is read into. -/
theorem parseFormat_cases {fmt : CString} {pieces : List Piece} (h : parseFormat fmt = some pieces) :
    (fmt = [] ∧ pieces = []) ∨
    (∃ c rest pieces', c ≠ 0 ∧ c ≠ 37 ∧ fmt = c :: rest ∧ pieces = .lit c :: pieces' ∧
      parseFormat rest = some pieces') ∨
    (∃ rest pieces', fmt = 37 :: 115 :: rest ∧ pieces = .str :: pieces' ∧
      parseFormat rest = some pieces') ∨
    ∃ rest pieces', fmt = 37 :: 100 :: rest ∧ pieces = .int :: pieces' ∧
      parseFormat rest = some pieces' := by
  cases fmt with
  | nil => exact .inl ⟨rfl, (Option.some.inj h).symm⟩
  | cons c fmt =>
    rw [parseFormat.eq_def] at h
    simp only at h
    split at h
    · rename_i hc
      subst hc
      cases fmt with
      | nil => exact absurd h (by simp)
      | cons d fmt =>
        simp only at h
        split at h
        · rename_i hd
          subst hd
          obtain ⟨pieces', hrest, rfl⟩ := Option.map_eq_some_iff.mp h
          exact .inr (.inr (.inl ⟨fmt, pieces', rfl, rfl, hrest⟩))
        · split at h
          · rename_i hd
            subst hd
            obtain ⟨pieces', hrest, rfl⟩ := Option.map_eq_some_iff.mp h
            exact .inr (.inr (.inr ⟨fmt, pieces', rfl, rfl, hrest⟩))
          · exact absurd h (by simp)
    · rename_i hc
      split at h
      · exact absurd h (by simp)
      · rename_i h0
        obtain ⟨pieces', hrest, rfl⟩ := Option.map_eq_some_iff.mp h
        exact .inr (.inl ⟨c, fmt, pieces', h0, hc, rfl, rfl, hrest⟩)

/-! ## The buffer -/

namespace PrintState

/-- The buffer holds a run of literal text. -/
structure Holds (s : PrintState) (run : CString) : Prop where
  length : s.bufIdx = run.length
  chars : ∀ i, i < run.length → s.buf i = run.getD i 0
  noNul : (0 : UInt8) ∉ run

variable {s : PrintState} {run : CString}

theorem holds_nil (file : CString) (buf : Nat → UInt8) : Holds ⟨file, buf, 0⟩ [] :=
  ⟨rfl, fun i hi => absurd hi (Nat.not_lt_zero i), List.not_mem_nil⟩

/-- A character is stored behind the run. -/
theorem Holds.store (h : s.Holds run) (hlt : run.length < bufSize) (c : UInt8) :
    s.store c = .ok { s with buf := Function.update s.buf run.length c } := by
  rw [PrintState.store, h.length, if_pos hlt]

theorem Holds.append (h : s.Holds run) {c : UInt8} (hc : c ≠ 0) :
    Holds { s with buf := Function.update s.buf run.length c, bufIdx := s.bufIdx + 1 }
      (run ++ [c]) := by
  refine ⟨?_, fun i hi => ?_, ?_⟩
  · rw [List.length_append, h.length]
    rfl
  · show Function.update s.buf run.length c i = _
    rw [List.length_append, List.length_singleton] at hi
    rcases Nat.lt_succ_iff_lt_or_eq.mp hi with hlt | rfl
    · rw [Function.update_of_ne (by omega), h.chars i hlt, List.getD_append _ _ _ _ hlt]
    · rw [Function.update_self, List.getD_append_right _ _ _ _ (Nat.le_refl _), Nat.sub_self]
      rfl
  · rw [List.mem_append, List.mem_singleton]
    rintro (hmem | heq)
    · exact h.noNul hmem
    · exact hc heq.symm

/-- A terminated run is the string in the buffer. -/
theorem bufString_eq (hchars : ∀ i, i < run.length → s.buf i = run.getD i 0)
    (hend : s.buf run.length = 0) (h0 : (0 : UInt8) ∉ run) (hlt : run.length < bufSize) :
    s.bufString = run := by
  have hrun : (List.range run.length).map s.buf = run := by
    apply List.ext_getElem
    · rw [List.length_map, List.length_range]
    · intro i hi hi'
      rw [List.getElem_map, List.getElem_range, hchars i hi', List.getD_eq_getElem _ _ hi']
  have hsplit : List.range bufSize = List.range run.length ++
      run.length :: List.range' (run.length + 1) (bufSize - (run.length + 1)) := by
    have happend := @List.range'_append_1 0 run.length (bufSize - (run.length + 1) + 1)
    rw [List.range'_succ, Nat.zero_add,
      show run.length + (bufSize - (run.length + 1) + 1) = bufSize by omega] at happend
    rw [List.range_eq_range', List.range_eq_range', happend]
  rw [PrintState.bufString, hsplit, List.map_append, List.map_cons, hrun, hend,
    List.takeWhile_append_of_pos]
  · simp
  · intro c hc
    have hne : c ≠ 0 := fun heq => h0 (heq ▸ hc)
    simpa using hne

/-- The buffer is printed as the run it holds. -/
theorem Holds.printBuf (h : s.Holds run) (hlt : run.length < bufSize) :
    ∃ buf, s.printBuf = .ok ⟨s.file ++ run, buf, s.bufIdx⟩ := by
  have hstring : PrintState.bufString { s with buf := Function.update s.buf run.length 0 } = run := by
    refine bufString_eq (fun i hi => ?_) (Function.update_self ..) h.noNul hlt
    rw [← h.chars i hi]
    exact Function.update_of_ne (Nat.ne_of_lt hi) _ _
  refine ⟨Function.update s.buf run.length 0, ?_⟩
  rw [PrintState.printBuf, h.store hlt]
  show Except.ok (PrintState.fprintf _ (PrintState.bufString _)) = _
  rw [hstring]
  rfl

theorem Holds.eq_nil (h : s.Holds run) (h0 : s.bufIdx = 0) : run = [] :=
  List.length_eq_zero_iff.mp (h.length.symm.trans h0)

/-- Before a directive the run is printed, and the buffer is empty behind it. -/
theorem Holds.flush (h : s.Holds run) (hlt : run.length < bufSize) (word : CString) :
    ∃ s', s.flush = .ok s' ∧ (s'.fprintf word).Holds [] ∧
      (s'.fprintf word).file = s.file ++ run ++ word := by
  by_cases h0 : s.bufIdx = 0
  · refine ⟨s, by rw [PrintState.flush, if_neg (not_not.mpr h0)], ?_, ?_⟩
    · rw [fprintf, h0]
      exact holds_nil _ _
    · rw [h.eq_nil h0, List.append_nil]
      rfl
  · obtain ⟨buf, hprint⟩ := h.printBuf hlt
    refine ⟨⟨s.file ++ run, fun _ => 0, 0⟩, ?_, holds_nil _ _, rfl⟩
    rw [PrintState.flush, if_pos h0, hprint]
    rfl

theorem Holds.finish (h : s.Holds run) (hlt : run.length < bufSize) :
    ∃ s', s.finish = .ok s' ∧ s'.file = s.file ++ run := by
  by_cases hpos : 0 < s.bufIdx
  · obtain ⟨buf, hprint⟩ := h.printBuf hlt
    exact ⟨_, by rw [PrintState.finish, if_pos hpos, hprint], rfl⟩
  · refine ⟨s, by rw [PrintState.finish, if_neg hpos], ?_⟩
    rw [h.eq_nil (by omega), List.append_nil]

/-! ## The loop -/

/-- A run is a part of the first one. -/
theorem exists_literalRuns (run : CString) (pieces : List Piece) :
    ∃ r ∈ literalRuns run pieces, run.length ≤ r.length := by
  induction pieces generalizing run with
  | nil => exact ⟨run, List.mem_cons_self, Nat.le_refl _⟩
  | cons piece pieces ih =>
    cases piece with
    | lit c =>
      obtain ⟨r, hr, hle⟩ := ih (run ++ [c])
      rw [List.length_append] at hle
      exact ⟨r, hr, Nat.le_of_add_right_le hle⟩
    | str => exact ⟨run, List.mem_cons_self, Nat.le_refl _⟩
    | int => exact ⟨run, List.mem_cons_self, Nat.le_refl _⟩

/-- The loop and what follows it print the run in the buffer and the expansion of the format. -/
theorem Holds.printLoop {pieces : List Piece} {fmt : CString} {args : List PrintArg}
    {text : CString} (h : s.Holds run) (hfmt : parseFormat fmt = some pieces)
    (hargs : expand pieces args = some text)
    (hruns : ∀ r ∈ literalRuns run pieces, r.length < bufSize) :
    ∃ s', (PrintState.printLoop fmt args s).bind PrintState.finish = .ok s' ∧
      s'.file = s.file ++ run ++ text := by
  induction pieces generalizing fmt args text s run with
  | nil =>
    obtain rfl : [] = text := Option.some.inj hargs
    rcases parseFormat_cases hfmt with ⟨rfl, _⟩ | ⟨_, _, _, _, _, _, hne, _⟩ |
      ⟨_, _, _, hne, _⟩ | ⟨_, _, _, hne, _⟩
    · rw [List.append_nil]
      exact h.finish (hruns run List.mem_cons_self)
    all_goals exact absurd hne (by simp)
  | cons piece pieces ih =>
    rcases parseFormat_cases hfmt with ⟨_, hne⟩ | ⟨c, rest, _, h0, h37, rfl, heq, hrest⟩ |
      ⟨rest, _, rfl, heq, hrest⟩ | ⟨rest, _, rfl, heq, hrest⟩
    · exact absurd hne (by simp)
    · -- a literal character goes to the buffer
      obtain ⟨rfl, rfl⟩ := List.cons.inj heq
      obtain ⟨text', htext, rfl⟩ := Option.map_eq_some_iff.mp hargs
      obtain ⟨r, hr, hle⟩ := exists_literalRuns (run ++ [c]) pieces
      have hlt := hruns r hr
      rw [List.length_append] at hle
      obtain ⟨s', hloop, hfile⟩ := ih (h.append h0) hrest htext hruns
      refine ⟨s', ?_, ?_⟩
      · rw [PrintState.printLoop, if_neg h37, h.store (Nat.lt_of_lt_of_le hle hlt.le)]
        exact hloop
      · rw [hfile]
        simp
    · -- `%s` prints the buffer and its argument
      obtain ⟨rfl, rfl⟩ := List.cons.inj heq
      cases args with
      | nil => exact absurd hargs (Option.some_ne_none text).symm
      | cons arg args =>
        cases arg with
        | int n => exact absurd hargs (Option.some_ne_none text).symm
        | str word =>
          obtain ⟨text', htext, rfl⟩ := Option.map_eq_some_iff.mp hargs
          obtain ⟨s₁, hflush, hempty, hfile⟩ := h.flush (hruns run List.mem_cons_self) word
          obtain ⟨s', hloop, hfile'⟩ :=
            ih hempty hrest htext fun r hr => hruns r (List.mem_cons_of_mem _ hr)
          refine ⟨s', ?_, ?_⟩
          · rw [PrintState.printLoop, if_pos rfl, hflush]
            exact hloop
          · rw [hfile', hfile]
            simp
    · -- `%d` prints the buffer and its argument
      obtain ⟨rfl, rfl⟩ := List.cons.inj heq
      cases args with
      | nil => exact absurd hargs (Option.some_ne_none text).symm
      | cons arg args =>
        cases arg with
        | str word => exact absurd hargs (Option.some_ne_none text).symm
        | int n =>
          obtain ⟨text', htext, rfl⟩ := Option.map_eq_some_iff.mp hargs
          obtain ⟨s₁, hflush, hempty, hfile⟩ :=
            h.flush (hruns run List.mem_cons_self) (decimal n.toInt)
          obtain ⟨s', hloop, hfile'⟩ :=
            ih hempty hrest htext fun r hr => hruns r (List.mem_cons_of_mem _ hr)
          refine ⟨s', ?_, ?_⟩
          · rw [PrintState.printLoop, if_pos rfl, hflush]
            exact hloop
          · rw [hfile', hfile]
            simp

end PrintState

/-! ## Whole lines -/

/-- The indent of a line. -/
theorem start_eq {indent : Nat} (h : indent < 2 ^ 31) :
    (if 0 < indent then padChar (BitVec.ofNat 32 indent).toInt 32 else []) =
      List.replicate indent 32 := by
  by_cases hpos : 0 < indent
  · have hint : (BitVec.ofNat 32 indent).toInt = indent := by
      have hnat : (BitVec.ofNat 32 indent).toNat = indent := by
        rw [BitVec.toNat_ofNat]
        exact Nat.mod_eq_of_lt (by omega)
      rw [BitVec.toInt_eq_toNat_of_lt (by omega), hnat]
    rw [if_pos hpos, hint, padChar_space hpos]
  · rw [if_neg hpos, Nat.eq_zero_of_not_pos hpos]
    rfl

/-- **A format is printed as its expansion**, behind the indent and before a newline. No character is
stored behind the end of the buffer, whatever it held at first. -/
theorem emitPrint_expand (junk : Nat → UInt8) (emitter : Emitter) {fmt : CString}
    {pieces : List Piece} {args : List PrintArg} {text : CString}
    (hindent : emitter.indent < 2 ^ 31) (hfmt : parseFormat fmt = some pieces)
    (hruns : ∀ run ∈ literalRuns [] pieces, run.length ≤ 255)
    (hargs : expand pieces args = some text) :
    emitPrint junk emitter fmt args = .ok { emitter with
      file := emitter.file ++ List.replicate emitter.indent 32 ++ text ++ [10] } := by
  have hstart := start_eq hindent
  obtain ⟨s, hloop, hfile⟩ :=
    (PrintState.holds_nil (emitter.file ++ List.replicate emitter.indent 32) junk).printLoop hfmt
      hargs fun r hr => Nat.lt_succ_of_le (hruns r hr)
  rw [List.append_nil] at hfile
  rw [emitPrint, hstart, ← hfile]
  cases hrun : PrintState.printLoop fmt args
      ⟨emitter.file ++ List.replicate emitter.indent 32, junk, 0⟩ with
  | error e =>
    rw [hrun] at hloop
    exact absurd hloop (by simp [Except.bind])
  | ok s₁ =>
    rw [hrun] at hloop
    replace hloop : s₁.finish = .ok s := hloop
    simp only [bind, Except.bind, hloop]

/-- An instruction with two operands, one of which is a number. -/
theorem emitPrint_expand_mov :
    emitPrint (fun _ => 7) ⟨[], 4⟩ (ascii "mov%s %s, %s")
        [.str (ascii "q"), .str (ascii "$1"), .str (ascii "%rax")] = .ok { (⟨[], 4⟩ : Emitter) with
      file := [] ++ List.replicate 4 32 ++ ascii "movq $1, %rax" ++ [10] } :=
  emitPrint_expand (fun _ => 7) ⟨[], 4⟩ (by decide) (by decide +kernel : parseFormat _ = some
    [.lit 109, .lit 111, .lit 118, .str, .lit 32, .str, .lit 44, .lit 32, .str])
    (by decide) (by decide +kernel)

/-! ## The lines of the emitter -/

/-- `operand_to_str`; the operand `name(%rip)` is printed by `assembler.c` only. -/
def operandToStr : Operand → Option CString
  | .sym _ => none
  | op => some op.text

/-- A call of `emit_print` with the size of a mnemonic and one operand. -/
def operandCall (fmt : CString) (op : Operand) : Option (CString × List PrintArg) :=
  (operandToStr op).map fun op => (fmt, [.str (ascii "q"), .str op])

/-- The same with two operands. -/
def operandsCall (fmt : CString) (src dest : Operand) : Option (CString × List PrintArg) :=
  (operandToStr src).bind fun src => (operandToStr dest).map fun dest =>
    (fmt, [.str (ascii "q"), .str src, .str dest])

/-- The format and the arguments with which `emitter.c` prints a line, if it does. -/
def Line.printCall : Line → Option (CString × List PrintArg)
  | .instr (.mov src dest) => operandsCall (ascii "mov%s %s, %s") src dest
  | .instr (.push op) => operandCall (ascii "push%s %s") op
  | .instr (.pop op) => operandCall (ascii "pop%s %s") op
  | .instr (.add src dest) => operandsCall (ascii "add%s %s, %s") src dest
  | .instr (.sub src dest) => operandsCall (ascii "sub%s %s, %s") src dest
  | .instr (.imul src dest) => operandsCall (ascii "imul%s %s, %s") src dest
  | .instr (.idiv divisor) => operandCall (ascii "idiv%s %s") divisor
  | .instr (.cmp src dest) => operandsCall (ascii "cmp%s %s, %s") src dest
  | .instr (.call name) => some (ascii "call %s", [.str name])
  | .instr .ret => some (ascii "ret", [])
  | .symbol name => some (ascii "%s:", [.str name])
  | .globl name => some (ascii ".globl %s", [.str name])
  | .textSection => some (ascii ".text", [])
  | .dataSection => some (ascii ".data", [])
  | _ => none

section lits
variable {word : CString}

theorem parseFormat_lits (hword : ∀ c ∈ word, c ≠ 0 ∧ c ≠ 37) (fmt : CString) :
    parseFormat (word ++ fmt) = (parseFormat fmt).map (word.map .lit ++ ·) := by
  induction word with
  | nil => simp
  | cons c word ih =>
    have hc := hword c List.mem_cons_self
    rw [List.cons_append, parseFormat.eq_def]
    simp only
    rw [if_neg hc.2, if_neg hc.1, ih fun d hd => hword d (List.mem_cons_of_mem _ hd),
      Option.map_map]
    rfl

theorem expand_lits (word : CString) (pieces : List Piece) (args : List PrintArg) :
    expand (word.map .lit ++ pieces) args = (expand pieces args).map (word ++ ·) := by
  induction word with
  | nil => simp
  | cons c word ih =>
    rw [List.map_cons, List.cons_append, expand, ih, Option.map_map]
    rfl

theorem literalRuns_lits (run word : CString) (pieces : List Piece) :
    literalRuns run (word.map .lit ++ pieces) = literalRuns (run ++ word) pieces := by
  induction word generalizing run with
  | nil => simp
  | cons c word ih =>
    rw [List.map_cons, List.cons_append, literalRuns, ih, List.append_assoc]
    rfl

end lits

/-- A format is printed as a text, with these arguments. -/
def Prints (fmt : CString) (args : List PrintArg) (text : CString) : Prop :=
  ∃ pieces, parseFormat fmt = some pieces ∧ (∀ run ∈ literalRuns [] pieces, run.length ≤ 255) ∧
    expand pieces args = some text

/-- A literal beginning of a format without directives at the front. -/
theorem Prints.lits {word fmt text : CString} {args : List PrintArg} {pieces : List Piece}
    (hword : ∀ c ∈ word, c ≠ 0 ∧ c ≠ 37) (hfmt : parseFormat fmt = some pieces)
    (hruns : ∀ run ∈ literalRuns word pieces, run.length ≤ 255)
    (hargs : expand pieces args = some text) : Prints (word ++ fmt) args (word ++ text) := by
  refine ⟨word.map .lit ++ pieces, ?_, ?_, ?_⟩
  · rw [parseFormat_lits hword, hfmt]
    rfl
  · rw [literalRuns_lits]
    exact hruns
  · rw [expand_lits, hargs]
    rfl

section calls
variable {word fmt fmt' : CString} {args : List PrintArg}

theorem prints_text (hword : ∀ c ∈ word, c ≠ 0 ∧ c ≠ 37) (hlen : word.length ≤ 255)
    (h : some (word, []) = some (fmt, args)) : Prints fmt args word := by
  obtain ⟨rfl, rfl⟩ := Prod.mk.inj (Option.some.inj h)
  have hprints := @Prints.lits word [] [] [] [] hword rfl (by simpa [literalRuns] using hlen) rfl
  simpa using hprints

variable (word)

theorem prints_name (hfmt : fmt' = word ++ ascii "%s") (hword : ∀ c ∈ word, c ≠ 0 ∧ c ≠ 37)
    (hlen : word.length ≤ 255) {name : CString}
    (h : some (fmt', [.str name]) = some (fmt, args)) : Prints fmt args (word ++ name) := by
  obtain ⟨rfl, rfl⟩ := Prod.mk.inj (Option.some.inj h)
  rw [hfmt]
  refine @Prints.lits word (ascii "%s") name [.str name] [.str] hword (by decide +kernel) ?_ ?_
  · simpa [literalRuns] using hlen
  · simp [expand]

theorem operandToStr_eq_some {op : Operand} {text : CString} (h : operandToStr op = some text) :
    text = op.text := by
  cases op with
  | sym name => exact absurd h (by simp [operandToStr])
  | _ => exact (Option.some.inj h).symm

theorem prints_operand {mnemonic : CString} (hfmt : fmt' = word ++ ascii "%s %s")
    (hmnemonic : mnemonic = word ++ ascii "q ") (hword : ∀ c ∈ word, c ≠ 0 ∧ c ≠ 37)
    (hlen : word.length ≤ 255) {op : Operand} (h : operandCall fmt' op = some (fmt, args)) :
    Prints fmt args (mnemonic ++ op.text) := by
  obtain ⟨text, htext, heq⟩ := Option.map_eq_some_iff.mp h
  obtain ⟨rfl, rfl⟩ := Prod.mk.inj heq
  rw [operandToStr_eq_some htext, hfmt, hmnemonic, List.append_assoc]
  refine @Prints.lits word (ascii "%s %s") _ _ [.str, .lit 32, .str] hword (by decide +kernel) ?_ ?_
  · simpa [literalRuns] using hlen
  · simp [expand]
    rfl

theorem prints_operands {mnemonic : CString} (hfmt : fmt' = word ++ ascii "%s %s, %s")
    (hmnemonic : mnemonic = word ++ ascii "q ") (hword : ∀ c ∈ word, c ≠ 0 ∧ c ≠ 37)
    (hlen : word.length ≤ 255) {src dest : Operand}
    (h : operandsCall fmt' src dest = some (fmt, args)) :
    Prints fmt args (mnemonic ++ src.text ++ ascii ", " ++ dest.text) := by
  obtain ⟨text, htext, h⟩ := Option.bind_eq_some_iff.mp h
  obtain ⟨text', htext', heq⟩ := Option.map_eq_some_iff.mp h
  obtain ⟨rfl, rfl⟩ := Prod.mk.inj heq
  rw [operandToStr_eq_some htext, operandToStr_eq_some htext', hfmt, hmnemonic, List.append_assoc,
    List.append_assoc, List.append_assoc]
  refine @Prints.lits word (ascii "%s %s, %s") _ _
    [.str, .lit 32, .str, .lit 44, .lit 32, .str] hword (by decide +kernel) ?_ ?_
  · simpa [literalRuns] using hlen
  · simp [expand]
    rfl

end calls

/-- The call of `emit_print` for a line prints the text of the line. -/
theorem Line.printCall_prints {line : Line} {fmt : CString} {args : List PrintArg}
    (h : line.printCall = some (fmt, args)) : Prints fmt args line.text := by
  cases line with
  | instr i =>
    cases i with
    | mov src dest =>
      exact prints_operands (ascii "mov") (by decide +kernel) (by decide +kernel)
        (by decide +kernel) (by decide) h
    | lea src dest => exact absurd h (Option.some_ne_none _).symm
    | push op =>
      exact prints_operand (ascii "push") (by decide +kernel) (by decide +kernel)
        (by decide +kernel) (by decide) h
    | pop op =>
      exact prints_operand (ascii "pop") (by decide +kernel) (by decide +kernel)
        (by decide +kernel) (by decide) h
    | add src dest =>
      exact prints_operands (ascii "add") (by decide +kernel) (by decide +kernel)
        (by decide +kernel) (by decide) h
    | sub src dest =>
      exact prints_operands (ascii "sub") (by decide +kernel) (by decide +kernel)
        (by decide +kernel) (by decide) h
    | imul src dest =>
      exact prints_operands (ascii "imul") (by decide +kernel) (by decide +kernel)
        (by decide +kernel) (by decide) h
    | idiv op =>
      exact prints_operand (ascii "idiv") (by decide +kernel) (by decide +kernel)
        (by decide +kernel) (by decide) h
    | neg op => exact absurd h (Option.some_ne_none _).symm
    | cmp src dest =>
      exact prints_operands (ascii "cmp") (by decide +kernel) (by decide +kernel)
        (by decide +kernel) (by decide) h
    | setcc cond => exact absurd h (Option.some_ne_none _).symm
    | movzbq => exact absurd h (Option.some_ne_none _).symm
    | cqto => exact absurd h (Option.some_ne_none _).symm
    | call name =>
      exact prints_name (ascii "call ") (by decide +kernel) (by decide +kernel) (by decide) h
    | je n => exact absurd h (Option.some_ne_none _).symm
    | jmp n => exact absurd h (Option.some_ne_none _).symm
    | ret => exact prints_text (by decide +kernel) (by decide) h
  | label n => exact absurd h (Option.some_ne_none _).symm
  | symbol name =>
    obtain ⟨rfl, rfl⟩ := Prod.mk.inj (Option.some.inj h)
    refine ⟨[.str, .lit 58], by decide +kernel, by decide, ?_⟩
    simp [expand, Line.text]
    rfl
  | globl name =>
    exact prints_name (ascii ".globl ") (by decide +kernel) (by decide +kernel) (by decide) h
  | dataSection => exact prints_text (by decide +kernel) (by decide) h
  | textSection => exact prints_text (by decide +kernel) (by decide) h
  | directive d val => exact absurd h (Option.some_ne_none _).symm

/-- **The lines of the emitter are printed as their texts.** -/
theorem emitPrint_line (junk : Nat → UInt8) (emitter : Emitter) {line : Line} {fmt : CString}
    {args : List PrintArg} (hindent : emitter.indent < 2 ^ 31)
    (h : line.printCall = some (fmt, args)) (depth : Int) :
    emitPrint junk emitter fmt args = .ok { emitter with
      file := emitter.file ++ Item.text ⟨emitter.indent, depth, line⟩ } := by
  obtain ⟨pieces, hfmt, hruns, hargs⟩ := Line.printCall_prints h
  rw [emitPrint_expand junk emitter hindent hfmt hruns hargs, Item.text]
  simp only [List.append_assoc]

end ACompiler
