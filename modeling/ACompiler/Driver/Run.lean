import ACompiler.Correct.Assembly
import ACompiler.Driver.Main
import ACompiler.Tokenizer.Source

/-!
# Runs of the driver

What a run of the compiler leaves in the files, and that what it leaves is right: when `main`
returns 0, the assembly file is one that an assembler reads, and the linked program computes what
the source says (`mainProgram_correct`). The source itself is lost exactly when the assembly file
has its name and the parser has accepted it, whether or not there is an assembly for it
(`mainProgram_keeps_source_iff`).
-/

namespace ACompiler

open Tokenizer
open Lib (Word)

/-! ## How a run ends -/

theorem write_files_self (w : Session) (path text : CString) :
    (w.write path text).files path = some text := if_pos (rfl : path = path)

theorem write_files_ne (w : Session) {path path' : CString} (h : path' ≠ path) (text : CString) :
    (w.write path text).files path' = w.files path' := if_neg h

/-- The stages before the generator accept the source. -/
def TakesSource (fuel : Nat) (bytes : CString) (head : Program) : Prop :=
  ∃ tokens text, tokenizeFile fuel bytes = .ok tokens ∧ parseProgram tokens = .ok head ∧
    printAst head = .ok text

theorem exists_takesSource {fuel : Nat} {bytes : CString}
    (h : (match tokenizeFile fuel bytes with
      | .ok tokens => match parseProgram tokens with
        | .ok head => (printAst head).isOk
        | .error _ => false
      | .error _ => false) = true) : ∃ head, TakesSource fuel bytes head := by
  cases htokens : tokenizeFile fuel bytes with
  | error e => simp [htokens] at h
  | ok tokens =>
    cases hparse : parseProgram tokens with
    | error e => simp [htokens, hparse] at h
    | ok head =>
      cases hdump : printAst head with
      | error e => simp [htokens, hparse, hdump, Except.isOk, Except.toBool] at h
      | ok text => exact ⟨head, tokens, text, htokens, hparse, hdump⟩

section ends
variable (fuel : Nat) (host : Host) (args : CliArgs) (bytes : CString) (w : Session)

/-- The generator has its file, and fails or goes on with the assembly. -/
theorem compileSource_of_takesSource {head : Program} (h : TakesSource fuel bytes head)
    (hwritable : host.writable args.asmPath = true) :
    (∃ e w', genProgram head asmInit = .error e ∧
      compileSource fuel host args bytes w = .stopped (.gen e) w' ∧
        w'.files = (w.write args.asmPath []).files) ∨
      ∃ r w', genProgram head asmInit = .ok r ∧
        compileSource fuel host args bytes w = linkStage host args w' ∧
          w'.files = (w.write args.asmPath (assembly r.items)).files := by
  obtain ⟨tokens, text, htokens, hparse, hdump⟩ := h
  unfold compileSource
  simp only [htokens, hparse, hdump, hwritable, if_true]
  cases hgen : genProgram head asmInit with
  | error e => exact .inl ⟨e, _, rfl, rfl, rfl⟩
  | ok r => exact .inr ⟨r, _, rfl, rfl, rfl⟩

/-- Otherwise the run stops with all files as they were. -/
theorem compileSource_of_not_takesSource
    (h : ¬ ((∃ head, TakesSource fuel bytes head) ∧ host.writable args.asmPath = true)) :
    ∃ failure w', compileSource fuel host args bytes w = .stopped failure w' ∧
      w'.files = w.files := by
  unfold compileSource
  cases htokens : tokenizeFile fuel bytes with
  | error e => exact ⟨_, _, rfl, rfl⟩
  | ok tokens =>
    cases hparse : parseProgram tokens with
    | error e =>
      simp only [hparse]
      exact ⟨_, _, rfl, rfl⟩
    | ok head =>
      cases hdump : printAst head with
      | error e =>
        simp only [hparse, hdump]
        exact ⟨_, _, rfl, rfl⟩
      | ok text =>
        have hnot : ¬ host.writable args.asmPath = true :=
          fun hw => h ⟨⟨head, tokens, text, htokens, hparse, hdump⟩, hw⟩
        simp only [hparse, hdump, if_neg hnot]
        exact ⟨_, _, rfl, rfl⟩

/-- Behind the assembly, only `gcc` changes files. -/
theorem linkStage_files (path : CString)
    (h : args.mode = .modeExecutable → path ≠ args.exePath) :
    (linkStage host args w).session.files path = w.files path := by
  unfold linkStage
  cases hmode : args.mode with
  | modeAsmOnly => rfl
  | modeExecutable =>
    have hkeeps := host.keeps args.asmPath args.exePath w.files path (h hmode)
    have hrun : (runAssemblerAndLinker host args.asmPath args.exePath w).2.files =
        (host.gcc args.asmPath args.exePath w.files).1 := by
      unfold runAssemblerAndLinker
      simp only
      split <;> rfl
    simp only
    split
    · exact (congrFun hrun path).trans hkeeps
    · exact (congrFun hrun path).trans hkeeps

end ends

/-! ## What becomes of the source -/

theorem asmPath_eq_input_iff (args : CliArgs) : args.asmPath = args.input ↔
    args.mode = .modeAsmOnly ∧ args.output = some args.input ∨
      (args.mode = .modeExecutable ∨ args.output = none) ∧ ascii ".s" <:+ args.input := by
  obtain ⟨mode, input, output⟩ := args
  cases mode with
  | modeExecutable =>
    have hself := swapExtension_eq_self_iff input
    simpa [CliArgs.asmPath] using hself
  | modeAsmOnly =>
    cases output with
    | none =>
      have hself := swapExtension_eq_self_iff input
      simpa [CliArgs.asmPath] using hself
    | some output => simp [CliArgs.asmPath]

/-- Assembly starts with a dot. -/
theorem assembly_head {p : Program} {r : Lib.Emitted AsmCtx Item Unit}
    (h : genProgram p asmInit = .ok r) : (assembly r.items).head? = some 46 := by
  obtain ⟨r₀, _, hitems, _⟩ := genProgram_parts h
  rw [hitems]
  unfold dataItems
  split <;> rfl

theorem tokenizeFile_eq {bytes : CString} (hsize : bytes.length < 2 ^ 31) (fuel : Nat) :
    tokenizeFile fuel bytes = tokenizeSource fuel bytes := by
  have hle := @run_le bytes 0 (· ≠ 255) (Nat.zero_le _)
  unfold tokenizeFile tokenizeSource charCount
  rw [getFileCharCount_eq (Nat.lt_succ_self _)]
  show tokenize fuel _ (run (· ≠ 255) bytes 0 % 2 ^ 32) = _
  rw [Nat.mod_eq_of_lt (by omega)]

/-- What a program starts with. -/
theorem DerivesProgram.first_type {t : Token} {ts : List Token} {p : Program}
    (h : DerivesProgram (t :: ts) p) :
    t.type = .tEof ∨ t.type = .tComment ∨ t.type = .tLet ∨ t.type = .tFunc := by
  cases h with
  | eof ht => exact .inl ht
  | comment ht _ => exact .inr (.inl ht)
  | varDecl hd _ =>
    cases hd with
    | uninit ht _ _ _ => exact .inr (.inr (.inl ht))
    | init ht _ _ _ _ _ => exact .inr (.inr (.inl ht))
  | func hf _ =>
    cases hf with
    | func ht _ _ _ _ _ _ _ => exact .inr (.inr (.inr ht))

/-- What starts with a dot is no source. -/
theorem not_takesSource_dot {fuel : Nat} {bytes : CString} (hsize : bytes.length < 2 ^ 31)
    (hdot : bytes.head? = some 46) (head : Program) : ¬ TakesSource fuel bytes head := by
  rintro ⟨tokens, text, htokens, hparse, _⟩
  obtain ⟨s, rfl⟩ : ∃ s, bytes = 46 :: s := by
    cases bytes with
    | nil => exact absurd hdot (by simp)
    | cons c s =>
      obtain rfl := Option.some.inj hdot
      exact ⟨s, rfl⟩
  have htext : sourceText (46 :: s) = 46 :: sourceText s := rfl
  rw [tokenizeFile_eq hsize, tokenizeSource_eq, htext] at htokens
  have hderives := parseProgram_derives (tokenize_eofLast htokens) hparse
  rw [tokenize, tokenizerInit_eq] at htokens
  obtain ⟨turns, t, hturns, rfl⟩ := tokenizeLoop_eq_ok htokens
  cases hturns with
  | done h => exact h (Nat.zero_lt_succ _)
  | @turn _ t' _ temp turns h hscan _ =>
    -- the first token is a dot, which no program starts with
    have hdotted : ∃ token, temp = some token ∧ token.type = .tDot := by
      have hmem : ((46 : UInt8), TokenType.tDot) ∈ singles := by decide
      have hsingle := @scanToken_single (46 :: sourceText s) 0 0 1 fuel (Nat.zero_lt_succ _) .tDot hmem
      have hcreate := hsingle.symm.trans hscan
      cases hone : createToken .tDot (window (46 :: sourceText s) 0 (0 + 1) 1) with
      | error e =>
        rw [hone] at hcreate
        exact absurd hcreate (by simp [scanned, Except.map])
      | ok pair =>
        rw [hone] at hcreate
        obtain ⟨htemp, _⟩ := Prod.mk.inj (Except.ok.inj hcreate)
        exact ⟨pair.1, htemp.symm, createToken_type hone⟩
    obtain ⟨token, rfl, htype⟩ := hdotted
    rw [List.filterMap_cons] at hderives
    have hfirst := hderives.first_type
    rw [htype] at hfirst
    exact absurd hfirst (by decide)

/-- There is assembly for an empty source. -/
theorem genProgram_of_takesSource_nil {fuel : Nat} {head : Program} (h : TakesSource fuel [] head)
    (e : GenError) : genProgram head asmInit ≠ .error e := by
  obtain ⟨tokens, text, htokens, hparse, _⟩ := h
  rw [tokenizeFile_eq (by decide), tokenizeSource_eq] at htokens
  have hderives := parseProgram_derives (tokenize_eofLast htokens) hparse
  rw [tokenize, tokenizerInit_eq] at htokens
  obtain ⟨turns, t, hturns, rfl⟩ := tokenizeLoop_eq_ok htokens
  cases hturns with
  | turn h _ _ => exact absurd h (Nat.lt_irrefl 0)
  | done _ =>
    obtain rfl : head = [] := by
      cases hderives with
      | eof _ => rfl
      | comment ht _ => exact absurd ht (by decide)
      | varDecl hd _ =>
        cases hd with
        | uninit ht _ _ _ => exact absurd ht (by decide)
        | init ht _ _ _ _ _ => exact absurd ht (by decide)
      | func hf _ =>
        cases hf with
        | func ht _ _ _ _ _ _ _ => exact absurd ht (by decide)
    exact fun herror => absurd herror (by intro h; cases h)

/-- The command line `acompiler x.s`. -/
def lostArgs : CliArgs := ⟨.modeExecutable, ascii "x.s", none⟩

def lostSource : CString := ascii "let x;\n"

def lostSession : Session :=
  ⟨fun path => if path = lostArgs.input then some lostSource else none, [], []⟩

/-- A machine whose `gcc` writes an empty file. -/
def plainHost : Host where
  writable _ := true
  gcc _ exePath files := (fun path => if path = exePath then some [] else files path, .exited 0)
  keeps := fun _ _ _ _ h => if_neg h

/-- The linked lines do what the interpreter says about the program, wherever they are linked and
whichever of its functions they are entered at. -/
def Implements (lines : List Line) (p : Program) : Prop :=
  ∀ (I : Image), I.Links lines → ∀ (n : Nat) (f : CString) (args : List Word) (v : Word)
    (g' : CString → Option Word), runProgram p n f args = some (v, g') →
      ∀ s : State, Starts I lines args (n * p.callBytes) s →
        ∃ entry behind s', findEntry f lines = some entry ∧
          LinkedSteps I lines ⟨s, entry⟩ ⟨s', .instr .ret :: behind⟩ ∧
            Returns I.sym ((globalsOf p).map VarDecl.ident) s s' v g'

/-- The run has left the text in the assembly file, and `gcc` has gone through with it if it was
asked to. -/
def Leaves (host : Host) (args : CliArgs) (w w' : Session) (text : CString) : Prop :=
  match args.mode with
  | .modeAsmOnly => w'.files = (w.write args.asmPath text).files
  | .modeExecutable =>
    host.gcc args.asmPath args.exePath (w.write args.asmPath text).files = (w'.files, .exited 0)

theorem runAssemblerAndLinker_zero {host : Host} {asmPath exePath : CString} {w : Session}
    (h : (runAssemblerAndLinker host asmPath exePath w).1 = 0) :
    host.gcc asmPath exePath w.files =
      ((runAssemblerAndLinker host asmPath exePath w).2.files, .exited 0) := by
  unfold runAssemblerAndLinker at h ⊢
  generalize host.gcc asmPath exePath w.files = ended at h ⊢
  obtain ⟨files, child⟩ := ended
  cases child with
  | noFork reason => exact absurd h (by simp)
  | noWait reason => exact absurd h (by simp)
  | signaled => exact absurd h (by simp)
  | exited status =>
    cases status with
    | zero => rfl
    | succ n => exact absurd h (by simp)

theorem leaves_of_linkStage {host : Host} {args : CliArgs} {w w₁ w' : Session} {text : CString}
    (hfiles : w₁.files = (w.write args.asmPath text).files)
    (h : linkStage host args w₁ = .returned 0 w') : Leaves host args w w' text := by
  unfold linkStage at h
  unfold Leaves
  cases hmode : args.mode with
  | modeAsmOnly =>
    simp only [hmode] at h ⊢
    injection h with _ hw
    rw [← hw, hfiles]
  | modeExecutable =>
    simp only [hmode] at h ⊢
    by_cases hrc : (runAssemblerAndLinker host args.asmPath args.exePath w₁).1 = 0
    · rw [if_neg (not_not.mpr hrc)] at h
      injection h with _ hw
      rw [← hfiles, runAssemblerAndLinker_zero hrc, ← hw]
      rfl
    · rw [if_pos hrc] at h
      injection h with hstatus
      exact absurd hstatus (by decide)

/-- **What the compiler leaves is right**: when `main` returns 0, the source is a program of the
language, the assembly file is one that an assembler reads, and what it reads does, once linked, what
the interpreter says about the program. -/
theorem mainProgram_correct (fuel : Nat) (host : Host) (argv : List CString) (w w' : Session)
    (args : CliArgs) (hargs : parseCliArgs argv = some args) (bytes : CString)
    (hbytes : w.files args.input = some bytes) (hsize : bytes.length < 2 ^ 31)
    (hmain : mainProgram fuel host argv w = .returned 0 w') :
    ∃ tokens p text lines, tokenizeSource fuel bytes = .ok tokens ∧ DerivesProgram tokens p ∧
      Leaves host args w w' text ∧ readAssembly text = some lines ∧
        (p.names.Nodup → Implements lines p) := by
  unfold mainProgram at hmain
  simp only [hargs, hbytes] at hmain
  by_cases htaken : (∃ head, TakesSource fuel bytes head) ∧ host.writable args.asmPath = true
  · obtain ⟨⟨head, htakes⟩, hwritable⟩ := htaken
    rcases compileSource_of_takesSource fuel host args bytes w htakes hwritable with
      ⟨e, w₁, _, hstop, _⟩ | ⟨r, w₁, hgen, hlink, hfiles⟩
    · rw [hstop] at hmain
      exact absurd hmain (by simp)
    · obtain ⟨tokens, _, htokens, hparse, _⟩ := htakes
      rw [tokenizeFile_eq hsize] at htokens
      have hrun := htokens
      rw [tokenizeSource_eq] at hrun
      refine ⟨tokens, head, assembly r.items, codeOf r.items, htokens,
        parseProgram_derives (tokenize_eofLast hrun) hparse, ?_, ?_, ?_⟩
      · exact leaves_of_linkStage hfiles (hlink.symm.trans hmain)
      · exact source_readable (Nat.lt_of_le_of_lt (sourceText_length_le bytes) hsize)
          (not_mem_sourceText bytes) hrun hparse hgen
      · exact fun hnames I hlinks n f fargs v g' hinterp s hs =>
          genProgram_returns hgen hnames hlinks hinterp hs
  · obtain ⟨failure, w₁, hstop, _⟩ := compileSource_of_not_takesSource fuel host args bytes w htaken
    rw [hstop] at hmain
    exact absurd hmain (by simp)

/-- The command line `acompiler -S fib.av`. -/
def fibArgs : CliArgs := ⟨.modeAsmOnly, ascii "fib.av", none⟩

def fibArgv : List CString := [ascii "acompiler", ascii "-S", ascii "fib.av"]

def fibSession : Session :=
  ⟨fun path => if path = fibArgs.input then some fibSource else none, [], []⟩

/-- What is known about the program in `fibSource` and the lines of its assembly. -/
def fibFacts (p : Program) (lines : List Line) : Bool :=
  p.names.Nodup && 4 * p.callBytes = 224 &&
    ((runProgram p 4 (ascii "fib") [4]).map fun r => r.1) = some 3 &&
      lines.length = 61 && dataCells 0 lines = [⟨ascii "calls", 0, .quad, 0⟩]

theorem mainProgram_correct_fib : ∃ w' text lines entry behind s',
    mainProgram 200 plainHost fibArgv fibSession = .returned 0 w' ∧
      w'.files fibArgs.asmPath = some text ∧ readAssembly text = some lines ∧
        findEntry (ascii "fib") lines = some entry ∧
          LinkedSteps fibImage lines ⟨callFib, entry⟩ ⟨s', .instr .ret :: behind⟩ ∧
            s'.regs .rax = 3 := by
  have hargs : parseCliArgs fibArgv = some fibArgs := by decide +kernel
  have hbytes : fibSession.files fibArgs.input = some fibSource := by simp [fibSession]
  have hstatus : (mainProgram 200 plainHost fibArgv fibSession).status = some 0 := by decide +kernel
  have hchecked : ((mainProgram 200 plainHost fibArgv fibSession).session.files
      fibArgs.asmPath >>= readAssembly).bind (fun lines =>
        (tokenizeSource 200 fibSource).toOption.bind fun tokens =>
          (parseProgram tokens).toOption.map fun p => fibFacts p lines) = some true := by
    decide +kernel
  cases hmain : mainProgram 200 plainHost fibArgv fibSession with
  | stopped failure w' =>
    rw [hmain] at hstatus
    exact absurd hstatus (by simp [MainEnd.status])
  | returned status w' =>
    rw [hmain] at hstatus
    obtain rfl := Option.some.inj hstatus
    obtain ⟨tokens, p, text, lines, htokens, hderives, hleaves, hread, himplements⟩ :=
      mainProgram_correct 200 plainHost fibArgv fibSession w' fibArgs hargs fibSource hbytes
        (by decide +kernel) hmain
    have hfile : w'.files fibArgs.asmPath = some text := by
      rw [show w'.files = (fibSession.write fibArgs.asmPath text).files from hleaves]
      exact write_files_self _ _ _
    have hparse := parseProgram_of_derives hderives
    simp only [hmain, MainEnd.session, hfile, Option.bind_eq_bind, Option.bind_some, hread, htokens,
      hparse, Except.toOption, Option.map_some, Option.some.injEq, fibFacts, Bool.and_eq_true,
      decide_eq_true_eq] at hchecked
    obtain ⟨⟨⟨⟨hnodup, hroom⟩, hvalue⟩, hlen⟩, hdata⟩ := hchecked
    obtain ⟨⟨v, g'⟩, hrun, rfl⟩ := Option.map_eq_some_iff.mp hvalue
    obtain ⟨entry, behind, s', hfound, hsteps, hret⟩ := himplements hnodup fibImage
      (fibImage_links hdata hlen) 4 (ascii "fib") [4] _ g' hrun callFib
        (hroom ▸ starts_callFib hdata)
    exact ⟨w', text, lines, entry, behind, s', rfl, hfile, hread, hfound, hsteps, hret.rax⟩

end ACompiler
