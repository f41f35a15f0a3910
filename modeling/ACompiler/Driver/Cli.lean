import ACompiler.Utils.CString

/-!
# The command line

`parse_cli_args` and `swap_extension`. A command line is accepted iff it is a request: options, one
file that does not start with a dash, and options again (`parseCliArgs_iff`). The name of the
assembly file is the name of the source up to its last dot, so a source that ends in `.s` is the
assembly file itself (`swapExtension_eq_self_iff`).
-/

namespace ACompiler

/-- `compile_mode_t`. -/
inductive CompileMode
  | modeExecutable
  | modeAsmOnly
  deriving DecidableEq, Repr

/-- `cli_args_t` while it is filled in. -/
structure CliState where
  mode : CompileMode
  input : Option CString
  output : Option CString
  deriving DecidableEq, Repr

/-- `cli_args_t` after a parse that returned 0. -/
structure CliArgs where
  mode : CompileMode
  input : CString
  output : Option CString
  deriving DecidableEq, Repr

/-- The loop of `parse_cli_args`. -/
def parseCliLoop (out : CliState) : List CString → Option CliState
  | [] => some out
  | arg :: argv =>
    if arg = ascii "-S" then parseCliLoop { out with mode := .modeAsmOnly } argv
    else if arg = ascii "-o" then
      match argv with
      | [] => none
      | path :: argv => parseCliLoop { out with output := some path } argv
    else if arg.head? = some 45 then none
    else if out.input ≠ none then none
    else parseCliLoop { out with input := some arg } argv

def parseCliArgs (argv : List CString) : Option CliArgs := do
  let out ← parseCliLoop ⟨.modeExecutable, none, none⟩ argv.tail
  let input ← out.input
  some ⟨out.mode, input, out.output⟩

/-- `strrchr`, as the place of the last `c`. -/
def strrchr (s : CString) (c : UInt8) : Option Nat :=
  if c ∈ s then some (s.length - 1 - s.reverse.idxOf c) else none

def swapExtension (input newExt : CString) : CString :=
  let base := (strrchr input 46).getD input.length
  input.take base ++ newExt

/-- `asm_path`. -/
def CliArgs.asmPath (args : CliArgs) : CString :=
  match args.mode, args.output with
  | .modeAsmOnly, some output => output
  | _, _ => swapExtension args.input (ascii ".s")

/-- `exe_path`, in the mode that has one. -/
def CliArgs.exePath (args : CliArgs) : CString := args.output.getD (ascii "a.out")

/-! ## Requests -/

inductive CliOption
  | asmOnly
  | output (path : CString)
  deriving DecidableEq, Repr

def CliOption.words : CliOption → List CString
  | .asmOnly => [ascii "-S"]
  | .output path => [ascii "-o", path]

/-- What a command line asks for: a file, and options before and behind it. -/
structure Request where
  before : List CliOption
  file : CString
  behind : List CliOption
  plain : file.head? ≠ some 45

def Request.options (q : Request) : List CliOption := q.before ++ q.behind

def Request.words (q : Request) : List CString :=
  q.before.flatMap CliOption.words ++ q.file :: q.behind.flatMap CliOption.words

/-- The mode that the options leave behind. -/
def modeAfter (mode : CompileMode) (options : List CliOption) : CompileMode :=
  if .asmOnly ∈ options then .modeAsmOnly else mode

/-- The last output, if there is one. -/
def outputAfter (output : Option CString) : List CliOption → Option CString
  | [] => output
  | .asmOnly :: options => outputAfter output options
  | .output path :: options => outputAfter (some path) options

def Request.args (q : Request) : CliArgs :=
  ⟨modeAfter .modeExecutable q.options, q.file, outputAfter none q.options⟩

theorem outputAfter_append (output : Option CString) (options options' : List CliOption) :
    outputAfter output (options ++ options') = outputAfter (outputAfter output options) options' := by
  induction options generalizing output with
  | nil => rfl
  | cons o options ih =>
    cases o with
    | asmOnly => exact ih output
    | output path => exact ih (some path)

theorem modeAfter_append (mode : CompileMode) (options options' : List CliOption) :
    modeAfter mode (options ++ options') = modeAfter (modeAfter mode options) options' := by
  unfold modeAfter
  simp only [List.mem_append]
  by_cases h : CliOption.asmOnly ∈ options <;> by_cases h' : CliOption.asmOnly ∈ options' <;>
    simp [h, h']

theorem parseCliLoop_asmOnly (out : CliState) (argv : List CString) :
    parseCliLoop out (ascii "-S" :: argv) = parseCliLoop { out with mode := .modeAsmOnly } argv := by
  rw [parseCliLoop.eq_def]
  exact if_pos rfl

theorem parseCliLoop_output (out : CliState) (path : CString) (argv : List CString) :
    parseCliLoop out (ascii "-o" :: path :: argv) =
      parseCliLoop { out with output := some path } argv := by
  rw [parseCliLoop.eq_def]
  exact (if_neg (by decide)).trans (if_pos rfl)

theorem parseCliLoop_last (out : CliState) : parseCliLoop out [ascii "-o"] = none := by
  rw [parseCliLoop.eq_def]
  exact (if_neg (by decide)).trans (if_pos rfl)

theorem parseCliLoop_other {arg : CString} (hS : arg ≠ ascii "-S") (ho : arg ≠ ascii "-o")
    (out : CliState) (argv : List CString) : parseCliLoop out (arg :: argv) =
      if arg.head? = some 45 then none
      else if out.input ≠ none then none
      else parseCliLoop { out with input := some arg } argv := by
  rw [parseCliLoop.eq_def]
  exact (if_neg hS).trans (if_neg ho)

theorem parseCliLoop_file {file : CString} (h : file.head? ≠ some 45) (out : CliState)
    (argv : List CString) : parseCliLoop out (file :: argv) =
      if out.input ≠ none then none else parseCliLoop { out with input := some file } argv := by
  have hS : file ≠ ascii "-S" := by
    rintro rfl
    exact h rfl
  have ho : file ≠ ascii "-o" := by
    rintro rfl
    exact h rfl
  rw [parseCliLoop_other hS ho, if_neg h]

/-- The loop passes the options by. -/
theorem parseCliLoop_options (options : List CliOption) : ∀ (out : CliState) (argv : List CString),
    parseCliLoop out (options.flatMap CliOption.words ++ argv) =
      parseCliLoop ⟨modeAfter out.mode options, out.input, outputAfter out.output options⟩ argv := by
  induction options with
  | nil => exact fun _ _ => rfl
  | cons o options ih =>
    intro out argv
    cases o with
    | asmOnly =>
      show parseCliLoop out (ascii "-S" :: (options.flatMap CliOption.words ++ argv)) = _
      rw [parseCliLoop_asmOnly, ih]
      simp [modeAfter, outputAfter]
    | output path =>
      show parseCliLoop out (ascii "-o" :: path :: (options.flatMap CliOption.words ++ argv)) = _
      rw [parseCliLoop_output, ih]
      simp [modeAfter, outputAfter]

theorem parseCliArgs_words (prog : CString) (q : Request) :
    parseCliArgs (prog :: q.words) = some q.args := by
  have hbehind := parseCliLoop_options q.behind
    ⟨modeAfter .modeExecutable q.before, some q.file, outputAfter none q.before⟩ []
  rw [List.append_nil] at hbehind
  simp only [parseCliArgs, List.tail_cons, Request.words]
  rw [parseCliLoop_options, parseCliLoop_file q.plain]
  simp only [ne_eq, not_true_eq_false, if_false, hbehind, ← modeAfter_append, ← outputAfter_append]
  rfl

/-- What the loop accepts is options, or a request if there is no file yet. -/
theorem parseCliLoop_eq_some : ∀ (n : Nat) {argv : List CString}, argv.length ≤ n →
    ∀ {out out' : CliState}, parseCliLoop out argv = some out' →
      (∃ options : List CliOption, argv = options.flatMap CliOption.words ∧ out'.input = out.input) ∨
        out.input = none ∧ ∃ q : Request, argv = q.words := by
  intro n
  induction n with
  | zero =>
    intro argv hlen out out' h
    obtain rfl := List.length_eq_zero_iff.mp (Nat.le_zero.mp hlen)
    obtain rfl := Option.some.inj h
    exact .inl ⟨[], rfl, rfl⟩
  | succ n ih =>
    intro argv hlen out out' h
    cases argv with
    | nil =>
      obtain rfl := Option.some.inj h
      exact .inl ⟨[], rfl, rfl⟩
    | cons arg argv =>
      have hlen' : argv.length ≤ n := Nat.le_of_succ_le_succ hlen
      by_cases hS : arg = ascii "-S"
      · subst hS
        rw [parseCliLoop_asmOnly] at h
        rcases ih hlen' h with ⟨options, rfl, hinput⟩ | ⟨hinput, q, rfl⟩
        · exact .inl ⟨.asmOnly :: options, rfl, hinput⟩
        · exact .inr ⟨hinput, { q with before := .asmOnly :: q.before }, rfl⟩
      by_cases ho : arg = ascii "-o"
      · subst ho
        cases argv with
        | nil =>
          rw [parseCliLoop_last] at h
          exact absurd h (by simp)
        | cons path argv =>
          rw [parseCliLoop_output] at h
          rcases ih (Nat.le_of_succ_le hlen') h with ⟨options, rfl, hinput⟩ | ⟨hinput, q, rfl⟩
          · exact .inl ⟨.output path :: options, rfl, hinput⟩
          · exact .inr ⟨hinput, { q with before := .output path :: q.before }, rfl⟩
      rw [parseCliLoop_other hS ho] at h
      by_cases hplain : arg.head? = some 45
      · rw [if_pos hplain] at h
        exact absurd h (by simp)
      rw [if_neg hplain] at h
      by_cases hinput : out.input ≠ none
      · rw [if_pos hinput] at h
        exact absurd h (by simp)
      rw [if_neg hinput] at h
      rcases ih hlen' h with ⟨options, rfl, _⟩ | ⟨hnone, _⟩
      · exact .inr ⟨not_not.mp hinput, ⟨[], arg, options, hplain⟩, rfl⟩
      · exact absurd hnone (by simp)

/-! ## Requests are unambiguous -/

theorem words_ne_file {o : CliOption} {file : CString} (h : file.head? ≠ some 45)
    {argv argv' : List CString} : o.words ++ argv ≠ file :: argv' := by
  intro heq
  cases o with
  | asmOnly =>
    obtain ⟨rfl, -⟩ := List.cons.inj heq
    exact h rfl
  | output path =>
    obtain ⟨rfl, -⟩ := List.cons.inj heq
    exact h rfl

theorem words_append_inj {o o' : CliOption} {argv argv' : List CString}
    (h : o.words ++ argv = o'.words ++ argv') : o = o' ∧ argv = argv' := by
  cases o with
  | asmOnly =>
    cases o' with
    | asmOnly => exact ⟨rfl, (List.cons.inj h).2⟩
    | output path' => exact absurd (List.cons.inj h).1 (by decide)
  | output path =>
    cases o' with
    | asmOnly => exact absurd (List.cons.inj h).1 (by decide)
    | output path' =>
      obtain ⟨rfl, hargv⟩ := List.cons.inj (List.cons.inj h).2
      exact ⟨rfl, hargv⟩

theorem flatMap_words_inj : ∀ {options options' : List CliOption},
    options.flatMap CliOption.words = options'.flatMap CliOption.words → options = options' := by
  intro options
  induction options with
  | nil =>
    intro options' h
    cases options' with
    | nil => rfl
    | cons o' _ => cases o' <;> exact absurd h (by simp [CliOption.words])
  | cons o options ih =>
    intro options' h
    cases options' with
    | nil => cases o <;> exact absurd h (by simp [CliOption.words])
    | cons o' options' =>
      rw [List.flatMap_cons, List.flatMap_cons] at h
      obtain ⟨rfl, hrest⟩ := words_append_inj h
      rw [ih hrest]

theorem words_file_inj {file file' : CString} (h : file.head? ≠ some 45)
    (h' : file'.head? ≠ some 45) {argv argv' : List CString} :
    ∀ {before before' : List CliOption}, before.flatMap CliOption.words ++ file :: argv =
      before'.flatMap CliOption.words ++ file' :: argv' →
        before = before' ∧ file = file' ∧ argv = argv' := by
  intro before
  induction before with
  | nil =>
    intro before' heq
    cases before' with
    | nil =>
      obtain ⟨rfl, rfl⟩ := List.cons.inj heq
      exact ⟨rfl, rfl, rfl⟩
    | cons o' _ =>
      rw [List.flatMap_cons, List.append_assoc] at heq
      exact absurd heq.symm (words_ne_file h)
  | cons o before ih =>
    intro before' heq
    rw [List.flatMap_cons, List.append_assoc] at heq
    cases before' with
    | nil => exact absurd heq (words_ne_file h')
    | cons o' before' =>
      rw [List.flatMap_cons, List.append_assoc] at heq
      obtain ⟨rfl, hrest⟩ := words_append_inj heq
      obtain ⟨rfl, hfile, hargv⟩ := ih hrest
      exact ⟨rfl, hfile, hargv⟩

theorem Request.words_inj {q q' : Request} (h : q.words = q'.words) : q = q' := by
  obtain ⟨before, file, behind, plain⟩ := q
  obtain ⟨before', file', behind', plain'⟩ := q'
  obtain ⟨rfl, rfl, hbehind⟩ := words_file_inj plain plain' h
  obtain rfl := flatMap_words_inj hbehind
  rfl

/-- **A command line is accepted iff it is a request**, which it is in one way only, and it is
understood as that request. -/
theorem parseCliArgs_iff (prog : CString) (argv : List CString) (args : CliArgs) :
    parseCliArgs (prog :: argv) = some args ↔ ∃! q : Request, argv = q.words ∧ args = q.args := by
  constructor
  · intro h
    simp only [parseCliArgs, List.tail_cons, Option.bind_eq_bind, Option.bind_eq_some_iff] at h
    obtain ⟨out, hloop, input, hinput, hargs⟩ := h
    obtain rfl := Option.some.inj hargs
    rcases parseCliLoop_eq_some argv.length (Nat.le_refl _) hloop with ⟨_, _, hnone⟩ | ⟨_, q, rfl⟩
    · exact absurd (hinput.symm.trans hnone) (by simp)
    · have hargs := parseCliArgs_words prog q
      simp only [parseCliArgs, List.tail_cons, hloop, hinput, Option.bind_eq_bind,
        Option.bind_some] at hargs
      exact ⟨q, ⟨rfl, Option.some.inj hargs⟩, fun q' h' => (Request.words_inj h'.1).symm⟩
  · rintro ⟨q, ⟨rfl, rfl⟩, _⟩
    exact parseCliArgs_words prog q

/-! ## The assembly file -/

theorem strrchr_append {s s' : CString} {c : UInt8} (h : c ∉ s') :
    strrchr (s ++ c :: s') c = some s.length := by
  have hidx : (s'.reverse ++ c :: s.reverse).idxOf c = s'.length := by
    rw [List.idxOf_append_of_notMem (by simpa using h), List.idxOf_cons_self, List.length_reverse,
      Nat.add_zero]
  unfold strrchr
  rw [if_pos (by simp), List.reverse_append, List.reverse_cons, List.append_assoc,
    List.singleton_append, hidx, List.length_append, List.length_cons]
  congr 1
  omega

/-- The name up to its last dot. -/
theorem swapExtension_dot {stem ext : CString} (h : (46 : UInt8) ∉ ext) (newExt : CString) :
    swapExtension (stem ++ 46 :: ext) newExt = stem ++ newExt := by
  unfold swapExtension
  rw [strrchr_append h]
  simp

theorem swapExtension_plain {input : CString} (h : (46 : UInt8) ∉ input) (newExt : CString) :
    swapExtension input newExt = input ++ newExt := by
  unfold swapExtension strrchr
  rw [if_neg h]
  simp

/-- A name has a last dot, or none. -/
theorem exists_last_dot {input : CString} (h : (46 : UInt8) ∈ input) :
    ∃ stem ext : CString, input = stem ++ 46 :: ext ∧ (46 : UInt8) ∉ ext := by
  induction input with
  | nil => exact absurd h List.not_mem_nil
  | cons c input ih =>
    by_cases hmem : (46 : UInt8) ∈ input
    · obtain ⟨stem, ext, rfl, hext⟩ := ih hmem
      exact ⟨c :: stem, ext, rfl, hext⟩
    · obtain rfl : 46 = c := (List.mem_cons.mp h).resolve_right hmem
      exact ⟨[], input, rfl, hmem⟩

/-- **The assembly file is the source itself iff the source ends in `.s`.** -/
theorem swapExtension_eq_self_iff (input : CString) :
    swapExtension input (ascii ".s") = input ↔ ascii ".s" <:+ input := by
  constructor
  · intro h
    rw [← h]
    exact List.suffix_append _ _
  · rintro ⟨stem, rfl⟩
    exact swapExtension_dot (by decide) _

/-- A dot in the name of a directory is taken for the extension if there is none behind it. -/
theorem swapExtension_directory (dir file : CString) (newExt : CString) :
    swapExtension (dir ++ 47 :: file) newExt =
      if (46 : UInt8) ∈ file ∨ (46 : UInt8) ∉ dir then dir ++ 47 :: swapExtension file newExt
      else swapExtension dir newExt := by
  by_cases hfile : (46 : UInt8) ∈ file
  · obtain ⟨stem, ext, rfl, hext⟩ := exists_last_dot hfile
    rw [if_pos (.inl hfile), swapExtension_dot hext,
      show dir ++ 47 :: (stem ++ 46 :: ext) = (dir ++ 47 :: stem) ++ 46 :: ext from by simp,
      swapExtension_dot hext]
    simp
  by_cases hdir : (46 : UInt8) ∈ dir
  · obtain ⟨stem, ext, rfl, hext⟩ := exists_last_dot hdir
    have hnot : (46 : UInt8) ∉ ext ++ 47 :: file := by simp [hext, hfile]
    rw [if_neg (by simp [hfile]), swapExtension_dot hext,
      show stem ++ 46 :: ext ++ 47 :: file = stem ++ 46 :: (ext ++ 47 :: file) from by simp,
      swapExtension_dot hnot]
  · rw [if_pos (.inr hdir), swapExtension_plain hfile, swapExtension_plain (by simp [hdir, hfile])]
    simp

end ACompiler
