import ACompiler.Assembler.Gen
import ACompiler.Driver.Cli
import ACompiler.Parser.Dump
import ACompiler.Tokenizer.Coverage

/-!
# The driver

`main`, over the files of the machine. Where `main` may write and what `gcc` does is up to the
`Host`. A stage that gives up on the source ends the run: what that stage has printed itself is
left out, and so is what the generator has written by then, but not that its file is empty before.
-/

namespace ACompiler

/-- The files that can be opened, by their names. -/
abbrev Files : Type := CString → Option CString

/-- How the child of `run_assembler_and_linker` ends. -/
inductive ChildEnd
  | noFork (reason : CString)
  | noWait (reason : CString)
  | exited (status : Nat)
  | signaled
  deriving DecidableEq, Repr

/-- What `main` runs on. -/
structure Host where
  /-- `fopen` for writing does not fail. -/
  writable : CString → Bool
  /-- `gcc asm_path -o exe_path`, and how the wait for it ends. -/
  gcc : CString → CString → Files → Files × ChildEnd
  /-- `gcc` leaves no trace in any other file than its output. -/
  keeps : ∀ asmPath exePath files path, path ≠ exePath →
    (gcc asmPath exePath files).1 path = files path

/-- What a run changes. -/
structure Session where
  files : Files
  stdout : CString
  stderr : CString

def Session.write (w : Session) (path text : CString) : Session :=
  { w with files := fun path' => if path' = path then some text else w.files path' }

def Session.printf (w : Session) (text : CString) : Session := { w with stdout := w.stdout ++ text }

def Session.eprintf (w : Session) (text : CString) : Session := { w with stderr := w.stderr ++ text }

/-- What a stage gives up with. -/
inductive Failure
  | scan (e : ScanError)
  | parse (e : ParseError)
  | dump (e : DumpError)
  /-- `asm_init` does not look at what `fopen` returns. -/
  | nullFile
  | gen (e : GenError)
  deriving DecidableEq, Repr

/-- How `main` ends: it returns, or a stage ends the program. -/
inductive MainEnd
  | returned (status : Nat) (w : Session)
  | stopped (failure : Failure) (w : Session)

def MainEnd.session : MainEnd → Session
  | .returned _ w | .stopped _ w => w

/-- The exit status, if `main` returns. -/
def MainEnd.status : MainEnd → Option Nat
  | .returned status _ => some status
  | .stopped _ _ => none

def usage (prog : CString) : CString :=
  ascii "usage: " ++ prog ++ ascii " [-S] [-o <output>] <file.av>\n" ++
    ascii "  default: assemble and link to an executable (a.out)\n" ++
    ascii "  -S:      stop after emitting assembly (.s)\n" ++
    ascii "  -o:      override output path\n"

/-- The line of a token; the type is printed as the number of its `enum`. -/
def tokenLine (entry : Token × Nat) : CString :=
  ascii "[" ++ decimal entry.2 ++ ascii "] TOKEN: type=" ++ decimal entry.1.type.ctorIdx ++
    ascii ", lexeme='" ++ entry.1.lexeme ++ ascii "'\n"

/-- The tokens of a file, with the count that `main` takes. -/
def tokenizeFile (fuel : Nat) (bytes : CString) : Except ScanError (List Token) :=
  match charCount (bytes.length + 1) (.fopen bytes) with
  | none => .error .outOfFuel
  | some (count, file) => tokenize fuel file count

def runAssemblerAndLinker (host : Host) (asmPath exePath : CString) (w : Session) : Int × Session :=
  let (files, child) := host.gcc asmPath exePath w.files
  let w := { w with files := files }
  match child with
  | .noFork reason => (-1, w.eprintf (ascii "fork: " ++ reason ++ [10]))
  | .noWait reason => (-1, w.eprintf (ascii "waitpid: " ++ reason ++ [10]))
  | .exited 0 => (0, w)
  | .exited _ | .signaled =>
    (-1, w.eprintf (ascii "gcc failed to assemble/link " ++ asmPath ++ [10]))

/-- `main` behind the assembly. -/
def linkStage (host : Host) (args : CliArgs) (w : Session) : MainEnd :=
  match args.mode with
  | .modeAsmOnly => .returned 0 w
  | .modeExecutable =>
    let (rc, w) := runAssemblerAndLinker host args.asmPath args.exePath w
    if rc ≠ 0 then .returned 1 w
    else .returned 0 (w.printf (ascii "wrote executable to " ++ args.exePath ++ [10]))

/-- `main` on the bytes of the source. -/
def compileSource (fuel : Nat) (host : Host) (args : CliArgs) (bytes : CString) (w : Session) :
    MainEnd :=
  let w := w.printf (ascii "welcome to ACompiler\n")
  match tokenizeFile fuel bytes with
  | .error e => .stopped (.scan e) w
  | .ok tokens =>
    let w := w.printf (tokens.zipIdx.flatMap tokenLine)
    match parseProgram tokens with
    | .error e => .stopped (.parse e) w
    | .ok head =>
      match printAst head with
      | .error e => .stopped (.dump e) w
      | .ok text =>
        let w := w.printf text
        if host.writable args.asmPath then
          match genProgram head asmInit with
          | .error e => .stopped (.gen e) (w.write args.asmPath [])
          | .ok r =>
            let w := w.write args.asmPath (assembly r.items)
            linkStage host args (w.printf (ascii "wrote assembly to " ++ args.asmPath ++ [10]))
        else .stopped .nullFile w

/-- `main`. -/
def mainProgram (fuel : Nat) (host : Host) (argv : List CString) (w : Session) : MainEnd :=
  match parseCliArgs argv with
  | none => .returned 1 (w.eprintf (usage (argv.headD [])))
  | some args =>
    match w.files args.input with
    | none =>
      .returned 1 (w.eprintf (ascii "could not open input file: " ++ args.input ++ [10]))
    | some bytes => compileSource fuel host args bytes w

end ACompiler
