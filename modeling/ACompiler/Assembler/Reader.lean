import ACompiler.Assembler.LabelText
import ACompiler.Lib.Reader
import ACompiler.Tokenizer.Correct

/-!
# Reading assembly

What an assembler makes of the text: a reader of the AT&T lines that the compiler writes. It reads
every line back from its text (`readLine_text`), so a file is read back to the lines it was printed
from (`readAssembly_assembly`).
-/

namespace ACompiler

open Lib (Reader Reads EndsRun endsRun_nil endsRun_cons splitLines splitLines_flatMap)
open Lib.Reader (lit runOf peek ofOption)

/-! ## Numbers -/

theorem ascii_append (s s' : String) : ascii (s ++ s') = ascii s ++ ascii s' := by
  rw [ascii, String.toList_append, List.map_append]
  rfl

theorem digitsVal_repr (n : Nat) : digitsVal (ascii (Nat.repr n)) = n := by
  have hread : ∀ (cs : List Char) (v : Nat), (∀ c ∈ cs, c.toNat < 256) →
      (cs.map fun c => c.toNat.toUInt8).foldl (fun n c => 10 * n + (c.toNat - 48)) v =
        Nat.ofDigitChars 10 cs v := by
    intro cs
    induction cs with
    | nil => exact fun _ _ => rfl
    | cons c cs ih =>
      intro v hcs
      rw [List.forall_mem_cons] at hcs
      have hchar : c.toNat.toUInt8.toNat = c.toNat := by
        rw [Nat.toUInt8, UInt8.toNat_ofNat']
        exact Nat.mod_eq_of_lt hcs.1
      rw [List.map_cons, List.foldl_cons, ih _ hcs.2, Nat.ofDigitChars_cons, hchar]
      rfl
  rw [digitsVal, ascii, hread _ _ (repr_bytes n), Nat.toList_repr, Nat.ofDigitChars_ten_toDigits]

theorem isdigit_repr (n : Nat) : ∀ c ∈ ascii (Nat.repr n), isdigit c = true := by
  intro c hc
  obtain ⟨d, hd, rfl⟩ := List.mem_map.mp hc
  have hlt := repr_bytes n d hd
  rw [Nat.toList_repr] at hd
  have hdigit := Nat.isDigit_of_mem_toDigits (by decide) (by decide) hd
  rw [Char.isDigit, Bool.and_eq_true, decide_eq_true_eq, decide_eq_true_eq] at hdigit
  have hlo : 48 ≤ d.toNat := UInt32.le_iff_toNat_le.mp hdigit.1
  have hhi : d.toNat ≤ 57 := UInt32.le_iff_toNat_le.mp hdigit.2
  simp only [isdigit, Bool.and_eq_true, decide_eq_true_eq, UInt8.le_iff_toNat_le, Nat.toUInt8,
    UInt8.toNat_ofNat', Nat.mod_eq_of_lt hlt]
  exact ⟨hlo, hhi⟩

theorem repr_ne_nil (n : Nat) : ascii (Nat.repr n) ≠ [] := by
  intro h
  rw [ascii, List.map_eq_nil_iff, Nat.toList_repr] at h
  exact Nat.toDigits_ne_nil h

/-- The characters of names, registers and numbers. -/
def wordChar (c : UInt8) : Bool := isalpha c || isdigit c || c = 46 || c = 37

/-- The text does not go on with a word. -/
abbrev EndsWord : CString → Prop := EndsRun wordChar

theorem EndsWord.digits {rest : CString} (h : EndsWord rest) : EndsRun isdigit rest :=
  EndsRun.imp (fun c hc => by simp [wordChar, hc]) h

def readNumber : Reader UInt8 Nat := do
  let w ← runOf isdigit
  ofOption (if w = [] then none else some (digitsVal w))

theorem readNumber_repr (n : Nat) : Reads readNumber (ascii (Nat.repr n)) n EndsWord := by
  refine Reads.andThen ((Reads.runOf (isdigit_repr n)).mono fun _ => EndsWord.digits) ?_
  refine Reads.ofOption ?_
  rw [if_neg (repr_ne_nil n), digitsVal_repr]

def readInt : Reader UInt8 Int := do
  match ← peek with
  | some 45 => do
    lit [45]
    let n ← readNumber
    pure (-n)
  | _ => do
    let n ← readNumber
    pure n

theorem decimal_head (n : Int) : ∃ c w, decimal n = c :: w ∧ (isdigit c = true ∨ c = 45) := by
  cases n with
  | ofNat n =>
    cases h : ascii (Nat.repr n) with
    | nil => exact absurd h (repr_ne_nil n)
    | cons c w => exact ⟨c, w, h, .inl (isdigit_repr n c (by rw [h]; exact List.mem_cons_self))⟩
  | negSucc n => exact ⟨45, ascii (Nat.repr (n + 1)), ascii_append "-" _, .inr rfl⟩

theorem readInt_decimal (n : Int) : Reads readInt (decimal n) n EndsWord := by
  cases n with
  | ofNat n =>
    obtain ⟨c, w, hdec, _⟩ := decimal_head (Int.ofNat n)
    have hdigit : isdigit c = true :=
      isdigit_repr n c (by rw [show ascii (Nat.repr n) = c :: w from hdec]; exact List.mem_cons_self)
    refine Reads.peek (by rw [hdec]; rfl) ?_
    split
    · rename_i heq
      obtain rfl := Option.some.inj heq
      exact absurd hdigit (by decide)
    · exact (readNumber_repr n).andThen (.pure _)
  | negSucc n =>
    have htext : decimal (Int.negSucc n) = [45] ++ ascii (Nat.repr (n + 1)) := ascii_append "-" _
    rw [htext]
    exact .peek rfl (.litThen [45] ((readNumber_repr (n + 1)).andThen (.pure _)))

/-! ## Operands -/

def regIds : List RegId :=
  [.rax, .rbx, .rcx, .rdx, .rsi, .rdi, .rbp, .rsp, .r8, .r9, .r10, .r11, .r12, .r13, .r14, .r15]

def readReg : Reader UInt8 RegId := do
  let w ← runOf wordChar
  ofOption (regIds.find? fun id => id.text = w)

theorem readReg_text (id : RegId) : Reads readReg id.text id EndsWord := by
  have hword : id.text.all wordChar = true := by cases id <;> decide +kernel
  have hfind : (regIds.find? fun id' => id'.text = id.text) = some id := by
    cases id <;> decide +kernel
  exact (Reads.runOf (List.all_eq_true.mp hword)).andThen (.ofOption hfind)

def readOperand : Reader UInt8 Operand := do
  match ← peek with
  | some 37 => do
    let id ← readReg
    pure (.reg id)
  | some 36 => do
    lit [36]
    let n ← readInt
    pure (.imm n)
  | c =>
    if (c.all fun c => isdigit c || c = 45) = true then do
      let disp ← readInt
      lit [40]
      let base ← readReg
      lit [41]
      pure (.mem base disp)
    else do
      let name ← runOf wordChar
      lit (ascii "(%rip)")
      pure (.sym name)

/-- The symbols of the operand are names. -/
def Operand.Named : Operand → Prop
  | .sym name => isName name = true
  | _ => True

theorem wordChar_of_isName {name : CString} (h : isName name = true) :
    ∀ c ∈ name, wordChar c = true := by
  cases name with
  | nil => exact absurd h (by decide)
  | cons c w =>
    rw [isName, Bool.and_eq_true, List.all_eq_true] at h
    intro c' hc'
    rcases List.mem_cons.mp hc' with rfl | hc'
    · simp [wordChar, h.1]
    · have hor := h.2 c' hc'
      simp only [Bool.or_eq_true] at hor
      rcases hor with hor | hor <;> simp [wordChar, hor]

theorem isName_head {name : CString} (h : isName name = true) :
    ∃ c w, name = c :: w ∧ isalpha c = true := by
  cases name with
  | nil => exact absurd h (by decide)
  | cons c w =>
    rw [isName, Bool.and_eq_true] at h
    exact ⟨c, w, rfl, h.1⟩

theorem readOperand_text {op : Operand} (h : op.Named) : Reads readOperand op.text op EndsWord := by
  cases op with
  | reg id =>
    have hhead : id.text.head? = some 37 := by cases id <;> rfl
    exact .peek hhead ((readReg_text id).andThen (.pure _))
  | imm n => exact .peek rfl (.litThen [36] ((readInt_decimal n).andThen (.pure _)))
  | mem base disp =>
    obtain ⟨c, w, hdec, hc⟩ := decimal_head disp
    have htext : (Operand.mem base disp).text =
        decimal disp ++ ([40] ++ (base.text ++ ([41] ++ []))) := by
      simp [Operand.text, ascii]
    have htest : (some c).all (fun c => isdigit c || c = 45) = true := by simpa using hc
    rw [htext]
    refine Reads.peek (by rw [hdec]; rfl) ?_
    split
    · rename_i heq
      obtain rfl := Option.some.inj heq
      exact absurd htest (by decide)
    · rename_i heq
      obtain rfl := Option.some.inj heq
      exact absurd htest (by decide)
    · rw [if_pos htest]
      exact (readInt_decimal disp).bind (.litThen [40] ((readReg_text base).bind
        (.litThen [41] (.pure _)) fun _ _ => endsRun_cons (by decide) _))
        fun _ _ => endsRun_cons (by decide) _
  | sym name =>
    obtain ⟨c, w, hname, hc⟩ := isName_head h
    have htext : (Operand.sym name).text = name ++ (ascii "(%rip)" ++ []) := by
      simp [Operand.text]
    have htest : (some c).all (fun c => isdigit c || c = 45) = false := by
      have hne : c ≠ 45 := by
        rintro rfl
        exact absurd hc (by decide)
      simp [isdigit_of_isalpha hc, hne]
    rw [htext]
    refine Reads.peek (by rw [hname]; rfl) ?_
    split
    · rename_i heq
      obtain rfl := Option.some.inj heq
      exact absurd hc (by decide)
    · rename_i heq
      obtain rfl := Option.some.inj heq
      exact absurd hc (by decide)
    · rw [if_neg (by rw [htest]; decide)]
      exact (Reads.runOf (wordChar_of_isName h)).bind (.litThen _ (.pure _))
        fun _ _ => endsRun_cons (by decide) _

/-! ## Lines -/

/-- The word that a line other than a label starts with. -/
inductive Mnemonic
  | mov | lea | push | pop | add | sub | imul | idiv | neg | cmp
  | setcc (cond : Cond)
  | movzbq | cqto | call | je | jmp | ret
  | globl | data | text
  | directive (d : Directive)
  deriving DecidableEq, Repr

def Mnemonic.word : Mnemonic → CString
  | .mov => ascii "movq" | .lea => ascii "leaq" | .push => ascii "pushq" | .pop => ascii "popq"
  | .add => ascii "addq" | .sub => ascii "subq" | .imul => ascii "imulq" | .idiv => ascii "idivq"
  | .neg => ascii "negq" | .cmp => ascii "cmpq" | .setcc cond => cond.text
  | .movzbq => ascii "movzbq" | .cqto => ascii "cqto" | .call => ascii "call" | .je => ascii "je"
  | .jmp => ascii "jmp" | .ret => ascii "ret" | .globl => ascii ".globl" | .data => ascii ".data"
  | .text => ascii ".text" | .directive d => d.text

def mnemonics : List Mnemonic :=
  [.mov, .lea, .push, .pop, .add, .sub, .imul, .idiv, .neg, .cmp, .setcc .e, .setcc .ne, .setcc .l,
    .setcc .g, .setcc .ge, .setcc .le, .movzbq, .cqto, .call, .je, .jmp, .ret, .globl, .data, .text,
    .directive .byte, .directive .word, .directive .long, .directive .quad]

/-- Two operands. -/
def readTwo (f : Operand → Operand → Instr) : Reader UInt8 Line := do
  lit [32]
  let src ← readOperand
  lit [44, 32]
  let dest ← readOperand
  pure (.instr (f src dest))

/-- One operand. -/
def readOne (f : Operand → Instr) : Reader UInt8 Line := do
  lit [32]
  let op ← readOperand
  pure (.instr (f op))

/-- The number of a label. -/
def readLabel (f : Nat → Instr) : Reader UInt8 Line := do
  lit (ascii " .L")
  let n ← readNumber
  pure (.instr (f n))

/-- A name. -/
def readName (f : CString → Line) : Reader UInt8 Line := do
  lit [32]
  let name ← runOf wordChar
  pure (f name)

/-- A text that is always the same. -/
def readFixed (w : CString) (l : Line) : Reader UInt8 Line := do
  lit w
  pure l

/-- What stands behind the word. -/
def Mnemonic.reader : Mnemonic → Reader UInt8 Line
  | .mov => readTwo .mov
  | .lea => readTwo .lea
  | .push => readOne .push
  | .pop => readOne .pop
  | .add => readTwo .add
  | .sub => readTwo .sub
  | .imul => readTwo .imul
  | .idiv => readOne .idiv
  | .neg => readOne .neg
  | .cmp => readTwo .cmp
  | .setcc cond => readFixed (ascii " %al") (.instr (.setcc cond))
  | .movzbq => readFixed (ascii " %al, %rax") (.instr .movzbq)
  | .cqto => pure (.instr .cqto)
  | .call => readName fun name => .instr (.call name)
  | .je => readLabel .je
  | .jmp => readLabel .jmp
  | .ret => pure (.instr .ret)
  | .globl => readName .globl
  | .data => pure .dataSection
  | .text => pure .textSection
  | .directive d => do
    lit [32]
    let val ← readInt
    pure (.directive d val)

def readLine : Reader UInt8 Line := do
  let w ← runOf wordChar
  match ← peek with
  | some 58 => do
    lit [58]
    pure (if (ascii ".L").isPrefixOf w then .label (digitsVal (w.drop 2)) else .symbol w)
  | _ => do
    let m ← ofOption (mnemonics.find? fun m => m.word = w)
    m.reader

/-- An assembly file, line by line, without the indents. -/
def readAssembly (file : CString) : Option (List Line) :=
  (splitLines 10 file).mapM fun w => readLine.readAll (w.dropWhile (· = 32))

section readers
variable {src dest op : Operand}

theorem readTwo_text (f : Operand → Operand → Instr) (hsrc : src.Named) (hdest : dest.Named) :
    Reads (readTwo f) ([32] ++ (src.text ++ ([44, 32] ++ dest.text))) (.instr (f src dest)) EndsWord :=
  .litThen _ ((readOperand_text hsrc).bind (.litThen _ ((readOperand_text hdest).andThen (.pure _)))
    fun _ _ => endsRun_cons (by decide) _)

theorem readOne_text (f : Operand → Instr) (hop : op.Named) :
    Reads (readOne f) ([32] ++ op.text) (.instr (f op)) EndsWord :=
  .litThen _ ((readOperand_text hop).andThen (.pure _))

theorem readLabel_text (f : Nat → Instr) {n : Nat} (hn : n < 2 ^ 32) :
    Reads (readLabel f) ([32] ++ labelText n) (.instr (f n)) EndsWord := by
  have htext : [32] ++ labelText n = ascii " .L" ++ ascii (Nat.repr n) := by
    rw [labelText, Nat.mod_eq_of_lt hn, ← List.append_assoc]
    rfl
  rw [htext]
  exact .litThen _ ((readNumber_repr n).andThen (.pure _))

theorem readName_text (f : CString → Line) {name : CString} (h : isName name = true) :
    Reads (readName f) ([32] ++ name) (f name) EndsWord :=
  .litThen _ ((Reads.runOf (wordChar_of_isName h)).andThen (.pure _))

theorem readFixed_text (w : CString) (l : Line) : Reads (readFixed w l) w l EndsWord :=
  .litPure w l

end readers

/-- A line that starts with a word is read by it. -/
theorem readLine_word (m : Mnemonic) {args : CString} {l : Line}
    (hargs : args = [] ∨ args.head? = some 32) (h : Reads m.reader args l fun rest => rest = []) :
    readLine.readAll (m.word ++ args) = some l := by
  have hword : m.word.all wordChar = true := by
    cases m with
    | setcc cond => cases cond <;> decide +kernel
    | directive d => cases d <;> decide +kernel
    | _ => decide +kernel
  have hfind : (mnemonics.find? fun m' => m'.word = m.word) = some m := by
    cases m with
    | setcc cond => cases cond <;> decide +kernel
    | directive d => cases d <;> decide +kernel
    | _ => decide +kernel
  have hread : Reads (do
      let m' ← ofOption (mnemonics.find? fun m' => m'.word = m.word)
      m'.reader) args l fun rest => rest = [] := by
    have hbind := Reads.bind (Reads.ofOption (P := fun _ => True) hfind) h fun _ _ => trivial
    rwa [List.nil_append] at hbind
  refine Reads.readAll (P := fun rest => rest = []) ?_ rfl
  refine (Reads.runOf (List.all_eq_true.mp hword)).bind ?_ ?_
  · rcases hargs with rfl | hargs
    · exact .peekEnd hread
    · exact .peek hargs hread
  · rintro rest rfl c hc
    rw [List.append_nil] at hc
    rcases hargs with rfl | hargs
    · exact absurd hc (by simp)
    · rw [hargs] at hc
      obtain rfl := Option.some.inj hc
      decide

/-- A label is read as one. -/
theorem readLine_colon {w : CString} (h : ∀ c ∈ w, wordChar c = true) :
    readLine.readAll (w ++ [58]) =
      some (if (ascii ".L").isPrefixOf w then .label (digitsVal (w.drop 2)) else .symbol w) := by
  refine Reads.readAll (P := fun rest => rest = []) ?_ rfl
  have hcolon : [(58 : UInt8)].head? = some 58 := rfl
  exact (Reads.runOf h).bind (.peek hcolon (.litPure [58] _)) fun rest _ => endsRun_cons (by decide) _

/-- The names of the line are names, and its labels are numbered below `2 ^ 32`. -/
def Line.Spoken : Line → Prop
  | .instr (.mov src dest) | .instr (.lea src dest) | .instr (.add src dest)
  | .instr (.sub src dest) | .instr (.imul src dest) | .instr (.cmp src dest) =>
    src.Named ∧ dest.Named
  | .instr (.push op) | .instr (.pop op) | .instr (.idiv op) | .instr (.neg op) => op.Named
  | .instr (.call name) | .symbol name | .globl name => isName name = true
  | .instr (.je n) | .instr (.jmp n) | .label n => n < 2 ^ 32
  | _ => True

/-- **A line is read back from its text.** -/
theorem readLine_text {l : Line} (h : l.Spoken) : readLine.readAll l.text = some l := by
  have hend : ∀ rest : CString, rest = [] → EndsWord rest := by
    rintro rest rfl
    exact endsRun_nil _
  have hword : ∀ (m : Mnemonic) {text args : CString}, text = m.word ++ args →
      (args = [] ∨ args.head? = some 32) → Reads m.reader args l (fun rest => rest = []) →
        readLine.readAll text = some l := by
    intro m text args htext hargs hread
    rw [htext]
    exact readLine_word m hargs hread
  cases l with
  | instr i =>
    cases i with
    | mov src dest =>
      exact hword .mov (by simp [Line.text, Instr.text, Mnemonic.word, ascii]) (.inr rfl)
        ((readTwo_text .mov h.1 h.2).mono hend)
    | lea src dest =>
      exact hword .lea (by simp [Line.text, Instr.text, Mnemonic.word, ascii]) (.inr rfl)
        ((readTwo_text .lea h.1 h.2).mono hend)
    | push op =>
      exact hword .push (by simp [Line.text, Instr.text, Mnemonic.word, ascii]) (.inr rfl)
        ((readOne_text .push h).mono hend)
    | pop op =>
      exact hword .pop (by simp [Line.text, Instr.text, Mnemonic.word, ascii]) (.inr rfl)
        ((readOne_text .pop h).mono hend)
    | add src dest =>
      exact hword .add (by simp [Line.text, Instr.text, Mnemonic.word, ascii]) (.inr rfl)
        ((readTwo_text .add h.1 h.2).mono hend)
    | sub src dest =>
      exact hword .sub (by simp [Line.text, Instr.text, Mnemonic.word, ascii]) (.inr rfl)
        ((readTwo_text .sub h.1 h.2).mono hend)
    | imul src dest =>
      exact hword .imul (by simp [Line.text, Instr.text, Mnemonic.word, ascii]) (.inr rfl)
        ((readTwo_text .imul h.1 h.2).mono hend)
    | idiv op =>
      exact hword .idiv (by simp [Line.text, Instr.text, Mnemonic.word, ascii]) (.inr rfl)
        ((readOne_text .idiv h).mono hend)
    | neg op =>
      exact hword .neg (by simp [Line.text, Instr.text, Mnemonic.word, ascii]) (.inr rfl)
        ((readOne_text .neg h).mono hend)
    | cmp src dest =>
      exact hword .cmp (by simp [Line.text, Instr.text, Mnemonic.word, ascii]) (.inr rfl)
        ((readTwo_text .cmp h.1 h.2).mono hend)
    | setcc cond => exact hword (.setcc cond) rfl (.inr rfl) ((readFixed_text _ _).mono hend)
    | movzbq =>
      exact hword .movzbq (by decide +kernel) (.inr rfl) ((readFixed_text _ _).mono hend)
    | cqto => exact hword .cqto (List.append_nil _).symm (.inl rfl) (.pure _)
    | call name =>
      exact hword .call (by simp [Line.text, Instr.text, Mnemonic.word, ascii]) (.inr rfl)
        ((readName_text (fun name => .instr (.call name)) h).mono hend)
    | je n =>
      exact hword .je (by simp [Line.text, Instr.text, Mnemonic.word, ascii]) (.inr rfl)
        ((readLabel_text .je h).mono hend)
    | jmp n =>
      exact hword .jmp (by simp [Line.text, Instr.text, Mnemonic.word, ascii]) (.inr rfl)
        ((readLabel_text .jmp h).mono hend)
    | ret => exact hword .ret (List.append_nil _).symm (.inl rfl) (.pure _)
  | label n =>
    have hn : n < 2 ^ 32 := h
    have hlabel : labelText n = ascii ".L" ++ ascii (Nat.repr n) := by
      rw [labelText, Nat.mod_eq_of_lt hn]
      rfl
    have hchars : ∀ c ∈ labelText n, wordChar c = true := by
      rw [hlabel, List.forall_mem_append]
      refine ⟨List.all_eq_true.mp (by decide), fun c hc => ?_⟩
      simp [wordChar, isdigit_repr n c hc]
    have hprefix : (ascii ".L").isPrefixOf (labelText n) = true := by
      rw [hlabel]
      exact List.isPrefixOf_iff_prefix.mpr ⟨_, rfl⟩
    rw [show (Line.label n).text = labelText n ++ [58] from rfl, readLine_colon hchars,
      if_pos hprefix, hlabel]
    exact congrArg (fun m => some (Line.label m)) (digitsVal_repr n)
  | symbol name =>
    obtain ⟨c, w, rfl, hc⟩ := isName_head h
    have hprefix : ¬ (ascii ".L").isPrefixOf (c :: w) = true := by
      intro hprefix
      obtain ⟨rest, hrest⟩ := List.isPrefixOf_iff_prefix.mp hprefix
      obtain rfl : 46 = c := (List.cons.inj hrest).1
      exact absurd hc (by decide)
    rw [show (Line.symbol (c :: w)).text = (c :: w) ++ [58] from rfl,
      readLine_colon (wordChar_of_isName h), if_neg hprefix]
  | globl name =>
    exact hword .globl (by simp [Line.text, Mnemonic.word, ascii]) (.inr rfl)
      ((readName_text .globl h).mono hend)
  | dataSection => exact hword .data (List.append_nil _).symm (.inl rfl) (.pure _)
  | textSection => exact hword .text (List.append_nil _).symm (.inl rfl) (.pure _)
  | directive d val =>
    exact @hword (.directive d) _ ([32] ++ decimal val)
      (by simp [Line.text, Mnemonic.word, ascii]) (.inr rfl)
      ((Reads.litThen [32] ((readInt_decimal val).andThen (.pure (Line.directive d val)))).mono hend)

/-! ## Files -/

theorem not_newline_of_wordChar {w : CString} (h : ∀ c ∈ w, wordChar c = true) : 10 ∉ w :=
  fun hmem => absurd (h 10 hmem) (by decide)

theorem not_newline_repr (n : Nat) : 10 ∉ ascii (Nat.repr n) :=
  fun hmem => absurd (isdigit_repr n 10 hmem) (by decide)

theorem not_newline_decimal (n : Int) : 10 ∉ decimal n := by
  cases n with
  | ofNat n => exact not_newline_repr n
  | negSucc n =>
    rw [show decimal (Int.negSucc n) = ascii "-" ++ ascii (Nat.repr (n + 1)) from ascii_append "-" _,
      List.mem_append, not_or]
    exact ⟨by decide, not_newline_repr _⟩

theorem not_newline_labelText (n : Nat) : 10 ∉ labelText n := by
  rw [labelText, List.mem_append, not_or]
  exact ⟨by decide, not_newline_decimal _⟩

theorem Operand.not_newline {op : Operand} (h : op.Named) : 10 ∉ op.text := by
  have hreg : ∀ id : RegId, 10 ∉ id.text := fun id => by cases id <;> decide +kernel
  cases op with
  | reg id => exact hreg id
  | imm n => simp [Operand.text, not_newline_decimal, ascii]
  | mem base disp => simp [Operand.text, not_newline_decimal, hreg, ascii]
  | sym name =>
    have hname := not_newline_of_wordChar (wordChar_of_isName h)
    simp [Operand.text, hname, ascii]

/-- No line goes over a newline. -/
theorem Line.not_newline {l : Line} (h : l.Spoken) : 10 ∉ l.text := by
  cases l with
  | instr i =>
    cases i with
    | mov src dest | lea src dest | add src dest | sub src dest | imul src dest | cmp src dest =>
      simp [Line.text, Instr.text, Operand.not_newline h.1, Operand.not_newline h.2, ascii]
    | push op | pop op | idiv op | neg op =>
      simp [Line.text, Instr.text, @Operand.not_newline op h, ascii]
    | setcc cond => cases cond <;> decide +kernel
    | call name =>
      simp [Line.text, Instr.text, not_newline_of_wordChar (@wordChar_of_isName name h), ascii]
    | je n | jmp n => simp [Line.text, Instr.text, not_newline_labelText, ascii]
    | _ => decide +kernel
  | label n => simp [Line.text, not_newline_labelText, ascii]
  | symbol name | globl name =>
    simp [Line.text, not_newline_of_wordChar (@wordChar_of_isName name h), ascii]
  | directive d val =>
    cases d <;> simp [Line.text, Directive.text, not_newline_decimal, ascii]
  | _ => decide +kernel

/-- No line starts with a blank. -/
theorem Line.text_head {l : Line} (h : l.Spoken) : ∃ c w, l.text = c :: w ∧ c ≠ 32 := by
  cases l with
  | instr i =>
    cases i with
    | setcc cond => cases cond <;> exact ⟨_, _, rfl, by decide⟩
    | _ => exact ⟨_, _, rfl, by decide⟩
  | symbol name =>
    obtain ⟨c, w, rfl, hc⟩ := isName_head h
    refine ⟨c, _, rfl, ?_⟩
    rintro rfl
    exact absurd hc (by decide)
  | directive d val => cases d <;> exact ⟨_, _, rfl, by decide⟩
  | _ => exact ⟨_, _, rfl, by decide⟩

/-- **An assembly file is read back** to the lines it was printed from. -/
theorem readAssembly_assembly {items : List Item} (h : ∀ item ∈ items, item.line.Spoken) :
    readAssembly (assembly items) = some (items.map Item.line) := by
  have hlines : assembly items = (items.map fun item =>
      List.replicate item.indent 32 ++ item.line.text).flatMap fun w => w ++ [10] := by
    rw [List.flatMap_map]
    rfl
  have hplain : ∀ w ∈ items.map fun item => List.replicate item.indent 32 ++ item.line.text,
      (10 : UInt8) ∉ w := by
    intro w hw
    obtain ⟨item, hitem, rfl⟩ := List.mem_map.mp hw
    rw [List.mem_append, not_or]
    exact ⟨fun h10 => absurd (List.eq_of_mem_replicate h10) (by decide), Line.not_newline (h item hitem)⟩
  rw [readAssembly, hlines, splitLines_flatMap 10 hplain]
  clear hlines hplain
  induction items with
  | nil => rfl
  | cons item items ih =>
    rw [List.forall_mem_cons] at h
    obtain ⟨c, w, htext, hc⟩ := Line.text_head h.1
    have hdrop : (List.replicate item.indent 32 ++ item.line.text).dropWhile (· = 32) =
        item.line.text := by
      rw [List.dropWhile_append_of_pos fun c hc => by simp [List.eq_of_mem_replicate hc], htext,
        List.dropWhile_cons_of_neg (by simpa using hc)]
    rw [List.map_cons, List.mapM_cons, hdrop, readLine_text h.1, ih h.2]
    rfl

end ACompiler
