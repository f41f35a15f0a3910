import ACompiler.Utils.CString

/-!
# Assembly lines

`emitter.h`, and the lines `assembler.c` prints by hand. A line is kept as a structure and not as
text; `Item.text` is the text the emitter writes for it. The assembler only ever makes registers of
size `SZ_64`, so every sized mnemonic ends in `q`.
-/

namespace ACompiler

/-- `regid`. -/
inductive RegId
  | rax | rbx | rcx | rdx | rsi | rdi | rbp | rsp
  | r8 | r9 | r10 | r11 | r12 | r13 | r14 | r15
  deriving DecidableEq, Repr

/-- `operand_t`; `sym` is the operand `name(%rip)` of the lines printed by hand. -/
inductive Operand
  | reg (id : RegId)
  | imm (imm : Int)
  | mem (base : RegId) (disp : Int)
  | sym (name : CString)
  deriving DecidableEq, Repr

/-- The suffix of a `setcc`. -/
inductive Cond
  | e | ne | l | g | ge | le
  deriving DecidableEq, Repr

/-- The instructions, in AT&T operand order. `setcc` and `movzbq` only ever name `%al` and `%rax`. -/
inductive Instr
  | mov (src dest : Operand)
  | lea (src dest : Operand)
  | push (op : Operand)
  | pop (op : Operand)
  | add (src dest : Operand)
  | sub (src dest : Operand)
  | imul (src dest : Operand)
  | idiv (divisor : Operand)
  | neg (op : Operand)
  | cmp (src dest : Operand)
  | setcc (cond : Cond)
  | movzbq
  | cqto
  | call (name : CString)
  | je (label : Nat)
  | jmp (label : Nat)
  | ret
  deriving DecidableEq, Repr

/-- The data directive of a global. -/
inductive Directive
  | byte | word | long | quad
  deriving DecidableEq, Repr

/-- One line of assembly. `label n` is `.Ln:`, `symbol` is the label of a function or a global. -/
inductive Line
  | instr (i : Instr)
  | label (n : Nat)
  | symbol (name : CString)
  | globl (name : CString)
  | dataSection
  | textSection
  | directive (d : Directive) (val : Int)
  deriving DecidableEq, Repr

/-- A printed line with the emitter's indent, and the `push_depth` at the moment it was printed
(which leaves no trace in the text). -/
structure Item where
  indent : Nat
  depth : Int
  line : Line
  deriving DecidableEq, Repr

/-! ## Text -/

def RegId.text : RegId → CString
  | .rax => ascii "%rax" | .rbx => ascii "%rbx" | .rcx => ascii "%rcx" | .rdx => ascii "%rdx"
  | .rsi => ascii "%rsi" | .rdi => ascii "%rdi" | .rbp => ascii "%rbp" | .rsp => ascii "%rsp"
  | .r8 => ascii "%r8" | .r9 => ascii "%r9" | .r10 => ascii "%r10" | .r11 => ascii "%r11"
  | .r12 => ascii "%r12" | .r13 => ascii "%r13" | .r14 => ascii "%r14" | .r15 => ascii "%r15"

/-- `%lld`, `%ld` and `%u`. -/
def decimal (n : Int) : CString := ascii (toString n)

def Operand.text : Operand → CString
  | .reg id => id.text
  | .imm n => ascii "$" ++ decimal n
  | .mem base disp => decimal disp ++ ascii "(" ++ base.text ++ ascii ")"
  | .sym name => name ++ ascii "(%rip)"

def Cond.text : Cond → CString
  | .e => ascii "sete" | .ne => ascii "setne" | .l => ascii "setl" | .g => ascii "setg"
  | .ge => ascii "setge" | .le => ascii "setle"

/-- The number of a label is an `unsigned int`. -/
def labelText (n : Nat) : CString := ascii ".L" ++ decimal (n % 2 ^ 32 : Nat)

def Instr.text : Instr → CString
  | .mov src dest => ascii "movq " ++ src.text ++ ascii ", " ++ dest.text
  | .lea src dest => ascii "leaq " ++ src.text ++ ascii ", " ++ dest.text
  | .push op => ascii "pushq " ++ op.text
  | .pop op => ascii "popq " ++ op.text
  | .add src dest => ascii "addq " ++ src.text ++ ascii ", " ++ dest.text
  | .sub src dest => ascii "subq " ++ src.text ++ ascii ", " ++ dest.text
  | .imul src dest => ascii "imulq " ++ src.text ++ ascii ", " ++ dest.text
  | .idiv divisor => ascii "idivq " ++ divisor.text
  | .neg op => ascii "negq " ++ op.text
  | .cmp src dest => ascii "cmpq " ++ src.text ++ ascii ", " ++ dest.text
  | .setcc cond => cond.text ++ ascii " %al"
  | .movzbq => ascii "movzbq %al, %rax"
  | .cqto => ascii "cqto"
  | .call name => ascii "call " ++ name
  | .je n => ascii "je " ++ labelText n
  | .jmp n => ascii "jmp " ++ labelText n
  | .ret => ascii "ret"

def Directive.text : Directive → CString
  | .byte => ascii ".byte" | .word => ascii ".word" | .long => ascii ".long"
  | .quad => ascii ".quad"

def Line.text : Line → CString
  | .instr i => i.text
  | .label n => labelText n ++ ascii ":"
  | .symbol name => name ++ ascii ":"
  | .globl name => ascii ".globl " ++ name
  | .dataSection => ascii ".data"
  | .textSection => ascii ".text"
  | .directive d val => d.text ++ ascii " " ++ decimal val

/-- The text of one line: the indent, the line and a newline. -/
def Item.text (item : Item) : CString :=
  List.replicate item.indent 32 ++ item.line.text ++ [10]

/-- The assembly file. -/
def assembly (items : List Item) : CString := items.flatMap Item.text

end ACompiler
