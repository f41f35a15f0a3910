import ACompiler.Assembler.Emitter
import ACompiler.Lib.Emit
import ACompiler.Parser.Ast
import ACompiler.Utils.HashTable

/-!
# The context of the assembler

`assembler.h`, and the functions of `assembler.c` that work on the context alone: scopes and
symbols, labels, the push depth and the lines printed by hand. Offsets are `long` and the push depth
is an `unsigned int`; both are integers here, so that a counter that fell below zero would show.
-/

namespace ACompiler

open Lib (Emit Emitted)
open Lib.Emit (print get modify throw mark)

/-- `symbol_t`. -/
structure Symbol where
  name : CString
  stackOffset : Int
  type : VarT
  isGlobal : Bool
  deriving DecidableEq, Repr

/-- `scope_t`. The table holds the newest of the symbols `defined` under each name; the list itself,
newest first, is not in the source. -/
structure Scope where
  symbols : HashTable Symbol
  baseOffset : Int
  defined : List Symbol
  agree : ∀ name, symbols.getHt name = defined.find? fun s => s.name = name

/-- `asm_ctx` with the indent of its emitter; the label of the epilogue is kept as its number. -/
structure AsmCtx where
  indent : Nat
  scopeStk : List Scope
  curOffset : Int
  labelCount : Nat
  pushDepth : Int
  epilogueLabel : Option Nat

/-- The ways code generation ends without assembly. -/
inductive GenError
  /-- `std_compile_error`, which exits. -/
  | compileError (message : String)
  /-- `arg_regs` is read past its six entries. -/
  | outOfBounds
  /-- A `NULL` pointer is followed: the top of an empty scope stack, or no epilogue label. -/
  | nullPointer
  deriving DecidableEq, Repr

/-- The code generator monad. -/
abbrev Gen (α : Type) : Type := Emit AsmCtx Item GenError α

/-- `asm_init`. -/
def asmInit : AsmCtx := ⟨0, [], 0, 0, 0, none⟩

def stdCompileError {α : Type} (message : String) : Gen α := throw (.compileError message)

/-! ## Lines -/

/-- `asm_emit`: a line with the current indent. -/
def asmEmit (line : Line) : Gen Unit := print fun c => ⟨c.indent, c.pushDepth, line⟩

/-- `asm_raw`: a line without indent. -/
def asmRaw (line : Line) : Gen Unit := print fun c => ⟨0, c.pushDepth, line⟩

/-- An instruction, with the current indent. -/
def emit (i : Instr) : Gen Unit := asmEmit (.instr i)

def setIndent (n : Nat) : Gen Unit := modify fun c => { c with indent := n }

/-! ## Scopes and symbols -/

def typeSize (t : VarT) : Nat :=
  match t.base with
  | .adr _ => 8
  | .lit .litByte => 1
  | .lit .litWord => 2
  | .lit .litDword => 4
  | .lit .litQword => 8

def newScope (baseOffset : Int) : Scope where
  symbols := .createHt 64 (by decide)
  baseOffset := baseOffset
  defined := []
  agree := fun name => by rw [HashTable.getHt_createHt, List.find?_nil]

def pushScope : Gen Unit :=
  modify fun c => { c with scopeStk := newScope c.curOffset :: c.scopeStk }

def popScope : Gen Unit := do
  let c ← get
  match c.scopeStk with
  | [] => throw .nullPointer
  | s :: scopes => modify fun c => { c with scopeStk := scopes, curOffset := s.baseOffset }

def findSymbol (c : AsmCtx) (name : CString) : Option Symbol :=
  c.scopeStk.findSome? fun s => s.symbols.getHt name

/-- `add_ht(s->symbols, sym->name, sym)`. -/
def Scope.addSymbol (s : Scope) (sym : Symbol) : Scope where
  symbols := s.symbols.addHt sym.name sym
  baseOffset := s.baseOffset
  defined := sym :: s.defined
  agree := fun name => by
    rw [HashTable.getHt_addHt, s.agree, List.find?_cons]
    by_cases h : name = sym.name
    · simp [h]
    · simp [h, Ne.symm h]

/-- `add_ht` on the top scope of the stack. -/
def addSymbol (sym : Symbol) : Gen Unit := do
  let c ← get
  match c.scopeStk with
  | [] => throw .nullPointer
  | s :: scopes => modify fun c => { c with scopeStk := s.addSymbol sym :: scopes }

def defineLocal (name : CString) (type : VarT) : Gen Symbol := do
  let sz := if typeSize type < 8 then 8 else typeSize type
  modify fun c => { c with curOffset := c.curOffset - sz }
  let c ← get
  let sym : Symbol := ⟨name, c.curOffset, type, false⟩
  addSymbol sym
  pure sym

def defineGlobal (name : CString) (type : VarT) : Gen Symbol := do
  let sym : Symbol := ⟨name, 0, type, true⟩
  addSymbol sym
  pure sym

def newLabel : Gen Nat := do
  let c ← get
  modify fun c => { c with labelCount := c.labelCount + 1 }
  pure c.labelCount

/-! ## The stack and `%rax` -/

def pushRax : Gen Unit := do
  emit (.push (.reg .rax))
  modify fun c => { c with pushDepth := c.pushDepth + 1 }

def popInto (id : RegId) : Gen Unit := do
  emit (.pop (.reg id))
  modify fun c => { c with pushDepth := c.pushDepth - 1 }

def loadImm (val : Int) : Gen Unit := emit (.mov (.imm val) (.reg .rax))

def loadLocal (offset : Int) : Gen Unit := emit (.mov (.mem .rbp offset) (.reg .rax))

def storeLocal (offset : Int) : Gen Unit := emit (.mov (.reg .rax) (.mem .rbp offset))

end ACompiler
