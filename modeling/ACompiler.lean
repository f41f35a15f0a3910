import ACompiler.Assembler.Cells
import ACompiler.Assembler.Context
import ACompiler.Assembler.Depth
import ACompiler.Assembler.EmitPrint
import ACompiler.Assembler.Emitter
import ACompiler.Assembler.Failure
import ACompiler.Assembler.Frame
import ACompiler.Assembler.Gen
import ACompiler.Assembler.LabelText
import ACompiler.Assembler.Reader
import ACompiler.Assembler.Shape
import ACompiler.Correct.Alignment
import ACompiler.Correct.Assembly
import ACompiler.Correct.Call
import ACompiler.Correct.Comments
import ACompiler.Correct.Convention
import ACompiler.Correct.Data
import ACompiler.Correct.Discipline
import ACompiler.Correct.Evaluate
import ACompiler.Correct.Execute
import ACompiler.Correct.Flow
import ACompiler.Correct.Forward
import ACompiler.Correct.Frames
import ACompiler.Correct.Function
import ACompiler.Correct.Globals
import ACompiler.Correct.Halting
import ACompiler.Correct.Initialisers
import ACompiler.Correct.JumpTargets
import ACompiler.Correct.LabelCount
import ACompiler.Correct.Labels
import ACompiler.Correct.Layout
import ACompiler.Correct.LocalLabels
import ACompiler.Correct.Memory
import ACompiler.Correct.Numbers
import ACompiler.Correct.Preserve
import ACompiler.Correct.Printed
import ACompiler.Correct.Program
import ACompiler.Correct.Prologue
import ACompiler.Correct.Registers
import ACompiler.Correct.Renaming
import ACompiler.Correct.Represent
import ACompiler.Correct.Runnable
import ACompiler.Correct.Scoping
import ACompiler.Correct.Storage
import ACompiler.Correct.Stores
import ACompiler.Correct.Widths
import ACompiler.Driver.Cli
import ACompiler.Driver.Main
import ACompiler.Driver.Run
import ACompiler.Lib.Agree
import ACompiler.Lib.Emit
import ACompiler.Lib.Heap
import ACompiler.Lib.Hoare
import ACompiler.Lib.Memory
import ACompiler.Lib.Munch
import ACompiler.Lib.Reader
import ACompiler.Lib.TokenParser
import ACompiler.Machine.Alu
import ACompiler.Machine.Linked
import ACompiler.Machine.Run
import ACompiler.Machine.Stack
import ACompiler.Machine.State
import ACompiler.Parser.Ast
import ACompiler.Parser.CallStmt
import ACompiler.Parser.Casts
import ACompiler.Parser.Comments
import ACompiler.Parser.Complete
import ACompiler.Parser.Consumed
import ACompiler.Parser.Cursor
import ACompiler.Parser.Dump
import ACompiler.Parser.Grammar
import ACompiler.Parser.Longest
import ACompiler.Parser.Names
import ACompiler.Parser.Parens
import ACompiler.Parser.Parse
import ACompiler.Parser.Print
import ACompiler.Parser.PrintProgram
import ACompiler.Parser.Reject
import ACompiler.Parser.Sound
import ACompiler.Parser.Stripped
import ACompiler.Parser.Stuck
import ACompiler.Parser.StuckComplete
import ACompiler.Semantics.Interp
import ACompiler.Semantics.Paths
import ACompiler.Semantics.Program
import ACompiler.Semantics.Renaming
import ACompiler.Semantics.Trace
import ACompiler.Semantics.Values
import ACompiler.Tokenizer.Buffers
import ACompiler.Tokenizer.Correct
import ACompiler.Tokenizer.Coverage
import ACompiler.Tokenizer.FinalNewline
import ACompiler.Tokenizer.Found
import ACompiler.Tokenizer.InStep
import ACompiler.Tokenizer.Lexer
import ACompiler.Tokenizer.Metadata
import ACompiler.Tokenizer.Names
import ACompiler.Tokenizer.Numerals
import ACompiler.Tokenizer.Scan
import ACompiler.Tokenizer.Source
import ACompiler.Tokenizer.Tokenize
import ACompiler.Tokenizer.Tokens
import ACompiler.Tokenizer.Window
import ACompiler.Utils.ArrayList
import ACompiler.Utils.CString
import ACompiler.Utils.HashTable
import ACompiler.Utils.Nodes
import ACompiler.Utils.Stdio
import ACompiler.Utils.TableRuns
import ACompiler.Utils.TableSize
