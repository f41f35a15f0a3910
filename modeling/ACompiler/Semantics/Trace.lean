import ACompiler.Semantics.Values

/-!
# Evaluation with calls

What an expression means when its calls may do anything: operands and arguments are evaluated once
each, from left to right, over a byte memory in which every name has an address; a call takes its
result and the memory behind it from outside. An evaluation lists its calls in order, each with the
values of its arguments.
-/

namespace ACompiler

open Lib (Word Mem)
open Lib.Mem (load64 store64)

/-- A call: the callee, its arguments, its result and the memory it leaves. -/
structure RefCall where
  callee : CString
  args : List Word
  result : Word
  mem : Mem

/-- `RefEval A p m calls vs m'`: from memory `m` the phrase has the values `vs` and leaves `m'`. -/
inductive RefEval (A : CString → Option Word) :
    Phrase → Mem → List RefCall → List Word → Mem → Prop
  | literal {lit : LiteralExpr} {m : Mem} :
      RefEval A (.expr (.literal lit)) m [] [BitVec.ofInt 64 lit.numValue] m
  | identifier {name : CString} {a : Word} {m : Mem} (ha : A name = some a) :
      RefEval A (.expr (.identifier name)) m [] [load64 m a] m
  | addr {name : CString} {a : Word} {m : Mem} (ha : A name = some a) :
      RefEval A (.expr (.unary .uAddr (.identifier name))) m [] [a] m
  | unary {op : UnaryOp} {e : Expr} {a v : Word} {m m' : Mem} {calls : List RefCall}
      (he : RefEval A (.expr e) m calls [a] m') (hv : unaryVal op a = some v) :
      RefEval A (.expr (.unary op e)) m calls [v] m'
  | binary {op : BinaryOp} {left right : Expr} {a b v : Word} {m m' m'' : Mem}
      {calls calls' : List RefCall} (hl : RefEval A (.expr left) m calls [a] m')
      (hr : RefEval A (.expr right) m' calls' [b] m'') (hv : binaryVal op a b = some v) :
      RefEval A (.expr (.binary op left right)) m (calls ++ calls') [v] m''
  | call {callee : CString} {args : List Expr} {vs : List Word} {result : Word} {m m' m'' : Mem}
      {calls : List RefCall} (ha : RefEval A (.exprs args) m calls vs m') :
      RefEval A (.expr (.call callee args)) m (calls ++ [⟨callee, vs, result, m''⟩]) [result] m''
  | assign {name : CString} {val : Expr} {a v : Word} {m m' : Mem} {calls : List RefCall}
      (hv : RefEval A (.expr val) m calls [v] m') (ha : A name = some a) :
      RefEval A (.expr (.assign (.identifier name) val)) m calls [v] (store64 m' a v)
  | cast {type : VarT} {inner : Expr} {v : Word} {m m' : Mem} {calls : List RefCall}
      (hi : RefEval A (.expr inner) m calls [v] m') :
      RefEval A (.expr (.cast type inner)) m calls [v] m'
  | argsNil {m : Mem} : RefEval A (.exprs []) m [] [] m
  | argsCons {arg : Expr} {args : List Expr} {v : Word} {vs : List Word} {m m' m'' : Mem}
      {calls calls' : List RefCall} (ha : RefEval A (.expr arg) m calls [v] m')
      (hs : RefEval A (.exprs args) m' calls' vs m'') :
      RefEval A (.exprs (arg :: args)) m (calls ++ calls') (v :: vs) m''

/-- `RefReaches A p m calls f vs`: the evaluation of the phrase from `m` comes, after `calls`, to a
call of `f` with the arguments `vs`. -/
inductive RefReaches (A : CString → Option Word) :
    Phrase → Mem → List RefCall → CString → List Word → Prop
  | call {callee : CString} {args : List Expr} {vs : List Word} {m m' : Mem}
      {calls : List RefCall} (ha : RefEval A (.exprs args) m calls vs m') :
      RefReaches A (.expr (.call callee args)) m calls callee vs
  | callArgs {callee f : CString} {args : List Expr} {vs : List Word} {m : Mem}
      {calls : List RefCall} (ha : RefReaches A (.exprs args) m calls f vs) :
      RefReaches A (.expr (.call callee args)) m calls f vs
  | unary {op : UnaryOp} {e : Expr} {f : CString} {vs : List Word} {m : Mem}
      {calls : List RefCall} (he : RefReaches A (.expr e) m calls f vs) :
      RefReaches A (.expr (.unary op e)) m calls f vs
  | left {op : BinaryOp} {left right : Expr} {f : CString} {vs : List Word} {m : Mem}
      {calls : List RefCall} (hl : RefReaches A (.expr left) m calls f vs) :
      RefReaches A (.expr (.binary op left right)) m calls f vs
  | right {op : BinaryOp} {left right : Expr} {f : CString} {a : Word} {vs : List Word}
      {m m' : Mem} {calls calls' : List RefCall} (hl : RefEval A (.expr left) m calls [a] m')
      (hr : RefReaches A (.expr right) m' calls' f vs) :
      RefReaches A (.expr (.binary op left right)) m (calls ++ calls') f vs
  | assign {name f : CString} {val : Expr} {vs : List Word} {m : Mem} {calls : List RefCall}
      (hv : RefReaches A (.expr val) m calls f vs) :
      RefReaches A (.expr (.assign (.identifier name) val)) m calls f vs
  | cast {type : VarT} {inner : Expr} {f : CString} {vs : List Word} {m : Mem}
      {calls : List RefCall} (hi : RefReaches A (.expr inner) m calls f vs) :
      RefReaches A (.expr (.cast type inner)) m calls f vs
  | argsHead {arg : Expr} {args : List Expr} {f : CString} {vs : List Word} {m : Mem}
      {calls : List RefCall} (ha : RefReaches A (.expr arg) m calls f vs) :
      RefReaches A (.exprs (arg :: args)) m calls f vs
  | argsTail {arg : Expr} {args : List Expr} {f : CString} {v : Word} {vs : List Word}
      {m m' : Mem} {calls calls' : List RefCall} (ha : RefEval A (.expr arg) m calls [v] m')
      (hs : RefReaches A (.exprs args) m' calls' f vs) :
      RefReaches A (.exprs (arg :: args)) m (calls ++ calls') f vs

end ACompiler
