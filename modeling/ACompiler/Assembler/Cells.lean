import ACompiler.Assembler.Shape
import ACompiler.Utils.Nodes

/-!
# The scopes, pointer by pointer

`stack.c`, and the functions of `assembler.c` that open, search, fill and close scopes, on a heap of
cells. `IsStack` says which cells the scope stack is made of; every function keeps it while it does
what the one on contexts does. `pop_stack` does not free the node it unlinks, so every scope that is
closed leaves one node behind, and a symbol that is defined again leaves the old one.
-/

namespace ACompiler

open Lib (Ref HeapM Cells Completes CompletesTo)
open Lib.Heap (alloc load store free fail count)

namespace Nodes

/-! ## `stack.c` -/

section stack
variable {ν : Type}

/-- `stack->head`. -/
def readHead (stack : Ref) : HeapM (Cell ν) (Option Ref) := do
  match ← load stack with
  | .stack head => pure head
  | _ => fail

def readStackNode (r : Ref) : HeapM (Cell ν) StackNode := do
  match ← load r with
  | .stackNode node => pure node
  | _ => fail

def initStack : HeapM (Cell ν) Ref := do
  let stack ← alloc .raw
  store stack (.stack none)
  pure stack

def popStack (stack : Ref) : HeapM (Cell ν) (Option Ref) := do
  match ← readHead stack with
  | none => pure none
  | some head =>
    let node ← readStackNode head
    store stack (.stack node.next)
    pure (some node.val)

def pushStack (stack val : Ref) : HeapM (Cell ν) Unit := do
  let temp ← alloc .raw
  match ← readHead stack with
  | none =>
    store temp (.stackNode ⟨val, none⟩)
    store stack (.stack (some temp))
  | some head =>
    store temp (.stackNode ⟨val, some head⟩)
    store stack (.stack (some temp))

def peekStack (stack : Ref) : HeapM (Cell ν) (Option Ref) := do
  match ← readHead stack with
  | none => pure none
  | some head =>
    let node ← readStackNode head
    pure (some node.val)

def stackIsEmpty (stack : Ref) : HeapM (Cell ν) Bool := do
  let head ← readHead stack
  pure head.isNone

/-- The loop of `delete_stack`. -/
def deleteLoop : Nat → Option Ref → HeapM (Cell ν) Unit
  | _, none => pure ()
  | 0, some _ => fail
  | fuel + 1, some temp => do
    let node ← readStackNode temp
    free node.val
    free temp
    deleteLoop fuel node.next

def deleteStack (stack : Ref) : HeapM (Cell ν) Unit := do
  let head ← readHead stack
  let fuel ← count
  deleteLoop fuel head
  free stack

end stack

/-! ## Scopes -/

/-- `asm_ctx`, as far as its scopes go. -/
structure ScopeCtx where
  scopeStk : Ref
  curOffset : Int

def readScope (r : Ref) : HeapM (Cell Symbol) ScopeT := do
  match ← load r with
  | .scope s => pure s
  | _ => fail

def pushScope (ctx : ScopeCtx) : HeapM (Cell Symbol) Unit := do
  let s ← alloc .raw
  let symbols ← createHt 64
  store s (.scope ⟨symbols, ctx.curOffset⟩)
  pushStack ctx.scopeStk s

/-- What `pop_scope` and the loop of `drain_scopes` have in common. -/
def closeScope (stack : Ref) : HeapM (Cell Symbol) ScopeT := do
  match ← popStack stack with
  | none => fail
  | some s =>
    let scope ← readScope s
    destroyHt scope.symbols
    free s
    pure scope

def popScope (ctx : ScopeCtx) : HeapM (Cell Symbol) ScopeCtx := do
  let s ← closeScope ctx.scopeStk
  pure { ctx with curOffset := s.baseOffset }

/-- The loop of `find_symbol`. -/
def findLoop (name : CString) : Nat → Option Ref → HeapM (Cell Symbol) (Option Ref)
  | _, none => pure none
  | 0, some _ => fail
  | fuel + 1, some n => do
    let node ← readStackNode n
    let s ← readScope node.val
    match ← getHt s.symbols name with
    | some sym => pure (some sym)
    | none => findLoop name fuel node.next

def findSymbol (ctx : ScopeCtx) (name : CString) : HeapM (Cell Symbol) (Option Ref) := do
  let n ← readHead ctx.scopeStk
  let fuel ← count
  findLoop name fuel n

/-- A symbol in the innermost scope: `define_local` and `define_global` from their `malloc` on. -/
def addSymbol (ctx : ScopeCtx) (sym : Symbol) : HeapM (Cell Symbol) Unit := do
  let symRef ← alloc (.value sym)
  match ← peekStack ctx.scopeStk with
  | none => fail
  | some s =>
    let scope ← readScope s
    addHt scope.symbols sym.name symRef

def defineLocal (ctx : ScopeCtx) (name : CString) (type : VarT) : HeapM (Cell Symbol) ScopeCtx := do
  let sz := if typeSize type < 8 then 8 else typeSize type
  let ctx := { ctx with curOffset := ctx.curOffset - sz }
  addSymbol ctx ⟨name, ctx.curOffset, type, false⟩
  pure ctx

def defineGlobal (ctx : ScopeCtx) (name : CString) (type : VarT) : HeapM (Cell Symbol) Unit :=
  addSymbol ctx ⟨name, 0, type, true⟩

/-- The loop of `drain_scopes`. -/
def drainLoop (stack : Ref) : Nat → HeapM (Cell Symbol) Unit
  | 0 => fail
  | fuel + 1 => do
    let empty ← stackIsEmpty stack
    if empty then pure ()
    else
      let _ ← closeScope stack
      drainLoop stack fuel

def drainScopes (ctx : ScopeCtx) : HeapM (Cell Symbol) Unit := do
  let fuel ← count
  drainLoop ctx.scopeStk (fuel + 1)
  deleteStack ctx.scopeStk

/-! ## The cells of a scope stack -/

/-- The stack from a node on holds these scopes, and these are its cells. -/
inductive IsScopes : Option Ref → List Scope → Cells (Cell Symbol) → Prop
  | nil : IsScopes none [] 0
  | cons {next : Option Ref} {s : Scope} {scopes : List Scope} {P Ps : Cells (Cell Symbol)}
      (node val symbols : Ref) (htable : IsTable symbols s.symbols P)
      (hrest : IsScopes next scopes Ps) :
      IsScopes (some node) (s :: scopes)
        ({(node, .stackNode ⟨val, next⟩)} + {(val, .scope ⟨symbols, s.baseOffset⟩)} + P + Ps)

def IsStack (stack : Ref) (scopes : List Scope) (P : Cells (Cell Symbol)) : Prop :=
  ∃ head Ps, IsScopes head scopes Ps ∧ P = {(stack, .stack head)} + Ps

/-- So many nodes of a stack. -/
def AreStackNodes (nodes : Cells (Cell Symbol)) (n : Nat) : Prop :=
  nodes.card = n ∧ ∀ cell ∈ nodes, ∃ node, cell.2 = .stackNode node

section specs
variable {P F : Cells (Cell Symbol)} {stack : Ref} {s : Scope} {scopes : List Scope}

theorem runs_readHead (head : Option Ref) (h : (stack, .stack head) ∈ P) :
    CompletesTo P (readHead stack) head P :=
  (Completes.load h).step (Completes.pure ⟨rfl, rfl⟩)

theorem runs_readStackNode {r : Ref} (node : StackNode) (h : (r, .stackNode node) ∈ P) :
    CompletesTo P (readStackNode r) node P :=
  (Completes.load h).step (Completes.pure ⟨rfl, rfl⟩)

theorem runs_readScope {r : Ref} (scope : ScopeT) (h : (r, .scope scope) ∈ P) :
    CompletesTo P (readScope r) scope P :=
  (Completes.load h).step (Completes.pure ⟨rfl, rfl⟩)

theorem IsScopes.length_le {head : Option Ref} (h : IsScopes head scopes P) :
    scopes.length ≤ P.card := by
  induction h with
  | nil => exact Nat.le_refl 0
  | cons node val symbols htable hrest ih =>
    simp only [List.length_cons, Multiset.card_add, Multiset.card_singleton]
    omega

theorem runs_initStack :
    Completes F initStack fun stack P' => ∃ P, IsStack stack [] P ∧ P' = P + F := by
  apply Completes.alloc_bind
  intro stack
  apply (Completes.store rfl).step
  exact Completes.pure ⟨_, ⟨none, 0, .nil, rfl⟩, by rw [add_zero]⟩

theorem runs_pushStack (stack val : Ref) (head : Option Ref) :
    Completes ({(stack, .stack head)} + F) (pushStack stack val) fun _ P' => ∃ temp,
      P' = {(stack, .stack (some temp))} + {(temp, .stackNode ⟨val, head⟩)} + F := by
  apply Completes.alloc_bind
  intro temp
  apply (runs_readHead head (by simp)).step
  cases head with
  | none =>
    apply (Completes.store rfl).step
    refine (Completes.store (add_left_comm _ _ _)).mono ?_
    rintro _ _ ⟨rfl, rfl⟩
    exact ⟨temp, by rw [add_assoc]⟩
  | some head =>
    apply (Completes.store rfl).step
    refine (Completes.store (add_left_comm _ _ _)).mono ?_
    rintro _ _ ⟨rfl, rfl⟩
    exact ⟨temp, by rw [add_assoc]⟩

theorem runs_popStack (stack node : Ref) (fields : StackNode)
    (hmem : (node, .stackNode fields) ∈ F) :
    CompletesTo ({(stack, .stack (some node))} + F) (popStack stack) (some fields.val)
      ({(stack, .stack fields.next)} + F) := by
  apply (runs_readHead (some node) (by simp)).step
  apply (runs_readStackNode fields (Multiset.mem_add.mpr (.inr hmem))).step
  apply (Completes.store rfl).step
  exact Completes.pure ⟨rfl, rfl⟩

theorem runs_peekStack (stack node : Ref) (fields : StackNode)
    (hmem : (node, .stackNode fields) ∈ F) :
    CompletesTo ({(stack, .stack (some node))} + F) (peekStack stack) (some fields.val)
      ({(stack, .stack (some node))} + F) := by
  apply (runs_readHead (some node) (by simp)).step
  apply (runs_readStackNode fields (Multiset.mem_add.mpr (.inr hmem))).step
  exact Completes.pure ⟨rfl, rfl⟩

theorem runs_pushScope (ctx : ScopeCtx) (h : IsStack ctx.scopeStk scopes P) :
    Completes (P + F) (pushScope ctx) fun _ P' => ∃ P'',
      IsStack ctx.scopeStk (newScope ctx.curOffset :: scopes) P'' ∧ P' = P'' + F := by
  obtain ⟨head, Ps, hscopes, rfl⟩ := h
  apply Completes.alloc_bind
  intro s
  apply Completes.bind (runs_createHt 64 (by decide))
  rintro symbols _ ⟨P, htable, rfl⟩
  apply (Completes.store (add_left_comm _ _ _)).step
  have hpush := runs_pushStack ctx.scopeStk s head
    (F := {(s, .scope ⟨symbols, ctx.curOffset⟩)} + P + Ps + F)
  refine hpush.conseq (by ac_rfl) ?_
  rintro _ _ ⟨temp, rfl⟩
  have hstack := IsScopes.cons (s := newScope ctx.curOffset) temp s symbols htable hscopes
  refine ⟨_, ⟨some temp, _, hstack, rfl⟩, ?_⟩
  rw [newScope]
  ac_rfl

/-- The scope is freed with its table, and the node that pointed to it is left behind. -/
theorem runs_closeScope (h : IsStack stack (s :: scopes) P) :
    Completes (P + F) (closeScope stack) fun scope P' => scope.baseOffset = s.baseOffset ∧
      ∃ P'' node fields, IsStack stack scopes P'' ∧
        P' = {(node, .stackNode fields)} + P'' + F := by
  obtain ⟨head, Ps, hscopes, rfl⟩ := h
  obtain _ | @⟨next, _, _, P, Ps, node, val, symbols, htable, hrest⟩ := hscopes
  have hcells : {(stack, Cell.stack (some node))} + ({(node, .stackNode ⟨val, next⟩)} +
      {(val, .scope ⟨symbols, s.baseOffset⟩)} + P + Ps) + F =
      {(stack, .stack (some node))} + ({(node, .stackNode ⟨val, next⟩)} +
        {(val, .scope ⟨symbols, s.baseOffset⟩)} + P + Ps + F) := by ac_rfl
  rw [hcells]
  apply (runs_popStack stack node ⟨val, next⟩ (by simp)).step
  apply (runs_readScope ⟨symbols, s.baseOffset⟩ (by simp)).step
  have hdestroy := runs_destroyHt htable (F := {(val, .scope ⟨symbols, s.baseOffset⟩)} +
    ({(node, .stackNode ⟨val, next⟩)} + ({(stack, .stack next)} + Ps) + F))
  apply Completes.step (hdestroy.of_eq (by ac_rfl))
  apply (Completes.free rfl).step
  exact Completes.pure ⟨rfl, _, node, ⟨val, next⟩, ⟨next, Ps, hrest, rfl⟩, rfl⟩

theorem runs_popScope (ctx : ScopeCtx) (h : IsStack ctx.scopeStk (s :: scopes) P) :
    Completes (P + F) (popScope ctx) fun ctx' P' =>
      ctx' = { ctx with curOffset := s.baseOffset } ∧ ∃ P'' node fields,
        IsStack ctx.scopeStk scopes P'' ∧ P' = {(node, .stackNode fields)} + P'' + F := by
  apply Completes.bind (runs_closeScope h)
  rintro scope _ ⟨hbase, P'', node, fields, hstack, rfl⟩
  exact Completes.pure ⟨by rw [hbase], P'', node, fields, hstack, rfl⟩

theorem runs_findLoop {fuel : Nat} {head : Option Ref} (name : CString)
    (h : IsScopes head scopes P) (hfuel : scopes.length ≤ fuel) :
    Completes (P + F) (findLoop name fuel head) fun found P' => P' = P + F ∧
      ((scopes.findSome? fun s => s.symbols.getHt name) = none ∧ found = none ∨
        ∃ v sym, (scopes.findSome? fun s => s.symbols.getHt name) = some sym ∧ found = some v ∧
          (v, .value sym) ∈ P) := by
  induction h generalizing fuel F with
  | nil =>
    rw [findLoop.eq_def]
    exact Completes.pure ⟨rfl, .inl ⟨rfl, rfl⟩⟩
  | @cons next s scopes P Ps node val symbols htable hrest ih =>
    obtain _ | fuel := fuel
    · exact absurd hfuel (by simp)
    apply (runs_readStackNode ⟨val, next⟩ (by simp)).step
    apply (runs_readScope ⟨symbols, s.baseOffset⟩ (by simp)).step
    have hget := runs_getHt htable name (F := {(node, .stackNode ⟨val, next⟩)} +
      {(val, .scope ⟨symbols, s.baseOffset⟩)} + Ps + F)
    apply Completes.bind (hget.of_eq (by ac_rfl))
    rintro _ _ ⟨rfl, ⟨hnone, rfl⟩ | ⟨v, sym, hsome, rfl, hmem⟩⟩
    · have hrun := ih (F := {(node, .stackNode ⟨val, next⟩)} +
        {(val, .scope ⟨symbols, s.baseOffset⟩)} + P + F) (Nat.le_of_succ_le_succ hfuel)
      rw [List.findSome?_cons, hnone]
      refine hrun.conseq (by ac_rfl) ?_
      rintro found _ ⟨rfl, hfound | ⟨v, sym, hsym, hfound, hmem⟩⟩
      · exact ⟨by ac_rfl, .inl hfound⟩
      · exact ⟨by ac_rfl, .inr ⟨v, sym, hsym, hfound, Multiset.mem_add.mpr (.inr hmem)⟩⟩
    · rw [List.findSome?_cons, hsome]
      refine Completes.pure ⟨by ac_rfl, .inr ⟨v, sym, rfl, rfl, ?_⟩⟩
      rw [Multiset.mem_add, Multiset.mem_add]
      exact .inl (.inr hmem)

/-- A lookup points into the innermost scope that has the name. -/
theorem runs_findSymbol (ctx : ScopeCtx) (h : IsStack ctx.scopeStk scopes P) (name : CString) :
    Completes (P + F) (findSymbol ctx name) fun found P' => P' = P + F ∧
      ((scopes.findSome? fun s => s.symbols.getHt name) = none ∧ found = none ∨
        ∃ v sym, (scopes.findSome? fun s => s.symbols.getHt name) = some sym ∧ found = some v ∧
          (v, .value sym) ∈ P) := by
  obtain ⟨head, Ps, hscopes, rfl⟩ := h
  apply (runs_readHead head (by simp)).step
  apply Completes.count_bind
  intro fuel hfuel
  have hlen : scopes.length ≤ fuel := by
    have hle := hscopes.length_le
    simp only [Multiset.card_add] at hfuel
    omega
  have hrun := runs_findLoop name hscopes hlen (F := {(ctx.scopeStk, .stack head)} + F)
  refine hrun.conseq (by ac_rfl) ?_
  rintro found _ ⟨rfl, hfound | ⟨v, sym, hsym, hfound, hmem⟩⟩
  · exact ⟨by ac_rfl, .inl hfound⟩
  · exact ⟨by ac_rfl, .inr ⟨v, sym, hsym, hfound, Multiset.mem_add.mpr (.inr hmem)⟩⟩

/-- The symbol that had the name in the same scope is lost. -/
theorem runs_addSymbol (ctx : ScopeCtx) (h : IsStack ctx.scopeStk (s :: scopes) P) (sym : Symbol) :
    Completes (P + F) (addSymbol ctx sym) fun _ P' => ∃ P'' lost,
      IsStack ctx.scopeStk (s.addSymbol sym :: scopes) P'' ∧
      IsLost lost (held s.symbols sym.name) ∧ P' = lost + P'' + F := by
  obtain ⟨head, Ps, hscopes, rfl⟩ := h
  obtain _ | @⟨next, _, _, P, Ps, node, val, symbols, htable, hrest⟩ := hscopes
  apply Completes.alloc_bind
  intro value
  have hpeek := runs_peekStack ctx.scopeStk node ⟨val, next⟩ (F := {(value, .value sym)} +
    ({(node, .stackNode ⟨val, next⟩)} + {(val, .scope ⟨symbols, s.baseOffset⟩)} + P + Ps + F))
    (by simp)
  apply Completes.step (hpeek.of_eq (by ac_rfl))
  apply (runs_readScope ⟨symbols, s.baseOffset⟩ (by simp)).step
  have hadd := runs_addHt htable sym.name sym value (F := {(ctx.scopeStk, .stack (some node))} +
    {(node, .stackNode ⟨val, next⟩)} + {(val, .scope ⟨symbols, s.baseOffset⟩)} + Ps + F)
  refine hadd.conseq (by ac_rfl) ?_
  rintro _ _ ⟨P', lost, htable', hlost, rfl⟩
  have hstack := IsScopes.cons (s := s.addSymbol sym) node val symbols htable' hrest
  refine ⟨_, lost, ⟨some node, _, hstack, rfl⟩, hlost, ?_⟩
  rw [Scope.addSymbol]
  ac_rfl

theorem runs_defineLocal (ctx : ScopeCtx) (h : IsStack ctx.scopeStk (s :: scopes) P)
    (name : CString) (type : VarT) :
    Completes (P + F) (defineLocal ctx name type) fun ctx' P' =>
      ctx' = { ctx with curOffset := ctx.curOffset - 8 } ∧ ∃ P'' lost,
        IsStack ctx.scopeStk (s.addSymbol ⟨name, ctx.curOffset - 8, type, false⟩ :: scopes) P'' ∧
        IsLost lost (held s.symbols name) ∧ P' = lost + P'' + F := by
  simp only [defineLocal, slotSize]
  apply Completes.bind (runs_addSymbol ⟨ctx.scopeStk, ctx.curOffset - 8⟩ h _)
  rintro _ _ ⟨P₁, lost, hP₁, hlost, rfl⟩
  exact Completes.pure ⟨rfl, P₁, lost, hP₁, hlost, rfl⟩

theorem areStackNodes_zero : AreStackNodes 0 0 := ⟨rfl, by simp⟩

theorem AreStackNodes.add {nodes nodes' : Cells (Cell Symbol)} {n m : Nat}
    (h : AreStackNodes nodes n) (h' : AreStackNodes nodes' m) :
    AreStackNodes (nodes + nodes') (n + m) := by
  constructor
  · rw [Multiset.card_add, h.1, h'.1]
  · intro cell hcell
    exact (Multiset.mem_add.mp hcell).elim (h.2 cell) (h'.2 cell)

theorem areStackNodes_one (node : Ref) (fields : StackNode) :
    AreStackNodes {(node, .stackNode fields)} 1 := by
  refine ⟨Multiset.card_singleton _, fun cell hcell => ?_⟩
  rw [Multiset.mem_singleton.mp hcell]
  exact ⟨fields, rfl⟩

theorem runs_stackIsEmpty (head : Option Ref) (hmem : (stack, .stack head) ∈ P) :
    CompletesTo P (stackIsEmpty stack) head.isNone P :=
  (runs_readHead head hmem).step (Completes.pure ⟨rfl, rfl⟩)

theorem runs_drainLoop {fuel : Nat} (h : IsStack stack scopes P) (hfuel : scopes.length < fuel) :
    Completes (P + F) (drainLoop stack fuel) fun _ P' => ∃ nodes,
      AreStackNodes nodes scopes.length ∧ P' = {(stack, .stack none)} + nodes + F := by
  induction scopes generalizing fuel P F with
  | nil =>
    obtain ⟨head, Ps, hscopes, rfl⟩ := h
    cases hscopes
    obtain _ | fuel := fuel
    · exact absurd hfuel (Nat.not_lt_zero _)
    apply (runs_stackIsEmpty none (by simp)).step
    exact Completes.pure ⟨0, areStackNodes_zero, rfl⟩
  | cons s scopes ih =>
    obtain _ | fuel := fuel
    · exact absurd hfuel (Nat.not_lt_zero _)
    have hclose := runs_closeScope h (F := F)
    obtain ⟨head, Ps, hscopes, rfl⟩ := h
    obtain _ | @⟨next, _, _, P, Ps, node, val, symbols, htable, hrest⟩ := hscopes
    apply (runs_stackIsEmpty (some node) (by simp)).step
    apply Completes.bind hclose
    rintro scope _ ⟨_, P', node', fields, hstack, rfl⟩
    have hrun := ih hstack (F := {(node', .stackNode fields)} + F) (Nat.lt_of_succ_lt_succ hfuel)
    refine hrun.conseq (by ac_rfl) ?_
    rintro _ _ ⟨nodes, hnodes, rfl⟩
    exact ⟨_, hnodes.add (areStackNodes_one node' fields), by ac_rfl⟩

/-- Nothing is left of a scope stack but the nodes. -/
theorem runs_drainScopes (ctx : ScopeCtx) (h : IsStack ctx.scopeStk scopes P) :
    Completes (P + F) (drainScopes ctx) fun _ P' => ∃ nodes,
      AreStackNodes nodes scopes.length ∧ P' = nodes + F := by
  apply Completes.count_bind
  intro fuel hfuel
  have hlen : scopes.length < fuel + 1 := by
    obtain ⟨head, Ps, hscopes, rfl⟩ := h
    have hle := hscopes.length_le
    simp only [Multiset.card_add] at hfuel
    omega
  apply Completes.bind (runs_drainLoop h hlen)
  rintro _ _ ⟨nodes, hnodes, rfl⟩
  rw [add_assoc]
  apply (runs_readHead none (by simp)).step
  apply Completes.count_bind
  intro fuel' _
  rw [deleteLoop.eq_def]
  apply (Completes.pure ⟨rfl, rfl⟩ : CompletesTo _ (pure ()) () _).step
  refine (Completes.free rfl).mono ?_
  rintro _ _ ⟨rfl, rfl⟩
  exact ⟨nodes, hnodes, rfl⟩

end specs

end Nodes

/-! ## Runs -/

/-- A call of the code generator on its scopes. `reset` is the offset set to 0 by
`gen_func_decl`. -/
inductive ScopeCall
  | push
  | pop
  | reset
  | defineLocal (name : CString) (type : VarT)
  | defineGlobal (name : CString) (type : VarT)
  | find (name : CString)
  deriving DecidableEq

/-- The part of a context that the calls work on. -/
structure ScopeState where
  scopeStk : List Scope
  curOffset : Int

/-- The calls lead from one state to the other, and the lookups among them find these symbols. A
symbol is lost when its name is defined again in the same scope. -/
inductive ScopeState.Goes :
    ScopeState → List ScopeCall → List Symbol → Multiset Symbol → ScopeState → Prop
  | nil {t : ScopeState} : Goes t [] [] 0 t
  | push {scopes : List Scope} {offset : Int} {calls : List ScopeCall} {found : List Symbol}
      {lost : Multiset Symbol} {t : ScopeState}
      (h : Goes ⟨newScope offset :: scopes, offset⟩ calls found lost t) :
      Goes ⟨scopes, offset⟩ (.push :: calls) found lost t
  | pop {s : Scope} {scopes : List Scope} {offset : Int} {calls : List ScopeCall}
      {found : List Symbol} {lost : Multiset Symbol} {t : ScopeState}
      (h : Goes ⟨scopes, s.baseOffset⟩ calls found lost t) :
      Goes ⟨s :: scopes, offset⟩ (.pop :: calls) found lost t
  | reset {scopes : List Scope} {offset : Int} {calls : List ScopeCall} {found : List Symbol}
      {lost : Multiset Symbol} {t : ScopeState} (h : Goes ⟨scopes, 0⟩ calls found lost t) :
      Goes ⟨scopes, offset⟩ (.reset :: calls) found lost t
  | defineLocal {s : Scope} {scopes : List Scope} {offset : Int} {calls : List ScopeCall}
      {found : List Symbol} {lost : Multiset Symbol} {t : ScopeState} {name : CString}
      {type : VarT} (h : Goes ⟨s.addSymbol ⟨name, offset - 8, type, false⟩ :: scopes, offset - 8⟩
        calls found lost t) :
      Goes ⟨s :: scopes, offset⟩ (.defineLocal name type :: calls) found
        (Nodes.held s.symbols name + lost) t
  | defineGlobal {s : Scope} {scopes : List Scope} {offset : Int} {calls : List ScopeCall}
      {found : List Symbol} {lost : Multiset Symbol} {t : ScopeState} {name : CString}
      {type : VarT} (h : Goes ⟨s.addSymbol ⟨name, 0, type, true⟩ :: scopes, offset⟩
        calls found lost t) :
      Goes ⟨s :: scopes, offset⟩ (.defineGlobal name type :: calls) found
        (Nodes.held s.symbols name + lost) t
  | find {scopes : List Scope} {offset : Int} {calls : List ScopeCall} {found : List Symbol}
      {lost : Multiset Symbol} {t : ScopeState} {name : CString} {sym : Symbol}
      (hfind : (scopes.findSome? fun s => s.symbols.getHt name) = some sym)
      (h : Goes ⟨scopes, offset⟩ calls found lost t) :
      Goes ⟨scopes, offset⟩ (.find name :: calls) (sym :: found) lost t

namespace Nodes

/-- A call over the heap. A name that is not found is a compile error, which exits. -/
def applyScopeCall (ctx : ScopeCtx) : ScopeCall → HeapM (Cell Symbol) (ScopeCtx × List Symbol)
  | .push => do
    pushScope ctx
    pure (ctx, [])
  | .pop => do
    let ctx ← popScope ctx
    pure (ctx, [])
  | .reset => pure ({ ctx with curOffset := 0 }, [])
  | .defineLocal name type => do
    let ctx ← defineLocal ctx name type
    pure (ctx, [])
  | .defineGlobal name type => do
    defineGlobal ctx name type
    pure (ctx, [])
  | .find name => do
    let found ← findSymbol ctx name
    let sym ← readFound found
    match sym with
    | none => fail
    | some sym => pure (ctx, [sym])

def runScopeCalls (ctx : ScopeCtx) : List ScopeCall → HeapM (Cell Symbol) (ScopeCtx × List Symbol)
  | [] => pure (ctx, [])
  | call :: calls => do
    let first ← applyScopeCall ctx call
    let rest ← runScopeCalls first.1 calls
    pure (rest.1, first.2 ++ rest.2)

/-- The life of the scopes, from `asm_init` to `asm_free`. -/
def useScopes (calls : List ScopeCall) : HeapM (Cell Symbol) (List Symbol) := do
  let stack ← initStack
  let last ← runScopeCalls ⟨stack, 0⟩ calls
  drainScopes last.1
  pure last.2

end Nodes

section runs
open Nodes
variable {s t u : ScopeState} {calls calls' : List ScopeCall} {found found' : List Symbol}
  {lost lost' : Multiset Symbol}

theorem ScopeState.Goes.trans (h : s.Goes calls found lost t) (h' : t.Goes calls' found' lost' u) :
    s.Goes (calls ++ calls') (found ++ found') (lost + lost') u := by
  induction h with
  | nil =>
    rw [zero_add]
    exact h'
  | push h ih => exact .push (ih h')
  | pop h ih => exact .pop (ih h')
  | reset h ih => exact .reset (ih h')
  | defineLocal h ih =>
    rw [add_assoc]
    exact .defineLocal (ih h')
  | defineGlobal h ih =>
    rw [add_assoc]
    exact .defineGlobal (ih h')
  | find hfind h ih => exact .find hfind (ih h')

/-- What is pushed is popped or still there. -/
theorem ScopeState.Goes.count_push (h : s.Goes calls found lost t) :
    t.scopeStk.length + calls.count .pop = s.scopeStk.length + calls.count .push := by
  induction h with
  | nil => rfl
  | push h ih => simp only [List.count_cons, List.length_cons] at ih ⊢; simp; omega
  | pop h ih => simp only [List.count_cons, List.length_cons] at ih ⊢; simp; omega
  | reset h ih => simp only [List.count_cons] at ih ⊢; simpa using ih
  | defineLocal h ih => simp only [List.count_cons, List.length_cons] at ih ⊢; simpa using ih
  | defineGlobal h ih => simp only [List.count_cons, List.length_cons] at ih ⊢; simpa using ih
  | find hfind h ih => simp only [List.count_cons] at ih ⊢; simpa using ih

/-- What a run of calls leaves: the new state of the scopes, the nodes that were popped and the
symbols that were lost. -/
def Leftover (stack : Ref) (F : Cells (Cell Symbol)) (pops : Nat) (lost : Multiset Symbol)
    (t : ScopeState) (P : Cells (Cell Symbol)) : Prop :=
  ∃ P' nodes dead, IsStack stack t.scopeStk P' ∧ AreStackNodes nodes pops ∧ IsLost dead lost ∧
    P = nodes + dead + P' + F

theorem Leftover.of_isStack {stack : Ref} {P F : Cells (Cell Symbol)}
    (hP : IsStack stack t.scopeStk P) : Leftover stack F 0 0 t (P + F) :=
  ⟨P, 0, 0, hP, areStackNodes_zero, rfl, by rw [add_zero, zero_add]⟩

/-- A call over the heap does this. -/
def CallRuns (s : ScopeState) (call : ScopeCall) (out : List Symbol) (pops : Nat)
    (lost : Multiset Symbol) (t : ScopeState) : Prop :=
  ∀ (stack : Ref) (P F : Cells (Cell Symbol)), IsStack stack s.scopeStk P →
    Completes (P + F) (applyScopeCall ⟨stack, s.curOffset⟩ call) fun r P' =>
      r = (⟨stack, t.curOffset⟩, out) ∧ Leftover stack F pops lost t P'

/-- Calls over the heap do this. -/
def CallsRun (s : ScopeState) (calls : List ScopeCall) (out : List Symbol) (pops : Nat)
    (lost : Multiset Symbol) (t : ScopeState) : Prop :=
  ∀ (stack : Ref) (P F : Cells (Cell Symbol)), IsStack stack s.scopeStk P →
    Completes (P + F) (runScopeCalls ⟨stack, s.curOffset⟩ calls) fun r P' =>
      r = (⟨stack, t.curOffset⟩, out) ∧ Leftover stack F pops lost t P'

theorem CallRuns.cons {call : ScopeCall} {n m : Nat} (h : CallRuns s call found n lost t)
    (h' : CallsRun t calls found' m lost' u) :
    CallsRun s (call :: calls) (found ++ found') (n + m) (lost + lost') u := by
  intro stack P F hP
  apply Completes.bind (h stack P F hP)
  rintro _ _ ⟨rfl, P₁, nodes, dead, hP₁, hnodes, hdead, rfl⟩
  have hrest := h' stack P₁ (nodes + dead + F) hP₁
  apply Completes.bind (hrest.of_eq (by ac_rfl))
  rintro _ _ ⟨rfl, P₂, nodes', dead', hP₂, hnodes', hdead', rfl⟩
  refine Completes.pure ⟨rfl, P₂, nodes + nodes', dead + dead', hP₂, hnodes.add hnodes',
    hdead.add hdead', ?_⟩
  ac_rfl

theorem callRuns_push (scopes : List Scope) (offset : Int) :
    CallRuns ⟨scopes, offset⟩ .push [] 0 0 ⟨newScope offset :: scopes, offset⟩ := by
  intro stack P F hP
  apply Completes.bind (runs_pushScope _ hP)
  rintro _ _ ⟨P₁, hP₁, rfl⟩
  exact Completes.pure ⟨rfl, .of_isStack hP₁⟩

theorem callRuns_pop (s : Scope) (scopes : List Scope) (offset : Int) :
    CallRuns ⟨s :: scopes, offset⟩ .pop [] 1 0 ⟨scopes, s.baseOffset⟩ := by
  intro stack P F hP
  apply Completes.bind (runs_popScope _ hP)
  rintro _ _ ⟨rfl, P₁, node, fields, hP₁, rfl⟩
  exact Completes.pure ⟨rfl, P₁, _, 0, hP₁, areStackNodes_one node fields, rfl, by rw [add_zero]⟩

theorem callRuns_reset (scopes : List Scope) (offset : Int) :
    CallRuns ⟨scopes, offset⟩ .reset [] 0 0 ⟨scopes, 0⟩ := by
  intro stack P F hP
  exact Completes.pure ⟨rfl, .of_isStack hP⟩

theorem callRuns_defineLocal (s : Scope) (scopes : List Scope) (offset : Int) (name : CString)
    (type : VarT) :
    CallRuns ⟨s :: scopes, offset⟩ (.defineLocal name type) [] 0 (held s.symbols name)
      ⟨s.addSymbol ⟨name, offset - 8, type, false⟩ :: scopes, offset - 8⟩ := by
  intro stack P F hP
  apply Completes.bind (runs_defineLocal _ hP name type)
  rintro _ _ ⟨rfl, P₁, dead, hP₁, hdead, rfl⟩
  exact Completes.pure ⟨rfl, P₁, 0, dead, hP₁, areStackNodes_zero, hdead, by rw [zero_add]⟩

theorem callRuns_defineGlobal (s : Scope) (scopes : List Scope) (offset : Int) (name : CString)
    (type : VarT) :
    CallRuns ⟨s :: scopes, offset⟩ (.defineGlobal name type) [] 0 (held s.symbols name)
      ⟨s.addSymbol ⟨name, 0, type, true⟩ :: scopes, offset⟩ := by
  intro stack P F hP
  apply Completes.bind (runs_addSymbol _ hP _)
  rintro _ _ ⟨P₁, dead, hP₁, hdead, rfl⟩
  exact Completes.pure ⟨rfl, P₁, 0, dead, hP₁, areStackNodes_zero, hdead, by rw [zero_add]⟩

theorem callRuns_find {scopes : List Scope} {name : CString} {sym : Symbol}
    (hfind : (scopes.findSome? fun s => s.symbols.getHt name) = some sym) (offset : Int) :
    CallRuns ⟨scopes, offset⟩ (.find name) [sym] 0 0 ⟨scopes, offset⟩ := by
  intro stack P F hP
  apply Completes.bind (runs_findSymbol _ hP name)
  rintro found _ ⟨rfl, hfound⟩
  rw [hfind] at hfound
  apply (runs_readFound (hfound.imp_right ?_)).step
  · exact Completes.pure ⟨rfl, .of_isStack hP⟩
  · rintro ⟨v, sym', hsym, hv, hmem⟩
    exact ⟨v, sym', hsym, hv, Multiset.mem_add.mpr (.inl hmem)⟩

/-- **The calls over the heap follow the calls over the contexts**: no bad pointer is followed and
nothing is freed twice. -/
theorem ScopeState.Goes.callsRun (h : s.Goes calls found lost t) :
    CallsRun s calls found (calls.count .pop) lost t := by
  induction h with
  | nil =>
    intro stack P F hP
    exact Completes.pure ⟨rfl, .of_isStack hP⟩
  | push h ih => simpa using (callRuns_push _ _).cons ih
  | pop h ih => simpa [Nat.add_comm] using (callRuns_pop _ _ _).cons ih
  | reset h ih => simpa using (callRuns_reset _ _).cons ih
  | defineLocal h ih => simpa using (callRuns_defineLocal _ _ _ _ _).cons ih
  | defineGlobal h ih => simpa using (callRuns_defineGlobal _ _ _ _ _).cons ih
  | find hfind h ih => simpa using (callRuns_find hfind _).cons ih

/-- From the first call to `asm_free`, all is freed but a node for each scope and the lost
symbols. -/
theorem ScopeState.Goes.useScopes (h : ScopeState.Goes ⟨[], 0⟩ calls found lost t)
    (F : Cells (Cell Symbol)) :
    Completes F (Nodes.useScopes calls) fun found' P' => found' = found ∧ ∃ nodes dead,
      AreStackNodes nodes (calls.count .push) ∧ IsLost dead lost ∧ P' = nodes + dead + F := by
  apply Completes.bind runs_initStack
  rintro stack _ ⟨P, hP, rfl⟩
  apply Completes.bind (h.callsRun stack P F hP)
  rintro _ _ ⟨rfl, P₁, nodes, dead, hP₁, hnodes, hdead, rfl⟩
  have hdrain := runs_drainScopes ⟨stack, t.curOffset⟩ hP₁ (F := nodes + dead + F)
  apply Completes.bind (hdrain.of_eq (by ac_rfl))
  rintro _ _ ⟨nodes', hnodes', rfl⟩
  have hcount := h.count_push
  rw [List.length_nil, Nat.zero_add] at hcount
  have hall := hnodes'.add hnodes
  rw [hcount] at hall
  exact Completes.pure ⟨rfl, _, dead, hall, hdead, by ac_rfl⟩

end runs

end ACompiler
