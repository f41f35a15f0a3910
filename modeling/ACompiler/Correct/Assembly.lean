import ACompiler.Assembler.Reader
import ACompiler.Correct.LabelCount
import ACompiler.Correct.Printed
import ACompiler.Correct.Program
import ACompiler.Correct.Runnable
import ACompiler.Tokenizer.Source

/-!
# Assembly that an assembler reads

The names in the code of a program are identifiers of its source, and its labels are numbers, so
every line is one that an assembler reads back from its text (`genProgram_spoken`). So an assembler
finds in the text of the assembly what the generator meant (`source_assembly`).
-/

namespace ACompiler

open Lib (Emitted)
open Lib.Emit (bind_eq_ok)

/-! ## Calls of named functions -/

/-- Everything that is called has a name. -/
def CalleesNamed (fs : List CString) : Prop := ∀ f ∈ fs, isName f = true

theorem calleesNamed_append {fs fs' : List CString} :
    CalleesNamed (fs ++ fs') ↔ CalleesNamed fs ∧ CalleesNamed fs' := List.forall_mem_append

theorem calleesNamed_nil : CalleesNamed [] := fun _ h => absurd h List.not_mem_nil

theorem Derives.calleesNamed {c : Cat} {ts rest : List Token} {p : Phrase}
    (h : Derives c ts rest p) : NamesOnly ts → CalleesNamed p.callees := by
  induction h with
  | equal _ ih => exact ih
  | assign hl _ _ _ _ ihr =>
    exact fun hn => ihr ((hn.of_suffix hl.consumes.suffix).of_suffix (List.suffix_cons _ _))
  | operand _ ih => exact ih
  | operator hl _ _ ihl ihr =>
    exact fun hn => calleesNamed_append.mpr
      ⟨ihl hn, ihr ((hn.of_suffix hl.consumes.suffix).of_suffix (List.suffix_cons _ _))⟩
  | unary _ _ ih => exact fun hn => ih (hn.of_suffix (List.suffix_cons _ _))
  | ofPost _ ih => exact ih
  | primary _ ih => exact ih
  | index h _ _ _ _ ihi =>
    exact fun hn => ihi ((hn.of_suffix h.consumes.suffix).of_suffix (List.suffix_cons _ _))
  | cast _ _ ht _ _ ih =>
    exact fun hn => ih (((hn.of_suffix (List.suffix_cons _ _)).of_suffix
      ht.consumes.suffix).of_suffix (List.suffix_cons _ _))
  | callExpr _ ih => exact ih
  | identifier _ => exact fun _ => calleesNamed_nil
  | number _ => exact fun _ => calleesNamed_nil
  | string _ => exact fun _ => calleesNamed_nil
  | paren _ _ _ _ ih => exact fun hn => ih (hn.of_suffix (List.suffix_cons _ _))
  | @call _ i l _ ts _ _ _ hi _ _ _ ih =>
    intro hn
    have hargs := ih (hn.of_suffix (List.suffix_append [_, i, l] ts))
    exact List.forall_mem_cons.mpr ⟨hn i (by simp) hi, hargs⟩
  | argsNil => exact fun _ => calleesNamed_nil
  | argsLast _ ih => exact fun hn => calleesNamed_append.mpr ⟨ih hn, calleesNamed_nil⟩
  | argsCons h _ _ ih ihs =>
    exact fun hn => calleesNamed_append.mpr
      ⟨ih hn, ihs ((hn.of_suffix h.consumes.suffix).of_suffix (List.suffix_cons _ _))⟩

theorem DerivesVarDecl.calleesNamed {ts rest : List Token} {d : VarDecl}
    (h : DerivesVarDecl ts rest d) (hn : NamesOnly ts) : CalleesNamed (stmtCallees (.varDecl d)) := by
  cases h with
  | uninit _ _ _ _ => exact calleesNamed_nil
  | init _ hv _ _ he _ =>
    have hmid := (hn.of_suffix (List.suffix_cons _ _)).of_suffix hv.consumes.suffix
    exact he.calleesNamed (hmid.of_suffix (List.suffix_append [_, _] _))

theorem DerivesStmt.calleesNamed {c : StmtCat} {ts rest : List Token} {p : StmtPhrase}
    (h : DerivesStmt c ts rest p) : NamesOnly ts → CalleesNamed p.callees := by
  induction h with
  | comment _ => exact fun _ => calleesNamed_nil
  | @ifThen i l _ ts _ _ _ _ _ _ hc _ _ ih =>
    intro hn
    have hts := hn.of_suffix (List.suffix_append [i, l] ts)
    have hmid := (hts.of_suffix hc.consumes.suffix).of_suffix (List.suffix_cons _ _)
    exact calleesNamed_append.mpr ⟨hc.calleesNamed hts, ih hmid⟩
  | @ifElse i l _ _ ts _ _ _ _ _ _ _ _ hc _ hb _ _ ih ih' =>
    intro hn
    have hts := hn.of_suffix (List.suffix_append [i, l] ts)
    have hmid := (hts.of_suffix hc.consumes.suffix).of_suffix (List.suffix_cons _ _)
    have helse := (hmid.of_suffix hb.consumes.suffix).of_suffix (List.suffix_cons _ _)
    exact calleesNamed_append.mpr ⟨calleesNamed_append.mpr ⟨hc.calleesNamed hts, ih hmid⟩, ih' helse⟩
  | ret _ h _ => exact fun hn => h.calleesNamed (hn.of_suffix (List.suffix_cons _ _))
  | call h _ => exact h.calleesNamed
  | blockStmt _ _ ih => exact ih
  | expr _ h _ => exact h.calleesNamed
  | nil => exact fun _ => calleesNamed_nil
  | varDecl h _ ih =>
    exact fun hn => calleesNamed_append.mpr
      ⟨h.calleesNamed hn, ih (hn.of_suffix h.consumes.suffix)⟩
  | cons h _ ih ihs =>
    exact fun hn => calleesNamed_append.mpr ⟨ih hn, ihs (hn.of_suffix h.consumes.suffix)⟩
  | block _ _ _ ih => exact fun hn => ih (hn.of_suffix (List.suffix_cons _ _))

theorem DerivesFunc.calleesNamed {ts rest : List Token} {decl : FuncDecl}
    (h : DerivesFunc ts rest decl) (hn : NamesOnly ts) : CalleesNamed decl.callees := by
  cases h with
  | func _ hv _ _ hp _ hb _ =>
    have hmid := (hn.of_suffix (List.suffix_cons _ _)).of_suffix hv.consumes.suffix
    have hmid' := (hmid.of_suffix (List.suffix_append [_, _] _)).of_suffix hp.consumes.suffix
    exact hb.calleesNamed (hmid'.of_suffix (List.suffix_cons _ _))

theorem DerivesProgram.calleesNamed {ts : List Token} {p : Program} (h : DerivesProgram ts p) :
    NamesOnly ts → ∀ decl ∈ funcsOf p, CalleesNamed decl.callees := by
  induction h with
  | eof _ => exact fun _ decl hdecl => absurd hdecl List.not_mem_nil
  | comment _ _ ih => exact fun hn => ih (hn.of_suffix (List.suffix_cons _ _))
  | varDecl hd _ ih => exact fun hn => ih (hn.of_suffix hd.consumes.suffix)
  | func hf _ ih =>
    exact fun hn => List.forall_mem_cons.mpr
      ⟨hf.calleesNamed hn, ih (hn.of_suffix hf.consumes.suffix)⟩

/-! ## The lines of a function -/

theorem spoken_itemsOf (c : AsmCtx) {is : List Instr} (h : ∀ i ∈ is, (Line.instr i).Spoken) :
    ∀ item ∈ c.itemsOf is, item.line.Spoken := forall_itemsOf h

theorem spoken_popItems (ids : List RegId) : ∀ c : AsmCtx,
    ∀ item ∈ c.popItems ids, item.line.Spoken := by
  induction ids with
  | nil => exact fun _ item hitem => absurd hitem List.not_mem_nil
  | cons id ids ih => exact fun c => List.forall_mem_cons.mpr ⟨trivial, ih _⟩

section code
variable {gs : List CString} (hgs : ∀ x ∈ gs, isName x = true)
include hgs

/-- A global is named where it is read, written or pointed to. -/
theorem symbolInstrs_spoken {c : AsmCtx} (hc : c.Over gs) {name : CString} {v : Symbol}
    (hv : findSymbol c name = some v) :
    ∀ i ∈ [readInstr v name, writeInstr v name, addrInstr v], (Line.instr i).Spoken := by
  have hname : v.isGlobal = true → isName name = true := fun hg => hgs _ (hc.others name v hv hg)
  unfold readInstr writeInstr addrInstr
  cases hg : v.isGlobal with
  | true => simp [Line.Spoken, Operand.Named, hname hg, findSymbol_name hv]
  | false => simp [Line.Spoken, Operand.Named]

theorem ExprCode.spoken {c : AsmCtx} {p : Phrase} {items : List Item} (h : ExprCode c p items) :
    c.Over gs → CalleesNamed p.callees → ∀ item ∈ items, item.line.Spoken := by
  induction h with
  | literal => exact fun _ _ => List.forall_mem_singleton.mpr ⟨trivial, trivial⟩
  | identifier hs =>
    exact fun hc _ => List.forall_mem_singleton.mpr (symbolInstrs_spoken hgs hc hs _ (by simp))
  | addr hs =>
    exact fun hc _ => List.forall_mem_singleton.mpr (symbolInstrs_spoken hgs hc hs _ (by simp))
  | @unary c op _ is _ hop _ ih =>
    refine fun hc hf => List.forall_mem_append.mpr ⟨ih hc hf, spoken_itemsOf c ?_⟩
    cases op <;> simp [unaryInstrs] at hop <;> subst hop <;> simp [Line.Spoken, Operand.Named]
  | @binary c op _ _ _ _ _ _ ihl ihr =>
    intro hc hf
    obtain ⟨hfl, hfr⟩ := calleesNamed_append.mp hf
    have hdeep : (c.withDepth (c.pushDepth + 1)).Over gs := ⟨hc.locals, hc.globals, hc.others⟩
    simp only [List.forall_mem_append, List.forall_mem_cons]
    refine ⟨⟨⟨ihl hc hfl, trivial, ihr hdeep hfr⟩, ?_⟩, spoken_itemsOf _ ?_⟩
    · exact spoken_itemsOf _ (by simp [Line.Spoken, Operand.Named])
    · cases op <;> simp [binaryInstrs, Line.Spoken, Operand.Named]
  | call _ _ _ ih =>
    intro hc hf
    obtain ⟨hcallee, hargs⟩ := List.forall_mem_cons.mp hf
    simp only [List.forall_mem_append, List.forall_mem_singleton]
    exact ⟨⟨ih hc hargs, spoken_popItems _ _⟩, hcallee⟩
  | @callPad c callee _ _ _ _ _ ih =>
    intro hc hf
    obtain ⟨hcallee, hargs⟩ := List.forall_mem_cons.mp hf
    have hdeep : (c.withDepth (c.pushDepth + 1)).Over gs := ⟨hc.locals, hc.globals, hc.others⟩
    simp only [List.forall_mem_append, List.forall_mem_cons]
    refine ⟨⟨⟨⟨trivial, trivial⟩, ih hdeep hargs⟩, spoken_popItems _ _⟩, spoken_itemsOf _ ?_⟩
    simp only [List.forall_mem_cons, List.not_mem_nil, false_imp_iff, implies_true, and_true]
    exact ⟨hcallee, trivial, trivial⟩
  | assign _ hs ih =>
    intro hc hf
    rw [List.forall_mem_append, List.forall_mem_singleton]
    exact ⟨ih hc hf, symbolInstrs_spoken hgs hc hs _ (by simp)⟩
  | cast _ ih => exact ih
  | argsNil => exact fun _ _ item hitem => absurd hitem List.not_mem_nil
  | @argsCons c _ _ _ _ _ _ iha ihs =>
    intro hc hf
    obtain ⟨hfa, hfs⟩ := calleesNamed_append.mp hf
    have hdeep : (c.withDepth (c.pushDepth + 1)).Over gs := ⟨hc.locals, hc.globals, hc.others⟩
    simp only [List.forall_mem_append, List.forall_mem_cons]
    exact ⟨iha hc hfa, trivial, ihs hdeep hfs⟩

/-- The code of a statement, where the labels do not go over `2 ^ 32`. -/
theorem StmtCode.spoken {c c' : AsmCtx} {p : StmtPhrase} {items : List Item} {marks : List AsmCtx}
    (h : StmtCode c p c' items marks) : c.Over gs → CalleesNamed p.callees →
      (∀ n, c.epilogueLabel = some n → n < 2 ^ 32) → c'.labelCount ≤ 2 ^ 32 →
        ∀ item ∈ items, item.line.Spoken := by
  have htest : ∀ (c : AsmCtx) {n : Nat}, n < 2 ^ 32 →
      ∀ item ∈ c.itemsOf [.cmp (.imm 0) (.reg .rax), .je n], item.line.Spoken := by
    intro c n hn
    refine spoken_itemsOf c ?_
    simp only [List.forall_mem_cons, List.not_mem_nil, false_imp_iff, implies_true, and_true]
    exact ⟨⟨trivial, trivial⟩, hn⟩
  induction h with
  | comment => simp
  | expr he => exact fun hc hf _ _ => he.spoken hgs hc hf
  | returnStmt he hn =>
    intro hc hf hepi _
    rw [List.forall_mem_append, List.forall_mem_singleton]
    exact ⟨he.spoken hgs hc hf, hepi _ hn⟩
  | uninit _ => simp
  | init hstk he =>
    intro hc hf _ _
    rw [List.forall_mem_append, List.forall_mem_singleton]
    exact ⟨he.spoken hgs (hc.declare hstk _ _) hf, trivial, trivial⟩
  | @ifThen c c' _ _ _ _ _ he hb ih =>
    intro hc hf hepi hcount
    obtain ⟨hfc, hfb⟩ := calleesNamed_append.mp hf
    have hc' : (c.withLabels (c.labelCount + 2)).Over gs := ⟨hc.locals, hc.globals, hc.others⟩
    have hle : c.labelCount + 2 ≤ c'.labelCount := hb.labels.1
    have hskip : c.labelCount < 2 ^ 32 := by omega
    have hdone : c.labelCount + 1 < 2 ^ 32 := by omega
    simp only [List.forall_mem_append, List.forall_mem_cons]
    exact ⟨⟨⟨he.spoken hgs hc' hfc, htest c hskip⟩, ih hc' hfb hepi hcount⟩, hdone, hskip, hdone,
      by simp⟩
  | @ifElse c c' c'' _ _ _ _ _ _ _ _ he hb hb' ih ih' =>
    intro hc hf hepi hcount
    obtain ⟨hf, hfb'⟩ := calleesNamed_append.mp hf
    obtain ⟨hfc, hfb⟩ := calleesNamed_append.mp hf
    have hc' : (c.withLabels (c.labelCount + 2)).Over gs := ⟨hc.locals, hc.globals, hc.others⟩
    have hle : c.labelCount + 2 ≤ c'.labelCount := hb.labels.1
    have hle' : c'.labelCount ≤ c''.labelCount := hb'.labels.1
    have hskip : c.labelCount < 2 ^ 32 := by omega
    have hdone : c.labelCount + 1 < 2 ^ 32 := by omega
    have hepi' : ∀ n, c'.epilogueLabel = some n → n < 2 ^ 32 := by
      rw [hb.extends.epilogueLabel]
      exact hepi
    simp only [List.forall_mem_append, List.forall_mem_cons]
    exact ⟨⟨⟨⟨⟨he.spoken hgs hc' hfc, htest c hskip⟩, ih hc' hfb hepi (by omega)⟩, hdone, hskip,
      by simp⟩, ih' (hb.overGlobals hc') hfb' hepi' hcount⟩, hdone, by simp⟩
  | block _ ih => exact fun hc hf hepi hcount => ih hc.enter hf hepi hcount
  | nil => simp
  | cons hs hn ih ih' =>
    intro hc hf hepi hcount
    obtain ⟨hfs, hfn⟩ := calleesNamed_append.mp hf
    have hle := hn.labels.1
    rw [List.forall_mem_append]
    refine ⟨ih hc hfs hepi (by omega), ih' (hs.overGlobals hc) hfn ?_ hcount⟩
    rw [hs.extends.epilogueLabel]
    exact hepi

theorem genFuncDecl_spoken {decl : FuncDecl} {c : AsmCtx} {r : Emitted AsmCtx Item Unit}
    (h : genFuncDecl decl c = .ok r) (hc : c.GlobalsAre gs) (hname : isName decl.ident = true)
    (hcallees : CalleesNamed decl.callees) (hcount : r.ctx.labelCount ≤ 2 ^ 32) :
    ∀ item ∈ r.items, item.line.Spoken := by
  obtain ⟨_, c', body, hbody, hr⟩ := genFuncDecl_eq_ok h
  have hin := bodyCtx_inBody decl hc
  have hctx : r.ctx.labelCount = c'.labelCount := by rw [hr, AsmCtx.afterFunc]
  have hle : c.labelCount + 1 ≤ c'.labelCount := by
    have hle := hbody.labels.1
    rwa [AsmCtx.bodyCtx, declareParams_labelCount] at hle
  have hlabel : c.labelCount < 2 ^ 32 := by omega
  rw [hr]
  simp only [List.forall_mem_append]
  refine ⟨⟨⟨?_, ?_⟩, ?_⟩, ?_⟩
  · unfold prologueItems
    split <;> simp [Line.Spoken, Operand.Named, hname]
  · intro item hitem
    obtain ⟨id, off, hline⟩ := paramItems_line decl.params argRegs _ item hitem
    rw [hline]
    exact ⟨trivial, trivial⟩
  · refine hbody.spoken hgs hin.names hcallees ?_ (by omega)
    rw [hin.label]
    intro n hn
    rwa [← Option.some.inj hn]
  · simp only [epilogueItems, List.forall_mem_cons]
    exact ⟨hlabel, ⟨trivial, trivial⟩, trivial, trivial, by simp⟩

theorem genFuncs_spoken : ∀ (p : Program) {c : AsmCtx} {r : Emitted AsmCtx Item Unit},
    genFuncs p c = .ok r → c.GlobalsAre gs →
      (∀ decl ∈ funcsOf p, isName decl.ident = true ∧ CalleesNamed decl.callees) →
        r.ctx.labelCount ≤ 2 ^ 32 → ∀ item ∈ r.items, item.line.Spoken := by
  intro p
  induction p with
  | nil =>
    intro c r h _ _ _
    obtain rfl := Except.ok.inj h
    exact fun item hitem => absurd hitem List.not_mem_nil
  | cons node p ih =>
    intro c r h hc hfuncs hcount
    cases node with
    | varDecl _ => exact ih h hc hfuncs hcount
    | comment _ => exact ih h hc hfuncs hcount
    | funcDecl decl =>
      rw [genFuncs, bind_eq_ok] at h
      obtain ⟨r₁, r₂, h₁, h₂, rfl⟩ := h
      obtain ⟨⟨hname, hcallees⟩, hrest⟩ := List.forall_mem_cons.mp hfuncs
      obtain ⟨_, _, _, hle, _⟩ := genFuncs_lines p h₂
      obtain ⟨_, c', body, _, hr₁⟩ := genFuncDecl_eq_ok h₁
      have hc' : r₁.ctx.GlobalsAre gs := hc.congr (by rw [hr₁, AsmCtx.afterFunc])
      rw [List.forall_mem_append]
      exact ⟨genFuncDecl_spoken hgs h₁ hc hname hcallees (hle.trans hcount), ih h₂ hc' hrest hcount⟩

end code

/-! ## Programs -/

theorem dataItems_spoken {p : Program} (h : ∀ decl ∈ globalsOf p, isName decl.ident = true) :
    ∀ item ∈ dataItems p, item.line.Spoken := by
  intro item hitem
  rcases dataItems_lines p item.line (List.mem_map_of_mem hitem) with
    hline | ⟨decl, hdecl, hline | ⟨d, val, hline⟩⟩ <;> rw [hline]
  · trivial
  · exact h decl hdecl
  · trivial

/-- **Every line of a program can be read back**, if its labels do not go over `2 ^ 32`. -/
theorem genProgram_spoken {p : Program} {r : Emitted AsmCtx Item Unit}
    (h : genProgram p asmInit = .ok r) (hnamed : p.Named)
    (hcallees : ∀ decl ∈ funcsOf p, CalleesNamed decl.callees)
    (hcount : r.ctx.labelCount ≤ 2 ^ 32) : ∀ item ∈ r.items, item.line.Spoken := by
  obtain ⟨r₀, hfuncs, hitems, hlabels⟩ := genProgram_parts h
  have hglobals : ∀ decl ∈ globalsOf p, isName decl.ident = true :=
    fun decl hdecl => hnamed.1 decl (mem_globalsOf.mp hdecl)
  have hgs : ∀ x ∈ (globalsOf p).map VarDecl.ident, isName x = true := by
    intro x hx
    obtain ⟨decl, hdecl, rfl⟩ := List.mem_map.mp hx
    exact hglobals decl hdecl
  rw [hitems]
  simp only [List.forall_mem_append, List.forall_mem_cons]
  refine ⟨dataItems_spoken hglobals, trivial, ?_⟩
  exact genFuncs_spoken hgs p hfuncs (textCtx_globalsAre p)
    (fun decl hdecl => ⟨hnamed.2 decl (mem_funcsOf.mp hdecl), hcallees decl hdecl⟩) (by omega)

theorem source_readable {bytes : CString} {fuel : Nat} {tokens : List Token} {p : Program}
    {r : Emitted AsmCtx Item Unit} (hsize : bytes.length < 2 ^ 31) (h255 : (255 : UInt8) ∉ bytes)
    (htokens : tokenize fuel (.fopen bytes) bytes.length = .ok tokens)
    (hparse : parseProgram tokens = .ok p) (hgen : genProgram p asmInit = .ok r) :
    readAssembly (assembly r.items) = some (codeOf r.items) := by
  have hn := tokenize_namesOnly h255 htokens
  have hderives := parseProgram_derives (tokenize_eofLast htokens) hparse
  have hcount := source_labelCount h255 htokens hparse hgen
  exact readAssembly_assembly
    (genProgram_spoken hgen (hderives.named hn) (hderives.calleesNamed hn) (by omega))

/-- **The assembly of a source is read back** to the lines that the generator meant: whatever file
goes through the tokenizer, the parser and the generator, an assembler finds in its text. -/
theorem source_assembly (bytes : CString) (hsize : bytes.length < 2 ^ 31) (fuel : Nat)
    (tokens : List Token) (htokens : tokenizeSource fuel bytes = .ok tokens) (p : Program)
    (hparse : parseProgram tokens = .ok p) (r : Emitted AsmCtx Item Unit)
    (hgen : genProgram p asmInit = .ok r) :
    readAssembly (assembly r.items) = some (codeOf r.items) := by
  rw [tokenizeSource_eq] at htokens
  exact source_readable (Nat.lt_of_le_of_lt (sourceText_length_le bytes) hsize)
    (not_mem_sourceText bytes) htokens hparse hgen

/-- The text of `fibProgram`. -/
def fibSource : CString :=
  ascii "let QWORD calls = 0;\nfn QWORD fib(QWORD n) \x7b\n  calls = calls + 1;\n" ++
    ascii "  if (n <= 1) \x7b return n; \x7d\n  return call fib(n - 1) + call fib(n - 2);\n\x7d\n"

theorem source_assembly_fib : ∃ tokens p r,
    tokenizeSource 200 fibSource = .ok tokens ∧ parseProgram tokens = .ok p ∧
      genProgram p asmInit = .ok r ∧ readAssembly (assembly r.items) = some (codeOf r.items) := by
  have hcompiles : (match tokenizeSource 200 fibSource with
    | .ok tokens => match parseProgram tokens with
      | .ok p => (genProgram p asmInit).isOk
      | .error _ => false
    | .error _ => false) = true := by decide +kernel
  cases htokens : tokenizeSource 200 fibSource with
  | error e => simp [htokens] at hcompiles
  | ok tokens =>
    cases hparse : parseProgram tokens with
    | error e => simp [htokens, hparse] at hcompiles
    | ok p =>
      cases hgen : genProgram p asmInit with
      | error e => simp [htokens, hparse, hgen, Except.isOk, Except.toBool] at hcompiles
      | ok r =>
        exact ⟨tokens, p, r, rfl, hparse, hgen,
          source_assembly fibSource (by decide +kernel) 200 tokens htokens p hparse r hgen⟩

end ACompiler
