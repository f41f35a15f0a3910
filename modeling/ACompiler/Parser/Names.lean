import ACompiler.Parser.Complete
import ACompiler.Tokenizer.Names

/-!
# The names of a program

What a program declares is called by the text of one of its identifiers.
-/

namespace ACompiler

/-- The globals and the functions of a program have names. -/
def Program.Named (p : Program) : Prop :=
  (∀ decl, TopDecl.varDecl decl ∈ p → isName decl.ident = true) ∧
    ∀ decl, TopDecl.funcDecl decl ∈ p → isName decl.ident = true

theorem Consumes.suffix {P : TokenType → Prop} {ts rest : List Token} (h : Consumes P ts rest) :
    rest <:+ ts := by
  obtain ⟨pre, rfl, _⟩ := h
  exact List.suffix_append pre rest

/-- The identifier behind a type is one of the tokens. -/
theorem DerivesType.next_mem {ts rest : List Token} {t : Token} {v : VarT}
    (h : DerivesType ts (t :: rest) v) : t ∈ ts :=
  h.consumes.suffix.subset List.mem_cons_self

section named
variable {ts rest : List Token} (hn : NamesOnly ts)
include hn

theorem DerivesVarDecl.isName_ident {d : VarDecl} (h : DerivesVarDecl ts rest d) :
    isName d.ident = true := by
  cases h with
  | uninit _ hv hi _ => exact hn _ (List.mem_cons_of_mem _ hv.next_mem) hi
  | init _ hv hi _ _ _ => exact hn _ (List.mem_cons_of_mem _ hv.next_mem) hi

theorem DerivesFunc.isName_ident {f : FuncDecl} (h : DerivesFunc ts rest f) :
    isName f.ident = true := by
  cases h with
  | func _ hv hi _ _ _ _ _ => exact hn _ (List.mem_cons_of_mem _ hv.next_mem) hi

end named

theorem NamesOnly.of_suffix {ts rest : List Token} (hn : NamesOnly ts) (h : rest <:+ ts) :
    NamesOnly rest := fun t ht => hn t (h.subset ht)

theorem DerivesProgram.named {ts : List Token} {p : Program} (h : DerivesProgram ts p) :
    NamesOnly ts → Program.Named p := by
  induction h with
  | eof _ => exact fun _ => ⟨by simp, by simp⟩
  | comment _ _ ih =>
    intro hn
    obtain ⟨hvars, hfuncs⟩ := ih (hn.of_suffix (List.suffix_cons _ _))
    exact ⟨by simpa using hvars, by simpa using hfuncs⟩
  | varDecl hd _ ih =>
    intro hn
    obtain ⟨hvars, hfuncs⟩ := ih (hn.of_suffix hd.consumes.suffix)
    have hident := hd.isName_ident hn
    exact ⟨by simpa [hident] using hvars, by simpa using hfuncs⟩
  | func hf _ ih =>
    intro hn
    obtain ⟨hvars, hfuncs⟩ := ih (hn.of_suffix hf.consumes.suffix)
    have hident := hf.isName_ident hn
    exact ⟨by simpa using hvars, by simpa [hident] using hfuncs⟩

/-- **A parsed program has names**, if its tokens have. -/
theorem parseProgram_named {ts : List Token} {p : Program} (heof : EofLast ts) (hn : NamesOnly ts)
    (h : parseProgram ts = .ok p) : p.Named :=
  (parseProgram_derives heof h).named hn

/-- The tokens of a source end with the end of the file, and it stands nowhere before. -/
theorem tokenize_eofLast {fuel count : Nat} {file : File} {tokens : List Token}
    (h : tokenize fuel file count = .ok tokens) : EofLast tokens := by
  obtain ⟨turns, _, hturns, rfl⟩ := tokenizeLoop_eq_ok h
  exact ⟨_, eofToken, rfl, rfl, hturns.ne_eof⟩

end ACompiler
