import ACompiler.Tokenizer.Coverage

/-!
# Names

Every identifier that the tokenizer finds is a name: a letter, then letters and digits.
-/

namespace ACompiler

open Tokenizer

/-- The identifiers among the tokens are names. -/
def NamesOnly (tokens : List Token) : Prop :=
  ∀ token ∈ tokens, token.type = .tIdentifier → isName token.lexeme = true

/-- A scan finds no identifier, or one that is a name. -/
def FindsName (r : Except ScanError (Option Token × Tokenizer)) : Prop :=
  ∀ token t, r = .ok (some token, t) → token.type = .tIdentifier → isName token.lexeme = true

theorem createToken_type {type : TokenType} {t t' : Tokenizer} {token : Token}
    (h : createToken type t = .ok (token, t')) : token.type = type := by
  unfold createToken at h
  cases hword : t.getCurWord with
  | error e => simp [hword, bind, Except.bind] at h
  | ok p =>
    simp only [hword, bind, Except.bind] at h
    rw [← (Prod.mk.inj (Except.ok.inj h)).1]

variable {bytes : CString} {i line fuel : Nat}

theorem scanToken_findsName (h255 : (255 : UInt8) ∉ bytes) (hi : i < bytes.length) :
    FindsName (scanToken fuel (window bytes i i line)) := by
  intro token t h htype
  cases scanToken_finds (List.drop_eq_getElem_cons hi) h255 _ t h with
  | word _ _ _ _ _ hname => exact hname htype
  | string _ _ => exact absurd htype (by simp)
  | openString _ => exact absurd htype (by simp)
  | comment _ _ => exact absurd htype (by simp)

theorem Turns.namesOnly (h255 : (255 : UInt8) ∉ bytes) {t t' : Tokenizer} {turns : List Turn}
    (h : Turns fuel t turns t') : ∀ start line, t = window bytes start t.curIdx line →
      NamesOnly (turns.filterMap Turn.token) := by
  induction h with
  | done _ => simp [NamesOnly]
  | @turn t t' t'' temp turns h hscan _ ih =>
    intro start line ht
    have hi := lt_of_window ht h
    rw [turn_of_window ht] at hscan
    obtain ⟨start', line', ht'⟩ := (scanToken_moves h255 hi temp t' hscan).window
    intro token hmem htype
    rw [List.filterMap_cons] at hmem
    cases temp with
    | none => exact ih start' line' ht' token hmem htype
    | some found =>
      rcases List.mem_cons.mp hmem with rfl | hmem
      · exact scanToken_findsName h255 hi token t' hscan htype
      · exact ih start' line' ht' token hmem htype

/-- **The identifiers of a source are names.** -/
theorem tokenize_namesOnly (h255 : (255 : UInt8) ∉ bytes) {tokens : List Token}
    (h : tokenize fuel (.fopen bytes) bytes.length = .ok tokens) : NamesOnly tokens := by
  rw [tokenize, tokenizerInit_eq] at h
  obtain ⟨turns, t, hturns, rfl⟩ := tokenizeLoop_eq_ok h
  intro token hmem htype
  rcases List.mem_append.mp hmem with hmem | hmem
  · exact hturns.namesOnly h255 0 1 rfl token hmem htype
  · rw [List.mem_singleton.mp hmem] at htype
    exact absurd htype (by decide)

/-! ## The end of the file -/

/-- The call makes no token for the end of the file. -/
def NeverEof (r : Except ScanError (Token × Tokenizer)) : Prop :=
  ∀ token t, r = .ok (token, t) → token.type ≠ .tEof

theorem neverEof_createToken {type : TokenType} (h : type ≠ .tEof) (t : Tokenizer) :
    NeverEof (createToken type t) := by
  intro token t' heq
  rw [createToken_type heq]
  exact h

theorem NeverEof.bind {α : Type} {x : Except ScanError α}
    {f : α → Except ScanError (Token × Tokenizer)} (h : ∀ a, NeverEof (f a)) :
    NeverEof (x >>= f) := by
  intro token t heq
  cases x with
  | error e => cases heq
  | ok a => exact h a token t heq

theorem keyword_ne_eof {w : CString} {type : TokenType} (h : tokenHash.getHt w = some type) :
    type ≠ .tEof := by
  rw [tokenHash_getHt] at h
  obtain ⟨before, behind, heq, _⟩ := List.lookup_eq_some_iff.mp h
  rintro rfl
  have hmem : TokenType.tEof ∈ keywords.map Prod.snd := by
    rw [heq, List.map_append, List.map_cons]
    exact List.mem_append_right _ List.mem_cons_self
  exact absurd hmem (by decide)

theorem neverEof_createIdentifer (fuel : Nat) (t : Tokenizer) :
    NeverEof (createIdentifer fuel t) := by
  refine NeverEof.bind fun t => NeverEof.bind fun p => ?_
  obtain ⟨word, t'⟩ := p
  cases hkeyword : tokenHash.getHt word with
  | some type =>
    simp only [hkeyword]
    exact neverEof_createToken (keyword_ne_eof hkeyword) t'
  | none =>
    simp only [hkeyword]
    exact neverEof_createToken (by decide) t'

theorem neverEof_createString (fuel : Nat) (t : Tokenizer) : NeverEof (createString fuel t) := by
  refine NeverEof.bind fun t => ?_
  split
  · exact neverEof_createToken (by decide) _
  · intro token t' heq
    cases hword : createToken .tStringLit { t with startIdx := t.startIdx + 1 } with
    | error e => simp [hword, bind, Except.bind] at heq
    | ok p =>
      simp only [hword, bind, Except.bind, pure, Except.pure, Except.ok.injEq, Prod.mk.injEq] at heq
      rw [← heq.1]
      exact neverEof_createToken (by decide) _ p.1 p.2 hword

theorem neverEof_createNumber (fuel : Nat) (t : Tokenizer) : NeverEof (createNumber fuel t) := by
  refine NeverEof.bind fun t => ?_
  split
  · simp only
    split
    · exact NeverEof.bind fun t => neverEof_createToken (by decide) _
    · exact neverEof_createToken (by decide) _
  · exact neverEof_createToken (by decide) _

theorem neverEof_createCommentToken (t : Tokenizer) : NeverEof (createCommentToken t) := by
  refine NeverEof.bind fun p token t' heq => ?_
  obtain ⟨rfl, -⟩ := Prod.mk.inj (Except.ok.inj heq)
  simp

theorem neverEof_createPair (c : UInt8) {pair single : TokenType} (hpair : pair ≠ .tEof)
    (hsingle : single ≠ .tEof) (t : Tokenizer) : NeverEof (createPair c pair single t) := by
  unfold createPair
  generalize t.matchChar c = p
  obtain ⟨matched, t'⟩ := p
  cases matched with
  | true => exact neverEof_createToken hpair t'
  | false => exact neverEof_createToken hsingle t'

/-- **No call of `scanToken` makes the token for the end of the file.** -/
theorem scanToken_ne_eof {fuel : Nat} {t t' : Tokenizer} {token : Token}
    (h : scanToken fuel t = .ok (some token, t')) : token.type ≠ .tEof := by
  have hscanned : ∀ {r : Except ScanError (Token × Tokenizer)}, NeverEof r →
      scanned r = .ok (some token, t') → token.type ≠ .tEof := by
    intro r hr heq
    cases r with
    | error e => exact absurd heq (by simp [scanned, Except.map])
    | ok p =>
      obtain ⟨hp, rfl⟩ := Prod.mk.inj (Except.ok.inj heq)
      rw [← Option.some.inj hp]
      exact hr p.1 p.2 rfl
  have hone : ∀ {type : TokenType} {t : Tokenizer}, type ≠ .tEof →
      scanned (createToken type t) = .ok (some token, t') → token.type ≠ .tEof :=
    fun htype => hscanned (neverEof_createToken htype _)
  have htwo : ∀ {c : UInt8} {pair single : TokenType} {t : Tokenizer}, pair ≠ .tEof →
      single ≠ .tEof → scanned (createPair c pair single t) = .ok (some token, t') →
        token.type ≠ .tEof :=
    fun hpair hsingle => hscanned (neverEof_createPair _ hpair hsingle _)
  unfold scanToken at h
  simp only at h
  split at h
  case h_12 =>
    split at h
    · exact hscanned (neverEof_createCommentToken _) h
    · exact hone (by decide) h
  case h_20 => exact hscanned (neverEof_createString _ _) h
  case h_21 | h_22 | h_23 | h_24 => exact absurd h (by simp)
  case h_25 =>
    split at h
    · exact hscanned (neverEof_createIdentifer _ _) h
    · split at h
      · exact hscanned (neverEof_createNumber _ _) h
      · split at h <;> exact absurd h (by simp)
  case h_9 | h_10 | h_15 | h_16 | h_17 | h_18 => exact htwo (by decide) (by decide) h
  all_goals exact hone (by decide) h

theorem Turns.ne_eof {fuel : Nat} {t t' : Tokenizer} {turns : List Turn}
    (h : Turns fuel t turns t') : ∀ token ∈ turns.filterMap Turn.token, token.type ≠ .tEof := by
  induction h with
  | done _ => simp
  | @turn t t' t'' temp turns _ hscan _ ih =>
    rw [List.filterMap_cons]
    cases temp with
    | none => exact ih
    | some found => exact List.forall_mem_cons.mpr ⟨scanToken_ne_eof hscan, ih⟩

end ACompiler
