import ACompiler.Assembler.Shape
import ACompiler.Parser.Print
import ACompiler.Tokenizer.Correct
import ACompiler.Tokenizer.Names

/-!
# The values of numbers

A number lexeme is made of digits and `_`. `strtoll` and `strtoul` know no `_`, so they end at the
first one, and they fold what does not fit to the end of their range without a word. What is loaded,
and the length of an array, is what is written exactly when the value fits and the digits behind the
first `_` do not count (`number_denotes_iff`).
-/

namespace ACompiler

open Tokenizer

/-- The decimal value of a number, with the separators removed. -/
def numberVal (w : CString) : Nat := digitsVal (w.filter (· ≠ 95))

/-- No digit stands behind the first separator, or all digits are zero. -/
def SeparatorsHarmless (w : CString) : Prop :=
  (∀ c ∈ w.dropWhile isdigit, isdigit c = false) ∨ ∀ c ∈ w, isdigit c = true → c = 48

instance (w : CString) : Decidable (SeparatorsHarmless w) := inferInstanceAs (Decidable (_ ∨ _))

/-- `createNumber` makes a token of the number. -/
def ScannedNumber (w : CString) (token : Token) : Prop :=
  ∃ fuel t t', createNumber fuel t = .ok (token, t') ∧ token.lexeme = w

/-- The number ends up as the constant `n` in the code: it is scanned, the parser makes a literal of
the token, and `gen_literal` loads the literal. -/
def LoadsAs (w : CString) (n : Int) : Prop :=
  ∃ token lit, ScannedNumber w token ∧
    (∀ rest, parseLiteralExpr (token :: rest) = .ok (.literal lit, rest)) ∧
    ∀ c, genLiteral lit c = .ok ⟨(), c, [c.item (.mov (.imm n) (.reg .rax))], []⟩

/-- The number ends up as the length `k` of an array, behind any base type. -/
def LengthAs (w : CString) (k : Nat) : Prop :=
  ∃ token, ScannedNumber w token ∧ ∀ (base rest : List Token) (l r : Token) (b : VarBase),
    l.type = .tLeftBracket → r.type = .tRightBracket →
      DerivesBase (base ++ l :: token :: r :: rest) (l :: token :: r :: rest) b →
        parseVarType (base ++ l :: token :: r :: rest) = .ok (⟨b, true, k⟩, rest)

/-! ## Values -/

theorem foldl_digits (w : CString) : ∀ n : Nat,
    w.foldl (fun n c => 10 * n + (c.toNat - 48)) n = n * 10 ^ w.length + digitsVal w := by
  induction w with
  | nil => intro n; simp [digitsVal]
  | cons c w ih =>
    intro n
    rw [digitsVal, List.foldl_cons, List.foldl_cons, ih, ih, List.length_cons, pow_succ]
    ring

theorem digitsVal_append (a b : CString) :
    digitsVal (a ++ b) = digitsVal a * 10 ^ b.length + digitsVal b := by
  rw [digitsVal, List.foldl_append, foldl_digits]
  rfl

theorem digitsVal_eq_zero_iff {w : CString} (hw : ∀ c ∈ w, isdigit c = true) :
    digitsVal w = 0 ↔ ∀ c ∈ w, c = 48 := by
  induction w with
  | nil => simp [digitsVal]
  | cons c w ih =>
    rw [List.forall_mem_cons] at hw
    have hcons := digitsVal_append [c] w
    have hval : digitsVal [c] = c.toNat - 48 := by simp [digitsVal]
    have hpow : 0 < 10 ^ w.length := Nat.pow_pos (by decide)
    have hc : c.toNat - 48 = 0 ↔ c = 48 := by
      have hdigit := hw.1
      simp only [isdigit, Bool.and_eq_true, decide_eq_true_eq, UInt8.le_iff_toNat_le,
        UInt8.reduceToNat] at hdigit
      rw [← UInt8.toNat_inj]
      simp only [UInt8.reduceToNat]
      omega
    rw [← List.singleton_append, hcons, hval, Nat.add_eq_zero_iff, Nat.mul_eq_zero, ih hw.2, hc,
      List.singleton_append, List.forall_mem_cons]
    constructor
    · rintro ⟨h | h, hrest⟩
      · exact ⟨h, hrest⟩
      · omega
    · rintro ⟨h, hrest⟩
      exact ⟨.inl h, hrest⟩

section number
variable {w : CString} (hw : isNumber w = true)
include hw

theorem isdigit_or_separator : ∀ c ∈ w, isdigit c = true ∨ c = 95 := by
  cases w with
  | nil => simp
  | cons c w =>
    simp only [isNumber, Bool.and_eq_true, List.all_eq_true, Bool.or_eq_true,
      decide_eq_true_eq] at hw
    exact List.forall_mem_cons.mpr ⟨.inl hw.1, hw.2⟩

/-- The digits before the first separator, and those behind it. -/
theorem numberVal_eq :
    numberVal w = digitsVal (w.takeWhile isdigit) *
        10 ^ ((w.dropWhile isdigit).filter isdigit).length +
      digitsVal ((w.dropWhile isdigit).filter isdigit) := by
  have hfilter : w.filter (· ≠ 95) = w.filter isdigit := by
    refine List.filter_congr fun c hc => ?_
    rcases isdigit_or_separator hw c hc with hd | rfl
    · have hne : c ≠ 95 := by
        rintro rfl
        exact absurd hd (by decide)
      simp [hd, hne]
    · decide
  have hhead : (w.takeWhile isdigit).filter isdigit = w.takeWhile isdigit :=
    List.filter_eq_self.mpr fun c hc => List.mem_takeWhile_imp hc
  rw [numberVal, hfilter, ← digitsVal_append]
  conv_lhs => rw [← List.takeWhile_append_dropWhile (p := isdigit) (l := w)]
  rw [List.filter_append, hhead]

theorem takeWhile_le_numberVal : digitsVal (w.takeWhile isdigit) ≤ numberVal w := by
  have hpow : 0 < 10 ^ ((w.dropWhile isdigit).filter isdigit).length := Nat.pow_pos (by decide)
  rw [numberVal_eq hw]
  exact Nat.le_add_right_of_le (Nat.le_mul_of_pos_right _ hpow)

/-- **When the digits before the first separator have the value of the whole number.** -/
theorem takeWhile_eq_numberVal_iff :
    digitsVal (w.takeWhile isdigit) = numberVal w ↔ SeparatorsHarmless w := by
  have hdigits : ∀ c ∈ (w.dropWhile isdigit).filter isdigit, isdigit c = true :=
    fun c hc => (List.mem_filter.mp hc).2
  have hfirst : ∀ c ∈ w.takeWhile isdigit, isdigit c = true := fun c hc => List.mem_takeWhile_imp hc
  rw [numberVal_eq hw]
  by_cases hnone : (w.dropWhile isdigit).filter isdigit = []
  · have hharmless : SeparatorsHarmless w := by
      refine .inl fun c hc => ?_
      rw [← Bool.not_eq_true]
      exact List.filter_eq_nil_iff.mp hnone c hc
    rw [hnone]
    simp [digitsVal, hharmless]
  · have hlen := List.length_pos_iff.mpr hnone
    have hnot : ¬ ∀ c ∈ w.dropWhile isdigit, isdigit c = false := fun h =>
      hnone (List.filter_eq_nil_iff.mpr fun c hc => by simp [h c hc])
    -- with digits behind the separator, only zero is the same
    have hzero : digitsVal (w.takeWhile isdigit) = digitsVal (w.takeWhile isdigit) *
          10 ^ ((w.dropWhile isdigit).filter isdigit).length +
        digitsVal ((w.dropWhile isdigit).filter isdigit) ↔
        digitsVal (w.takeWhile isdigit) = 0 ∧
          digitsVal ((w.dropWhile isdigit).filter isdigit) = 0 := by
      have hpow : 10 ≤ 10 ^ ((w.dropWhile isdigit).filter isdigit).length :=
        Nat.le_self_pow (by omega) 10
      have hmul := Nat.mul_le_mul_left (digitsVal (w.takeWhile isdigit)) hpow
      constructor
      · intro h
        omega
      · rintro ⟨h, h'⟩
        rw [h, h', Nat.zero_mul]
    rw [hzero, digitsVal_eq_zero_iff hfirst, digitsVal_eq_zero_iff hdigits]
    constructor
    · rintro ⟨h, h'⟩
      refine .inr fun c hc hd => ?_
      rw [← List.takeWhile_append_dropWhile (p := isdigit) (l := w), List.mem_append] at hc
      rcases hc with hc | hc
      · exact h c hc
      · exact h' c (List.mem_filter.mpr ⟨hc, hd⟩)
    · rintro (h | h)
      · exact absurd h hnot
      · refine ⟨fun c hc => ?_, fun c hc => ?_⟩
        · exact h c ((List.takeWhile_prefix isdigit).subset hc) (hfirst c hc)
        · obtain ⟨hc, hd⟩ := List.mem_filter.mp hc
          exact h c ((List.dropWhile_suffix isdigit).subset hc) hd

theorem scanNumber_of_isNumber : scanNumber w = (false, digitsVal (w.takeWhile isdigit)) := by
  cases w with
  | nil => exact absurd hw (by simp [isNumber])
  | cons c w =>
    simp only [isNumber, Bool.and_eq_true] at hw
    exact scanNumber_of_digit hw.1 w

/-- Below 2^63 the separators alone decide what `strtoll` reads. -/
theorem strtoll_eq_iff (hlt : numberVal w < 2 ^ 63) :
    strtoll w = numberVal w ↔ SeparatorsHarmless w := by
  have hle := takeWhile_le_numberVal hw
  rw [← takeWhile_eq_numberVal_iff hw, strtoll, scanNumber_of_isNumber hw]
  simp only
  omega

/-- Below 2^32 the separators alone decide what is left of what `strtoul` reads. -/
theorem strtoul_eq_iff (hlt : numberVal w < 2 ^ 32) :
    strtoul w % 2 ^ 32 = numberVal w ↔ SeparatorsHarmless w := by
  have hle := takeWhile_le_numberVal hw
  rw [← takeWhile_eq_numberVal_iff hw, strtoul, scanNumber_of_isNumber hw]
  simp only
  omega

/-! ## From the source to the code -/

/-- A number that fits into a lexeme is scanned. -/
theorem scannedNumber (hlen : w.length < maxLexeme) :
    ScannedNumber w ⟨.tNumberLit, w, w.length, 1, w.length⟩ := by
  have hmem {b : UInt8} (hd : isdigit b = false) (hs : b ≠ 95) : b ∉ w := fun h => by
    rcases isdigit_or_separator hw b h with h | h
    · rw [hd] at h
      exact absurd h (by simp)
    · exact hs h
  have h0 : (0 : UInt8) ∉ w := hmem (by decide) (by decide)
  have h255 : (255 : UInt8) ∉ w := hmem (by decide) (by decide)
  have hpos : 1 ≤ w.length := by
    cases w with
    | nil => exact absurd hw (by simp [isNumber])
    | cons c w => simp
  have hrun : 1 + run inNumber w 1 = w.length := by
    have hall : (w.drop 1).takeWhile inNumber = w.drop 1 := by
      refine List.takeWhile_eq_self_iff.mpr fun c hc => ?_
      rcases isdigit_or_separator hw c (List.mem_of_mem_drop hc) with h | rfl
      · simp [inNumber, h]
      · decide
    rw [run, hall, List.length_drop]
    omega
  have hslice : slice w 0 w.length = w := by simp [slice]
  have hword : cString w = w := cString_eq h0
  have hscan := @createNumber_window w 0 1 1 w.length h255 (by omega) hpos
  simp only [hrun] at hscan
  have hend : ¬ (w.getD w.length 0 = 46 ∧ isdigit (w.getD (w.length + 1) 0) = true) := by
    rw [List.getD_eq_default _ _ (Nat.le_refl _)]
    exact fun h => absurd h.1 (by decide)
  rw [if_pos (by omega), if_neg hend, createToken_window _ (Nat.zero_le _) (Nat.le_refl _),
    if_neg (by omega), hslice, hword, Nat.sub_zero] at hscan
  exact ⟨w.length, _, _, hscan, rfl⟩

omit hw in
theorem createNumber_type {fuel : Nat} {t t' : Tokenizer} {token : Token}
    (h : createNumber fuel t = .ok (token, t')) : token.type = .tNumberLit := by
  unfold createNumber at h
  cases hloop : advanceWhile inNumber fuel t with
  | error e => simp [hloop, bind, Except.bind] at h
  | ok t₁ =>
    simp only [hloop, bind, Except.bind] at h
    split at h
    · split at h
      · cases hdigits : advanceDigits t₁.peekNext.2.advance.2.peek fuel t₁.peekNext.2.advance.2 with
        | error e => simp [hdigits] at h
        | ok t₂ =>
          simp only [hdigits] at h
          exact createToken_type h
      · exact createToken_type h
    · exact createToken_type h

theorem loadsAs_iff (hlen : w.length < maxLexeme) (n : Int) : LoadsAs w n ↔ n = strtoll w := by
  have hparse {token : Token} (htype : token.type = .tNumberLit) (hword : token.lexeme = w)
      (rest : List Token) :
      parseLiteralExpr (token :: rest) = .ok (.literal ⟨strtoll w, none⟩, rest) := by
    simp [parseLiteralExpr, htype, mkLiteralExpr, hword]
  constructor
  · rintro ⟨token, lit, ⟨fuel, t, t', hscan, hword⟩, hlit, hload⟩
    have hlit := (hparse (createNumber_type hscan) hword []).symm.trans (hlit [])
    obtain rfl := Expr.literal.inj (Prod.mk.inj (Except.ok.inj hlit)).1
    have hload := (hload asmInit).symm.trans (emit_run _ _)
    simp [AsmCtx.item] at hload
    exact hload
  · rintro rfl
    exact ⟨_, ⟨strtoll w, none⟩, scannedNumber hw hlen, hparse rfl rfl, fun c => emit_run _ c⟩

theorem lengthAs_iff (hlen : w.length < maxLexeme) (k : Nat) :
    LengthAs w k ↔ k = strtoul w % 2 ^ 32 := by
  have hparse {token l r : Token} {base rest : List Token} {b : VarBase}
      (htype : token.type = .tNumberLit) (hword : token.lexeme = w) (hl : l.type = .tLeftBracket)
      (hr : r.type = .tRightBracket)
      (hb : DerivesBase (base ++ l :: token :: r :: rest) (l :: token :: r :: rest) b) :
      parseVarType (base ++ l :: token :: r :: rest) =
        .ok (⟨b, true, strtoul w % 2 ^ 32⟩, rest) := by
    refine parseVarType_base hb (by simp) ?_ (hword ▸ parseArrayLen_array hl htype hr)
    intro t ht _ _
    obtain rfl := Option.some.inj ht
    simp [hl, litOf]
  constructor
  · rintro ⟨token, ⟨fuel, t, t', hscan, hword⟩, hlength⟩
    have hbracket := hlength [] [] ⟨.tLeftBracket, [], 0, 0, 0⟩ ⟨.tRightBracket, [], 0, 0, 0⟩ _
      rfl rfl .empty
    have hrun := @hparse token ⟨.tLeftBracket, [], 0, 0, 0⟩ ⟨.tRightBracket, [], 0, 0, 0⟩ [] [] _
      (createNumber_type hscan) hword rfl rfl .empty
    have heq := Except.ok.inj (hbracket.symm.trans hrun)
    exact (VarT.mk.inj (Prod.mk.inj heq).1).2.2
  · rintro rfl
    exact ⟨_, scannedNumber hw hlen, fun base rest l r b hl hr hb => hparse rfl rfl hl hr hb⟩

/-- **What a number denotes**: nothing is rejected, and a number is loaded, or taken as a length, as
it is written exactly when it fits and its separators are harmless. -/
theorem number_denotes_iff (hlen : w.length < maxLexeme) :
    ((∀ n, LoadsAs w n ↔ n = numberVal w ∧ numberVal w < 2 ^ 63) ↔
      numberVal w < 2 ^ 63 ∧ SeparatorsHarmless w) ∧
    ((∀ k, LengthAs w k ↔ k = numberVal w ∧ numberVal w < 2 ^ 32) ↔
      numberVal w < 2 ^ 32 ∧ SeparatorsHarmless w) := by
  constructor
  · constructor
    · intro h
      obtain ⟨hval, hlt⟩ := (h (strtoll w)).mp ((loadsAs_iff hw hlen _).mpr rfl)
      exact ⟨hlt, (strtoll_eq_iff hw hlt).mp hval⟩
    · rintro ⟨hlt, hharmless⟩ n
      rw [loadsAs_iff hw hlen, (strtoll_eq_iff hw hlt).mpr hharmless]
      exact ⟨fun h => ⟨h, hlt⟩, fun h => h.1⟩
  · constructor
    · intro h
      obtain ⟨hval, hlt⟩ := (h (strtoul w % 2 ^ 32)).mp ((lengthAs_iff hw hlen _).mpr rfl)
      exact ⟨hlt, (strtoul_eq_iff hw hlt).mp hval⟩
    · rintro ⟨hlt, hharmless⟩ k
      rw [lengthAs_iff hw hlen, (strtoul_eq_iff hw hlt).mpr hharmless]
      exact ⟨fun h => ⟨h, hlt⟩, fun h => h.1⟩

end number

/-- `42` is loaded, and taken as a length, as it is written. -/
theorem number_denotes_iff_plain : LoadsAs (ascii "42") 42 ∧ LengthAs (ascii "42") 42 := by
  obtain ⟨hloads, hlength⟩ := @number_denotes_iff (ascii "42") (by decide) (by decide)
  have hval : numberVal (ascii "42") = 42 := by decide
  have hharmless : SeparatorsHarmless (ascii "42") := by decide +kernel
  rw [hval] at hloads hlength
  have hloads := hloads.mpr ⟨by norm_num, hharmless⟩
  have hlength := hlength.mpr ⟨by norm_num, hharmless⟩
  exact ⟨(hloads 42).mpr ⟨by norm_num, by norm_num⟩, (hlength 42).mpr ⟨by norm_num, by norm_num⟩⟩

/-- `1_000` is one; a number of 2^63 loses one, and a length of 2^32 all of it. -/
theorem number_denotes_separator :
    (numberVal (ascii "1_000") = 1000 ∧ LoadsAs (ascii "1_000") 1 ∧
      ¬ LoadsAs (ascii "1_000") 1000 ∧ LengthAs (ascii "1_000") 1) ∧
    (numberVal (ascii "9223372036854775808") = 2 ^ 63 ∧
      LoadsAs (ascii "9223372036854775808") (2 ^ 63 - 1)) ∧
    (numberVal (ascii "4294967296") = 2 ^ 32 ∧ LengthAs (ascii "4294967296") 0) := by
  refine ⟨⟨by decide, ?_, ?_, ?_⟩, ⟨by decide +kernel, ?_⟩, by decide +kernel, ?_⟩
  · exact (loadsAs_iff (by decide) (by decide) 1).mpr (by decide)
  · exact fun h => absurd ((loadsAs_iff (by decide) (by decide) 1000).mp h) (by decide)
  · exact (lengthAs_iff (by decide) (by decide) 1).mpr (by decide)
  · exact (loadsAs_iff (by decide) (by decide) _).mpr (by decide +kernel)
  · exact (lengthAs_iff (by decide) (by decide) 0).mpr (by decide +kernel)

end ACompiler
