import ACompiler.Tokenizer.Window

/-!
# The switch of the scanner

`scanToken` decides by its first byte. `FirstByte` sorts the bytes by what the switch does with
them, and there is one equation for each kind, on a window.
-/

namespace ACompiler

namespace Tokenizer

/-- The cases of the switch that are one character long. -/
def singles : List (UInt8 × TokenType) :=
  [(40, .tLeftParen), (41, .tRightParen), (123, .tLeftBrace), (125, .tRightBrace),
    (91, .tLeftBracket), (93, .tRightBracket), (44, .tComma), (46, .tDot), (42, .tStar),
    (58, .tColon), (38, .tAnd), (59, .tSemicolon)]

/-- The cases that look for a second character, with the tokens of both and of the first alone. -/
def pairs : List (UInt8 × UInt8 × TokenType × TokenType) :=
  [(45, 45, .tMinusMinus, .tMinus), (43, 43, .tPlusPlus, .tPlus), (33, 61, .tNotEqual, .tNot),
    (62, 61, .tGreaterEqual, .tGreater), (60, 61, .tLessEqual, .tLess), (61, 61, .tEqualEqual, .tEqual)]

/-- The bytes that are skipped. -/
def blanks : List UInt8 := [32, 13, 9, 10]

/-- No case of the switch. -/
def isOther (c : UInt8) : Bool :=
  !(singles.map Prod.fst).contains c && !(pairs.map Prod.fst).contains c && !blanks.contains c &&
    c ≠ 47 && c ≠ 34

/-- What the switch does with a byte. -/
inductive FirstByte (c : UInt8) : Prop
  | single {type : TokenType} (h : (c, type) ∈ singles)
  | pair {second : UInt8} {pair single : TokenType} (h : (c, second, pair, single) ∈ pairs)
  | slash (h : c = 47)
  | quote (h : c = 34)
  | blank (h : c ∈ blanks)
  | letter (ho : isOther c = true) (h : isalpha c = true)
  | digit (ho : isOther c = true) (h : isdigit c = true) (ha : isalpha c = false)
  | unknown (ho : isOther c = true) (h : isdigit c = false) (ha : isalpha c = false)

theorem firstByte (c : UInt8) : FirstByte c := by
  by_cases ho : isOther c = true
  · by_cases ha : isalpha c = true
    · exact .letter ho ha
    · by_cases hd : isdigit c = true
      · exact .digit ho hd (Bool.not_eq_true _ ▸ ha)
      · exact .unknown ho (Bool.not_eq_true _ ▸ hd) (Bool.not_eq_true _ ▸ ha)
  · by_cases hs : c ∈ singles.map Prod.fst
    · obtain ⟨⟨c', type⟩, h, hc⟩ := List.mem_map.mp hs
      exact .single (show (c, type) ∈ singles from hc ▸ h)
    · by_cases hp : c ∈ pairs.map Prod.fst
      · obtain ⟨⟨c', second, pair, single⟩, h, hc⟩ := List.mem_map.mp hp
        exact .pair (show (c, second, pair, single) ∈ pairs from hc ▸ h)
      · by_cases hb : c ∈ blanks
        · exact .blank hb
        · by_cases hslash : c = 47
          · exact .slash hslash
          · refine .quote ?_
            by_contra hquote
            exact ho (by simp [isOther, hs, hp, hb, hslash, hquote])

theorem ne_zero_of_pair {c second : UInt8} {pair single : TokenType}
    (h : (c, second, pair, single) ∈ pairs) : second ≠ 0 := by
  rintro rfl
  simp [pairs] at h

/-- The bytes and the types of the pairs. -/
theorem plain_of_pair {c second : UInt8} {pair single : TokenType}
    (h : (c, second, pair, single) ∈ pairs) :
    (c ≠ 0 ∧ c ≠ 10 ∧ c ≠ 34) ∧ c ≠ 47 ∧ (second ≠ 0 ∧ second ≠ 10 ∧ second ≠ 34) ∧
      (pair ≠ .tComment ∧ pair ≠ .tStringLit) ∧ (single ≠ .tComment ∧ single ≠ .tStringLit) ∧
      pair ≠ .tIdentifier ∧ single ≠ .tIdentifier := by
  simp only [pairs, List.mem_cons, Prod.mk.injEq, List.not_mem_nil, or_false] at h
  rcases h with ⟨rfl, rfl, rfl, rfl⟩ | ⟨rfl, rfl, rfl, rfl⟩ | ⟨rfl, rfl, rfl, rfl⟩ |
    ⟨rfl, rfl, rfl, rfl⟩ | ⟨rfl, rfl, rfl, rfl⟩ | ⟨rfl, rfl, rfl, rfl⟩ <;> decide

/-- A character of the switch stands for one byte. -/
theorem byte_of_char {c : UInt8} {d : Char} (h : Char.ofNat c.toNat = d) : c = d.toNat.toUInt8 := by
  have hc : c.toNat < 256 := c.toNat_lt
  have hvalid : c.toNat.isValidChar := .inl (by omega)
  have hnat : (Char.ofNat c.toNat).toNat = c.toNat := by
    rw [Char.ofNat, dif_pos hvalid]
    rfl
  rw [← h, hnat, Nat.toUInt8_eq, UInt8.ofNat_toNat]

/-! ## Behind the first byte -/

section switch
variable {c : UInt8} {t t₁ : Tokenizer} {fuel : Nat} (ht : t.advance = (c, t₁))
include ht

theorem scan_single {type : TokenType} (h : (c, type) ∈ singles) :
    scanToken fuel t = scanned (createToken type t₁) := by
  unfold scanToken
  rw [ht]
  simp only [singles, List.mem_cons, Prod.mk.injEq, List.not_mem_nil, or_false] at h
  rcases h with ⟨rfl, rfl⟩ | ⟨rfl, rfl⟩ | ⟨rfl, rfl⟩ | ⟨rfl, rfl⟩ | ⟨rfl, rfl⟩ | ⟨rfl, rfl⟩ |
    ⟨rfl, rfl⟩ | ⟨rfl, rfl⟩ | ⟨rfl, rfl⟩ | ⟨rfl, rfl⟩ | ⟨rfl, rfl⟩ | ⟨rfl, rfl⟩ <;> rfl

theorem scan_pair {second : UInt8} {pair single : TokenType}
    (h : (c, second, pair, single) ∈ pairs) :
    scanToken fuel t = scanned (createPair second pair single t₁) := by
  unfold scanToken
  rw [ht]
  simp only [pairs, List.mem_cons, Prod.mk.injEq, List.not_mem_nil, or_false] at h
  rcases h with ⟨rfl, rfl, rfl, rfl⟩ | ⟨rfl, rfl, rfl, rfl⟩ | ⟨rfl, rfl, rfl, rfl⟩ |
    ⟨rfl, rfl, rfl, rfl⟩ | ⟨rfl, rfl, rfl, rfl⟩ | ⟨rfl, rfl, rfl, rfl⟩ <;> rfl

theorem scan_slash (h : c = 47) :
    scanToken fuel t =
      if (t₁.matchChar 47).1 then scanned (createCommentToken (t₁.matchChar 47).2)
      else scanned (createToken .tDivide (t₁.matchChar 47).2) := by
  unfold scanToken
  rw [ht, h]
  rfl

theorem scan_quote (h : c = 34) : scanToken fuel t = scanned (createString fuel t₁) := by
  unfold scanToken
  rw [ht, h]
  rfl

/-- A newline is counted. -/
theorem scan_blank (h : c ∈ blanks) :
    scanToken fuel t =
      .ok (none, { t₁ with curLine := t₁.curLine + if c = 10 then 1 else 0 }) := by
  unfold scanToken
  rw [ht]
  simp only [blanks, List.mem_cons, List.not_mem_nil, or_false] at h
  rcases h with rfl | rfl | rfl | rfl
  · rfl
  · rfl
  · rfl
  · rfl

theorem scan_other (h : isOther c = true) :
    scanToken fuel t =
      if isalpha c then scanned (createIdentifer fuel t₁)
      else if isdigit c then scanned (createNumber fuel t₁)
      else
        match t₁.getCurWord with
        | .ok (buf, _) => .error (.unidentifiable buf)
        | .error e => .error e := by
  unfold scanToken
  rw [ht]
  simp only
  split
  case h_25 => rfl
  -- the cases of the switch are the bytes that are not other
  all_goals
    rename_i hchar
    rw [byte_of_char hchar] at h
    exact absurd h (by decide)

end switch

/-! ## On a window -/

variable {bytes : CString} {start i line fuel : Nat}

section
variable (hi : i < bytes.length)
include hi

theorem scanToken_single {type : TokenType} (h : (bytes.getD i 0, type) ∈ singles) :
    scanToken fuel (window bytes start i line) =
      scanned (createToken type (window bytes start (i + 1) line)) :=
  scan_single (advance_window hi) h

theorem scanToken_pair {second : UInt8} {pair single : TokenType}
    (h : (bytes.getD i 0, second, pair, single) ∈ pairs) :
    scanToken fuel (window bytes start i line) =
      scanned (if bytes.getD (i + 1) 0 = second then
        createToken pair (window bytes start (i + 2) line)
      else createToken single (window bytes start (i + 1) line)) := by
  rw [scan_pair (advance_window hi) h, createPair, matchChar_window second (ne_zero_of_pair h)]
  by_cases hsecond : bytes.getD (i + 1) 0 = second
  · rw [if_pos hsecond, if_pos hsecond]
    rfl
  · rw [if_neg hsecond, if_neg hsecond]
    rfl

theorem scanToken_slash (h : bytes.getD i 0 = 47) :
    scanToken fuel (window bytes start i line) =
      scanned (if bytes.getD (i + 1) 0 = 47 then
        createCommentToken (window bytes start (i + 2) line)
      else createToken .tDivide (window bytes start (i + 1) line)) := by
  rw [scan_slash (advance_window hi) h, matchChar_window 47 (by decide)]
  by_cases hsecond : bytes.getD (i + 1) 0 = 47
  · rw [if_pos hsecond, if_pos hsecond]
    rfl
  · rw [if_neg hsecond, if_neg hsecond]
    rfl

theorem scanToken_quote (h : bytes.getD i 0 = 34) :
    scanToken fuel (window bytes start i line) =
      scanned (createString fuel (window bytes start (i + 1) line)) :=
  scan_quote (advance_window hi) h

theorem scanToken_newline (h : bytes.getD i 0 ∈ blanks) :
    scanToken fuel (window bytes start i line) =
      .ok (none, window bytes start (i + 1) (line + if bytes.getD i 0 = 10 then 1 else 0)) :=
  scan_blank (advance_window hi) h

theorem scanToken_blank (h : bytes.getD i 0 ∈ blanks) :
    ∃ line', scanToken fuel (window bytes start i line) =
      .ok (none, window bytes start (i + 1) line') :=
  ⟨_, scanToken_newline hi h⟩

theorem scanToken_other (h : isOther (bytes.getD i 0) = true) (hs : start ≤ i) :
    scanToken fuel (window bytes start i line) =
      if isalpha (bytes.getD i 0) then
        scanned (createIdentifer fuel (window bytes start (i + 1) line))
      else if isdigit (bytes.getD i 0) then
        scanned (createNumber fuel (window bytes start (i + 1) line))
      else if maxLexeme ≤ i + 1 - start then .error .overflow
      else .error (.unidentifiable (cString (slice bytes start (i + 1)))) := by
  have hword := @getCurWord_window bytes start (i + 1) line (by omega) hi
  rw [scan_other (advance_window hi) h, hword]
  by_cases hlen : maxLexeme ≤ i + 1 - start
  · rw [if_pos hlen, if_pos hlen]
  · rw [if_neg hlen, if_neg hlen]

end

end Tokenizer

end ACompiler
