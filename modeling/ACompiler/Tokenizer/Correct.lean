import ACompiler.Tokenizer.Coverage
import ACompiler.Tokenizer.Lexer

/-!
# The tokenizer is the longest-match lexer
-/

namespace ACompiler

open Tokenizer
open Lib (munch lex munch_eq_some munch_takeWhile munch_spec munch_eq_none lex_of_none lex_of_some)

/-! ## The longest word at a position -/

theorem munch_single {c : UInt8} {type : TokenType} (h : (c, type) ∈ singles) (s : CString) :
    munch lexemeKind (c :: s) = some ([c], .token type [c], s) := by
  refine @munch_eq_some _ _ _ [c] s _ (by simp) ?_ fun a l _ _ => ?_
  · rw [lexemeKind_single h, if_pos rfl]
  · show lexemeKind (c :: a :: l) = none
    rw [lexemeKind_single h, if_neg (by simp)]

theorem munch_blank {c : UInt8} (h : c ∈ blanks) (s : CString) :
    munch lexemeKind (c :: s) = some ([c], .skip, s) := by
  refine @munch_eq_some _ _ _ [c] s _ (by simp) ?_ fun a l _ _ => ?_
  · rw [lexemeKind_blank h, if_pos rfl]
  · show lexemeKind (c :: a :: l) = none
    rw [lexemeKind_blank h, if_neg (by simp)]

section pair
variable {c second : UInt8} {pair single : TokenType} (h : (c, second, pair, single) ∈ pairs)
include h

theorem munch_pair (s : CString) :
    munch lexemeKind (c :: second :: s) = some ([c, second], .token pair [c, second], s) := by
  refine @munch_eq_some _ _ _ [c, second] s _ (by simp) ?_ fun a l _ _ => ?_
  · rw [lexemeKind_pair h, if_neg (by simp), if_pos rfl]
  · show lexemeKind (c :: second :: a :: l) = none
    rw [lexemeKind_pair h, if_neg (by simp), if_neg (by simp)]

theorem munch_pair_single {s : CString} (hs : s.head? ≠ some second) :
    munch lexemeKind (c :: s) = some ([c], .token single [c], s) := by
  refine @munch_eq_some _ _ _ [c] s _ (by simp) ?_ fun a l l' hrest => ?_
  · rw [lexemeKind_pair h, if_pos rfl]
  · have ha : a ≠ second := by
      rintro rfl
      exact hs (by rw [hrest]; rfl)
    show lexemeKind (c :: a :: l) = none
    rw [lexemeKind_pair h, if_neg (by simp), if_neg (by simp [ha])]

end pair

theorem munch_divide {s : CString} (hs : s.head? ≠ some 47) :
    munch lexemeKind (47 :: s) = some ([47], .token .tDivide [47], s) := by
  refine @munch_eq_some _ _ _ [47] s _ (by simp) ?_ fun a l l' hrest => ?_
  · rw [lexemeKind_slash, if_pos rfl]
  · have ha : a ≠ 47 := by
      rintro rfl
      exact hs (by rw [hrest]; rfl)
    show lexemeKind (47 :: a :: l) = none
    rw [lexemeKind_slash, if_neg (by simp), if_neg (by simp [isComment, ha])]

theorem munch_comment (s : CString) :
    munch lexemeKind (47 :: 47 :: s) =
      some (47 :: 47 :: s.takeWhile (· ≠ 10), .token .tComment (s.takeWhile (· ≠ 10)),
        s.dropWhile (· ≠ 10)) := by
  refine @munch_takeWhile _ _ _ [47, 47] (· ≠ 10) (LexemeKind.token .tComment) (by simp)
    (fun l => ?_) s
  show lexemeKind (47 :: 47 :: l) = _
  rw [lexemeKind_slash, if_neg (by simp)]
  rfl

theorem munch_openString {s : CString} (hs : s.all (· ≠ 34) = true) :
    munch lexemeKind (34 :: s) = some (34 :: s, .token .tUnknown (34 :: s), []) := by
  have hnot : isString (34 :: s) = false := by
    by_contra h
    simp only [isString, Bool.not_eq_false, Bool.and_eq_true, decide_eq_true_eq] at h
    have hne := List.all_eq_true.mp hs 34 (List.mem_of_getLast? h.1)
    exact absurd hne (by decide)
  have hkind : lexemeKind (34 :: s) = some (.token .tUnknown (34 :: s)) := by
    rw [lexemeKind_quote, hnot, if_neg (by simp), if_pos (show isOpenString (34 :: s) = true from hs)]
  have hmunch := @munch_eq_some _ _ lexemeKind (34 :: s) [] _ (by simp) hkind
    fun a l l' hrest => absurd hrest (by simp)
  rwa [List.append_nil] at hmunch

theorem munch_string {body : CString} (hbody : body.all (· ≠ 34) = true) (s : CString) :
    munch lexemeKind (34 :: (body ++ 34 :: s)) =
      some (34 :: (body ++ [34]), .token .tStringLit body, s) := by
  have hkind : lexemeKind (34 :: (body ++ [34])) = some (.token .tStringLit body) := by
    have hstring : isString (34 :: (body ++ [34])) = true := by
      simp only [isString, List.getLast?_append, List.dropLast_concat, hbody]
      rfl
    rw [lexemeKind_quote, if_pos hstring, List.dropLast_concat]
  have hmunch := @munch_eq_some _ _ lexemeKind (34 :: (body ++ [34])) s _ (by simp) hkind
    fun a l l' _ => ?_
  · simpa using hmunch
  · have hmore : 34 :: (body ++ [34]) ++ a :: l = 34 :: (body ++ 34 :: a :: l) := by simp
    have hstring : isString (34 :: (body ++ 34 :: a :: l)) = false := by
      simp [isString, List.dropLast_append_of_ne_nil]
    have hopen : isOpenString (34 :: (body ++ 34 :: a :: l)) = false := by simp [isOpenString]
    rw [hmore, lexemeKind_quote, hstring, hopen, if_neg (by simp), if_neg (by simp)]

theorem isdigit_of_isalpha {c : UInt8} (h : isalpha c = true) : isdigit c = false := by
  simp only [isalpha, isdigit, Bool.or_eq_true, Bool.and_eq_true, Bool.and_eq_false_iff,
    decide_eq_true_eq, decide_eq_false_iff_not, UInt8.le_iff_toNat_le, UInt8.reduceToNat] at h ⊢
  omega

theorem munch_letter {c : UInt8} (ho : isOther c = true) (ha : isalpha c = true) (s : CString) :
    munch lexemeKind (c :: s) = some (c :: s.takeWhile inWord,
      .token ((keywords.lookup (c :: s.takeWhile inWord)).getD .tIdentifier)
        (c :: s.takeWhile inWord), s.dropWhile inWord) := by
  refine @munch_takeWhile _ _ _ [c] inWord (fun l =>
    LexemeKind.token ((keywords.lookup (c :: l)).getD .tIdentifier) (c :: l)) (by simp)
    (fun l => ?_) s
  have hdigit : isdigit c = false := isdigit_of_isalpha ha
  have hname : isName (c :: l) = l.all inWord := by
    rw [isName, ha, Bool.true_and]
    rfl
  have hnumber : isNumber (c :: l) = false := by rw [isNumber, hdigit, Bool.false_and]
  show lexemeKind (c :: l) = _
  rw [lexemeKind_other ho, hname, hnumber, if_neg (by simp : ¬ false = true)]

theorem munch_digit {c : UInt8} (ho : isOther c = true) (hd : isdigit c = true)
    (ha : isalpha c = false) (s : CString) :
    munch lexemeKind (c :: s) = some (c :: s.takeWhile inNumber,
      .token .tNumberLit (c :: s.takeWhile inNumber), s.dropWhile inNumber) := by
  refine @munch_takeWhile _ _ _ [c] inNumber (fun l => LexemeKind.token .tNumberLit (c :: l))
    (by simp) (fun l => ?_) s
  have hname : isName (c :: l) = false := by rw [isName, ha, Bool.false_and]
  have hnumber : isNumber (c :: l) = l.all inNumber := by
    rw [isNumber, hd, Bool.true_and]
    rfl
  show lexemeKind (c :: l) = _
  rw [lexemeKind_other ho, hname, hnumber, if_neg (by simp : ¬ false = true)]

theorem munch_unknown {c : UInt8} (ho : isOther c = true) (hd : isdigit c = false)
    (ha : isalpha c = false) (s : CString) : munch lexemeKind (c :: s) = none := by
  refine munch_eq_none fun m h0 hm => ?_
  obtain ⟨k, rfl⟩ := Nat.exists_eq_succ_of_ne_zero (Nat.ne_of_gt h0)
  have hname : isName (c :: s.take k) = false := by rw [isName, ha, Bool.false_and]
  have hnumber : isNumber (c :: s.take k) = false := by rw [isNumber, hd, Bool.false_and]
  rw [List.take_succ_cons, lexemeKind_other ho, hname, hnumber]
  rfl

/-! ## One turn -/

/-- The token of a word. -/
def LexemeKind.token? : LexemeKind → Option (TokenType × CString)
  | .skip => none
  | .token type text => some (type, text)

/-- A word the tokenizer can take: its text fits into a lexeme, a number is not followed by a decimal
point with a digit behind it, and a comment is closed by a newline. -/
def Fits : CString × LexemeKind × CString → Prop
  | (_, .skip, _) => True
  | (_, .token type text, rest) => text.length < maxLexeme ∧
      (type = .tNumberLit → ¬ (rest.getD 0 0 = 46 ∧ isdigit (rest.getD 1 0) = true)) ∧
      (type = .tComment → rest.getD 0 0 = 10)

instance (m : CString × LexemeKind × CString) : Decidable (Fits m) :=
  match m with
  | (_, .skip, _) => isTrue trivial
  | (_, .token _ _, _) => inferInstanceAs (Decidable (_ ∧ _ ∧ _))

/-- A scan of the word `w` at `i`. -/
def Scans (bytes : CString) (fuel i line : Nat) (w : CString) (x : LexemeKind) : Prop :=
  ∃ temp start line', scanToken fuel (window bytes i i line) =
    .ok (temp, window bytes start (i + w.length) line') ∧
    temp.map (fun token => (token.type, token.lexeme)) = x.token?

theorem one_lt_maxLexeme : 1 < maxLexeme := by decide

theorem two_lt_maxLexeme : 2 < maxLexeme := by decide

section turn
variable {bytes s : CString} {c : UInt8} {i line fuel : Nat}

theorem scans_of_token {token : Token} {w : CString} {start j line' : Nat} {type : TokenType}
    {text : CString}
    (hscan : scanToken fuel (window bytes i i line) = scanned (.ok (token, window bytes start j line')))
    (htype : token.type = type) (htext : token.lexeme = text) (hj : j = i + w.length) :
    Scans bytes fuel i line w (.token type text) := by
  subst hj htype htext
  exact ⟨some token, start, line', hscan, rfl⟩

/-- A token whose text is the whole word. -/
theorem scans_createToken (h0 : (0 : UInt8) ∉ bytes) {type : TokenType} {w : CString}
    (hw : slice bytes i (i + w.length) = w) (hle : i + w.length ≤ bytes.length)
    (hlen : w.length < maxLexeme)
    (hscan : scanToken fuel (window bytes i i line) =
      scanned (createToken type (window bytes i (i + w.length) line))) :
    Scans bytes fuel i line w (.token type w) := by
  rw [createToken_window type (by omega) hle, if_neg (by omega), hw,
    cString_eq (hw ▸ not_mem_slice h0 i (i + w.length))] at hscan
  exact scans_of_token hscan rfl rfl rfl

variable (h0 : (0 : UInt8) ∉ bytes) (h255 : (255 : UInt8) ∉ bytes) (h : bytes.drop i = c :: s)

include h0 h in
theorem scans_single {type : TokenType} (hc : (c, type) ∈ singles) :
    Scans bytes fuel i line [c] (.token type [c]) := by
  have hbyte : bytes.getD i 0 = c := getD_of_drop h 0
  refine scans_createToken h0 (slice_of_drop h 0) (lt_of_drop h) one_lt_maxLexeme ?_
  exact scanToken_single (lt_of_drop h) (hbyte.symm ▸ hc)

include h0 in
theorem scans_pair {second : UInt8} {pair single : TokenType} (h : bytes.drop i = c :: second :: s)
    (hc : (c, second, pair, single) ∈ pairs) :
    Scans bytes fuel i line [c, second] (.token pair [c, second]) := by
  have hlen := length_of_drop h
  have hbyte : bytes.getD i 0 = c := getD_of_drop h 0
  have hsecond : bytes.getD (i + 1) 0 = second := getD_of_drop h 1
  rw [List.length_cons] at hlen
  refine scans_createToken h0 (slice_of_drop h 1) (by simp; omega) two_lt_maxLexeme ?_
  exact (scanToken_pair (lt_of_drop h) (hbyte.symm ▸ hc)).trans (by rw [if_pos hsecond]; rfl)

include h0 h in
theorem scans_pair_single {second : UInt8} {pair single : TokenType}
    (hc : (c, second, pair, single) ∈ pairs) (hs : s.head? ≠ some second) :
    Scans bytes fuel i line [c] (.token single [c]) := by
  have hbyte : bytes.getD i 0 = c := getD_of_drop h 0
  have hsecond : bytes.getD (i + 1) 0 ≠ second := fun heq => by
    obtain ⟨l, rfl⟩ := (second_iff (ne_zero_of_pair hc) h).mp heq
    exact hs rfl
  refine scans_createToken h0 (slice_of_drop h 0) (lt_of_drop h) one_lt_maxLexeme ?_
  exact (scanToken_pair (lt_of_drop h) (hbyte.symm ▸ hc)).trans (by rw [if_neg hsecond]; rfl)

include h0 in
theorem scans_divide (h : bytes.drop i = 47 :: s) (hs : s.head? ≠ some 47) :
    Scans bytes fuel i line [47] (.token .tDivide [47]) := by
  have hsecond : bytes.getD (i + 1) 0 ≠ 47 := fun heq => by
    obtain ⟨l, rfl⟩ := (second_iff (by decide) h).mp heq
    exact hs rfl
  refine scans_createToken h0 (slice_of_drop h 0) (lt_of_drop h) one_lt_maxLexeme ?_
  exact (scanToken_slash (lt_of_drop h) (getD_of_drop h 0)).trans (by rw [if_neg hsecond]; rfl)

include h0 in
theorem scans_comment (h : bytes.drop i = 47 :: 47 :: s)
    (hlen : (s.takeWhile (· ≠ 10)).length < maxLexeme)
    (hclosed : (s.dropWhile (· ≠ 10)).getD 0 0 = 10) :
    Scans bytes fuel i line (47 :: 47 :: s.takeWhile (· ≠ 10))
      (.token .tComment (s.takeWhile (· ≠ 10))) := by
  have hnext : bytes.drop (i + 1) = 47 :: s := drop_succ_of_drop h
  have hstop := run_of_drop hnext (· ≠ 10)
  have hfile := length_of_drop hnext
  have hsplit := congrArg List.length (List.takeWhile_append_dropWhile (p := (· ≠ (10 : UInt8)))
    (l := s))
  have hpos : 0 < (s.dropWhile (· ≠ 10)).length := by
    by_contra hz
    rw [List.getD_eq_default _ _ (by omega)] at hclosed
    exact absurd hclosed (by decide)
  rw [List.length_append] at hsplit
  have htext : bytes.drop (i + 2) = s.takeWhile (· ≠ 10) ++ s.dropWhile (· ≠ 10) := by
    rw [List.takeWhile_append_dropWhile]
    exact drop_succ_of_drop hnext
  have hslice := slice_of_prefix htext
  have hcomment := createCommentToken_window bytes i (i + 2) line
  simp only [show run (· ≠ 10) bytes (i + 2) = (s.takeWhile (· ≠ 10)).length from hstop, hslice,
    cString_eq (hslice ▸ not_mem_slice h0 (i + 2) _)] at hcomment
  rw [if_pos ⟨by omega, hlen⟩] at hcomment
  have hscan := @scanToken_slash bytes i i line fuel (lt_of_drop h) (getD_of_drop h 0)
  rw [show bytes.getD (i + 1) 0 = 47 from getD_of_drop h 1, if_pos rfl, hcomment] at hscan
  refine scans_of_token hscan rfl rfl ?_
  rw [List.length_cons, List.length_cons]
  omega

include h0 h in
theorem scans_letter (ho : isOther c = true) (ha : isalpha c = true)
    (hfuel : bytes.length < fuel) (hlen : (c :: s.takeWhile inWord).length < maxLexeme) :
    Scans bytes fuel i line (c :: s.takeWhile inWord)
      (.token ((keywords.lookup (c :: s.takeWhile inWord)).getD .tIdentifier)
        (c :: s.takeWhile inWord)) := by
  have hfile := length_of_drop h
  have hprefix := (List.takeWhile_prefix inWord (l := s)).length_le
  have hword := slice_takeWhile h inWord
  have hbyte : bytes.getD i 0 = c := getD_of_drop h 0
  have hscan := @scanToken_other bytes i i line fuel (lt_of_drop h) (hbyte.symm ▸ ho) (Nat.le_refl i)
  rw [hbyte, if_pos ha, createIdentifer_window (by omega) (lt_of_drop h), run_of_drop h,
    if_pos (by omega), show i + 1 + (s.takeWhile inWord).length =
      i + (c :: s.takeWhile inWord).length from by rw [List.length_cons]; omega, hword,
    cString_eq (hword ▸ not_mem_slice h0 _ _), wordType, tokenHash_getHt] at hscan
  refine scans_createToken h0 hword ?_ hlen hscan
  rw [List.length_cons]
  omega

include h0 h255 h in
theorem scans_digit (ho : isOther c = true) (hd : isdigit c = true) (ha : isalpha c = false)
    (hfuel : bytes.length < fuel) (hlen : (c :: s.takeWhile inNumber).length < maxLexeme)
    (hpoint : ¬ ((s.dropWhile inNumber).getD 0 0 = 46 ∧
      isdigit ((s.dropWhile inNumber).getD 1 0) = true)) :
    Scans bytes fuel i line (c :: s.takeWhile inNumber)
      (.token .tNumberLit (c :: s.takeWhile inNumber)) := by
  have hfile := length_of_drop h
  have hprefix := (List.takeWhile_prefix inNumber (l := s)).length_le
  have hword := slice_takeWhile h inNumber
  have hbyte : bytes.getD i 0 = c := getD_of_drop h 0
  have hbehind := getD_behind h inNumber
  have hscan := @scanToken_other bytes i i line fuel (lt_of_drop h) (hbyte.symm ▸ ho) (Nat.le_refl i)
  rw [hbyte, ha, if_neg (by simp), if_pos hd, createNumber_window h255 (by omega) (lt_of_drop h),
    run_of_drop h] at hscan
  simp only at hscan
  rw [if_pos (by omega), hbehind 1, if_neg (fun hp => hpoint ⟨hbehind 0 ▸ hp.1, hp.2⟩),
    show i + 1 + (s.takeWhile inNumber).length = i + (c :: s.takeWhile inNumber).length from by
      rw [List.length_cons]; omega] at hscan
  refine scans_createToken h0 hword ?_ hlen hscan
  rw [List.length_cons]
  omega

/-- Without the byte `0`, a string ends at its quote only. -/
theorem takeWhile_inString {body rest : CString} (h0 : (0 : UInt8) ∉ body)
    (hbody : body.all (· ≠ 34) = true) (hrest : inString (rest.getD 0 0) = false) :
    (body ++ rest).takeWhile inString = body := by
  have hin : ∀ p ∈ body, inString p = true := by
    intro p hp
    have hne : p ≠ 0 := fun heq => h0 (heq ▸ hp)
    simpa [inString, hne] using List.all_eq_true.mp hbody p hp
  rw [List.takeWhile_append_of_pos hin]
  cases rest with
  | nil => exact List.append_nil body
  | cons q rest =>
    rw [List.takeWhile_cons, show inString q = false from hrest]
    exact List.append_nil body

include h0 in
theorem scans_string {body : CString} (h : bytes.drop i = 34 :: (body ++ 34 :: s))
    (hbody : body.all (· ≠ 34) = true) (hfuel : bytes.length < fuel)
    (hlen : body.length < maxLexeme) :
    Scans bytes fuel i line (34 :: (body ++ [34])) (.token .tStringLit body) := by
  have hfile := length_of_drop h
  rw [List.length_append, List.length_cons] at hfile
  have hnext := drop_succ_of_drop h
  have h0body : (0 : UInt8) ∉ body := by
    intro hmem
    have hdrop : (0 : UInt8) ∈ bytes.drop (i + 1) := hnext ▸ List.mem_append_left _ hmem
    exact h0 (List.mem_of_mem_drop hdrop)
  have hrun : run inString bytes (i + 1) = body.length := by
    rw [run_of_drop h, takeWhile_inString h0body hbody rfl]
  have hquote : bytes.getD (i + 1 + body.length) 0 = 34 := by
    rw [show i + 1 + body.length = i + (1 + body.length) from by omega, getD_of_drop h,
      List.getD_eq_getElem?_getD, Nat.add_comm 1, List.getElem?_cons_succ,
      List.getElem?_append_right (Nat.le_refl _), Nat.sub_self]
    rfl
  have hslice := slice_of_prefix hnext
  have hscan := @scanToken_quote bytes i i line fuel (lt_of_drop h) (getD_of_drop h 0)
  rw [createString_window (by omega) (lt_of_drop h), hrun] at hscan
  simp only [hquote, hslice, cString_eq h0body] at hscan
  rw [if_pos (by omega), if_neg (by decide), if_neg (by omega)] at hscan
  refine scans_of_token hscan rfl rfl ?_
  rw [List.length_cons, List.length_append, List.length_singleton]
  omega

include h0 in
theorem scans_openString (h : bytes.drop i = 34 :: s) (hs : s.all (· ≠ 34) = true)
    (hfuel : bytes.length < fuel) (hlen : (34 :: s).length < maxLexeme) :
    Scans bytes fuel i line (34 :: s) (.token .tUnknown (34 :: s)) := by
  have hfile := length_of_drop h
  have hnext := drop_succ_of_drop h
  have h0s : (0 : UInt8) ∉ s := fun hmem => h0 (List.mem_of_mem_drop (hnext ▸ hmem))
  have hrun : run inString bytes (i + 1) = s.length := by
    have htake := @takeWhile_inString s [] h0s hs (by decide)
    rw [List.append_nil] at htake
    rw [run_of_drop h, htake]
  have hend : bytes.getD (i + 1 + s.length) 0 = 0 := List.getD_eq_default _ _ (by omega)
  have hslice : slice bytes i (i + (34 :: s).length) = 34 :: s := by
    rw [slice, h, Nat.add_sub_cancel_left, List.take_length]
  have hscan := @scanToken_quote bytes i i line fuel (lt_of_drop h) (getD_of_drop h 0)
  rw [createString_window (by omega) (lt_of_drop h), hrun] at hscan
  simp only [hend, if_true] at hscan
  rw [if_pos (by omega), show i.succ + s.length = i + (34 :: s).length from by
    rw [List.length_cons]; omega] at hscan
  refine scans_createToken h0 hslice ?_ hlen hscan
  rw [List.length_cons]
  omega

theorem scans_blank (h : bytes.drop i = c :: s) (hc : c ∈ blanks) :
    Scans bytes fuel i line [c] .skip := by
  have hbyte : bytes.getD i 0 = c := getD_of_drop h 0
  obtain ⟨line', hscan⟩ := @scanToken_blank bytes i i line fuel (lt_of_drop h) (hbyte.symm ▸ hc)
  exact ⟨none, i, line', hscan, rfl⟩

/-- Where no word starts, the tokenizer exits. -/
theorem scanToken_unknown (h0 : (0 : UInt8) ∉ bytes) (h : bytes.drop i = c :: s)
    (ho : isOther c = true) (hd : isdigit c = false) (ha : isalpha c = false) :
    scanToken fuel (window bytes i i line) = .error (.unidentifiable [c]) := by
  have hbyte : bytes.getD i 0 = c := getD_of_drop h 0
  have hslice : slice bytes i (i + 1) = [c] := slice_of_drop h 0
  rw [scanToken_other (lt_of_drop h) (hbyte.symm ▸ ho) (Nat.le_refl i), hbyte, ha, hd,
    if_neg (by simp), if_neg (by simp), if_neg (by rw [Nat.add_sub_cancel_left]; decide), hslice,
    cString_eq (hslice ▸ not_mem_slice h0 _ _)]

/-- **A turn takes the longest word**, or exits where there is none. -/
theorem scans_munch (h0 : (0 : UInt8) ∉ bytes) (h255 : (255 : UInt8) ∉ bytes)
    (h : bytes.drop i = c :: s) (hfuel : bytes.length < fuel) :
    (∃ w x rest, munch lexemeKind (c :: s) = some (w, x, rest) ∧
      (Fits (w, x, rest) → Scans bytes fuel i line w x)) ∨
      munch lexemeKind (c :: s) = none ∧
        scanToken fuel (window bytes i i line) = .error (.unidentifiable [c]) := by
  cases firstByte c with
  | single hc => exact .inl ⟨_, _, _, munch_single hc s, fun _ => scans_single h0 h hc⟩
  | @pair second pair single hc =>
    by_cases hs : s.head? = some second
    · obtain ⟨l, rfl⟩ := List.head?_eq_some_iff.mp hs
      exact .inl ⟨_, _, _, munch_pair hc l, fun _ => scans_pair h0 h hc⟩
    · exact .inl ⟨_, _, _, munch_pair_single hc hs, fun _ => scans_pair_single h0 h hc hs⟩
  | slash hc =>
    subst hc
    by_cases hs : s.head? = some 47
    · obtain ⟨l, rfl⟩ := List.head?_eq_some_iff.mp hs
      exact .inl ⟨_, _, _, munch_comment l, fun hfits => scans_comment h0 h hfits.1 (hfits.2.2 rfl)⟩
    · exact .inl ⟨_, _, _, munch_divide hs, fun _ => scans_divide h0 h hs⟩
  | quote hc =>
    subst hc
    have hsplit := List.takeWhile_append_dropWhile (p := (· ≠ (34 : UInt8))) (l := s)
    have hbody : (s.takeWhile (· ≠ 34)).all (· ≠ 34) = true := List.all_takeWhile
    cases hrest : s.dropWhile (· ≠ 34) with
    | nil =>
      rw [hrest, List.append_nil] at hsplit
      rw [hsplit] at hbody
      exact .inl ⟨_, _, _, munch_openString hbody, fun hfits =>
        scans_openString h0 h hbody hfuel hfits.1⟩
    | cons q l =>
      have hq := List.head?_dropWhile_not (· ≠ (34 : UInt8)) s
      rw [hrest] at hq
      have hq : q = 34 := by simpa using hq
      rw [hrest, hq] at hsplit
      rw [← hsplit] at h ⊢
      exact .inl ⟨_, _, _, munch_string hbody l, fun hfits =>
        scans_string h0 h hbody hfuel hfits.1⟩
  | blank hc => exact .inl ⟨_, _, _, munch_blank hc s, fun _ => scans_blank h hc⟩
  | letter ho ha =>
    exact .inl ⟨_, _, _, munch_letter ho ha s, fun hfits =>
      scans_letter h0 h ho ha hfuel hfits.1⟩
  | digit ho hd ha =>
    exact .inl ⟨_, _, _, munch_digit ho hd ha s, fun hfits =>
      scans_digit h0 h255 h ho hd ha hfuel hfits.1 (hfits.2.1 rfl)⟩
  | unknown ho hd ha =>
    exact .inr ⟨munch_unknown ho hd ha s, scanToken_unknown h0 h ho hd ha⟩

end turn

/-! ## All turns -/

/-- What a longest-match lexer makes of a source: the tokens of the words, then `T_EOF`; or an exit
at the first byte that starts no word. -/
def lexTokens (bytes : CString) : Except ScanError (List (TokenType × CString)) :=
  match (lex lexemeKind bytes).2 with
  | [] => .ok ((lex lexemeKind bytes).1.filterMap (fun m => m.2.1.token?) ++ [(.tEof, ascii "eof")])
  | c :: _ => .error (.unidentifiable [c])

/-- Types and lexemes. -/
def typesAndLexemes (tokens : List Token) : List (TokenType × CString) :=
  tokens.map fun token => (token.type, token.lexeme)

theorem lexTokens_of_none {c : UInt8} {s : CString} (h : munch lexemeKind (c :: s) = none) :
    lexTokens (c :: s) = .error (.unidentifiable [c]) := by
  rw [lexTokens, lex_of_none h]

theorem lexTokens_of_some {s w rest : CString} {x : LexemeKind}
    (h : munch lexemeKind s = some (w, x, rest)) :
    lexTokens s = (lexTokens rest).map fun tokens => x.token?.toList ++ tokens := by
  rw [lexTokens, lexTokens, lex_of_some h]
  cases (lex lexemeKind rest).2 with
  | cons c l => rfl
  | nil =>
    cases x with
    | skip => rfl
    | token type text => rfl

theorem lexTokens_nil : lexTokens [] = .ok [(.tEof, ascii "eof")] := by
  rw [lexTokens, lex_of_none (munch_eq_none fun m h0 hm => absurd hm (by simp; omega))]
  rfl

section loop
variable {bytes : CString} {fuel n i start line : Nat} {t₀ : Tokenizer}
  (ht₀ : t₀ = window bytes start i line)
include ht₀

theorem tokenizeLoop_turn (hi : i < bytes.length) {temp : Option Token} {t : Tokenizer}
    (hscan : scanToken fuel (window bytes i i line) = .ok (temp, t)) :
    tokenizeLoop fuel (n + 1) t₀ =
      (tokenizeLoop fuel n t).map fun tokens => temp.toList ++ tokens := by
  rw [tokenizeLoop, if_pos (by rw [ht₀]; exact hi), turn_of_window ht₀, hscan]
  simp only [bind, Except.bind]
  cases tokenizeLoop fuel n t with
  | error e => rfl
  | ok tokens => rfl

theorem tokenizeLoop_exit (hi : i < bytes.length) {e : ScanError}
    (hscan : scanToken fuel (window bytes i i line) = .error e) :
    tokenizeLoop fuel (n + 1) t₀ = .error e := by
  rw [tokenizeLoop, if_pos (by rw [ht₀]; exact hi), turn_of_window ht₀, hscan]
  rfl

theorem tokenizeLoop_end (hi : ¬ i < bytes.length) :
    tokenizeLoop fuel (n + 1) t₀ = .ok [eofToken] := by
  rw [tokenizeLoop, if_neg (by rw [ht₀]; exact hi)]

end loop

/-- The tokens of a turn stand before those of the next turns. -/
theorem typesAndLexemes_turn (temp : Option Token) (r : Except ScanError (List Token)) :
    (r.map fun tokens => temp.toList ++ tokens).map typesAndLexemes =
      (r.map typesAndLexemes).map fun tokens =>
        (temp.map fun token => (token.type, token.lexeme)).toList ++ tokens := by
  cases r with
  | error e => rfl
  | ok tokens =>
    cases temp with
    | none => rfl
    | some token => rfl

theorem tokenizeLoop_lex {bytes : CString} {fuel : Nat} (h0 : (0 : UInt8) ∉ bytes)
    (h255 : (255 : UInt8) ∉ bytes) (hfuel : bytes.length < fuel) : ∀ (n i start line : Nat),
      i ≤ bytes.length → bytes.length < i + n →
      (∀ m ∈ (lex lexemeKind (bytes.drop i)).1, Fits m) →
        (tokenizeLoop fuel n (window bytes start i line)).map typesAndLexemes =
          lexTokens (bytes.drop i) := by
  intro n
  induction n with
  | zero => intro i start line hi hn _; omega
  | succ n ih =>
    intro i start line hi hn hfits
    by_cases hlt : i < bytes.length
    · cases hdrop : bytes.drop i with
      | nil => exact absurd (List.drop_eq_nil_iff.mp hdrop) (by omega)
      | cons c s =>
        rw [hdrop] at hfits
        rcases @scans_munch bytes s c i line fuel h0 h255 hdrop hfuel with
          ⟨w, x, rest, hmunch, hscans⟩ | ⟨hmunch, hscan⟩
        · obtain ⟨heq, hne, _⟩ := munch_spec hmunch
          have hpos := List.length_pos_iff.mpr hne
          have hrest : bytes.drop (i + w.length) = rest := by
            rw [← List.drop_drop, hdrop, heq]
            exact List.drop_left ..
          have hlen := congrArg List.length heq
          rw [← hdrop, List.length_drop, List.length_append] at hlen
          rw [lex_of_some hmunch] at hfits
          obtain ⟨temp, start', line', hscan, htemp⟩ := hscans (hfits _ List.mem_cons_self)
          have hloop := ih (i + w.length) start' line' (by omega) (by omega) (by
            rw [hrest]
            exact fun m hm => hfits m (List.mem_cons_of_mem _ hm))
          rw [hrest] at hloop
          rw [tokenizeLoop_turn rfl hlt hscan, typesAndLexemes_turn, hloop, htemp,
            lexTokens_of_some hmunch]
        · rw [lexTokens_of_none hmunch, tokenizeLoop_exit rfl hlt hscan]
          rfl
    · rw [List.drop_eq_nil_of_le (by omega), lexTokens_nil, tokenizeLoop_end rfl hlt]
      rfl

/-- **The tokenizer is the maximal-munch lexer of the language.** -/
theorem tokenize_lexes (bytes : CString) (hascii : ∀ c ∈ bytes, 1 ≤ c ∧ c ≤ 127)
    (hfits : ∀ m ∈ (lex lexemeKind bytes).1, Fits m) (fuel : Nat) (hfuel : bytes.length < fuel) :
    (tokenize fuel (.fopen bytes) bytes.length).map typesAndLexemes = lexTokens bytes := by
  have h0 : (0 : UInt8) ∉ bytes := fun h => absurd (hascii 0 h).1 (by decide)
  have h255 : (255 : UInt8) ∉ bytes := fun h => absurd (hascii 255 h).2 (by decide)
  rw [tokenize, tokenizerInit_eq]
  exact tokenizeLoop_lex h0 h255 hfuel fuel 0 0 1 (Nat.zero_le _) (by omega) hfits

/-- A keyword's beginning as a name, operators without blanks, a comment. -/
def tightSource : CString := ascii "le<=1//\n"

theorem tokenize_lexes_tightSource : (∀ c ∈ tightSource, 1 ≤ c ∧ c ≤ 127) ∧
    (∀ m ∈ (lex lexemeKind tightSource).1, Fits m) ∧ tightSource.length < 10 ∧
      (tokenize 10 (.fopen tightSource) tightSource.length).map typesAndLexemes =
        lexTokens tightSource :=
  have hascii : ∀ c ∈ tightSource, 1 ≤ c ∧ c ≤ 127 := by decide +kernel
  have hfits : ∀ m ∈ (lex lexemeKind tightSource).1, Fits m := by decide +kernel
  ⟨hascii, hfits, by decide, tokenize_lexes tightSource hascii hfits 10 (by decide)⟩

end ACompiler
