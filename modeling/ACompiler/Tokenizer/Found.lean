import ACompiler.Tokenizer.Lexer

/-!
# What a call finds

One constructor of `Found` for each kind of word, with all that `scanToken` writes into the token and
with the state it leaves behind. `scanToken_finds` is the only case analysis over the switch that
the facts about successful calls need.
-/

namespace ACompiler

open Tokenizer

/-- What a call on the byte `i` finds, and where it leaves the tokenizer. -/
inductive Found (bytes : CString) (i line : Nat) : Option Token → Tokenizer → Prop
  | blank {c : UInt8} {s : CString} (h : bytes.drop i = c :: s) (hc : c ∈ blanks) :
      Found bytes i line none (window bytes i (i + 1) (line + if c = 10 then 1 else 0))
  | word {type : TokenType} {w rest : CString} (h : bytes.drop i = w ++ rest) (hne : w ≠ [])
      (hw : ∀ b ∈ w, b ≠ 0 ∧ b ≠ 10 ∧ b ≠ 34) (hslash : ¬ [47, 47] <+: bytes.drop i)
      (htype : type ≠ .tComment ∧ type ≠ .tStringLit)
      (hname : type = .tIdentifier → isName w = true) :
      Found bytes i line (some ⟨type, w, w.length, line, i + w.length⟩)
        (window bytes i (i + w.length) line)
  | string {s rest : CString} (h : bytes.drop i = 34 :: s)
      (hclosed : s.dropWhile inString = 34 :: rest) :
      Found bytes i line (some ⟨.tStringLit, s.takeWhile inString, (s.takeWhile inString).length,
        line, i + 1 + (s.takeWhile inString).length⟩)
        (window bytes (i + 1) (i + 1 + (s.takeWhile inString).length + 1) line)
  | openString {s : CString} (h : bytes.drop i = 34 :: s) :
      Found bytes i line (some ⟨.tUnknown, 34 :: s.takeWhile inString,
        (34 :: s.takeWhile inString).length, line, i + (34 :: s.takeWhile inString).length⟩)
        (window bytes i (i + (34 :: s.takeWhile inString).length) line)
  | comment {s rest : CString} (h : bytes.drop i = 47 :: 47 :: s)
      (hclosed : s.dropWhile (· ≠ 10) = 10 :: rest) :
      Found bytes i line (some ⟨.tComment, cString (s.takeWhile (· ≠ 10)),
        ((s.takeWhile (· ≠ 10)).length + (2 ^ 32 - 1)) % 2 ^ 32,
        i + 2 + (s.takeWhile (· ≠ 10)).length, line⟩)
        (window bytes i (i + 2 + (s.takeWhile (· ≠ 10)).length) line)

/-- What is found, if the call returns. -/
def Finds (bytes : CString) (i line : Nat) (r : Except ScanError (Option Token × Tokenizer)) : Prop :=
  ∀ temp t, r = .ok (temp, t) → Found bytes i line temp t

section finds
variable {bytes s : CString} {c : UInt8} {i line fuel : Nat}

theorem finds_error (e : ScanError) : Finds bytes i line (.error e) := by
  intro temp t h
  exact absurd h (by simp)

theorem finds_scanned {token : Token} {t : Tokenizer} (h : Found bytes i line (some token) t) :
    Finds bytes i line (scanned (.ok (token, t))) := by
  intro temp t' heq
  obtain ⟨rfl, rfl⟩ := Prod.mk.inj (Except.ok.inj heq)
  exact h

/-- A token for the bytes of a word. -/
theorem finds_token {type : TokenType} {w rest : CString} (h : bytes.drop i = w ++ rest)
    (h0 : (0 : UInt8) ∉ w) (hne : w ≠ [])
    (hfound : Found bytes i line (some ⟨type, w, w.length, line, i + w.length⟩)
      (window bytes i (i + w.length) line)) :
    Finds bytes i line (scanned (createToken type (window bytes i (i + w.length) line))) := by
  have hlen := congrArg List.length h
  rw [List.length_drop, List.length_append] at hlen
  have hpos := List.length_pos_iff.mpr hne
  rw [createToken_window type (by omega) (by omega), slice_of_prefix h, cString_eq h0, Nat.add_sub_cancel_left]
  by_cases hlong : maxLexeme ≤ w.length
  · rw [if_pos hlong]
    exact finds_error _
  · rw [if_neg hlong]
    exact finds_scanned hfound

theorem finds_word {type : TokenType} {w rest : CString} (h : bytes.drop i = w ++ rest)
    (hne : w ≠ []) (hw : ∀ b ∈ w, b ≠ 0 ∧ b ≠ 10 ∧ b ≠ 34) (hslash : ¬ [47, 47] <+: bytes.drop i)
    (htype : type ≠ .tComment ∧ type ≠ .tStringLit)
    (hname : type = .tIdentifier → isName w = true) :
    Finds bytes i line (scanned (createToken type (window bytes i (i + w.length) line))) :=
  finds_token h (fun h0 => (hw 0 h0).1 rfl) hne (.word h hne hw hslash htype hname)

/-- No word of the keyword table is a comment or a string. -/
theorem wordType_ne (w : CString) : wordType w ≠ .tComment ∧ wordType w ≠ .tStringLit := by
  rw [wordType, tokenHash_getHt]
  cases hlookup : keywords.lookup w with
  | none => exact ⟨by simp, by simp⟩
  | some type =>
    obtain ⟨before, behind, heq, _⟩ := List.lookup_eq_some_iff.mp hlookup
    have hmem : type ∈ keywords.map Prod.snd := by
      rw [heq, List.map_append, List.map_cons]
      exact List.mem_append_right _ List.mem_cons_self
    rw [Option.getD_some]
    constructor
    · rintro rfl
      exact absurd hmem (by decide)
    · rintro rfl
      exact absurd hmem (by decide)

/-- The bytes of a word, which passes a test. -/
theorem plain_of_test {test : UInt8 → Bool} {b : UInt8} (h0 : test 0 = false)
    (h10 : test 10 = false) (h34 : test 34 = false) (hb : test b = true) :
    b ≠ 0 ∧ b ≠ 10 ∧ b ≠ 34 := by
  refine ⟨?_, ?_, ?_⟩
  · rintro rfl
    exact absurd (hb.symm.trans h0) (by simp)
  · rintro rfl
    exact absurd (hb.symm.trans h10) (by simp)
  · rintro rfl
    exact absurd (hb.symm.trans h34) (by simp)

/-- A comment starts with two slashes. -/
theorem not_slashes (hc : c ≠ 47) : ¬ [47, 47] <+: c :: s := fun h =>
  hc (List.cons_prefix_cons.mp h).1.symm

variable (h : bytes.drop i = c :: s)
include h

theorem finds_createIdentifer (ho : isOther c = true) (ha : isalpha c = true) :
    Finds bytes i line (scanned (createIdentifer fuel (window bytes i (i + 1) line))) := by
  have hstop := run_of_drop h inWord
  have hbytes : ∀ b ∈ c :: s.takeWhile inWord, b ≠ 0 ∧ b ≠ 10 ∧ b ≠ 34 := by
    intro b hb
    have hword : inWord b = true := by
      rcases List.mem_cons.mp hb with rfl | hb
      · rw [inWord, ha, Bool.true_or]
      · exact List.mem_takeWhile_imp hb
    exact plain_of_test rfl rfl rfl hword
  have hname : isName (c :: s.takeWhile inWord) = true := by
    rw [isName, ha, Bool.true_and]
    exact List.all_takeWhile
  have hdrop : bytes.drop i = (c :: s.takeWhile inWord) ++ s.dropWhile inWord := by
    rw [h, List.cons_append, List.takeWhile_append_dropWhile]
  have hslash : ¬ [47, 47] <+: bytes.drop i := by
    rw [h]
    exact not_slashes fun heq => absurd ho (by rw [heq]; decide)
  rw [createIdentifer_window (by omega) (lt_of_drop h), hstop,
    show i + 1 + (s.takeWhile inWord).length = i + (c :: s.takeWhile inWord).length from by
      rw [List.length_cons]
      omega]
  by_cases hfuel : (s.takeWhile inWord).length < fuel
  · rw [if_pos hfuel]
    exact finds_word hdrop (by simp) hbytes hslash (wordType_ne _) fun _ => hname
  · rw [if_neg hfuel]
    exact finds_error _

theorem finds_createNumber (h255 : (255 : UInt8) ∉ bytes) (ho : isOther c = true)
    (hd : isdigit c = true) :
    Finds bytes i line (scanned (createNumber fuel (window bytes i (i + 1) line))) := by
  have hstop := run_of_drop h inNumber
  have hbytes : ∀ b ∈ c :: s.takeWhile inNumber, b ≠ 0 ∧ b ≠ 10 ∧ b ≠ 34 := by
    intro b hb
    have hnumber : inNumber b = true := by
      rcases List.mem_cons.mp hb with rfl | hb
      · rw [inNumber, hd, Bool.true_or]
      · exact List.mem_takeWhile_imp hb
    exact plain_of_test rfl rfl rfl hnumber
  have hdrop : bytes.drop i = (c :: s.takeWhile inNumber) ++ s.dropWhile inNumber := by
    rw [h, List.cons_append, List.takeWhile_append_dropWhile]
  have hslash : ¬ [47, 47] <+: bytes.drop i := by
    rw [h]
    exact not_slashes fun heq => absurd ho (by rw [heq]; decide)
  rw [createNumber_window h255 (by omega) (lt_of_drop h), hstop]
  simp only
  rw [show i + 1 + (s.takeWhile inNumber).length = i + (c :: s.takeWhile inNumber).length from by
      rw [List.length_cons]
      omega]
  by_cases hfuel : (s.takeWhile inNumber).length < fuel
  · rw [if_pos hfuel]
    split
    · exact finds_error _
    · exact finds_word hdrop (by simp) hbytes hslash ⟨by simp, by simp⟩ (by simp)
  · rw [if_neg hfuel]
    exact finds_error _

omit h in
theorem finds_createString (h : bytes.drop i = 34 :: s) :
    Finds bytes i line (scanned (createString fuel (window bytes i (i + 1) line))) := by
  have hstop := run_of_drop h inString
  have hnext := drop_succ_of_drop h
  have hend : bytes.getD (i + 1 + (s.takeWhile inString).length) 0 =
      (s.dropWhile inString).getD 0 0 := getD_behind h inString 0
  have hbody : (0 : UInt8) ∉ s.takeWhile inString := fun hmem =>
    absurd (List.mem_takeWhile_imp hmem) (by decide)
  rw [createString_window (by omega) (lt_of_drop h), hstop]
  simp only
  rw [hend]
  by_cases hfuel : (s.takeWhile inString).length < fuel
  · rw [if_pos hfuel]
    rcases dropWhile_inString s with ⟨hopen, _⟩ | ⟨rest, hclosed⟩
    · rw [if_pos hopen, show i + 1 + (s.takeWhile inString).length =
        i + (34 :: s.takeWhile inString).length from by rw [List.length_cons]; omega]
      have hdrop : bytes.drop i = (34 :: s.takeWhile inString) ++ s.dropWhile inString := by
        rw [h, List.cons_append, List.takeWhile_append_dropWhile]
      have h0 : (0 : UInt8) ∉ 34 :: s.takeWhile inString := by simp [hbody]
      exact finds_token hdrop h0 (by simp) (.openString h)
    · have hnot : (s.dropWhile inString).getD 0 0 ≠ 0 := by simp [hclosed]
      have hbody' : bytes.drop (i + 1) = s.takeWhile inString ++ s.dropWhile inString := by
        rw [hnext, List.takeWhile_append_dropWhile]
      have hslice := slice_of_prefix hbody'
      rw [if_neg hnot, hslice, cString_eq hbody, Nat.add_sub_cancel_left]
      by_cases hlong : maxLexeme ≤ (s.takeWhile inString).length
      · rw [if_pos hlong]
        exact finds_error _
      · rw [if_neg hlong]
        exact finds_scanned (.string h hclosed)
  · rw [if_neg hfuel]
    exact finds_error _

omit h in
theorem finds_createCommentToken (h : bytes.drop i = 47 :: 47 :: s) :
    Finds bytes i line (scanned (createCommentToken (window bytes i (i + 2) line))) := by
  have hnext : bytes.drop (i + 1) = 47 :: s := drop_succ_of_drop h
  have hfile := length_of_drop hnext
  have hrun : run (· ≠ 10) bytes (i + 2) = (s.takeWhile (· ≠ 10)).length :=
    run_of_drop hnext (· ≠ 10)
  have htext : bytes.drop (i + 2) = s.takeWhile (· ≠ 10) ++ s.dropWhile (· ≠ 10) := by
    rw [List.takeWhile_append_dropWhile]
    exact drop_succ_of_drop hnext
  have hslice := slice_of_prefix htext
  rw [createCommentToken_window, hrun]
  simp only
  rw [hslice]
  by_cases hfits : i + 2 + (s.takeWhile (· ≠ 10)).length < bytes.length ∧
      (s.takeWhile (· ≠ 10)).length < maxLexeme
  · rw [if_pos hfits]
    rcases dropWhile_newline s with ⟨_, hlen⟩ | ⟨_, rest, hclosed, _⟩
    · omega
    · exact finds_scanned (.comment h hclosed)
  · rw [if_neg hfits]
    exact finds_error _

/-- **What a call finds.** -/
theorem scanToken_finds (h255 : (255 : UInt8) ∉ bytes) :
    Finds bytes i line (scanToken fuel (window bytes i i line)) := by
  have hi := lt_of_drop h
  have hbyte : bytes.getD i 0 = c := getD_of_drop h 0
  have hone {type : TokenType} (hc : c ≠ 0 ∧ c ≠ 10 ∧ c ≠ 34) (hslash : ¬ [47, 47] <+: c :: s)
      (htype : type ≠ .tComment ∧ type ≠ .tStringLit) (hname : type ≠ .tIdentifier) :
      Finds bytes i line (scanned (createToken type (window bytes i (i + 1) line))) :=
    @finds_word bytes i line type [c] s h (by simp) (by simpa using hc) (h ▸ hslash) htype
      fun heq => absurd heq hname
  cases firstByte c with
  | single hc =>
    rw [scanToken_single hi (hbyte.symm ▸ hc)]
    simp only [singles, List.mem_cons, Prod.mk.injEq, List.not_mem_nil, or_false] at hc
    rcases hc with ⟨rfl, rfl⟩ | ⟨rfl, rfl⟩ | ⟨rfl, rfl⟩ | ⟨rfl, rfl⟩ | ⟨rfl, rfl⟩ | ⟨rfl, rfl⟩ |
      ⟨rfl, rfl⟩ | ⟨rfl, rfl⟩ | ⟨rfl, rfl⟩ | ⟨rfl, rfl⟩ | ⟨rfl, rfl⟩ | ⟨rfl, rfl⟩ <;>
      exact hone (by decide) (not_slashes (by decide)) (by decide) (by decide)
  | @pair second pair single hc =>
    rw [scanToken_pair hi (hbyte.symm ▸ hc)]
    obtain ⟨hc0, hc47, hs0, hpair, hsingle, hnames⟩ := plain_of_pair hc
    by_cases hsecond : bytes.getD (i + 1) 0 = second
    · obtain ⟨l, rfl⟩ := (second_iff hs0.1 h).mp hsecond
      have hplain : ∀ b ∈ [c, second], b ≠ 0 ∧ b ≠ 10 ∧ b ≠ 34 := by simp [hc0, hs0]
      have hword := @finds_word bytes i line pair [c, second] l h (by simp) hplain
        (h ▸ not_slashes hc47) hpair fun heq => absurd heq hnames.1
      rw [if_pos hsecond]
      exact hword
    · rw [if_neg hsecond]
      exact hone hc0 (not_slashes hc47) hsingle hnames.2
  | slash hc =>
    subst hc
    rw [scanToken_slash hi hbyte]
    have hcomment := @second_iff bytes i s 47 47 (by decide) h
    by_cases hsecond : bytes.getD (i + 1) 0 = 47
    · obtain ⟨l, rfl⟩ := hcomment.mp hsecond
      rw [if_pos hsecond]
      exact finds_createCommentToken h
    · have hslash : ¬ [47, 47] <+: 47 :: s := by
        intro hslashes
        obtain ⟨l, heq⟩ := (List.cons_prefix_cons.mp hslashes).2
        exact hsecond (hcomment.mpr ⟨l, heq.symm⟩)
      rw [if_neg hsecond]
      exact hone (by decide) hslash (by decide) (by decide)
  | quote hc =>
    subst hc
    rw [scanToken_quote hi hbyte]
    exact finds_createString h
  | blank hc =>
    rw [scanToken_newline hi (hbyte.symm ▸ hc), hbyte]
    intro temp t heq
    obtain ⟨rfl, rfl⟩ := Prod.mk.inj (Except.ok.inj heq)
    exact .blank h hc
  | letter ho ha =>
    rw [scanToken_other hi (hbyte.symm ▸ ho) (Nat.le_refl i), hbyte, if_pos ha]
    exact finds_createIdentifer h ho ha
  | digit ho hd ha =>
    rw [scanToken_other hi (hbyte.symm ▸ ho) (Nat.le_refl i), hbyte, ha, if_neg (by simp), if_pos hd]
    exact finds_createNumber h h255 ho hd
  | unknown ho hd ha =>
    rw [scanToken_other hi (hbyte.symm ▸ ho) (Nat.le_refl i), hbyte, ha, hd, if_neg (by simp),
      if_neg (by simp), if_neg (by rw [Nat.add_sub_cancel_left]; decide)]
    exact finds_error _

end finds

section found
variable {bytes : CString} {i line : Nat} {temp : Option Token} {t : Tokenizer}

theorem Found.window (h : Found bytes i line temp t) :
    ∃ start, t = Tokenizer.window bytes start t.curIdx t.curLine := by
  cases h with
  | blank h hc => exact ⟨_, rfl⟩
  | word h hne hw hslash htype hname => exact ⟨_, rfl⟩
  | string h hclosed => exact ⟨_, rfl⟩
  | openString h => exact ⟨_, rfl⟩
  | comment h hclosed => exact ⟨_, rfl⟩

theorem Found.lt (h : Found bytes i line temp t) : i < t.curIdx := by
  cases h with
  | blank h hc => exact Nat.lt_succ_self i
  | word h hne hw hslash htype hname =>
    have hpos := List.length_pos_iff.mpr hne
    rw [window_curIdx]
    omega
  | string h hclosed => rw [window_curIdx]; omega
  | openString h => rw [window_curIdx, List.length_cons]; omega
  | comment h hclosed => rw [window_curIdx]; omega

theorem Found.le (h : Found bytes i line temp t) : t.curIdx ≤ bytes.length := by
  cases h with
  | blank h hc => exact lt_of_drop h
  | word h hne hw hslash htype hname =>
    have hlen := congrArg List.length h
    have hpos := List.length_pos_iff.mpr hne
    rw [List.length_drop, List.length_append] at hlen
    rw [window_curIdx]
    omega
  | @string s rest h hclosed =>
    have hlen := length_of_drop h
    have hsplit := congrArg List.length (List.takeWhile_append_dropWhile (p := inString) (l := s))
    rw [List.length_append, hclosed, List.length_cons] at hsplit
    rw [window_curIdx]
    omega
  | @openString s h =>
    have hlen := length_of_drop h
    have hstart := (List.takeWhile_prefix inString (l := s)).length_le
    rw [window_curIdx, List.length_cons]
    omega
  | @comment s rest h hclosed =>
    have hlen := length_of_drop h
    have hstart := (List.takeWhile_prefix (· ≠ (10 : UInt8)) (l := s)).length_le
    rw [List.length_cons] at hlen
    rw [window_curIdx]
    omega

end found

end ACompiler
