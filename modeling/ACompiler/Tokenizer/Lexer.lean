import ACompiler.Lib.Munch
import ACompiler.Tokenizer.Scan

/-!
# The words of the language

What a complete word is, said word by word and without an order of scanning: `lex lexemeKind` is the
longest-match lexer of the language. The equations say which words begin with a given byte.
-/

namespace ACompiler

open Tokenizer
open Lib (munch lex)

/-- What a word stands for: nothing, or a token with its text. -/
inductive LexemeKind
  | skip
  | token (type : TokenType) (text : CString)
  deriving DecidableEq, Repr

/-- The operators and the punctuation. -/
def operators : List (CString × TokenType) :=
  [(ascii "(", .tLeftParen), (ascii ")", .tRightParen), (ascii "\x7b", .tLeftBrace),
    (ascii "\x7d", .tRightBrace), (ascii "[", .tLeftBracket), (ascii "]", .tRightBracket),
    (ascii ",", .tComma), (ascii ".", .tDot), (ascii ";", .tSemicolon), (ascii ":", .tColon),
    (ascii "&", .tAnd), (ascii "*", .tStar), (ascii "/", .tDivide), (ascii "-", .tMinus),
    (ascii "--", .tMinusMinus), (ascii "+", .tPlus), (ascii "++", .tPlusPlus), (ascii "!", .tNot),
    (ascii "!=", .tNotEqual), (ascii "=", .tEqual), (ascii "==", .tEqualEqual),
    (ascii "<", .tLess), (ascii "<=", .tLessEqual), (ascii ">", .tGreater),
    (ascii ">=", .tGreaterEqual)]

/-- `[A-Za-z][A-Za-z0-9]*` -/
def isName : CString → Bool
  | [] => false
  | c :: cs => isalpha c && cs.all fun c => isalpha c || isdigit c

/-- `[0-9][0-9_]*` -/
def isNumber : CString → Bool
  | [] => false
  | c :: cs => isdigit c && cs.all fun c => isdigit c || c = 95

/-- `//` and anything up to the end of the line. -/
def isComment : CString → Bool
  | 47 :: 47 :: text => text.all (· ≠ 10)
  | _ => false

/-- A quote, text without quotes, and a quote. -/
def isString : CString → Bool
  | 34 :: body => body.getLast? = some 34 && body.dropLast.all (· ≠ 34)
  | _ => false

/-- A quote, and text without quotes. -/
def isOpenString : CString → Bool
  | 34 :: body => body.all (· ≠ 34)
  | _ => false

/-- The words of more than one shape: names, numbers, comments and strings. A string that is not
closed is unknown. -/
def longKind (w : CString) : Option LexemeKind :=
  if isName w then some (.token ((keywords.lookup w).getD .tIdentifier) w)
  else if isNumber w then some (.token .tNumberLit w)
  else if isComment w then some (.token .tComment (w.drop 2))
  else if isString w then some (.token .tStringLit (w.drop 1).dropLast)
  else if isOpenString w then some (.token .tUnknown w)
  else none

/-- The words of the language. -/
def lexemeKind (w : CString) : Option LexemeKind :=
  if w ∈ [ascii " ", ascii "\t", ascii "\r", ascii "\n"] then some .skip
  else
    match operators.lookup w with
    | none => longKind w
    | some type => some (.token type w)

/-- `token_hash` knows the keywords. -/
theorem tokenHash_getHt (w : CString) : tokenHash.getHt w = keywords.lookup w := by
  by_cases h : w ∈ keywords.map Prod.fst
  · simp only [keywords, List.map_cons, List.map_nil, List.mem_cons, List.not_mem_nil,
      or_false] at h
    rcases h with rfl | rfl | rfl | rfl | rfl | rfl | rfl | rfl | rfl | rfl <;> decide
  · have hlookup : keywords.lookup w = none := by
      rw [List.lookup_eq_none_iff]
      intro entry hentry
      have hne : w ≠ entry.1 := fun heq => h (heq ▸ List.mem_map_of_mem hentry)
      simpa using hne
    have hadded : ∀ (entries : List (CString × TokenType)) (table : HashTable TokenType),
        w ∉ entries.map Prod.fst →
          (entries.foldl (fun h entry => h.addHt entry.1 entry.2) table).getHt w = table.getHt w := by
      intro entries
      induction entries with
      | nil => exact fun _ _ => rfl
      | cons entry entries ih =>
        intro table hw
        rw [List.map_cons, List.mem_cons, not_or] at hw
        rw [List.foldl_cons, ih _ hw.2, HashTable.getHt_addHt, if_neg hw.1]
    rw [hlookup, tokenHash, hadded _ _ h, HashTable.getHt_createHt]

/-! ## Words by their first byte -/

theorem operators_eq : operators =
    [([40], .tLeftParen), ([41], .tRightParen), ([123], .tLeftBrace), ([125], .tRightBrace),
      ([91], .tLeftBracket), ([93], .tRightBracket), ([44], .tComma), ([46], .tDot),
      ([59], .tSemicolon), ([58], .tColon), ([38], .tAnd), ([42], .tStar), ([47], .tDivide),
      ([45], .tMinus), ([45, 45], .tMinusMinus), ([43], .tPlus), ([43, 43], .tPlusPlus),
      ([33], .tNot), ([33, 61], .tNotEqual), ([61], .tEqual), ([61, 61], .tEqualEqual),
      ([60], .tLess), ([60, 61], .tLessEqual), ([62], .tGreater), ([62, 61], .tGreaterEqual)] := by
  decide

theorem blankWords_eq : [ascii " ", ascii "\t", ascii "\r", ascii "\n"] = [[32], [9], [13], [10]] := by
  decide

theorem longKind_eq_none {c : UInt8} (ha : isalpha c = false) (hd : isdigit c = false)
    (hslash : c ≠ 47) (hquote : c ≠ 34) (w : CString) : longKind (c :: w) = none := by
  have hcomment : isComment (c :: w) = false := by
    unfold isComment
    split
    · rename_i heq
      exact absurd (List.cons.inj heq).1 hslash
    · rfl
  have hstring : isString (c :: w) = false := by
    unfold isString
    split
    · rename_i heq
      exact absurd (List.cons.inj heq).1 hquote
    · rfl
  have hopen : isOpenString (c :: w) = false := by
    unfold isOpenString
    split
    · rename_i heq
      exact absurd (List.cons.inj heq).1 hquote
    · rfl
  simp [longKind, isName, isNumber, ha, hd, hcomment, hstring, hopen]

theorem lexemeKind_single {c : UInt8} {type : TokenType} (h : (c, type) ∈ singles) (w : CString) :
    lexemeKind (c :: w) = if w = [] then some (.token type [c]) else none := by
  simp only [singles, List.mem_cons, Prod.mk.injEq, List.not_mem_nil, or_false] at h
  unfold lexemeKind
  rw [operators_eq, blankWords_eq]
  rcases h with ⟨rfl, rfl⟩ | ⟨rfl, rfl⟩ | ⟨rfl, rfl⟩ | ⟨rfl, rfl⟩ | ⟨rfl, rfl⟩ | ⟨rfl, rfl⟩ |
    ⟨rfl, rfl⟩ | ⟨rfl, rfl⟩ | ⟨rfl, rfl⟩ | ⟨rfl, rfl⟩ | ⟨rfl, rfl⟩ | ⟨rfl, rfl⟩ <;>
  · rw [longKind_eq_none (by decide) (by decide) (by decide) (by decide)]
    cases w with
    | nil => rfl
    | cons d l => simp [List.lookup_cons]

theorem lexemeKind_pair {c second : UInt8} {pair single : TokenType}
    (h : (c, second, pair, single) ∈ pairs) (w : CString) :
    lexemeKind (c :: w) =
      if w = [] then some (.token single [c])
      else if w = [second] then some (.token pair [c, second]) else none := by
  simp only [pairs, List.mem_cons, Prod.mk.injEq, List.not_mem_nil, or_false] at h
  unfold lexemeKind
  rw [operators_eq, blankWords_eq]
  rcases h with ⟨rfl, hs, rfl, rfl⟩ | ⟨rfl, hs, rfl, rfl⟩ | ⟨rfl, hs, rfl, rfl⟩ |
    ⟨rfl, hs, rfl, rfl⟩ | ⟨rfl, hs, rfl, rfl⟩ | ⟨rfl, hs, rfl, rfl⟩ <;>
  · rw [longKind_eq_none (by decide) (by decide) (by decide) (by decide)]
    cases w with
    | nil => rfl
    | cons d l =>
      have hbeq : (d == second) = decide (d = second) := beq_eq_decide d second
      rw [hs] at hbeq ⊢
      by_cases hd : d = second
      · rw [hs] at hd
        cases l <;> simp [List.lookup_cons, hd]
      · rw [hs] at hd
        cases l <;> simp [List.lookup_cons, hd, hbeq]

theorem lexemeKind_blank {c : UInt8} (h : c ∈ blanks) (w : CString) :
    lexemeKind (c :: w) = if w = [] then some .skip else none := by
  simp only [blanks, List.mem_cons, List.not_mem_nil, or_false] at h
  unfold lexemeKind
  rw [operators_eq, blankWords_eq]
  rcases h with rfl | rfl | rfl | rfl <;>
  · rw [longKind_eq_none (by decide) (by decide) (by decide) (by decide)]
    cases w with
    | nil => rfl
    | cons d l => simp [List.lookup_cons]

/-- A word that begins with a slash is the division sign or a comment. -/
theorem lexemeKind_slash (w : CString) :
    lexemeKind (47 :: w) =
      if w = [] then some (.token .tDivide [47])
      else if isComment (47 :: w) then some (.token .tComment (w.drop 1)) else none := by
  unfold lexemeKind
  rw [operators_eq, blankWords_eq]
  cases w with
  | nil => rfl
  | cons d l =>
    have hname : isName (47 :: d :: l) = false := rfl
    have hnumber : isNumber (47 :: d :: l) = false := rfl
    have hstring : isString (47 :: d :: l) = false := rfl
    have hopen : isOpenString (47 :: d :: l) = false := rfl
    simp [List.lookup_cons, longKind, hname, hnumber, hstring, hopen]

/-- A word that begins with a quote is a string, closed or not. -/
theorem lexemeKind_quote (w : CString) :
    lexemeKind (34 :: w) =
      if isString (34 :: w) then some (.token .tStringLit w.dropLast)
      else if isOpenString (34 :: w) then some (.token .tUnknown (34 :: w)) else none := by
  have hname : isName (34 :: w) = false := rfl
  have hnumber : isNumber (34 :: w) = false := rfl
  have hcomment : isComment (34 :: w) = false := by simp [isComment]
  unfold lexemeKind
  rw [operators_eq, blankWords_eq]
  simp [List.lookup_cons, longKind, hname, hnumber, hcomment]

/-- The other words are names and numbers. -/
theorem lexemeKind_other {c : UInt8} (h : isOther c = true) (w : CString) :
    lexemeKind (c :: w) =
      if isName (c :: w) then some (.token ((keywords.lookup (c :: w)).getD .tIdentifier) (c :: w))
      else if isNumber (c :: w) then some (.token .tNumberLit (c :: w)) else none := by
  simp only [isOther, singles, pairs, blanks, List.map_cons, List.map_nil, List.contains_cons,
    List.contains_nil, Bool.or_false, Bool.and_eq_true, Bool.not_eq_true', Bool.or_eq_false_iff,
    decide_eq_true_eq, beq_eq_false_iff_ne, ne_eq] at h
  have hcomment : isComment (c :: w) = false := by simp [isComment, h]
  have hstring : isString (c :: w) = false := by simp [isString, h]
  have hopen : isOpenString (c :: w) = false := by simp [isOpenString, h]
  have hlookup : operators.lookup (c :: w) = none := by
    rw [List.lookup_eq_none_iff, operators_eq]
    simp [h]
  unfold lexemeKind
  rw [hlookup, blankWords_eq]
  simp [h, longKind, hcomment, hstring, hopen]

end ACompiler
