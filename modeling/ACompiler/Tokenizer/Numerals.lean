import ACompiler.Tokenizer.Buffers

/-!
# Numbers in a source

`createNumber` looks for digits and separators, then for a decimal point with digits behind it:
the longest `Numeral` from a digit on. The loop over the second part does not look at the next byte,
so it is only without that part that a number is found.
-/

namespace ACompiler

open Tokenizer
open Lib (Longest)

/-- Digits and separators, and perhaps a point and more digits. -/
inductive Numeral : CString → Prop
  | whole {w : CString} (hw : isNumber w = true) : Numeral w
  | decimal {w digits : CString} (hw : isNumber w = true) (hne : digits ≠ [])
      (hdigits : digits.all isdigit = true) : Numeral (w ++ 46 :: digits)

/-! ## The longest numeral -/

/-- A prefix that passes a test lies in the longest one. -/
theorem prefix_takeWhile {α : Type} {test : α → Bool} {l s : List α} (h : l <+: s)
    (hl : l.all test = true) : l <+: s.takeWhile test := by
  obtain ⟨rest, rfl⟩ := h
  rw [List.takeWhile_append_of_pos (List.all_eq_true.mp hl)]
  exact List.prefix_append _ _

section longest
variable {c : UInt8} {s : CString} (hd : isdigit c = true)

theorem isNumber_prefix {w : CString} (hw : isNumber w = true) (h : w <+: c :: s) :
    ∃ cs, w = c :: cs ∧ cs <+: s ∧ cs.all inNumber = true := by
  cases w with
  | nil => exact absurd hw (by decide)
  | cons d cs =>
    obtain ⟨rfl, hcs⟩ := List.cons_prefix_cons.mp h
    simp only [isNumber, Bool.and_eq_true] at hw
    exact ⟨cs, rfl, hcs, hw.2⟩

include hd in
theorem isNumber_takeWhile : isNumber (c :: s.takeWhile inNumber) = true := by
  simp only [isNumber, hd, Bool.true_and]
  exact List.all_takeWhile

theorem isNumber_bytes {w : CString} (hw : isNumber w = true) : ∀ b ∈ w, inNumber b = true := by
  cases w with
  | nil => simp
  | cons c cs =>
    simp only [isNumber, Bool.and_eq_true] at hw
    intro b hb
    rcases List.mem_cons.mp hb with rfl | hb
    · rw [inNumber, hw.1, Bool.true_or]
    · exact List.all_eq_true.mp hw.2 b hb

/-- In front of a decimal point there is all that can be. -/
theorem numeral_point {w digits : CString} (hw : isNumber w = true) (hne : digits ≠ [])
    (hdigits : digits.all isdigit = true) (h : w ++ 46 :: digits <+: c :: s) :
    w = c :: s.takeWhile inNumber ∧ decimalPart (s.dropWhile inNumber) = true ∧
      digits <+: ((s.dropWhile inNumber).drop 1).takeWhile isdigit := by
  obtain ⟨cs, rfl, _, hcs⟩ := isNumber_prefix hw ((List.prefix_append _ _).trans h)
  rw [List.cons_append, List.cons_prefix_cons] at h
  obtain ⟨_, rest, rfl⟩ := h
  have hpoint : ∀ l : CString, (cs ++ 46 :: l).takeWhile inNumber = cs ∧
      (cs ++ 46 :: l).dropWhile inNumber = 46 :: l := by
    intro l
    have hcs' := List.all_eq_true.mp hcs
    rw [List.takeWhile_append_of_pos hcs', List.dropWhile_append_of_pos hcs',
      List.takeWhile_cons_of_neg (by decide), List.dropWhile_cons_of_neg (by decide), List.append_nil]
    exact ⟨rfl, rfl⟩
  rw [List.append_assoc, List.cons_append, (hpoint _).1, (hpoint _).2]
  refine ⟨rfl, ?_, prefix_takeWhile (List.prefix_append _ _) hdigits⟩
  cases digits with
  | nil => exact absurd rfl hne
  | cons d l =>
    simp only [List.all_cons, Bool.and_eq_true] at hdigits
    exact hdigits.1

include hd in
theorem longest_whole (hpoint : decimalPart (s.dropWhile inNumber) = false) :
    Longest Numeral (c :: s) (c :: s.takeWhile inNumber) := by
  refine ⟨List.cons_prefix_cons.mpr ⟨rfl, List.takeWhile_prefix _⟩, .whole (isNumber_takeWhile hd), ?_⟩
  intro v hv hnumeral
  cases hnumeral with
  | whole hw =>
    obtain ⟨cs, rfl, hcs, hall⟩ := isNumber_prefix hw hv
    simpa using (prefix_takeWhile hcs hall).length_le
  | decimal hw hne hdigits =>
    obtain ⟨_, hp, _⟩ := numeral_point hw hne hdigits hv
    exact absurd (hpoint.symm.trans hp) (by simp)

include hd in
theorem longest_decimal (hpoint : decimalPart (s.dropWhile inNumber) = true) :
    Longest Numeral (c :: s) (c :: s.takeWhile inNumber ++
      46 :: ((s.dropWhile inNumber).drop 1).takeWhile isdigit) := by
  obtain ⟨d, rest, hrest, hdigit⟩ : ∃ d rest, s.dropWhile inNumber = 46 :: d :: rest ∧
      isdigit d = true := by
    unfold decimalPart at hpoint
    split at hpoint
    · next d rest heq => exact ⟨d, rest, heq, hpoint⟩
    · exact absurd hpoint (by simp)
  have hdigits : ((s.dropWhile inNumber).drop 1).takeWhile isdigit = d :: rest.takeWhile isdigit := by
    rw [hrest, List.drop_one, List.tail_cons, List.takeWhile_cons_of_pos hdigit]
  refine ⟨?_, .decimal (isNumber_takeWhile hd) ?_ List.all_takeWhile, ?_⟩
  · rw [hdigits, List.cons_append, List.cons_prefix_cons]
    refine ⟨rfl, rest.dropWhile isdigit, ?_⟩
    rw [List.append_assoc, List.cons_append, List.cons_append, List.takeWhile_append_dropWhile,
      ← hrest, List.takeWhile_append_dropWhile]
  · rw [hdigits]
    exact List.cons_ne_nil _ _
  · intro v hv hnumeral
    cases hnumeral with
    | whole hw =>
      obtain ⟨cs, rfl, hcs, hall⟩ := isNumber_prefix hw hv
      have hlen := (prefix_takeWhile hcs hall).length_le
      simp only [List.length_append, List.length_cons]
      omega
    | decimal hw hne hall =>
      obtain ⟨rfl, _, hlast⟩ := numeral_point hw hne hall hv
      have hlen := hlast.length_le
      simp only [List.length_append, List.length_cons]
      omega

end longest

/-! ## The scan -/

section scan
variable {bytes : CString} {i : Nat} {t : Tokenizer}

/-- A number in the text is one in the file. -/
theorem createNumber_source {c : UInt8} {s : CString} (h : StandsOn bytes i i t)
    (hdrop : (sourceText bytes).drop i = c :: s) (fuel : Nat) :
    CutResult bytes (createNumber fuel t.advance.2)
      (createNumber fuel (window (sourceText bytes) i (i + 1) t.curLine)) := by
  have hi := lt_of_drop hdrop
  have hcut := h.cut (Nat.le_refl i) (by omega)
  have hadvance := (hcut.advance (by rw [h.curIdx, h.filesize]; exact hi)).2
  rw [advance_window hi] at hadvance
  exact hadvance.createNumber fuel

/-- A number without a decimal part, on a window. -/
theorem createNumber_eq {c : UInt8} {s : CString} {line fuel : Nat} (hd : isdigit c = true)
    (h255 : (255 : UInt8) ∉ bytes) (hdrop : bytes.drop i = c :: s) (hfuel : bytes.length < fuel)
    (hpoint : decimalPart (s.dropWhile inNumber) = false) :
    createNumber fuel (window bytes i (i + 1) line) =
      if maxLexeme ≤ (c :: s.takeWhile inNumber).length then .error .overflow
      else .ok (⟨.tNumberLit, c :: s.takeWhile inNumber, (c :: s.takeWhile inNumber).length, line,
          i + (c :: s.takeWhile inNumber).length⟩,
        window bytes i (i + (c :: s.takeWhile inNumber).length) line) := by
  have hprefix := (List.takeWhile_prefix inNumber (l := s)).length_le
  have hfile := length_of_drop hdrop
  have hlength : i + (c :: s.takeWhile inNumber).length ≤ bytes.length := by
    rw [List.length_cons]
    omega
  have h0 : (0 : UInt8) ∉ c :: s.takeWhile inNumber := fun h =>
    absurd (isNumber_bytes (isNumber_takeWhile hd) 0 h) (by decide)
  rw [createNumber_whole hdrop hfuel h255 hpoint, createToken_window _ (Nat.le_add_right _ _) hlength,
    Nat.add_sub_cancel_left, slice_takeWhile hdrop, cString_eq h0]

/-- **Number scanning returns the longest number exactly if it has no decimal part** and fits. -/
theorem createNumber_longest_iff (h : StandsOn bytes i i t)
    (hdigit : isdigit ((sourceText bytes).getD i 0) = true) :
    ∃ w, Longest Numeral ((sourceText bytes).drop i) w ∧
      ((∃ n, ∀ fuel, n ≤ fuel → ∃ token t', createNumber fuel t.advance.2 = .ok (token, t') ∧
          token.type = .tNumberLit ∧ token.lexeme = w ∧ StandsOn bytes i (i + w.length) t') ↔
        (46 : UInt8) ∉ w ∧ w.length < maxLexeme) := by
  have hi : i < (sourceText bytes).length := @lt_of_test _ i isdigit (by decide) hdigit
  have h255 := not_mem_sourceText bytes
  obtain ⟨c, s, hdrop⟩ : ∃ c s, (sourceText bytes).drop i = c :: s :=
    ⟨_, _, List.drop_eq_getElem_cons hi⟩
  have hc : (sourceText bytes).getD i 0 = c := getD_of_drop hdrop 0
  rw [hc] at hdigit
  rw [hdrop]
  cases hpoint : decimalPart (s.dropWhile inNumber) with
  | true =>
    refine ⟨_, longest_decimal hdigit hpoint, iff_of_false ?_ (by simp)⟩
    rintro ⟨n, hok⟩
    obtain ⟨token, t', hscan, _⟩ := hok n (Nat.le_refl n)
    have hsource := createNumber_source h hdrop n
    rw [hscan, createNumber_decimal hdrop h255 hpoint] at hsource
    exact absurd hsource.of_ok (by simp)
  | false =>
    refine ⟨_, longest_whole hdigit hpoint, ?_⟩
    constructor
    · rintro ⟨n, hok⟩
      refine ⟨fun h46 => absurd (isNumber_bytes (isNumber_takeWhile hdigit) 46 h46) (by decide), ?_⟩
      by_contra hlong
      obtain ⟨token, t', hscan, _⟩ := hok (n + (sourceText bytes).length + 1) (by omega)
      have hsource := createNumber_source h hdrop (n + (sourceText bytes).length + 1)
      rw [hscan, createNumber_eq hdigit h255 hdrop (by omega) hpoint, if_pos (by omega)] at hsource
      exact absurd hsource.of_ok (by simp)
    · rintro ⟨_, hshort⟩
      refine ⟨(sourceText bytes).length + 1, fun fuel hfuel => ?_⟩
      have hsource := createNumber_source h hdrop fuel
      rw [createNumber_eq hdigit h255 hdrop (by omega) hpoint, if_neg (by omega)] at hsource
      obtain ⟨⟨token, t'⟩, hscan, htoken, hcut⟩ := hsource.of_ok_right
      obtain rfl : token = _ := htoken
      exact ⟨_, t', hscan, rfl, rfl, hcut.standsOn⟩

end scan

/-- `15;` -/
theorem createNumber_longest_iff_fifteen :
    isdigit ((sourceText (ascii "15;")).getD 0 0) = true ∧
    ∃ w, Longest Numeral (sourceText (ascii "15;")) w ∧
      ((∃ n, ∀ fuel, n ≤ fuel → ∃ token t',
          createNumber fuel (sourceInit (ascii "15;")).advance.2 = .ok (token, t') ∧
          token.type = .tNumberLit ∧ token.lexeme = w ∧
          StandsOn (ascii "15;") 0 (0 + w.length) t') ↔
        (46 : UInt8) ∉ w ∧ w.length < maxLexeme) :=
  ⟨by decide, createNumber_longest_iff (@Calls.standsOn _ 0 _ _ .nil) (by decide)⟩

/-- On `1.5` the tokenizer does not come back. -/
theorem createNumber_onePointFive :
    ¬ ∃ fuel r, createNumber fuel (sourceInit (ascii "1.5")).advance.2 = .ok r := by
  rintro ⟨fuel, r, hok⟩
  have hsource := createNumber_source (@Calls.standsOn (ascii "1.5") 0 _ _ .nil)
    (show _ = 49 :: [46, 53] from rfl) fuel
  rw [createNumber_decimal (show _ = 49 :: [46, 53] from rfl) (by decide) (by decide)] at hsource
  have herror := hsource.error_iff.mpr rfl
  exact absurd (hok.symm.trans herror) (by simp)

end ACompiler
