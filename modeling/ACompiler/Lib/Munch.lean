import Mathlib.Data.List.Basic

/-!
# Maximal munch

A lexer that is given by the words it knows: `kind w` is what a complete word `w` is, if it is one.
From every position the longest word is taken (`munch`), until no word starts there (`lex`).
-/

namespace ACompiler.Lib

variable {α κ : Type}

/-- The longest of the first `n` non-empty prefixes that is a word, with its kind and what follows. -/
def munchUpTo (kind : List α → Option κ) (s : List α) : Nat → Option (List α × κ × List α)
  | 0 => none
  | n + 1 =>
    match kind (s.take (n + 1)) with
    | some x => some (s.take (n + 1), x, s.drop (n + 1))
    | none => munchUpTo kind s n

/-- The longest word at the start of `s`, its kind and what follows. -/
def munch (kind : List α → Option κ) (s : List α) : Option (List α × κ × List α) :=
  munchUpTo kind s s.length

/-- The words from the start of `s` on, each with its kind and what follows, and where no word
starts; at most `n` of them. -/
def lexUpTo (kind : List α → Option κ) : Nat → List α → List (List α × κ × List α) × List α
  | 0, s => ([], s)
  | n + 1, s =>
    match munch kind s with
    | none => ([], s)
    | some (w, x, rest) => ((w, x, rest) :: (lexUpTo kind n rest).1, (lexUpTo kind n rest).2)

def lex (kind : List α → Option κ) (s : List α) : List (List α × κ × List α) × List α :=
  lexUpTo kind s.length s

/-- `w` is the longest prefix of `s` with a property. -/
structure Longest (P : List α → Prop) (s w : List α) : Prop where
  start : w <+: s
  holds : P w
  max : ∀ v, v <+: s → P v → v.length ≤ w.length

variable {kind : List α → Option κ} {s w rest : List α} {x : κ}

/-! ## The longest word -/

theorem munchUpTo_spec (kind : List α → Option κ) (s : List α) : ∀ n, n ≤ s.length →
    (munchUpTo kind s n = none ∧ ∀ m, 0 < m → m ≤ n → kind (s.take m) = none) ∨
      ∃ m x, 0 < m ∧ m ≤ n ∧ munchUpTo kind s n = some (s.take m, x, s.drop m) ∧
        kind (s.take m) = some x ∧ ∀ m', m < m' → m' ≤ n → kind (s.take m') = none := by
  intro n
  induction n with
  | zero => exact fun _ => .inl ⟨rfl, fun m h0 hm => by omega⟩
  | succ n ih =>
    intro hn
    rw [munchUpTo]
    cases hk : kind (s.take (n + 1)) with
    | some x => exact .inr ⟨n + 1, x, by omega, Nat.le_refl _, rfl, hk, fun m' h h' => by omega⟩
    | none =>
      have hlast : ∀ m, n < m → m ≤ n + 1 → kind (s.take m) = none := by
        intro m h h'
        rw [show m = n + 1 from by omega, hk]
      rcases ih (by omega) with ⟨hnone, hall⟩ | ⟨m, x, h0, hm, heq, hx, hmax⟩
      · refine .inl ⟨hnone, fun m h0 hm => ?_⟩
        rcases Nat.lt_or_ge n m with h | h
        · exact hlast m h hm
        · exact hall m h0 h
      · refine .inr ⟨m, x, h0, by omega, heq, hx, fun m' h h' => ?_⟩
        rcases Nat.lt_or_ge n m' with h'' | h''
        · exact hlast m' h'' h'
        · exact hmax m' h h''

/-- **A word is the longest** when no word goes on behind it. -/
theorem munch_eq_some (hw : w ≠ []) (hx : kind w = some x)
    (hmax : ∀ a l l', rest = a :: l ++ l' → kind (w ++ a :: l) = none) :
    munch kind (w ++ rest) = some (w, x, rest) := by
  have hlen : 0 < w.length := List.length_pos_iff.mpr hw
  have hlonger : ∀ m, w.length < m → m ≤ (w ++ rest).length →
      kind ((w ++ rest).take m) = none := by
    intro m h hm
    rw [List.length_append] at hm
    rw [List.take_append, List.take_of_length_le (by omega)]
    cases hrest : rest.take (m - w.length) with
    | nil =>
      have hzero := congrArg List.length hrest
      rw [List.length_take, List.length_nil] at hzero
      omega
    | cons a l =>
      exact hmax a l (rest.drop (m - w.length)) (by rw [← hrest, List.take_append_drop])
  rw [munch]
  rcases munchUpTo_spec kind (w ++ rest) _ (Nat.le_refl _) with ⟨_, hall⟩ | ⟨m, y, h0, hm, heq, hy, hm'⟩
  · have h := hall w.length hlen (by simp)
    rw [List.take_left, hx] at h
    exact absurd h (by simp)
  · obtain hlt | rfl | hlt := Nat.lt_trichotomy m w.length
    · have h := hm' w.length hlt (by simp)
      rw [List.take_left, hx] at h
      exact absurd h (by simp)
    · rw [List.take_left] at hy
      obtain rfl := Option.some.inj (hx.symm.trans hy)
      rw [heq, List.take_left, List.drop_left]
    · rw [hlonger m hlt hm] at hy
      exact absurd hy (by simp)

/-- A word that starts with `w` goes on as long as its elements pass a test. -/
theorem munch_takeWhile {test : α → Bool} {x : List α → κ} (hw : w ≠ [])
    (hk : ∀ l, kind (w ++ l) = if l.all test then some (x l) else none) (s : List α) :
    munch kind (w ++ s) =
      some (w ++ s.takeWhile test, x (s.takeWhile test), s.dropWhile test) := by
  have hsplit : w ++ s = (w ++ s.takeWhile test) ++ s.dropWhile test := by
    rw [List.append_assoc, List.takeWhile_append_dropWhile]
  rw [hsplit]
  refine munch_eq_some (by simp [hw]) ?_ fun a l l' hrest => ?_
  · rw [hk, if_pos List.all_takeWhile]
  · have ha := List.head?_dropWhile_not test s
    simp only [hrest, List.cons_append, List.head?_cons] at ha
    rw [List.append_assoc, hk, if_neg (by simp [ha])]

/-- What `munch` finds is a word at the start of the text. -/
theorem munch_spec (h : munch kind s = some (w, x, rest)) : s = w ++ rest ∧ w ≠ [] ∧ kind w = some x := by
  rw [munch] at h
  rcases munchUpTo_spec kind s _ (Nat.le_refl _) with ⟨hnone, _⟩ | ⟨m, y, h0, hm, heq, hy, _⟩
  · rw [hnone] at h
    exact absurd h (by simp)
  · rw [heq] at h
    simp only [Option.some.injEq, Prod.mk.injEq] at h
    obtain ⟨rfl, rfl, rfl⟩ := h
    refine ⟨(List.take_append_drop m s).symm, fun hnil => ?_, hy⟩
    have hlen := congrArg List.length hnil
    rw [List.length_take, List.length_nil] at hlen
    omega

/-- No word starts where no prefix is one. -/
theorem munch_eq_none (h : ∀ m, 0 < m → m ≤ s.length → kind (s.take m) = none) :
    munch kind s = none := by
  rw [munch]
  rcases munchUpTo_spec kind s _ (Nat.le_refl _) with ⟨hnone, _⟩ | ⟨m, y, h0, hm, _, hy, _⟩
  · exact hnone
  · rw [h m h0 hm] at hy
    exact absurd hy (by simp)

/-! ## All words -/

theorem lexUpTo_eq (kind : List α → Option κ) : ∀ (n : Nat) (s : List α), s.length ≤ n →
    lexUpTo kind n s = lex kind s := by
  have hstep : ∀ (n m : Nat) (s : List α), s.length ≤ n → s.length ≤ m →
      lexUpTo kind n s = lexUpTo kind m s := by
    intro n
    induction n with
    | zero =>
      intro m s hn _
      obtain rfl := List.length_eq_zero_iff.mp (Nat.le_zero.mp hn)
      cases m with
      | zero => rfl
      | succ m => rfl
    | succ n ih =>
      intro m s hn hm
      cases m with
      | zero =>
        obtain rfl := List.length_eq_zero_iff.mp (Nat.le_zero.mp hm)
        rfl
      | succ m =>
        rw [lexUpTo, lexUpTo]
        cases hs : munch kind s with
        | none => rfl
        | some r =>
          obtain ⟨w, x, rest⟩ := r
          obtain ⟨heq, hne, _⟩ := munch_spec hs
          have hlen : w.length + rest.length = s.length := by rw [heq, List.length_append]
          have hpos := List.length_pos_iff.mpr hne
          simp only [ih m rest (by omega) (by omega)]
  exact fun n s h => hstep n s.length s h (Nat.le_refl _)

theorem lex_of_none (h : munch kind s = none) : lex kind s = ([], s) := by
  rw [lex]
  cases hs : s.length with
  | zero => rfl
  | succ n => rw [lexUpTo, h]

theorem lex_of_some (h : munch kind s = some (w, x, rest)) :
    lex kind s = ((w, x, rest) :: (lex kind rest).1, (lex kind rest).2) := by
  obtain ⟨heq, hne, _⟩ := munch_spec h
  have hlen : w.length + rest.length = s.length := by rw [heq, List.length_append]
  have hpos := List.length_pos_iff.mpr hne
  rw [lex, show s.length = (s.length - 1) + 1 from by omega, lexUpTo, h,
    ← lexUpTo_eq kind (s.length - 1) rest (by omega)]

end ACompiler.Lib
