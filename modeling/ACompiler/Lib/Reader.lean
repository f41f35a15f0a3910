import Mathlib

/-!
# Readers

A reader takes a value off the front of a list. `Reads` says that it takes a given text for a given
value, wherever the text goes on in a way the reader does not take for more of it; a printer and a
reader that fit together are put together of parts that do (`Reads.bind`).
-/

namespace ACompiler.Lib

/-- A reader of values `α` off lists of `τ`. -/
abbrev Reader (τ : Type) := StateT (List τ) Option

namespace Reader

variable {τ α β : Type} [DecidableEq τ]

/-- Exactly this text. -/
def lit (w : List τ) : Reader τ Unit :=
  fun ts => if w.isPrefixOf ts then some ((), ts.drop w.length) else none

/-- As much as passes the test. -/
def runOf (test : τ → Bool) : Reader τ (List τ) :=
  fun ts => some (ts.takeWhile test, ts.dropWhile test)

/-- What comes next, left where it is. -/
def peek : Reader τ (Option τ) := fun ts => some (ts.head?, ts)

/-- A value that may be missing. -/
def ofOption (x : Option α) : Reader τ α := fun ts => x.map fun a => (a, ts)

/-- Nothing but this value. -/
def readAll (r : Reader τ α) (ts : List τ) : Option α :=
  match r ts with
  | some (a, []) => some a
  | _ => none

end Reader

open Reader

section reads
variable {τ α β : Type} {r : Reader τ α} {f : α → Reader τ β} {w w' : List τ} {x : α} {y : β}
  {P Q : List τ → Prop}

/-- The reader takes `w` for `x`, in front of everything in `P`. -/
def Reads (r : Reader τ α) (w : List τ) (x : α) (P : List τ → Prop) : Prop :=
  ∀ rest, P rest → r (w ++ rest) = some (x, rest)

/-- The list does not start with anything that passes the test. -/
def EndsRun (test : τ → Bool) (rest : List τ) : Prop := ∀ c, rest.head? = some c → test c = false

theorem endsRun_nil (test : τ → Bool) : EndsRun test [] := fun _ h => absurd h (by simp)

theorem endsRun_cons {test : τ → Bool} {c : τ} (h : test c = false) (rest : List τ) :
    EndsRun test (c :: rest) := fun c' hc => by rwa [← Option.some.inj hc]

theorem EndsRun.imp {test test' : τ → Bool} (h : ∀ c, test c = true → test' c = true)
    {rest : List τ} (hrest : EndsRun test' rest) : EndsRun test rest := by
  intro c hc
  have hfalse := hrest c hc
  by_contra htrue
  rw [h c (by simpa using htrue)] at hfalse
  exact absurd hfalse (by decide)

theorem Reads.mono (h : Reads r w x P) (hPQ : ∀ rest, Q rest → P rest) : Reads r w x Q :=
  fun rest hrest => h rest (hPQ rest hrest)

theorem Reads.pure (x : α) : Reads (pure x : Reader τ α) [] x P := fun _ _ => rfl

/-- One reader behind the other reads one text behind the other. -/
theorem Reads.bind (h : Reads r w x P) (h' : Reads (f x) w' y Q)
    (hPQ : ∀ rest, Q rest → P (w' ++ rest)) : Reads (r >>= f) (w ++ w') y Q := by
  intro rest hrest
  rw [List.append_assoc]
  show (r (w ++ (w' ++ rest))).bind _ = _
  rw [h _ (hPQ rest hrest)]
  exact h' rest hrest

/-- What follows takes no text. -/
theorem Reads.andThen (h : Reads r w x P) (h' : Reads (f x) [] y P) : Reads (r >>= f) w y P := by
  have hread := h.bind h' fun _ hrest => hrest
  rwa [List.append_nil] at hread

/-- A look ahead. -/
theorem Reads.peek {f : Option τ → Reader τ β} {c : τ} (hw : w.head? = some c)
    (h : Reads (f (some c)) w y P) : Reads (peek >>= f) w y P := by
  intro rest hrest
  show f (w ++ rest).head? (w ++ rest) = _
  rw [List.head?_append, hw]
  exact h rest hrest

/-- A look ahead at the end of the text. -/
theorem Reads.peekEnd {f : Option τ → Reader τ β} (h : Reads (f none) [] y fun rest => rest = []) :
    Reads (Reader.peek >>= f) [] y fun rest => rest = [] := by
  rintro rest rfl
  exact h [] rfl

theorem Reads.ofOption {o : Option α} (h : o = some x) : Reads (ofOption o : Reader τ α) [] x P := by
  intro rest _
  rw [h]
  rfl

variable [DecidableEq τ]

theorem Reads.lit (w : List τ) : Reads (lit w) w () P := by
  intro rest _
  have hprefix : w.isPrefixOf (w ++ rest) = true := List.isPrefixOf_iff_prefix.mpr ⟨rest, rfl⟩
  rw [Reader.lit, if_pos hprefix, List.drop_left]

/-- Exactly this text, and then what follows. -/
theorem Reads.litThen (w : List τ) {f : Unit → Reader τ β} (h : Reads (f ()) w' y Q) :
    Reads (Reader.lit w >>= f) (w ++ w') y Q :=
  (Reads.lit (P := fun _ => True) w).bind h fun _ _ => trivial

theorem Reads.litPure (w : List τ) (y : β) :
    Reads (Reader.lit w >>= fun _ => Pure.pure y) w y P :=
  (Reads.lit w).andThen (.pure y)

omit [DecidableEq τ] in
theorem Reads.runOf {test : τ → Bool} (h : ∀ c ∈ w, test c = true) :
    Reads (runOf test) w w (EndsRun test) := by
  intro rest hrest
  have htake : rest.takeWhile test = [] := by
    cases rest with
    | nil => rfl
    | cons c rest => exact List.takeWhile_cons_of_neg (by rw [hrest c rfl]; decide)
  have hdrop : rest.dropWhile test = rest := by
    cases rest with
    | nil => rfl
    | cons c rest => exact List.dropWhile_cons_of_neg (by rw [hrest c rfl]; decide)
  rw [Reader.runOf, List.takeWhile_append_of_pos h, List.dropWhile_append_of_pos h, htake, hdrop,
    List.append_nil]

omit [DecidableEq τ] in
theorem Reads.readAll (h : Reads r w x P) (hP : P []) : r.readAll w = some x := by
  have hread := h [] hP
  rw [List.append_nil] at hread
  rw [Reader.readAll, hread]

end reads

/-! ## Lines -/

section lines
variable {τ : Type} [DecidableEq τ] (sep : τ)

/-- The lines of a text, each ended by `sep`; what is behind the last `sep` is a line if it is not
empty. -/
def splitLines : List τ → List (List τ)
  | [] => []
  | c :: w =>
    if c = sep then [] :: splitLines w
    else
      match splitLines w with
      | [] => [[c]]
      | l :: ls => (c :: l) :: ls

theorem splitLines_cons {l : List τ} (h : sep ∉ l) (w : List τ) :
    splitLines sep (l ++ sep :: w) = l :: splitLines sep w := by
  induction l with
  | nil => exact if_pos rfl
  | cons c l ih =>
    rw [List.mem_cons, not_or] at h
    rw [List.cons_append, splitLines, if_neg (Ne.symm h.1), ih h.2]

/-- Lines that are ended are split where they end. -/
theorem splitLines_flatMap {ls : List (List τ)} (h : ∀ l ∈ ls, sep ∉ l) :
    splitLines sep (ls.flatMap fun l => l ++ [sep]) = ls := by
  induction ls with
  | nil => rfl
  | cons l ls ih =>
    rw [List.forall_mem_cons] at h
    rw [List.flatMap_cons, List.append_assoc, List.singleton_append, splitLines_cons sep h.1, ih h.2]

end lines

end ACompiler.Lib
