import ACompiler.Assembler.Emitter
import ACompiler.Tokenizer.Lexer

/-!
# The text of labels

A label line can be told from every other line of the output by its text, as long as functions and
globals are called by names (`Line.text_eq_label`), and no name is the text of a label.
-/

namespace ACompiler

/-- The characters of a string of code points below 256 can be read back. -/
theorem ascii_injective {s s' : String} (hs : ∀ c ∈ s.toList, c.toNat < 256)
    (hs' : ∀ c ∈ s'.toList, c.toNat < 256) (h : ascii s = ascii s') : s = s' := by
  have hread : ∀ {s : String}, (∀ c ∈ s.toList, c.toNat < 256) →
      (ascii s).map (fun b => Char.ofNat b.toNat) = s.toList := by
    intro s hs
    rw [ascii, List.map_map]
    refine (List.map_congr_left fun c hc => ?_).trans (List.map_id _)
    simp [Nat.mod_eq_of_lt (hs c hc)]
  rw [← String.toList_inj, ← hread hs, ← hread hs', h]

theorem decimal_natCast (n : Nat) : decimal (n : Int) = ascii (Nat.repr n) := rfl

theorem repr_bytes (n : Nat) : ∀ c ∈ (Nat.repr n).toList, c.toNat < 256 := by
  intro c hc
  have hdigit : c.isDigit = true := by
    rw [Nat.toList_repr] at hc
    exact Nat.isDigit_of_mem_toDigits (by decide) (by decide) hc
  rw [Char.isDigit, Bool.and_eq_true, decide_eq_true_eq, decide_eq_true_eq] at hdigit
  have hle : c.toNat ≤ 57 := UInt32.le_iff_toNat_le.mp hdigit.2
  omega

/-- Numbers have different texts. -/
theorem decimal_injective {n m : Nat} (h : decimal n = decimal m) : n = m := by
  rw [decimal_natCast, decimal_natCast] at h
  exact Nat.repr_injective (ascii_injective (repr_bytes n) (repr_bytes m) h)

/-- Labels below `2 ^ 32` have different texts. -/
theorem labelText_injective {n m : Nat} (hn : n < 2 ^ 32) (hm : m < 2 ^ 32)
    (h : labelText n = labelText m) : n = m := by
  have hdec := decimal_injective (List.append_cancel_left h)
  omega

theorem labelText_not_name (n : Nat) : isName (labelText n) = false := rfl

/-- A label of a function or a global is a name. -/
def Line.Named : Line → Prop
  | .symbol name => isName name = true
  | _ => True

/-- No instruction starts with a dot. -/
theorem Instr.text_head (i : Instr) : i.text.head? ≠ some 46 := by
  cases i with
  | setcc cond => cases cond <;> exact fun h => absurd (Option.some.inj h) (by decide)
  | _ => exact fun h => absurd (Option.some.inj h) (by decide)

/-- Only labels have the text of a label. -/
theorem Line.text_eq_label {l : Line} (hl : l.Named) {n : Nat} (h : l.text = (Line.label n).text) :
    ∃ m, l = .label m ∧ labelText m = labelText n := by
  have hdot : l.text.head? = some 46 := congrArg List.head? h
  have hletter : (l.text.drop 1).head? = some 76 := congrArg (fun w => (w.drop 1).head?) h
  cases l with
  | instr i => exact absurd hdot i.text_head
  | label m => exact ⟨m, rfl, List.append_cancel_right h⟩
  | symbol name =>
    have hname : isName name = true := hl
    cases name with
    | nil => exact absurd hname (by decide)
    | cons c w =>
      obtain rfl : c = 46 := Option.some.inj hdot
      exact absurd hname (by simp [isName, isalpha])
  | globl name => exact absurd (Option.some.inj hletter) (by decide)
  | dataSection => exact absurd (Option.some.inj hletter) (by decide)
  | textSection => exact absurd (Option.some.inj hletter) (by decide)
  | directive d val =>
    cases d <;> exact absurd (Option.some.inj hletter) (by decide)

end ACompiler
