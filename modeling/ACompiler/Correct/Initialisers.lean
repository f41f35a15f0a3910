import ACompiler.Correct.Data
import ACompiler.Parser.Parse
import ACompiler.Semantics.Values

/-!
# Initialisers of globals

`gen_global` looks at the root of an initialiser only: a literal there is printed, and everything
else is replaced by 0 without an error. So a global holds the value of its initialiser exactly when
this is a number, or happens to have 0 as its value at the width of the global
(`genProgram_honours_iff`).
-/

namespace ACompiler

open Lib (Word Emitted)

/-- The value of an expression over literals and operators; a string, a division without a result
and everything that depends on the run have none. A literal is the number the parser read, and
`castTo` is what a cast does to a value. -/
def constValue (castTo : VarT → Word → Word) : Expr → Option Word
  | .literal ⟨n, none⟩ => some (BitVec.ofInt 64 n)
  | .unary op e => do unaryVal op (← constValue castTo e)
  | .binary op left right => do
    binaryVal op (← constValue castTo left) (← constValue castTo right)
  | .cast t inner => do some (castTo t (← constValue castTo inner))
  | _ => none

/-- The directive of the cell puts the low bits of the value into it. -/
def DataCell.Holds (cell : DataCell) (v : Word) : Prop :=
  BitVec.ofInt (8 * cell.bytes) cell.val = v.setWidth (8 * cell.bytes)

instance (cell : DataCell) (v : Word) : Decidable (cell.Holds v) :=
  inferInstanceAs (Decidable (_ = _))

/-- The cell holds the value of the initialiser, if there is one. -/
def VarDecl.Honoured (castTo : VarT → Word → Word) (decl : VarDecl) (cell : DataCell) : Prop :=
  ∀ e, decl.assign = some e → ∃ v, constValue castTo e = some v ∧ cell.Holds v

/-- There is no initialiser, or it is a number, or its value is 0 at the width of the global. -/
def VarDecl.PlainInit (castTo : VarT → Word → Word) (decl : VarDecl) : Prop :=
  ∀ e, decl.assign = some e → (∃ n, e = .literal ⟨n, none⟩) ∨
    ∃ v, constValue castTo e = some v ∧ v.setWidth (8 * typeSize decl.type) = 0

example (castTo : VarT → Word → Word) :
    constValue castTo (.binary .bMul (.literal ⟨6, none⟩) (.unary .uNeg (.literal ⟨7, none⟩))) =
      some (-42) := rfl

/-! ## Numbers at a width -/

/-- Truncating the 64 bits of a number gives its bits at the smaller width. -/
theorem setWidth_ofInt {w : Nat} (hw : w ≤ 64) (n : Int) :
    (BitVec.ofInt 64 n).setWidth w = BitVec.ofInt w n := by
  refine BitVec.eq_of_toNat_eq ?_
  rw [BitVec.toNat_setWidth, BitVec.toNat_ofInt, BitVec.toNat_ofInt]
  have hdvd : ((2 ^ w : Nat) : Int) ∣ ((2 ^ 64 : Nat) : Int) :=
    Int.natCast_dvd_natCast.mpr (Nat.pow_dvd_pow 2 hw)
  have hpos : ((2 ^ 64 : Nat) : Int) ≠ 0 := by decide
  have hpos' : ((2 ^ w : Nat) : Int) ≠ 0 := by
    have := Nat.two_pow_pos w
    omega
  have hmod := Int.emod_emod_of_dvd n hdvd
  have hnn := Int.emod_nonneg n hpos
  refine Int.ofNat.inj ?_
  show (((n % ((2 ^ 64 : Nat) : Int)).toNat % 2 ^ w : Nat) : Int) =
    ((n % ((2 ^ w : Nat) : Int)).toNat : Int)
  rw [Int.natCast_emod, Int.toNat_of_nonneg hnn, hmod,
    Int.toNat_of_nonneg (Int.emod_nonneg n hpos')]

/-! ## One global -/

section global
variable {castTo : VarT → Word → Word} {decl : VarDecl} {start : Nat}

/-- The cell of a global. -/
def VarDecl.cell (decl : VarDecl) (start : Nat) : DataCell :=
  ⟨decl.ident, start, directiveOf (typeSize decl.type), globalValue decl⟩

theorem VarDecl.cell_holds (v : Word) : (decl.cell start).Holds v ↔
    BitVec.ofInt (8 * typeSize decl.type) (globalValue decl) =
      v.setWidth (8 * typeSize decl.type) := by
  unfold DataCell.Holds DataCell.bytes VarDecl.cell
  rw [directiveOf_bytes]

/-- The directive of a number holds its value. -/
theorem VarDecl.cell_holds_number {n : Int} (h : decl.assign = some (.literal ⟨n, none⟩)) :
    (decl.cell start).Holds (BitVec.ofInt 64 n) := by
  have hsize := (typeSize_pos decl.type).2
  rw [VarDecl.cell_holds, globalValue, h, setWidth_ofInt (by omega)]

/-- The directive of any other expression with a value holds 0. -/
theorem VarDecl.cell_holds_of_not_literal {e : Expr} (h : decl.assign = some e)
    (hlit : ∀ lit, e ≠ .literal lit) (v : Word) :
    (decl.cell start).Holds v ↔ v.setWidth (8 * typeSize decl.type) = 0 := by
  have hval : globalValue decl = 0 := by
    unfold globalValue
    rw [h]
    cases e with
    | literal lit => exact absurd rfl (hlit lit)
    | _ => rfl
  rw [VarDecl.cell_holds, hval, show BitVec.ofInt (8 * typeSize decl.type) 0 = 0 by simp]
  exact eq_comm

theorem VarDecl.honoured_iff (castTo : VarT → Word → Word) (decl : VarDecl) (start : Nat) :
    decl.Honoured castTo (decl.cell start) ↔ decl.PlainInit castTo := by
  unfold VarDecl.Honoured VarDecl.PlainInit
  refine forall_congr' fun e => forall_congr' fun hassign => ?_
  by_cases hlit : ∃ lit, e = .literal lit
  · obtain ⟨⟨n, str⟩, rfl⟩ := hlit
    cases str with
    | none => exact ⟨fun _ => .inl ⟨n, rfl⟩, fun _ => ⟨_, rfl, cell_holds_number hassign⟩⟩
    | some w => simp [constValue]
  · have hne : ∀ lit, e ≠ .literal lit := fun lit h => hlit ⟨lit, h⟩
    constructor
    · rintro ⟨v, hv, hholds⟩
      exact .inr ⟨v, hv, (cell_holds_of_not_literal hassign hne v).mp hholds⟩
    · rintro (⟨n, rfl⟩ | ⟨v, hv, hzero⟩)
      · exact absurd rfl (hne _)
      · exact ⟨v, hv, (cell_holds_of_not_literal hassign hne v).mpr hzero⟩

end global

/-! ## Programs -/

/-- The globals of a program, each with its cell. -/
theorem globalCells_honoured (castTo : VarT → Word → Word) (decls : List VarDecl) :
    ∀ (start : Nat), List.Forall₂ (fun decl cell => cell.name = decl.ident ∧
      cell.directive = directiveOf (typeSize decl.type) ∧
        (decl.Honoured castTo cell ↔ decl.PlainInit castTo)) decls (globalCells start decls) := by
  induction decls with
  | nil => exact fun _ => .nil
  | cons decl decls ih =>
    intro start
    exact .cons ⟨rfl, rfl, decl.honoured_iff castTo start⟩ (ih _)

/-- **A global holds the value of its initialiser exactly when this is plain**, whatever casts do to
a value; no initialiser is refused. -/
theorem genProgram_honours_iff (castTo : VarT → Word → Word) {p : Program}
    {r : Emitted AsmCtx Item Unit} (hgen : genProgram p asmInit = .ok r) :
    List.Forall₂ (fun decl cell => cell.name = decl.ident ∧
      cell.directive = directiveOf (typeSize decl.type) ∧
        (decl.Honoured castTo cell ↔ decl.PlainInit castTo))
      (globalsOf p) (dataCells 0 (codeOf r.items)) := by
  rw [(genProgram_eq_ok hgen).1]
  exact globalCells_honoured castTo (globalsOf p) 0

/-- `let QWORD a = 7; let BYTE b = 16 * 16; let QWORD c = "7";`. -/
def threeGlobals : Program :=
  [.varDecl ⟨ascii "a", ⟨.lit .litQword, false, 0⟩, some (.literal ⟨7, none⟩)⟩,
    .varDecl ⟨ascii "b", ⟨.lit .litByte, false, 0⟩,
      some (.binary .bMul (.literal ⟨16, none⟩) (.literal ⟨16, none⟩))⟩,
    .varDecl ⟨ascii "c", ⟨.lit .litQword, false, 0⟩,
      some (.literal ⟨-2147483648, some (ascii "7")⟩)⟩]

theorem genProgram_honours_iff_threeGlobals : ∃ r, genProgram threeGlobals asmInit = .ok r ∧
    List.Forall₂ (fun decl cell => cell.name = decl.ident ∧
      cell.directive = directiveOf (typeSize decl.type) ∧
        (decl.Honoured (fun _ v => v) cell ↔ decl.PlainInit fun _ v => v))
      (globalsOf threeGlobals) (dataCells 0 (codeOf r.items)) := by
  obtain ⟨r, hgen⟩ := genProgram_of_no_funcs (p := threeGlobals) rfl
  exact ⟨r, hgen, genProgram_honours_iff (fun _ v => v) hgen⟩

/-- The tokens of `let QWORD g = -5;`. -/
def negativeTokens : List Token :=
  [⟨.tLet, ascii "let", 3, 1, 1⟩, ⟨.tQword, ascii "QWORD", 5, 1, 5⟩,
    ⟨.tIdentifier, ascii "g", 1, 1, 11⟩, ⟨.tEqual, ascii "=", 1, 1, 13⟩,
    ⟨.tMinus, ascii "-", 1, 1, 15⟩, ⟨.tNumberLit, ascii "5", 1, 1, 16⟩,
    ⟨.tSemicolon, ascii ";", 1, 1, 17⟩, ⟨.tEof, ascii "eof", 3, 1, 18⟩]

/-- `let QWORD g = -5;`. -/
def negativeGlobal : VarDecl :=
  ⟨ascii "g", ⟨.lit .litQword, false, 0⟩, some (.unary .uNeg (.literal ⟨5, none⟩))⟩

/-- A negated number is replaced by 0. -/
theorem genProgram_honours_negative :
    parseProgram negativeTokens = .ok [.varDecl negativeGlobal] ∧
      ∃ r, genProgram [.varDecl negativeGlobal] asmInit = .ok r ∧
        dataCells 0 (codeOf r.items) = [⟨ascii "g", 0, .quad, 0⟩] ∧
          ∀ castTo, ¬ negativeGlobal.Honoured castTo ⟨ascii "g", 0, .quad, 0⟩ := by
  obtain ⟨r, hgen⟩ := genProgram_of_no_funcs (p := [.varDecl negativeGlobal]) rfl
  refine ⟨rfl, r, hgen, ?_, fun castTo h => ?_⟩
  · rw [(genProgram_eq_ok hgen).1]
    rfl
  · obtain ⟨v, hv, hholds⟩ := h _ rfl
    obtain rfl := Option.some.inj hv
    exact absurd hholds (by decide)

end ACompiler
