import ACompiler.Correct.Data
import ACompiler.Correct.Prologue

/-!
# Storage of variables

`define_local` reserves eight bytes for every local, and the directive of a global has the size of
one element. Regions never overlap and the frame holds all of its own, but the region of an array is
as large as the array only if the array is that small (`ownsStorage_iff`).
-/

namespace ACompiler

open Lib (Emitted)

/-! ## Regions -/

/-- The bytes a variable of the type takes. -/
def VarT.declaredSize (t : VarT) : Nat :=
  if t.isArray then t.arrayLen * typeSize t else typeSize t

/-- The bytes `define_local` moves `cur_offset` down by. -/
def localSize (t : VarT) : Nat := if typeSize t < 8 then 8 else typeSize t

/-- Where a region lies: in the frame of the running function, or in the data section. -/
inductive Segment
  | frame | data
  deriving DecidableEq, Repr

/-- Reserved bytes: offsets from `%rbp` in the frame, and from the start of the data section. -/
structure Region where
  segment : Segment
  start : Int
  size : Nat
  deriving DecidableEq, Repr

/-- The regions share no byte. -/
def Region.Apart (a b : Region) : Prop :=
  a.segment ≠ b.segment ∨ a.start + a.size ≤ b.start ∨ b.start + b.size ≤ a.start

/-- The region of a local. -/
def Symbol.region (v : Symbol) : Region := ⟨.frame, v.stackOffset, localSize v.type⟩

/-- The region of a global. -/
def DataCell.region (cell : DataCell) : Region := ⟨.data, cell.start, cell.bytes⟩

/-- Every variable of a program owns storage of its declared size: globals in the data section, and
at every statement boundary of every function the locals that are live there. -/
structure OwnsStorage (p : Program) (cells : List DataCell) : Prop where
  globals : List.Forall₂ (fun decl cell => decl.type.declaredSize ≤ cell.region.size)
    (globalsOf p) cells
  locals : ∀ decl ∈ funcsOf p, ∀ c r, c.GlobalsOnly → genFuncDecl decl c = .ok r →
    ∀ m ∈ r.marks, ∀ v ∈ m.locals, v.type.declaredSize ≤ v.region.size ∧
      -(computeFrameSize decl : Int) ≤ v.region.start ∧ v.region.start + v.region.size ≤ 0
  globals_apart : (cells.map DataCell.region).Pairwise Region.Apart
  locals_apart : ∀ decl ∈ funcsOf p, ∀ c r, c.GlobalsOnly → genFuncDecl decl c = .ok r →
    ∀ m ∈ r.marks, (m.locals.map Symbol.region ++ cells.map DataCell.region).Pairwise Region.Apart

/-! ## Declared types -/

mutual

/-- The types of the variables a statement declares. -/
def declTypes : Stmt → List VarT
  | .block nodes => declTypesList nodes
  | .varDecl decl => [decl.type]
  | .ifStmt _ thenBranch none => declTypesList thenBranch
  | .ifStmt _ thenBranch (some elseBranch) =>
    declTypesList thenBranch ++ declTypesList elseBranch
  | .returnStmt _ | .comment _ | .expr _ => []

/-- The types of the variables the nodes of a block declare. -/
def declTypesList : List Stmt → List VarT
  | [] => []
  | node :: nodes => declTypes node ++ declTypesList nodes

end

def StmtPhrase.declTypes : StmtPhrase → List VarT
  | .stmt s => ACompiler.declTypes s
  | .nodes ss => declTypesList ss

/-- The types of the parameters and the locals of a function. -/
def FuncDecl.localTypes (decl : FuncDecl) : List VarT :=
  decl.params.map FuncParam.type ++ declTypesList decl.block

/-- No array is larger than what is reserved for one variable. -/
structure ArraysFit (p : Program) : Prop where
  globals : ∀ decl ∈ globalsOf p, decl.type.isArray = true → decl.type.arrayLen ≤ 1
  locals : ∀ decl ∈ funcsOf p, ∀ t ∈ decl.localTypes, t.isArray = true → t.arrayLen * typeSize t ≤ 8

theorem localSize_eq (t : VarT) : localSize t = 8 := slotSize t

/-- A variable fits into the bytes of a local unless it is a larger array. -/
theorem declaredSize_le_iff (t : VarT) {n : Nat} (hn : typeSize t ≤ n) :
    t.declaredSize ≤ n ↔ (t.isArray = true → t.arrayLen * typeSize t ≤ n) := by
  unfold VarT.declaredSize
  cases t.isArray with
  | true => simp
  | false => simpa using hn

theorem declaredSize_le_typeSize_iff (t : VarT) :
    t.declaredSize ≤ typeSize t ↔ (t.isArray = true → t.arrayLen ≤ 1) := by
  rw [declaredSize_le_iff t (Nat.le_refl _)]
  refine imp_congr_right fun _ => ?_
  conv => lhs; rhs; rw [← Nat.one_mul (typeSize t)]
  exact Nat.mul_le_mul_right_iff (typeSize_pos t).1

/-! ## What is live -/

/-- The live locals of `m` are those of `c` and others of the given types. -/
def LiveWithin (types : List VarT) (c m : AsmCtx) : Prop :=
  ∀ v ∈ m.locals, v ∈ c.locals ∨ v.type ∈ types

theorem LiveWithin.refl (types : List VarT) (c : AsmCtx) : LiveWithin types c c := fun _ hv => .inl hv

theorem LiveWithin.trans {types types' : List VarT} {c c' m : AsmCtx} (h : LiveWithin types c c')
    (h' : LiveWithin types' c' m) : LiveWithin (types ++ types') c m := by
  intro v hv
  rw [List.mem_append]
  rcases h' v hv with hv | hv
  · exact (h v hv).imp_right .inl
  · exact .inr (.inr hv)

theorem LiveWithin.append {types : List VarT} {c m : AsmCtx} (h : LiveWithin types c m)
    (types' : List VarT) : LiveWithin (types ++ types') c m := h.trans (.refl types' m)

theorem LiveWithin.declare {c : AsmCtx} (hstk : c.scopeStk ≠ []) (name : CString) (type : VarT) :
    LiveWithin [type] c (c.declare name type) := by
  intro v hv
  rw [locals_declare hstk] at hv
  rcases List.mem_cons.mp hv with rfl | hv
  · exact .inr (by simp)
  · exact .inl hv

/-- What is live in or behind the code was live before or is declared in the code. -/
theorem StmtCode.live_within {c c' : AsmCtx} {p : StmtPhrase} {items : List Item}
    {marks : List AsmCtx} (h : StmtCode c p c' items marks) :
    LiveWithin p.declTypes c c' ∧ ∀ m ∈ marks, LiveWithin p.declTypes c m := by
  induction h with
  | comment => exact ⟨.refl _ _, by simp⟩
  | expr _ => exact ⟨.refl _ _, by simp⟩
  | returnStmt _ _ => exact ⟨.refl _ _, by simp⟩
  | uninit hstk => exact ⟨.declare hstk _ _, by simp⟩
  | init hstk _ => exact ⟨.declare hstk _ _, by simp⟩
  | ifThen _ _ ih => exact ih
  | ifElse _ _ _ ih ih' =>
    refine ⟨ih.1.trans ih'.1, fun m hm => ?_⟩
    rcases List.mem_append.mp hm with hm | hm
    · exact (ih.2 m hm).append _
    · exact ih.1.trans (ih'.2 m hm)
  | block _ ih =>
    refine ⟨.refl _ _, fun m hm v hv => ?_⟩
    have hlive := ih.2 m hm v hv
    rwa [locals_enter] at hlive
  | nil => exact ⟨.refl _ _, by simpa using LiveWithin.refl _ _⟩
  | cons _ _ ih ih' =>
    refine ⟨ih.1.trans ih'.1, fun m hm => ?_⟩
    rw [List.cons_append, List.mem_cons, List.mem_append] at hm
    rcases hm with rfl | hm | hm
    · exact .refl _ _
    · exact (ih.2 m hm).append _
    · exact ih.1.trans (ih'.2 m hm)

/-- The nodes of a block begin with a mark. -/
theorem StmtCode.start_mem_marks {c c' : AsmCtx} {nodes : List Stmt} {items : List Item}
    {marks : List AsmCtx} (h : StmtCode c (.nodes nodes) c' items marks) : c ∈ marks := by
  cases h with
  | nil => simp
  | cons _ _ => simp

/-- A declared variable is live behind its declaration, and so at a mark of the block around it. -/
theorem StmtCode.declared_live {c c' : AsmCtx} {p : StmtPhrase} {items : List Item}
    {marks : List AsmCtx} (h : StmtCode c p c' items marks) : ∀ t ∈ p.declTypes,
      (∃ m ∈ marks, ∃ v ∈ m.locals, v.type = t) ∨
        (∃ decl, p = .stmt (.varDecl decl)) ∧ ∃ v ∈ c'.locals, v.type = t := by
  have hdeclare : ∀ {c : AsmCtx} {name : CString} {type t : VarT}, c.scopeStk ≠ [] → t ∈ [type] →
      ∃ v ∈ (c.declare name type).locals, v.type = t := by
    intro c name type t hstk ht
    rw [locals_declare hstk]
    exact ⟨_, List.mem_cons_self, (List.mem_singleton.mp ht).symm⟩
  induction h with
  | comment => simp [StmtPhrase.declTypes, declTypes]
  | expr _ => simp [StmtPhrase.declTypes, declTypes]
  | returnStmt _ _ => simp [StmtPhrase.declTypes, declTypes]
  | uninit hstk => exact fun t ht => .inr ⟨⟨_, rfl⟩, hdeclare hstk ht⟩
  | init hstk _ => exact fun t ht => .inr ⟨⟨_, rfl⟩, hdeclare hstk ht⟩
  | ifThen _ _ ih => exact fun t ht => .inl ((ih t ht).resolve_right (by simp))
  | ifElse _ _ _ ih ih' =>
    intro t ht
    rcases List.mem_append.mp ht with ht | ht
    · obtain ⟨m, hm, hlive⟩ := (ih t ht).resolve_right (by simp)
      exact .inl ⟨m, List.mem_append_left _ hm, hlive⟩
    · obtain ⟨m, hm, hlive⟩ := (ih' t ht).resolve_right (by simp)
      exact .inl ⟨m, List.mem_append_right _ hm, hlive⟩
  | block _ ih => exact fun t ht => .inl ((ih t ht).resolve_right (by simp))
  | nil => simp [StmtPhrase.declTypes, declTypesList]
  | cons _ hn ih ih' =>
    intro t ht
    rcases List.mem_append.mp ht with ht | ht
    · rcases ih t ht with ⟨m, hm, hlive⟩ | ⟨_, hlive⟩
      · exact .inl ⟨m, by simp [hm], hlive⟩
      · exact .inl ⟨_, by simp [hn.start_mem_marks], hlive⟩
    · obtain ⟨m, hm, hlive⟩ := (ih' t ht).resolve_right (by simp)
      exact .inl ⟨m, by simp [hm], hlive⟩

/-! ## Functions -/

section function
variable {decl : FuncDecl} {c : AsmCtx} {r : Emitted AsmCtx Item Unit}

theorem paramSymbols_types (params : List FuncParam) : ∀ o : Int,
    (paramSymbols o params).map Symbol.type = params.map FuncParam.type := by
  induction params with
  | nil => exact fun _ => rfl
  | cons p params ih => intro o; simp [paramSymbols, ih]

theorem bodyCtx_types (hc : c.GlobalsOnly) (t : VarT) :
    (∃ v ∈ (c.bodyCtx decl).locals, v.type = t) ↔ t ∈ decl.params.map FuncParam.type := by
  rw [← paramSymbols_types decl.params 0, bodyCtx_locals decl hc, List.mem_map]
  simp

/-- The types of the locals that are live somewhere are those that are declared. -/
theorem live_iff_declared (hc : c.GlobalsOnly) (h : genFuncDecl decl c = .ok r) (t : VarT) :
    (∃ m ∈ r.marks, ∃ v ∈ m.locals, v.type = t) ↔ t ∈ decl.localTypes := by
  obtain ⟨_, c', body, hcode, _⟩ := genFuncDecl_eq_ok h
  unfold FuncDecl.localTypes
  rw [List.mem_append, ← bodyCtx_types hc]
  constructor
  · rintro ⟨m, hm, v, hv, rfl⟩
    rcases hcode.live_within.2 m hm v hv with hv | hv
    · exact .inl ⟨v, hv, rfl⟩
    · exact .inr hv
  · rintro (hlive | ht)
    · exact ⟨_, hcode.start_mem_marks, hlive⟩
    · exact (hcode.declared_live t ht).resolve_right (by simp)

/-- The region of a live local lies in the frame. -/
theorem region_in_frame (hc : c.GlobalsOnly) (h : genFuncDecl decl c = .ok r) :
    ∀ m ∈ r.marks, ∀ v ∈ m.locals, -(computeFrameSize decl : Int) ≤ v.region.start ∧
      v.region.start + v.region.size ≤ 0 := by
  intro m hm v hv
  obtain ⟨hslots, hframe⟩ := genFuncDecl_slots hc h m hm
  have hbounds := hslots.bounds v hv
  simp only [Symbol.region, localSize_eq]
  omega

/-- The regions of the locals that are live together are apart. -/
theorem regions_apart (hc : c.GlobalsOnly) (h : genFuncDecl decl c = .ok r) :
    ∀ m ∈ r.marks, (m.locals.map Symbol.region).Pairwise Region.Apart := by
  intro m hm
  obtain ⟨hslots, _⟩ := genFuncDecl_slots hc h m hm
  have hdistinct := hslots.distinct
  rw [List.Nodup, List.pairwise_map] at hdistinct
  rw [List.pairwise_map]
  refine hdistinct.imp_of_mem fun {v w} hv hw hne => .inr ?_
  have hv := hslots.bounds v hv
  have hw := hslots.bounds w hw
  simp only [Symbol.region, localSize_eq]
  omega

end function

/-- **Variables own their storage exactly when no array is larger than one variable**: an array of
more than one element as a global, or of more than eight bytes as a local. -/
theorem ownsStorage_iff {p : Program} {r : Emitted AsmCtx Item Unit}
    (hgen : genProgram p asmInit = .ok r) :
    OwnsStorage p (dataCells 0 (codeOf r.items)) ↔ ArraysFit p := by
  obtain ⟨hdata, hfuncs⟩ := genProgram_eq_ok hgen
  rw [hdata]
  have hcells := globalCells_forall₂ (globalsOf p) 0
  have hglobals : ((globalCells 0 (globalsOf p)).map DataCell.region).Pairwise Region.Apart := by
    rw [List.pairwise_map]
    refine (globalCells_pairwise (globalsOf p) 0).imp fun {cell cell'} hle => .inr (.inl ?_)
    simp only [DataCell.region]
    omega
  constructor
  · intro howns
    refine ⟨fun decl hdecl => ?_, fun decl hdecl t ht => ?_⟩
    · have hsizes := List.Forall₂.mp (S := fun decl _ => decl.type.declaredSize ≤ typeSize decl.type)
        (fun _ _ hsize hcell => hcell.2.1 ▸ hsize) howns.globals hcells
      obtain ⟨_, _, hsize⟩ := exists_of_forall₂ hsizes decl hdecl
      exact (declaredSize_le_typeSize_iff decl.type).mp hsize
    · obtain ⟨c, r', hc, hrun⟩ := hfuncs decl hdecl
      obtain ⟨m, hm, v, hv, rfl⟩ := (live_iff_declared hc hrun t).mpr ht
      have hfits := (howns.locals decl hdecl c r' hc hrun m hm v hv).1
      simp only [Symbol.region, localSize_eq] at hfits
      exact (declaredSize_le_iff v.type (typeSize_pos v.type).2).mp hfits
  · intro hfit
    refine ⟨?_, fun decl hdecl c r' hc hrun m hm v hv => ⟨?_, region_in_frame hc hrun m hm v hv⟩,
      hglobals, fun decl hdecl c r' hc hrun m hm => ?_⟩
    · refine ((List.forall₂_and_left _ _).mpr ⟨hfit.globals, hcells⟩).imp ?_
      rintro decl cell ⟨harray, _, hbytes, _⟩
      rw [DataCell.region, hbytes]
      exact (declaredSize_le_typeSize_iff decl.type).mpr harray
    · have ht := (live_iff_declared hc hrun v.type).mp ⟨m, hm, v, hv, rfl⟩
      simp only [Symbol.region, localSize_eq]
      exact (declaredSize_le_iff v.type (typeSize_pos v.type).2).mpr (hfit.locals decl hdecl _ ht)
    · rw [List.pairwise_append]
      refine ⟨regions_apart hc hrun m hm, hglobals, fun a ha b hb => .inl ?_⟩
      obtain ⟨v, _, rfl⟩ := List.mem_map.mp ha
      obtain ⟨cell, _, rfl⟩ := List.mem_map.mp hb
      simp [Symbol.region, DataCell.region]

/-- An array of four: `let a: QWORD[4];`. -/
def fourQwords : Program := [.varDecl ⟨ascii "a", ⟨.lit .litQword, true, 4⟩, none⟩]

/-- Only eight of the 32 bytes are reserved. -/
theorem ownsStorage_fourQwords : ∃ r, genProgram fourQwords asmInit = .ok r ∧
    ¬ OwnsStorage fourQwords (dataCells 0 (codeOf r.items)) := by
  obtain ⟨r, hgen⟩ := genProgram_of_no_funcs (p := fourQwords) rfl
  refine ⟨r, hgen, fun howns => ?_⟩
  have hglobals := howns.globals
  rw [(genProgram_eq_ok hgen).1] at hglobals
  obtain ⟨cell, hcell, hsize⟩ := exists_of_forall₂ hglobals _ List.mem_cons_self
  rw [List.mem_singleton.mp hcell] at hsize
  exact absurd hsize (by decide)

/-- An array of one, and a byte: `let a: QWORD[1]; let b: BYTE;`. -/
def smallArrays : Program :=
  [.varDecl ⟨ascii "a", ⟨.lit .litQword, true, 1⟩, none⟩,
    .varDecl ⟨ascii "b", ⟨.lit .litByte, false, 0⟩, none⟩]

theorem ownsStorage_iff_smallArrays : ∃ r, genProgram smallArrays asmInit = .ok r ∧
    OwnsStorage smallArrays (dataCells 0 (codeOf r.items)) := by
  obtain ⟨r, hgen⟩ := genProgram_of_no_funcs (p := smallArrays) rfl
  exact ⟨r, hgen, (ownsStorage_iff hgen).mpr ⟨by decide, by simp [smallArrays, funcsOf]⟩⟩

end ACompiler
