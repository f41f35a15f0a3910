import ACompiler.Parser.Complete

/-!
# The cursor of the parser

The cursor only moves forward, and on tokens that end in their only `T_EOF` it stays at or before it
in every step of `parse_program`: no peek finds the end of the list, and when a program is returned
the `T_EOF` is all that is left.
-/

namespace ACompiler

open Lib (TokenParser)
open Lib.TokenParser (Reaches run_eq_ok_iff reaches_end bind_eq_ok)

/-- The cursor only moves forward. -/
theorem reaches_suffix {α : Type} {c d : Parse α × List Token} (h : Reaches c d) : d.2 <:+ c.2 := by
  induction h with
  | refl => exact List.suffix_refl _
  | tail _ hstep ih =>
    cases hstep with
    | peek => exact ih
    | peekNext => exact ih
    | advance => exact (List.tail_suffix _).trans ih

/-- The loop of `parse_program` ends at the end of the tokens or at a `T_EOF`. -/
theorem parseProgramLoop_end : ∀ (fuel : Nat) {ts rest : List Token} {p : Program},
    parseProgramLoop fuel ts = .ok (p, rest) →
      (rest.head?.isNone || pMatch rest.head? .tEof) = true := by
  intro fuel
  induction fuel with
  | zero => intro ts rest p h; simp [parseProgramLoop] at h
  | succ fuel ih =>
    intro ts rest p h
    rw [parseProgramLoop, Lib.TokenParser.peek_bind] at h
    split_ifs at h with hend hfunc hlet hcomment
    · obtain ⟨_, rfl⟩ := Prod.mk.inj (Except.ok.inj h)
      exact hend
    · obtain ⟨decl, mid, _, h⟩ := bind_eq_ok.mp h
      obtain ⟨nodes, mid', hnodes, h⟩ := bind_eq_ok.mp h
      obtain ⟨_, rfl⟩ := Prod.mk.inj (Except.ok.inj h)
      exact ih hnodes
    · obtain ⟨decl, mid, _, h⟩ := bind_eq_ok.mp h
      obtain ⟨nodes, mid', hnodes, h⟩ := bind_eq_ok.mp h
      obtain ⟨_, rfl⟩ := Prod.mk.inj (Except.ok.inj h)
      exact ih hnodes
    · obtain ⟨text, mid, _, h⟩ := bind_eq_ok.mp h
      obtain ⟨nodes, mid', hnodes, h⟩ := bind_eq_ok.mp h
      obtain ⟨_, rfl⟩ := Prod.mk.inj (Except.ok.inj h)
      exact ih hnodes
    · exact absurd h (compileError_ne_ok _ _ _ _)

/-- **The parser always stops, and never runs off the tokens.** On tokens that end in their only
`T_EOF`, with the fuel of `parse_program` or more, its steps come to a program or to a rejection; at
every step the cursor is at or before the `T_EOF`; and where a program is returned it is on it. -/
theorem parseProgramLoop_stops (ts : List Token) (heof : EofLast ts) (fuel : Nat)
    (hfuel : parseFuel ts ≤ fuel) :
    ((∃ p rest, Reaches (parseProgramLoop fuel, ts) (.ret p, rest)) ∨
        ∃ e rest, Reaches (parseProgramLoop fuel, ts) (.fail e, rest)) ∧
      (∀ y rest, Reaches (parseProgramLoop fuel, ts) (y, rest) →
        rest <:+ ts ∧ ∃ t, rest.head? = some t) ∧
      (∀ e rest, Reaches (parseProgramLoop fuel, ts) (.fail e, rest) → e.Rejects) ∧
      ∀ p rest, Reaches (parseProgramLoop fuel, ts) (.ret p, rest) →
        ∃ t, rest = [t] ∧ t.type = .tEof := by
  obtain ⟨halways, hrejects⟩ := parseProgramLoop_rejects fuel ts heof hfuel heof
  refine ⟨?_, fun y rest hreach => ⟨reaches_suffix hreach, ?_⟩, fun e rest hreach => ?_,
    fun p rest hreach => ?_⟩
  · rcases reaches_end (parseProgramLoop fuel) ts with ⟨p, rest, _, h⟩ | ⟨e, rest, _, h⟩
    · exact .inl ⟨p, rest, h⟩
    · exact .inr ⟨e, rest, h⟩
  · exact Option.ne_none_iff_exists'.mp (by simpa using (halways y rest hreach).ne_nil)
  · exact hrejects e hreach.run_eq
  · have hrest := halways _ rest hreach
    have hend := parseProgramLoop_end fuel (run_eq_ok_iff.mpr hreach)
    cases rest with
    | nil => exact absurd rfl hrest.ne_nil
    | cons t rest =>
      have ht : t.type = .tEof := by simpa using hend
      rw [hrest.eq_singleton ht]
      exact ⟨t, rfl, ht⟩

theorem parseProgramLoop_stops_returnOne : ∃ p t,
    Reaches (parseProgramLoop (parseFuel returnOneTokens), returnOneTokens) (.ret p, [t]) ∧
      t.type = .tEof := by
  obtain ⟨hstops, _, _, hret⟩ := parseProgramLoop_stops returnOneTokens eofLast_returnOneTokens _
    (Nat.le_refl _)
  rcases hstops with ⟨p, rest, h⟩ | ⟨e, rest, h⟩
  · obtain ⟨t, rfl, ht⟩ := hret p rest h
    exact ⟨p, t, h, ht⟩
  · have hok : parseProgramLoop (parseFuel returnOneTokens) returnOneTokens = .ok _ := rfl
    exact absurd (hok.symm.trans h.run_eq) (by simp [Lib.TokenParser.run])

end ACompiler
