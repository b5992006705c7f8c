/-
Where a formula is refused. What has been read is at any time the beginning of a formula, since every shape can be led
to the end of one, and a token that cannot follow on a shape follows on nothing that leads there. So the place that is
reported is the first one at which the tokens stop being the beginning of a formula (`parse_refused_at`).
-/
import Stylesheet.Proofs.Formula.Shape

namespace Stylesheet.Formula

/-- A token, or the end, that cannot stand where it does. -/
def Error.IsSyntax : Error → Prop
  | unexpectedToken .. => True
  | missingBracket .. => True
  | unexpectedEnd .. => True
  | _ => False

/-- The tokens are the beginning of a formula. -/
def Viable (ts : List Token) : Prop := ∃ rest, WellFormed (ts ++ rest)

/-- The beginnings of formulas are the tokens that lead anywhere. -/
theorem viable_iff {ts : List Token} : Viable ts ↔ ∃ shape, Shape.initial.run (ts.map (·.lexeme)) = some shape := by
  constructor
  · rintro ⟨rest, h⟩
    rw [wellFormed_iff, List.map_append, Shape.run_append] at h
    obtain ⟨shape, hshape, -⟩ := Option.bind_eq_some_iff.1 h
    exact ⟨shape, hshape⟩
  · rintro ⟨shape, hshape⟩
    obtain ⟨ls, hls⟩ := shape.exists_run_end
    refine ⟨ls.map (⟨·, 0⟩), ?_⟩
    rw [wellFormed_iff, List.map_append, Shape.run_append, hshape, List.map_map]
    exact (congrArg shape.run (List.map_id ls)).trans hls

namespace Shape

variable {limits : Limits} {formula : String} {shape last : Shape} {ts : List Token} {t : Token} {e : Error}

/-- The error names the formula and the position of what cannot stand there. -/
structure Refuses (formula : String) (position : Nat) (e : Error) : Prop where
  formula : e.formula? = some formula
  position : e.position? = some position

theorem refuses_refusal (formula : String) (shape : Shape) (t : Token) :
    Refuses formula t.position (shape.refusal formula t) := by
  unfold refusal
  split <;> exact ⟨rfl, rfl⟩

theorem refuses_of_finish (h : shape.finish formula = .error e) :
    Refuses formula formula.toList.length e ∧ shape ≠ operator [] := by
  unfold finish at h
  split at h <;> cases h
  · exact ⟨⟨rfl, rfl⟩, by simp⟩
  · exact ⟨⟨rfl, rfl⟩, by simp⟩

theorem not_isSyntax_of_check (h : shape.check limits t.lexeme = .error e) : ¬ e.IsSyntax := by
  rcases check_eq_error h with ⟨-, rfl⟩ | ⟨-, rfl⟩ <;> exact id

/-- A syntax error comes of the first token that cannot follow on those before it, or of the end. -/
theorem verdict_eq_error (h : shape.verdict limits formula ts = .error e) (hkind : e.IsSyntax) :
    (∃ before t after last, ts = before ++ t :: after ∧ shape.run (before.map (·.lexeme)) = some last ∧
      last.next? t.lexeme = none ∧ Refuses formula t.position e) ∨
      ∃ last, shape.run (ts.map (·.lexeme)) = some last ∧ last ≠ operator [] ∧
        Refuses formula formula.toList.length e := by
  induction ts generalizing shape with
  | nil =>
    obtain ⟨hrefuses, hne⟩ := refuses_of_finish h
    exact .inr ⟨shape, rfl, hne, hrefuses⟩
  | cons t ts ih =>
    rw [verdict_cons, step] at h
    cases hnext : shape.next? t.lexeme with
    | none =>
      rw [hnext] at h
      cases h
      exact .inl ⟨[], t, ts, shape, rfl, rfl, hnext, refuses_refusal formula shape t⟩
    | some next =>
      rw [hnext] at h
      dsimp only at h
      cases hcheck : shape.check limits t.lexeme with
      | error e' =>
        rw [hcheck] at h
        cases h
        exact absurd hkind (not_isSyntax_of_check hcheck)
      | ok _ =>
        rw [hcheck] at h
        have hrun (ls : List Lexeme) : shape.run (t.lexeme :: ls) = next.run ls := by rw [run_cons, hnext]; rfl
        rcases ih h with ⟨before, u, after, last, rfl, hlast, hu, hrefuses⟩ | ⟨last, hlast, hne, hrefuses⟩
        · exact .inl ⟨t :: before, u, after, last, rfl, (hrun _).trans hlast, hu, hrefuses⟩
        · exact .inr ⟨last, (hrun _).trans hlast, hne, hrefuses⟩

end Shape

/-- The place of a syntax error is that of the first token with which the tokens are the beginning of no formula; or it
is the end of the formula, whose tokens are the beginning of one but none themselves. -/
theorem parse_refused_at {limits : Limits} {formula : String} {ts : List Token} {e : Error}
    (hts : tokens limits formula = .ok ts) (h : parse limits formula = .error e) (hkind : e.IsSyntax) :
    e.formula? = some formula ∧
      ((∃ before t after, ts = before ++ t :: after ∧ e.position? = some t.position ∧ Viable before ∧
          ¬ Viable (before ++ [t])) ∨
        (e.position? = some formula.toList.length ∧ Viable ts ∧ ¬ WellFormed ts)) := by
  have hverdict : Shape.initial.verdict limits formula ts = .error e := by
    rw [parse, hts] at h
    rw [← map_parseTokens]
    exact congrArg (Except.map _) h
  rcases Shape.verdict_eq_error hverdict hkind with
    ⟨before, t, after, last, rfl, hlast, ht, hrefuses⟩ | ⟨last, hlast, hne, hrefuses⟩
  · refine ⟨hrefuses.formula, .inl ⟨before, t, after, rfl, hrefuses.position, viable_iff.2 ⟨last, hlast⟩, ?_⟩⟩
    rw [viable_iff, List.map_append, Shape.run_append, hlast]
    rintro ⟨shape, hshape⟩
    rw [Option.bind_some, List.map_singleton, Shape.run_cons, ht] at hshape
    cases hshape
  · refine ⟨hrefuses.formula, .inr ⟨hrefuses.position, viable_iff.2 ⟨last, hlast⟩, ?_⟩⟩
    rw [wellFormed_iff, hlast]
    exact fun h => hne (Option.some.inj h)

/-- A number stands where a bracket has to close, and an operand is missing at the end. -/
theorem parse_refused_at_number :
    (∃ before t after, tokens {} "2*(1 3)" = .ok (before ++ t :: after) ∧ t.position = 5 ∧ Viable before ∧
      ¬ Viable (before ++ [t])) ∧
    ∃ ts, tokens {} "-4/ " = .ok ts ∧ Viable ts ∧ ¬ WellFormed ts := by
  constructor
  · have hts : tokens {} "2*(1 3)" = .ok [⟨.number ⟨['2'], none⟩, 0⟩, ⟨.star, 1⟩, ⟨.openBracket, 2⟩,
        ⟨.number ⟨['1'], none⟩, 3⟩, ⟨.number ⟨['3'], none⟩, 5⟩, ⟨.closeBracket, 6⟩] := by
      decide +kernel
    have herror : parse {} "2*(1 3)" = .error (.missingBracket 5 "2*(1 3)") := by decide +kernel
    obtain ⟨-, ⟨before, t, after, hsplit, hposition, hstop⟩ | ⟨hposition, -⟩⟩ := parse_refused_at hts herror trivial
    · exact ⟨before, t, after, hsplit ▸ hts, (Option.some.inj hposition).symm, hstop⟩
    · exact absurd hposition (by decide)
  · have hts : tokens {} "-4/ " = .ok [⟨.minus, 0⟩, ⟨.number ⟨['4'], none⟩, 1⟩, ⟨.slash, 2⟩] := by decide +kernel
    have herror : parse {} "-4/ " = .error (.unexpectedEnd 4 "-4/ ") := by decide +kernel
    obtain ⟨-, ⟨before, t, after, hsplit, hposition, -⟩ | ⟨-, hstop⟩⟩ := parse_refused_at hts herror trivial
    · -- no token stands at the end
      have hmem : t ∈ before ++ t :: after := by simp
      rw [← hsplit] at hmem
      have hends : some 4 = some t.position := hposition
      simp at hmem
      rcases hmem with rfl | rfl | rfl <;> cases hends
    · exact ⟨_, hts, hstop⟩

end Stylesheet.Formula
