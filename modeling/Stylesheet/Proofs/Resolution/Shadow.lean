/-
The map of numbers that a pass over formulas keeps. A constant that is resolved on the way enters the map, one that
failed was not-a-number there from the start; so the map has at each step the numbers known of the states. A pass
that looks names up in the map is therefore the pass of the stage, which asks the states
(`Stage.pass_formulas_eq_shadowPass`).
-/
import Stylesheet.Proofs.Resolution.Steps

namespace Stylesheet

namespace States

/-- The map has the numbers known of the states. -/
def HasShadow (s : States) (shadow : NameMap Double) : Prop := ∀ name, shadow.find? name = s.knownNumbers name

theorem mem_unresolved_iff (s : States) (name : String) :
    name ∈ (s.entries.filter fun entry => !entry.2.isResolved).map Prod.fst ↔
      ∃ r, s.find? name = some r ∧ r.isResolved = false := by
  simp [NameMap.find?_eq_some_iff]

theorem hasShadow_shadow (s : States) : s.HasShadow s.shadow := by
  intro name
  rw [shadow, NameMap.find?_insertAll, NameMap.find?_filterMap, knownNumbers]
  simp only [mem_unresolved_iff]
  cases hf : s.find? name with
  | none => simp
  | some r => cases r <;> simp [Resolution.isResolved, Resolution.number?]

variable {s : States} {shadow : NameMap Double} {limits : Formula.Limits} {c : Constant} {old new : Resolution}

/-- The step lemma: with the number of the constant that a formula has resolved, the map is that of the states. -/
theorem HasShadow.insert (h : s.HasShadow shadow) (hf : s.find? c.name = some old)
    (hs : formulaStep limits s c old = .ok (some new)) : HasShadow (s.insert c.name new) (match new.number? with
      | some x => shadow.insert c.name x
      | none => shadow) := by
  obtain ⟨rawValue, x, rfl, -, -, -, -, rfl⟩ := formulaStep_some hs
  intro name
  rw [knownNumbers, NameMap.find?_insert]
  by_cases hname : name = c.name
  · subst hname
    cases hx : x.isNaN with
    | true =>
      -- the constant waited, and what waits is not-a-number in the map
      simp [formulaOutcome, hx, Resolution.number?, h c.name, knownNumbers, hf]
    | false => simp [formulaOutcome, hx, Resolution.number?]
  · rw [if_neg hname, ← knownNumbers.eq_def s name, ← h name]
    split
    · exact NameMap.find?_insert_of_ne _ hname _
    · rfl

end States

namespace Stage

theorem pass_formulas_eq (limits : Formula.Limits) (cs : List Constant) {states : States} {shadow : NameMap Double}
    (h : states.HasShadow shadow) : (formulas limits).pass cs states = shadowPass limits shadow cs states := by
  induction cs generalizing states shadow with
  | nil => rfl
  | cons c rest ih =>
    have hstep : formulaStepOn limits shadow.find? states = formulaStep limits states := by
      rw [formulaStep, funext h]
    rw [pass, shadowPass, hstep, step_formulas]
    cases hf : states.find? c.name with
    | none => exact ih h
    | some old =>
      dsimp only
      cases hs : formulaStep limits states c old with
      | error error => rfl
      | ok outcome =>
        cases outcome with
        | none => exact ih h
        | some new => exact congrArg (Except.map fun p => (p.1, true)) (ih (h.insert hf hs))

/-- A pass over formulas may keep the numbers in a map of its own, made when it begins. -/
theorem pass_formulas_eq_shadowPass (limits : Formula.Limits) (cs : List Constant) (states : States) :
    (formulas limits).pass cs states = shadowPass limits states.shadow cs states :=
  pass_formulas_eq limits cs states.hasShadow_shadow

end Stage

end Stylesheet
