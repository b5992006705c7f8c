/-
Stages of resolution. A stage says what one constant becomes in view of the others; a pass applies
it to each constant in turn, every change being seen at once by those that follow. A constant only
ever comes closer to its value, so passes repeat until one changes nothing.
-/
import Stylesheet.Resolution.Basic
import Stylesheet.Resolution.Error

namespace Stylesheet

/-- What a constant becomes; nothing if it stays as it is. -/
abbrev Step := States → Constant → Resolution → Except ResolutionError (Option Resolution)

structure Stage where
  step : Step
  approaches : ∀ {states c old new},
    step states c old = .ok (some new) → new.distance < old.distance

namespace Stage

/-! ## One pass -/

/-- Applies a stage to some constants in turn, and tells whether any of them changed. -/
def pass (stage : Stage) : List Constant → States → Except ResolutionError (States × Bool)
  | [], states => .ok (states, false)
  | c :: rest, states =>
    match states.find? c.name with
    | none => pass stage rest states
    | some old =>
      match stage.step states c old with
      | .error error => .error error
      | .ok none => pass stage rest states
      | .ok (some new) =>
        (pass stage rest (states.insert c.name new)).map fun (states, _) => (states, true)

/-- The distances of all constants from their values, taken together. -/
def distance (states : States) : Nat := states.total Resolution.distance

theorem distance_pass {stage : Stage} {cs : List Constant} {states after : States}
    {changed : Bool} (h : stage.pass cs states = .ok (after, changed)) :
    distance after ≤ distance states ∧ (changed = true → distance after < distance states) := by
  induction cs generalizing states after changed with
  | nil =>
    simp only [pass, Except.ok.injEq, Prod.mk.injEq] at h
    obtain ⟨rfl, rfl⟩ := h
    simp
  | cons c rest ih =>
    simp only [pass] at h
    split at h
    · exact ih h
    · rename_i old hold
      split at h
      · cases h
      · exact ih h
      · rename_i new hnew
        cases hp : stage.pass rest (states.insert c.name new) with
        | error e => simp [hp, Except.map] at h
        | ok p =>
          obtain ⟨after', changed'⟩ := p
          simp only [hp, Except.map, Except.ok.injEq, Prod.mk.injEq] at h
          obtain ⟨rfl, rfl⟩ := h
          have := (ih hp).1
          have := NameMap.total_insert_lt hold (stage.approaches hnew)
          simp only [distance] at *
          omega

/-! ## Passes until nothing changes -/

/-- The states after the last pass, and the passes made. -/
def untilStable (stage : Stage) (cs : List Constant) (states : States) :
    Except ResolutionError (States × Nat) :=
  match h : stage.pass cs states with
  | .error error => .error error
  | .ok (after, false) => .ok (after, 1)
  | .ok (after, true) =>
    have : distance after < distance states := (distance_pass h).2 rfl
    (untilStable stage cs after).map fun (states, passes) => (states, passes + 1)
termination_by distance states

end Stage

end Stylesheet
