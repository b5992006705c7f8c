/-
Resolvers. A resolver resolves a table as it is when it is asked, any number of times, and counts its
passes from the first time on, those of a run that fails as well. What it gives is told by
`Resolved.ofTable`, but for the count.
-/
import Stylesheet.Procedure
import Stylesheet.Resolution.Resolved

namespace Stylesheet

structure Resolver where
  settings : Settings
  /-- The passes made so far, in all runs. -/
  passes : Nat := 0

namespace Resolver

/-- The resolver after some more passes. -/
def advance (resolver : Resolver) (n : Nat) : Resolver := { resolver with passes := resolver.passes + n }

@[simp] theorem advance_advance (resolver : Resolver) (m n : Nat) :
    (resolver.advance m).advance n = resolver.advance (m + n) := by
  unfold advance
  rw [Nat.add_assoc]

/-! ## One run -/

/-- Passes of a stage until one changes nothing; each is counted when it is over. -/
def untilStable (stage : Stage) (cs : List Constant) (states : States) : Procedure Resolver ResolutionError States :=
  match h : stage.pass cs states with
  | .error error => throw error
  | .ok (after, false) => do
    modify (·.advance 1)
    return after
  | .ok (after, true) => do
    modify (·.advance 1)
    have : Stage.distance after < Stage.distance states := (Stage.distance_pass h).2 rfl
    untilStable stage cs after
termination_by Stage.distance states

/-- All stages in turn. -/
def runStages (limits : Formula.Limits) (cs : List Constant) (states : States) :
    Procedure Resolver ResolutionError States := do
  let states ← untilStable .aliases cs states
  let states ← untilStable (.formulas limits) cs states
  let states ← untilStable (.lists limits) cs states
  untilStable .aliases cs states

/-- Resolves a table. The result tells the count. -/
def resolve (table : Table) : Procedure Resolver ResolutionError Resolved := do
  let settings := (← get).settings
  let states ← runStages settings.limits table.constants.values (States.initial table)
  Procedure.ofExcept (Resolved.conclude settings states (← get).passes)

end Resolver

end Stylesheet
