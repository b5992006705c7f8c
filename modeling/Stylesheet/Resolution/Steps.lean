/-
The three kinds of steps. An alias takes over the value of the constant it names, a formula is
evaluated, and a list has each of its references replaced by literal text.
-/
import Stylesheet.Resolution.Stage

namespace Stylesheet

open Formula (Bindings)

/-! ## Aliases -/

/-- The name that a reference consists of, if it is no larger formula. -/
def aliasTarget? : List Char → Option String
  | '@' :: rest => if Formula.isName rest then some (String.ofList rest) else none
  | _ => none

/-- A single value that names a resolved constant takes over its value. -/
def aliasStep : Step := fun states c old =>
  if old.isResolved || c.isComposite then .ok none
  else match (aliasTarget? c.rawValue.toList).bind states.find? with
    | some (.resolved value) => .ok (some (.resolved value))
    | _ => .ok none

/-! ## Formulas -/

/-- The first name in a formula that the table does not hold. -/
def unknownName? (states : States) (formula : String) : Option String :=
  (Formula.names formula).find? fun name => !states.contains name

/-- A single reference that waits is evaluated with these numbers. It goes on waiting while a constant
in it does, and has no value if the result is not a number. -/
def formulaStepOn (limits : Formula.Limits) (numbers : Bindings) : Step := fun states c old =>
  match old with
  | .pending rawValue =>
    if c.isComposite || !c.isReference then .ok none
    else
      let formula := String.ofList c.rawValue.toList.tail
      match unknownName? states formula with
      | some name => .error (.unknownConstant name c.name c.rawValue)
      | none =>
        match Formula.evaluate limits numbers formula with
        | .error cause => .error (.ofFormula (.formula c.name formula) cause)
        | .ok value =>
          if value.isNaN then
            if (states.waitingFor formula).isEmpty then .ok (some (.failed rawValue formula))
            else .ok none
          else
            let unit := states.inferUnit formula
            .ok (some (.resolved ⟨Quantity.write ⟨value, unit⟩, some value, unit⟩))
  | _ => .ok none

/-- A single reference that waits is evaluated with the numbers known of the other constants. -/
def formulaStep (limits : Formula.Limits) : Step := fun states => formulaStepOn limits states.knownNumbers states

/-- The numbers of resolved constants by name; what is not resolved is not a number yet. -/
def States.shadow (states : States) : NameMap Double :=
  (states.filterMap Resolution.number?).insertAll .nan
    ((states.entries.filter fun entry => !entry.2.isResolved).map Prod.fst)

/-- A pass over formulas with the numbers in a map, which the number of a constant enters as soon as it
is resolved. -/
def shadowPass (limits : Formula.Limits) : NameMap Double → List Constant → States →
    Except ResolutionError (States × Bool)
  | _, [], states => .ok (states, false)
  | shadow, c :: rest, states =>
    match states.find? c.name with
    | none => shadowPass limits shadow rest states
    | some old =>
      match formulaStepOn limits shadow.find? states c old with
      | .error error => .error error
      | .ok none => shadowPass limits shadow rest states
      | .ok (some new) =>
        let shadow := match new.number? with
          | some x => shadow.insert c.name x
          | none => shadow
        (shadowPass limits shadow rest (states.insert c.name new)).map fun (states, _) => (states, true)

/-! ## Lists -/

/-- The literal text of a word of a list. -/
def wordText (limits : Formula.Limits) (states : States) (c : Constant) (word : List Char) :
    Except ResolutionError String :=
  if isReference word then
    match states.literal limits (String.ofList word.tail) with
    | .ok text => .ok text
    | .error cause => .error (.ofFormula (.word c.name (String.ofList word) c.rawValue) cause)
  else .ok (String.ofList word)

/-- A list is resolved as soon as no constant in its references waits. -/
def listStep (limits : Formula.Limits) : Step := fun states c old =>
  if old.isResolved || !c.isComposite then .ok none
  else if c.references.any fun word => !(states.waitingFor (String.ofList word.tail)).isEmpty then
    .ok none
  else
    match c.words.mapM (wordText limits states c) with
    | .ok texts => .ok (some (.resolved ⟨" ".intercalate texts, none, none⟩))
    | .error error => .error error

/-! ## The stages -/

theorem distance_lt_of_aliasStep {states : States} {c : Constant} {old new : Resolution}
    (h : aliasStep states c old = .ok (some new)) : new.distance < old.distance := by
  simp only [aliasStep] at h
  split at h
  · cases h
  · rename_i hn
    simp only [Bool.or_eq_true, not_or, Bool.not_eq_true] at hn
    split at h
    · cases h
      exact Resolution.distance_pos_of_not_isResolved hn.1
    · cases h

theorem distance_lt_of_formulaStep {limits : Formula.Limits} {states : States} {c : Constant}
    {old new : Resolution} (h : formulaStep limits states c old = .ok (some new)) :
    new.distance < old.distance := by
  cases old with
  | resolved value => cases h
  | failed rawValue formula => cases h
  | pending rawValue =>
    suffices hn : new.distance ≤ 1 by
      simp only [Resolution.distance] at hn ⊢
      omega
    simp only [formulaStep, formulaStepOn] at h
    split at h
    · cases h
    · split at h
      · cases h
      · split at h
        · cases h
        · split at h
          · split at h
            · cases h
              exact Nat.le_refl 1
            · cases h
          · cases h
            exact Nat.zero_le 1

theorem distance_lt_of_listStep {limits : Formula.Limits} {states : States} {c : Constant}
    {old new : Resolution} (h : listStep limits states c old = .ok (some new)) :
    new.distance < old.distance := by
  simp only [listStep] at h
  split at h
  · cases h
  · rename_i hn
    simp only [Bool.or_eq_true, not_or, Bool.not_eq_true] at hn
    split at h
    · cases h
    · split at h
      · cases h
        exact Resolution.distance_pos_of_not_isResolved hn.1
      · cases h

namespace Stage

def aliases : Stage := ⟨aliasStep, distance_lt_of_aliasStep⟩

def formulas (limits : Formula.Limits) : Stage :=
  ⟨formulaStep limits, distance_lt_of_formulaStep⟩

def lists (limits : Formula.Limits) : Stage := ⟨listStep limits, distance_lt_of_listStep⟩

end Stage

end Stylesheet
